import PegCompiler.Defect
import PegCompiler.Grammar.Consumption
import PegCompiler.Grammar.Traversal

/-!
# Endless repetition

To repeat an expression that may succeed without consuming anything would never come to an end.
-/

namespace PegCompiler

def Operator.repetition? : Operator → Option Repetition
  | zeroOrMore => some .zeroOrMore
  | oneOrMore => some .oneOrMore
  | _ => none

def Expr.endlessRepetition? (rules : List Rule) : Expr → Option Defect
  | apply t op e =>
      match op.repetition? with
      | some r => if e.consumes rules then none else some (.endlessRepetition r t.location)
      | none => none
  | _ => none

def Grammar.endlessRepetition? (g : Grammar) : Option Defect :=
  g.findInExprs? (Expr.endlessRepetition? g.rules)

end PegCompiler
