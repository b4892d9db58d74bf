import PegCompiler.Defect
import PegCompiler.Grammar.Traversal

/-!
# Rules and references

Every reference must name a rule, and no two rules may have one name. Each check goes through the
grammar and answers with the first defect it meets.
-/

namespace PegCompiler

namespace Expr

def ref? : Expr → Option RuleRef
  | leaf t (.ruleRef name) => some ⟨name, t.location⟩
  | _ => none

def refs (e : Expr) : List RuleRef :=
  e.nodes.filterMap ref?

end Expr

namespace RuleRef

def isDefined (rules : List Rule) (ref : RuleRef) : Bool :=
  (findRule? rules ref.name).isSome

def defect? (rules : List Rule) (ref : RuleRef) : Option Defect :=
  if ref.isDefined rules then none else some (.undefinedRule ref)

end RuleRef

def Expr.undefinedRule? (rules : List Rule) (e : Expr) : Option Defect :=
  e.ref?.bind (RuleRef.defect? rules)

/-- Notes each rule that it meets, unless one with that name was met before. -/
def Item.noteRule : Item → StateT (List Rule) (Except Defect) Unit
  | rule r => do
      match findRule? (← get) r.name with
      | some first => throw (.duplicateRule r.name r.nameLocation first.nameLocation)
      | none => modify (· ++ [r])
  | _ => pure ()

namespace Grammar

def undefinedRule? (g : Grammar) : Option Defect :=
  g.findInExprs? (Expr.undefinedRule? g.rules)

def duplicateRule? (g : Grammar) : Option Defect :=
  breakOf? ((g.visit Item.noteRule).run [])

end Grammar

end PegCompiler
