import PegCompiler.Grammar.Basic

/-!
# Consumption

Whether an expression advances the input whenever it succeeds. References are followed into the
rules they name, each rule at most once along a chain of references: a rule that is met again while
it is being examined counts for nothing.
-/

namespace PegCompiler

def Leaf.consumesGiven (known : String → Bool) : Leaf → Bool
  | semanticAnd _ => false
  | semanticNot _ => false
  | ruleRef name => known name
  | literal value _ => !value.isEmpty
  | charClass _ => true
  | any => true

/-- Whether success under the operator is possible without success of the body, or gives back what
the body consumed. -/
def Operator.forgetsBody : Operator → Bool
  | simpleAnd => true
  | simpleNot => true
  | optional => true
  | zeroOrMore => true
  | _ => false

namespace Expr

mutual
def consumesGiven (known : String → Bool) : Expr → Bool
  | choice _ es => allConsumeGiven known es
  | sequence _ es => anyConsumesGiven known es
  | apply _ op e => !op.forgetsBody && consumesGiven known e
  | leaf _ l => l.consumesGiven known

def allConsumeGiven (known : String → Bool) : List Expr → Bool
  | [] => true
  | e :: es => consumesGiven known e && allConsumeGiven known es

def anyConsumesGiven (known : String → Bool) : List Expr → Bool
  | [] => false
  | e :: es => consumesGiven known e || anyConsumesGiven known es
end

end Expr

def dropRule (name : String) (rules : List Rule) : List Rule :=
  rules.filter (·.name ≠ name)

theorem length_dropRule_lt {name : String} {rules : List Rule} {r : Rule}
    (h : findRule? rules name = some r) : (dropRule name rules).length < rules.length :=
  List.length_filter_lt_length_iff_exists.mpr
    ⟨r, mem_of_findRule? h, by simp [name_of_findRule? h]⟩

/-- Whether the first rule of that name always consumes. A rule is left out of the rules below it,
so that it counts for nothing there. -/
def ruleConsumes (rules : List Rule) (name : String) : Bool :=
  match h : findRule? rules name with
  | none => false
  | some r => r.body.consumesGiven fun next =>
      have := length_dropRule_lt h
      ruleConsumes (dropRule name rules) next
termination_by rules.length

/-- Whether `e` advances the input whenever it succeeds. -/
def Expr.consumes (rules : List Rule) (e : Expr) : Bool :=
  e.consumesGiven (ruleConsumes rules)

end PegCompiler
