import PegCompiler.Defect
import PegCompiler.Grammar.Consumption

/-!
# Left recursion

A reference stands at a left position when the rule it names may be entered before anything is
consumed. A chain of such references that comes back to a rule on it would descend forever.
-/

namespace PegCompiler

namespace Expr

mutual
/-- The references at left positions, in order. In a sequence, nothing behind an element that
always consumes is at one. -/
def leftRefs (rules : List Rule) : Expr → List RuleRef
  | choice _ es => leftRefsChoice rules es
  | sequence _ es => leftRefsSequence rules es
  | apply _ _ e => leftRefs rules e
  | leaf t (.ruleRef name) => [⟨name, t.location⟩]
  | leaf _ _ => []

def leftRefsChoice (rules : List Rule) : List Expr → List RuleRef
  | [] => []
  | e :: es => leftRefs rules e ++ leftRefsChoice rules es

def leftRefsSequence (rules : List Rule) : List Expr → List RuleRef
  | [] => []
  | e :: es =>
      leftRefs rules e ++ if e.consumes rules then [] else leftRefsSequence rules es
end

end Expr

def rulesOff (path : List String) (rules : List Rule) : List Rule :=
  rules.filter (·.name ∉ path)

theorem length_rulesOff_lt {rules : List Rule} {path : List String} {name : String} {r : Rule}
    (h : findRule? rules name = some r) (hp : name ∉ path) :
    (rulesOff (path ++ [name]) rules).length < (rulesOff path rules).length := by
  have hn : r.name = name := name_of_findRule? h
  have hsub : rulesOff (path ++ [name]) rules = (rulesOff path rules).filter (·.name ≠ name) := by
    simp [rulesOff, List.filter_filter, and_comm]
  rw [hsub]
  refine List.length_filter_lt_length_iff_exists.mpr ⟨r, ?_, by simp [hn]⟩
  simpa [rulesOff, hn, hp] using mem_of_findRule? h

/-- Follows references at left positions depth first. The rules on `path` have been entered one
from another through `steps`. -/
def leftRecursionFrom? (rules : List Rule) (path : List String) (steps refs : List RuleRef) :
    Option Defect :=
  refs.findSome? fun ref =>
    match h : findRule? rules ref.name with
    | none => none
    | some r =>
        if hp : ref.name ∈ path then
          some (.leftRecursion (path ++ [ref.name]) r.nameLocation (steps ++ [ref]))
        else
          have := length_rulesOff_lt h hp
          leftRecursionFrom? rules (path ++ [ref.name]) (steps ++ [ref]) (r.body.leftRefs rules)
termination_by (rulesOff path rules).length

def Grammar.leftRecursion? (g : Grammar) : Option Defect :=
  g.rules.findSome? fun r => leftRecursionFrom? g.rules [r.name] [] (r.body.leftRefs g.rules)

end PegCompiler
