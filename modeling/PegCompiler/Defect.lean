import PegCompiler.Bytecode.Fault
import PegCompiler.Report

/-!
# Defects of grammars

The reasons for which a grammar is refused, and the report on each.
-/

namespace PegCompiler

structure RuleRef where
  name : String
  location : Location
  deriving DecidableEq, Repr

inductive Repetition where
  | zeroOrMore
  | oneOrMore
  deriving DecidableEq, Repr

def Repetition.text : Repetition → String
  | .zeroOrMore => "Zero or more repetitions (`*`)"
  | .oneOrMore => "One or more repetitions (`+`)"

inductive Defect where
  | undefinedRule (ref : RuleRef)
  | duplicateRule (name : String) (location first : Location)
  | duplicateLabel (label : String) (location first : Location)
  | reservedLabel (label : String) (location : Location)
  /-- The rules entered one from another, by way of the references `steps`, until one of them is
  entered again; `location` is where that one is declared. -/
  | leftRecursion (rules : List String) (location : Location) (steps : List RuleRef)
  /-- The repeated expression may succeed without consuming anything. -/
  | endlessRepetition (op : Repetition) (location : Location)
  | pluckInAction (location action : Location)
  /-- The outcome of a rule does not settle. -/
  | unsettled (location : Location)
  | noBytecode (rule : String) (location : Location)
  | faulty (rule : String) (location : Location) (fault : Fault)
  deriving DecidableEq, Repr

namespace Defect

/-- A note for each step of a left recursion, counted from `i`. -/
def stepNotes (i : Nat) : List RuleRef → List Note
  | [] => []
  | [ref] => [⟨s!"Step {i}: call itself without input consumption - left recursion", ref.location⟩]
  | ref :: refs =>
      ⟨s!"Step {i}: call of the rule " ++ "\"" ++ ref.name ++ "\" without input consumption",
        ref.location⟩ :: stepNotes (i + 1) refs

def report : Defect → Report
  | undefinedRule ref => ⟨"Rule \"" ++ ref.name ++ "\" is not defined", ref.location, []⟩
  | duplicateRule name location first =>
      ⟨"Rule \"" ++ name ++ "\" is already defined", location,
        [⟨"Original rule location", first⟩]⟩
  | duplicateLabel label location first =>
      ⟨"Label \"" ++ label ++ "\" is already defined", location,
        [⟨"Original label location", first⟩]⟩
  | reservedLabel label location =>
      ⟨"Label can't be a reserved word \"" ++ label ++ "\"", location, []⟩
  | leftRecursion rules location steps =>
      ⟨"Possible infinite loop when parsing (left recursion: " ++ " -> ".intercalate rules ++ ")",
        location, stepNotes 1 steps⟩
  | endlessRepetition op location =>
      ⟨"Parser would loop infinitely on some inputs: " ++ op.text ++
        " of a pattern that may not consume any input", location, []⟩
  | pluckInAction location action =>
      ⟨"\"@\" cannot be used with an action block", location,
        [⟨"Action block location", action⟩]⟩
  | unsettled location =>
      ⟨"Infinity cycle detected when trying to evaluate node match result", location, []⟩
  | noBytecode rule location => ⟨"Rule \"" ++ rule ++ "\" has no bytecode", location, []⟩
  | faulty rule location fault => ⟨fault.messageIn rule, location, []⟩

end Defect

end PegCompiler
