/-!
# Faults in bytecode

What can be wrong with the bytecode of a rule. Positions count words from the start of the rule,
slots count from the bottom of its stack.
-/

namespace PegCompiler

inductive Fault where
  /-- The operands of an instruction go past the end of its block. -/
  | truncated (position : Nat)
  | unknownOpcode (word : UInt32) (position : Nat)
  | missingRule (index : UInt32)
  | longBranches (position : Nat)
  | longLoop (position : Nat)
  | underflow (slot : Int)
  /-- The result is asked for and no slot was ever used. -/
  | noResult
  /-- The branches of a condition leave different tops. -/
  | unevenBranches (before afterThen afterElse : Int) (position : Nat)
  | unevenLoop (before after : Int) (position : Nat)
  /-- The rule ends with this top instead of a single value. -/
  | unevenRule (top : Int)
  deriving DecidableEq, Repr

def Fault.message : Fault → String
  | truncated position => s!"Bytecode is truncated at position {position}"
  | unknownOpcode word position => s!"Unknown opcode {word.toNat} at position {position}"
  | missingRule index => s!"Reference to a missing rule {index.toNat}"
  | longBranches position =>
      s!"Branches of the condition at position {position} overrun their block"
  | longLoop position => s!"Loop body at position {position} overruns its block"
  | underflow slot =>
      s!"The variable stack underflow: attempt to use a variable at index {slot}"
  | noResult => "The variable stack is empty, can't get the result"
  | unevenBranches before afterThen afterElse position =>
      "Branches of a condition can't move the stack pointer differently " ++
        s!"(before: {before}, after then: {afterThen}, after else: {afterElse}). " ++
        s!"Position: {position}"
  | unevenLoop before after position =>
      s!"Body of a loop can't move the stack pointer (before: {before}, after: {after}). " ++
        s!"Position: {position}"
  | unevenRule top =>
      "The rule must leave exactly one value on the stack, " ++
        s!"the stack pointer ends at {top}"

/-- The message for a fault in the bytecode of `rule`. -/
def Fault.messageIn (rule : String) (f : Fault) : String :=
  "Rule \"" ++ rule ++ "\": " ++ f.message

end PegCompiler
