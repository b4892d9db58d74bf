/-!
# Opcodes

The instructions of the parsing machine. Each is written as one word, with its operands behind it.
-/

namespace PegCompiler

inductive Opcode where
  | pushEmptyString
  | pushUndefined
  | pushNull
  | pushFailed
  | pushEmptyArray
  | pushCurrPos
  | pop
  /-- Pops the top into the current position. -/
  | popCurrPos
  /-- `n` -/
  | popN
  /-- Removes the value below the top. -/
  | nip
  /-- Pops a value and adds it to the array below. -/
  | append
  /-- `n`, pops `n` values and pushes them as an array. -/
  | wrap
  /-- Replaces the position on top by the input consumed since. -/
  | text
  /-- `n, k, p1 .. pk`, pops `n` values and pushes those at the `k` offsets. -/
  | pluck
  /-- `thenLen, elseLen`, on a true top. -/
  | ifTrue
  /-- `thenLen, elseLen`, on a failed top. -/
  | ifError
  /-- `thenLen, elseLen`, on a top that is not failed. -/
  | ifNotError
  /-- `bodyLen`, while the top is not failed. -/
  | whileNotError
  /-- `thenLen, elseLen` -/
  | matchAny
  /-- `literal, thenLen, elseLen` -/
  | matchString
  /-- `literal, thenLen, elseLen` -/
  | matchStringIc
  /-- `class, thenLen, elseLen` -/
  | matchCharClass
  /-- `n`, consumes `n` characters and pushes them. -/
  | acceptN
  /-- `literal`, pushes the literal and consumes its length. -/
  | acceptString
  /-- `expectation`, pushes the failure and reports what was expected. -/
  | fail
  /-- `offset`, saves the position at the offset. -/
  | loadSavedPos
  | updateSavedPos
  /-- `function, n, k, p1 .. pk`, replaces `n` values by the result for the `k` arguments. -/
  | call
  /-- `rule` -/
  | rule
  | silentFailsOn
  | silentFailsOff
  deriving DecidableEq, Repr

namespace Opcode

def value : Opcode → UInt32
  | pushEmptyString => 35
  | pushUndefined => 1
  | pushNull => 2
  | pushFailed => 3
  | pushEmptyArray => 4
  | pushCurrPos => 5
  | pop => 6
  | popCurrPos => 7
  | popN => 8
  | nip => 9
  | append => 10
  | wrap => 11
  | text => 12
  | pluck => 36
  | ifTrue => 13
  | ifError => 14
  | ifNotError => 15
  | whileNotError => 16
  | matchAny => 17
  | matchString => 18
  | matchStringIc => 19
  | matchCharClass => 20
  | acceptN => 21
  | acceptString => 22
  | fail => 23
  | loadSavedPos => 24
  | updateSavedPos => 25
  | call => 26
  | rule => 27
  | silentFailsOn => 28
  | silentFailsOff => 29

def all : List Opcode :=
  [pushEmptyString, pushUndefined, pushNull, pushFailed, pushEmptyArray, pushCurrPos, pop,
    popCurrPos, popN, nip, append, wrap, text, pluck, ifTrue, ifError, ifNotError, whileNotError,
    matchAny, matchString, matchStringIc, matchCharClass, acceptN, acceptString, fail,
    loadSavedPos, updateSavedPos, call, rule, silentFailsOn, silentFailsOff]

def ofWord? (w : UInt32) : Option Opcode :=
  all.find? (·.value = w)

@[simp] theorem ofWord?_value (o : Opcode) : ofWord? o.value = some o := by
  cases o <;> rfl

theorem value_of_ofWord? {w : UInt32} {o : Opcode} (h : ofWord? w = some o) : o.value = w := by
  simpa using List.find?_some h

/-- The number of fixed operands; the offsets that `pluck` and `call` count are not fixed. -/
def operandCount : Opcode → Nat
  | popN | wrap | whileNotError | acceptN | acceptString | fail | loadSavedPos | rule => 1
  | ifTrue | ifError | ifNotError | matchAny | pluck => 2
  | matchString | matchStringIc | matchCharClass | call => 3
  | _ => 0

def name : Opcode → String
  | pushEmptyString => "PushEmptyString"
  | pushUndefined => "PushUndefined"
  | pushNull => "PushNull"
  | pushFailed => "PushFailed"
  | pushEmptyArray => "PushEmptyArray"
  | pushCurrPos => "PushCurrPos"
  | pop => "Pop"
  | popCurrPos => "PopCurrPos"
  | popN => "PopN"
  | nip => "Nip"
  | append => "Append"
  | wrap => "Wrap"
  | text => "Text"
  | pluck => "Pluck"
  | ifTrue => "If"
  | ifError => "IfError"
  | ifNotError => "IfNotError"
  | whileNotError => "WhileNotError"
  | matchAny => "MatchAny"
  | matchString => "MatchString"
  | matchStringIc => "MatchStringIc"
  | matchCharClass => "MatchCharClass"
  | acceptN => "AcceptN"
  | acceptString => "AcceptString"
  | fail => "Fail"
  | loadSavedPos => "LoadSavedPos"
  | updateSavedPos => "UpdateSavedPos"
  | call => "Call"
  | rule => "Rule"
  | silentFailsOn => "SilentFailsOn"
  | silentFailsOff => "SilentFailsOff"

end Opcode

end PegCompiler
