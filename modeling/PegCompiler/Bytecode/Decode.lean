import PegCompiler.Bytecode.Fault
import PegCompiler.Bytecode.Opcode

/-!
# Decoding

The first words of a block are read as an instruction with its operands. The words behind it are
left over.
-/

namespace PegCompiler

inductive Test where
  | isTrue
  | isFailed
  | isNotFailed
  | hasInput
  | hasLiteral (index : UInt32)
  | hasLiteralIgnoringCase (index : UInt32)
  | hasClass (index : UInt32)
  deriving DecidableEq, Repr

inductive Plain where
  | emptyString
  | undefined
  | null
  | failed
  | emptyArray
  | currPos
  deriving DecidableEq, Repr

/-- An instruction in front of the words that follow it. -/
inductive Instruction where
  | push (value : Plain)
  | pop
  | popCurrPos
  | popN (n : UInt32)
  | nip
  | append
  | wrap (n : UInt32)
  | text
  | pluck (n : UInt32) (offsets : List UInt32)
  | branch (test : Test) (yes no : Nat)
  | loop (body : Nat)
  | acceptN (n : UInt32)
  | acceptString (index : UInt32)
  | fail (index : UInt32)
  | loadSavedPos (offset : UInt32)
  | updateSavedPos
  | call (function n : UInt32) (offsets : List UInt32)
  | rule (index : UInt32)
  | silentFailsOn
  | silentFailsOff
  deriving DecidableEq, Repr

namespace Instruction

/-- The number of words that the instruction takes, without the blocks that belong to it. -/
def size : Instruction → Nat
  | push _ | pop | popCurrPos | nip | append | text | updateSavedPos | silentFailsOn
  | silentFailsOff => 1
  | popN _ | wrap _ | loop _ | acceptN _ | acceptString _ | fail _ | loadSavedPos _ | rule _ => 2
  | branch test _ _ => match test with
      | .hasLiteral _ | .hasLiteralIgnoringCase _ | .hasClass _ => 4
      | _ => 3
  | pluck _ offsets => 3 + offsets.length
  | call _ _ offsets => 4 + offsets.length

section

variable {α : Type}

def unary (position : Nat) (operands : List UInt32) (build : UInt32 → Except Fault α) :
    Except Fault α :=
  match operands with
  | [a] => build a
  | _ => .error (.truncated position)

def binary (position : Nat) (operands : List UInt32) (build : UInt32 → UInt32 → Except Fault α) :
    Except Fault α :=
  match operands with
  | [a, b] => build a b
  | _ => .error (.truncated position)

def ternary (position : Nat) (operands : List UInt32)
    (build : UInt32 → UInt32 → UInt32 → Except Fault α) : Except Fault α :=
  match operands with
  | [a, b, c] => build a b c
  | _ => .error (.truncated position)

variable {position : Nat} {operands : List UInt32} {x : α}

theorem unary_eq_ok {build : UInt32 → Except Fault α} :
    unary position operands build = .ok x ↔ ∃ a, operands = [a] ∧ build a = .ok x := by
  rcases operands with _ | ⟨a, _ | ⟨b, _⟩⟩ <;> simp [unary]

theorem binary_eq_ok {build : UInt32 → UInt32 → Except Fault α} :
    binary position operands build = .ok x ↔ ∃ a b, operands = [a, b] ∧ build a b = .ok x := by
  rcases operands with _ | ⟨a, _ | ⟨b, _ | ⟨c, _⟩⟩⟩ <;> simp [binary, and_assoc]

theorem ternary_eq_ok {build : UInt32 → UInt32 → UInt32 → Except Fault α} :
    ternary position operands build = .ok x ↔
      ∃ a b c, operands = [a, b, c] ∧ build a b c = .ok x := by
  rcases operands with _ | ⟨a, _ | ⟨b, _ | ⟨c, _ | ⟨d, _⟩⟩⟩⟩ <;> simp [ternary, and_assoc]

end

/-- The first `k` of `rest` as offsets for `build`. -/
def withOffsets (position : Nat) (k : UInt32) (rest : List UInt32)
    (build : List UInt32 → Instruction) : Except Fault (Instruction × List UInt32) :=
  if rest.length < k.toNat then .error (.truncated position)
  else .ok (build (rest.take k.toNat), rest.drop k.toNat)

theorem withOffsets_eq_ok {position : Nat} {k : UInt32} {rest left : List UInt32}
    {build : List UInt32 → Instruction} {i : Instruction} :
    withOffsets position k rest build = .ok (i, left) ↔
      k.toNat ≤ rest.length ∧ build (rest.take k.toNat) = i ∧ rest.drop k.toNat = left := by
  by_cases h : rest.length < k.toNat
  · simp [withOffsets, h, Nat.not_le.mpr h]
  · simp [withOffsets, h, Nat.le_of_not_lt h]

/-- The instruction with the fixed operands `operands`. The offsets of a variable number are the
first ones of `rest`. -/
def ofOpcode (position : Nat) (op : Opcode) (operands rest : List UInt32) :
    Except Fault (Instruction × List UInt32) :=
  match op with
  | .pushEmptyString => .ok (push .emptyString, rest)
  | .pushUndefined => .ok (push .undefined, rest)
  | .pushNull => .ok (push .null, rest)
  | .pushFailed => .ok (push .failed, rest)
  | .pushEmptyArray => .ok (push .emptyArray, rest)
  | .pushCurrPos => .ok (push .currPos, rest)
  | .pop => .ok (pop, rest)
  | .popCurrPos => .ok (popCurrPos, rest)
  | .popN => unary position operands fun n => .ok (popN n, rest)
  | .nip => .ok (nip, rest)
  | .append => .ok (append, rest)
  | .wrap => unary position operands fun n => .ok (wrap n, rest)
  | .text => .ok (text, rest)
  | .pluck => binary position operands fun n k => withOffsets (position + 2) k rest (pluck n)
  | .ifTrue => binary position operands fun yes no =>
      .ok (branch .isTrue yes.toNat no.toNat, rest)
  | .ifError => binary position operands fun yes no =>
      .ok (branch .isFailed yes.toNat no.toNat, rest)
  | .ifNotError => binary position operands fun yes no =>
      .ok (branch .isNotFailed yes.toNat no.toNat, rest)
  | .whileNotError => unary position operands fun body => .ok (loop body.toNat, rest)
  | .matchAny => binary position operands fun yes no =>
      .ok (branch .hasInput yes.toNat no.toNat, rest)
  | .matchString => ternary position operands fun i yes no =>
      .ok (branch (.hasLiteral i) yes.toNat no.toNat, rest)
  | .matchStringIc => ternary position operands fun i yes no =>
      .ok (branch (.hasLiteralIgnoringCase i) yes.toNat no.toNat, rest)
  | .matchCharClass => ternary position operands fun i yes no =>
      .ok (branch (.hasClass i) yes.toNat no.toNat, rest)
  | .acceptN => unary position operands fun n => .ok (acceptN n, rest)
  | .acceptString => unary position operands fun i => .ok (acceptString i, rest)
  | .fail => unary position operands fun i => .ok (fail i, rest)
  | .loadSavedPos => unary position operands fun offset => .ok (loadSavedPos offset, rest)
  | .updateSavedPos => .ok (updateSavedPos, rest)
  | .call => ternary position operands fun f n k =>
      withOffsets (position + 3) k rest (call f n)
  | .rule => unary position operands fun i => .ok (rule i, rest)
  | .silentFailsOn => .ok (silentFailsOn, rest)
  | .silentFailsOff => .ok (silentFailsOff, rest)

/-- The instruction that a block at `position` begins with: the word `w`, then `rest`. -/
def decode (position : Nat) (w : UInt32) (rest : List UInt32) :
    Except Fault (Instruction × List UInt32) :=
  match Opcode.ofWord? w with
  | none => .error (.unknownOpcode w position)
  | some op => ofOpcode position op (rest.take op.operandCount) (rest.drop op.operandCount)

theorem length_of_ofOpcode {position : Nat} {op : Opcode} {operands rest left : List UInt32}
    {i : Instruction} (h : ofOpcode position op operands rest = .ok (i, left)) :
    left.length ≤ rest.length := by
  cases op
  case pluck =>
    obtain ⟨n, k, -, h⟩ := binary_eq_ok.mp h
    obtain ⟨-, -, rfl⟩ := withOffsets_eq_ok.mp h
    simp
  case call =>
    obtain ⟨f, n, k, -, h⟩ := ternary_eq_ok.mp h
    obtain ⟨-, -, rfl⟩ := withOffsets_eq_ok.mp h
    simp
  all_goals
    simp only [ofOpcode, unary_eq_ok, binary_eq_ok, ternary_eq_ok, Except.ok.injEq,
      Prod.mk.injEq] at h
    grind

theorem length_of_decode {position : Nat} {w : UInt32} {rest left : List UInt32}
    {i : Instruction} (h : decode position w rest = .ok (i, left)) :
    left.length ≤ rest.length := by
  unfold decode at h
  split at h
  · cases h
  · exact Nat.le_trans (length_of_ofOpcode h) (List.drop_sublist ..).length_le

end Instruction

end PegCompiler
