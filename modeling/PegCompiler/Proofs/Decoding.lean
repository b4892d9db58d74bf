import PegCompiler.Bytecode.Decode

/-!
# Words of an instruction

To decode is to find the words of an instruction in front of all others. So the same instruction is
found in a block and in the code around that block.
-/

namespace PegCompiler

def Plain.opcode : Plain → Opcode
  | emptyString => .pushEmptyString
  | undefined => .pushUndefined
  | null => .pushNull
  | failed => .pushFailed
  | emptyArray => .pushEmptyArray
  | currPos => .pushCurrPos

namespace Test

def opcode : Test → Opcode
  | isTrue => .ifTrue
  | isFailed => .ifError
  | isNotFailed => .ifNotError
  | hasInput => .matchAny
  | hasLiteral _ => .matchString
  | hasLiteralIgnoringCase _ => .matchStringIc
  | hasClass _ => .matchCharClass

def operands : Test → List UInt32
  | hasLiteral i | hasLiteralIgnoringCase i | hasClass i => [i]
  | _ => []

end Test

namespace Instruction

def opcode : Instruction → Opcode
  | push value => value.opcode
  | pop => .pop
  | popCurrPos => .popCurrPos
  | popN _ => .popN
  | nip => .nip
  | append => .append
  | wrap _ => .wrap
  | text => .text
  | pluck _ _ => .pluck
  | branch test _ _ => test.opcode
  | loop _ => .whileNotError
  | acceptN _ => .acceptN
  | acceptString _ => .acceptString
  | fail _ => .fail
  | loadSavedPos _ => .loadSavedPos
  | updateSavedPos => .updateSavedPos
  | call _ _ _ => .call
  | rule _ => .rule
  | silentFailsOn => .silentFailsOn
  | silentFailsOff => .silentFailsOff

/-- The words behind the opcode. -/
def operands : Instruction → List UInt32
  | popN n | wrap n | acceptN n => [n]
  | acceptString i | fail i | rule i => [i]
  | loadSavedPos offset => [offset]
  | pluck n offsets => n :: UInt32.ofNat offsets.length :: offsets
  | call f n offsets => f :: n :: UInt32.ofNat offsets.length :: offsets
  | branch test yes no => test.operands ++ [UInt32.ofNat yes, UInt32.ofNat no]
  | loop body => [UInt32.ofNat body]
  | _ => []

/-- Whether words can hold the lengths in the instruction. -/
def Encodable : Instruction → Prop
  | pluck _ offsets => offsets.length < UInt32.size
  | call _ _ offsets => offsets.length < UInt32.size
  | branch _ yes no => yes < UInt32.size ∧ no < UInt32.size
  | loop body => body < UInt32.size
  | _ => True

theorem size_eq (i : Instruction) : i.size = i.operands.length + 1 := by
  cases i with
  | branch test yes no => cases test <;> rfl
  | pluck n offsets => simp only [size, operands, List.length_cons]; omega
  | call f n offsets => simp only [size, operands, List.length_cons]; omega
  | _ => rfl

theorem size_pos (i : Instruction) : 0 < i.size := by
  rw [size_eq]
  exact Nat.succ_pos _

section

variable {position : Nat} {w : UInt32} {rest left operands : List UInt32} {i : Instruction}

theorem withOffsets_append {k : UInt32} (offsets : List UInt32) (hk : k.toNat = offsets.length)
    (build : List UInt32 → Instruction) :
    withOffsets position k (offsets ++ left) build = .ok (build offsets, left) := by
  simp [withOffsets_eq_ok, hk]

/-- The operands of an instruction are read back. -/
theorem decode_words (hi : i.Encodable) :
    decode position i.opcode.value (i.operands ++ left) = .ok (i, left) := by
  cases i with
  | push value => cases value <;> rfl
  | branch test yes no =>
      have hyes : (UInt32.ofNat yes).toNat = yes := UInt32.toNat_ofNat_of_lt' hi.1
      have hno : (UInt32.ofNat no).toNat = no := UInt32.toNat_ofNat_of_lt' hi.2
      cases test <;> simp [opcode, Test.opcode, operands, Test.operands, decode, ofOpcode,
        Opcode.operandCount, binary, ternary, hyes, hno]
  | loop body =>
      have hbody : (UInt32.ofNat body).toNat = body := UInt32.toNat_ofNat_of_lt' hi
      simp [opcode, operands, decode, ofOpcode, Opcode.operandCount, unary, hbody]
  | pluck n offsets =>
      simp only [opcode, decode, Opcode.ofWord?_value]
      exact withOffsets_append offsets (UInt32.toNat_ofNat_of_lt' hi) _
  | call f n offsets =>
      simp only [opcode, decode, Opcode.ofWord?_value]
      exact withOffsets_append offsets (UInt32.toNat_ofNat_of_lt' hi) _
  | _ => rfl

theorem withOffsets_words {k : UInt32} {build : List UInt32 → Instruction}
    (h : withOffsets position k rest build = .ok (i, left)) :
    ∃ offsets, build offsets = i ∧ UInt32.ofNat offsets.length = k ∧
      offsets.length < UInt32.size ∧ rest = offsets ++ left := by
  obtain ⟨hk, rfl, rfl⟩ := withOffsets_eq_ok.mp h
  have hlen : (rest.take k.toNat).length = k.toNat := by
    rw [List.length_take, Nat.min_eq_left hk]
  refine ⟨_, rfl, ?_, ?_, (List.take_append_drop ..).symm⟩
  · rw [hlen, UInt32.ofNat_toNat]
  · rw [hlen]
    exact k.toNat_lt

theorem ofOpcode_words {op : Opcode} {fixed : List UInt32}
    (hfixed : fixed.length ≤ op.operandCount)
    (h : ofOpcode position op fixed rest = .ok (i, left)) :
    op = i.opcode ∧ fixed ++ rest = i.operands ++ left ∧ i.Encodable := by
  cases op
  case pluck =>
    obtain ⟨n, k, rfl, h⟩ := binary_eq_ok.mp h
    obtain ⟨offsets, rfl, rfl, hlen, rfl⟩ := withOffsets_words h
    exact ⟨rfl, rfl, hlen⟩
  case call =>
    obtain ⟨f, n, k, rfl, h⟩ := ternary_eq_ok.mp h
    obtain ⟨offsets, rfl, rfl, hlen, rfl⟩ := withOffsets_words h
    exact ⟨rfl, rfl, hlen⟩
  case popN | wrap | acceptN | acceptString | fail | loadSavedPos | rule =>
    obtain ⟨a, rfl, h⟩ := unary_eq_ok.mp h
    obtain ⟨rfl, rfl⟩ := Prod.mk.inj (Except.ok.inj h)
    exact ⟨rfl, rfl, trivial⟩
  case whileNotError =>
    obtain ⟨body, rfl, h⟩ := unary_eq_ok.mp h
    obtain ⟨rfl, rfl⟩ := Prod.mk.inj (Except.ok.inj h)
    exact ⟨rfl, by simp [operands], body.toNat_lt⟩
  case ifTrue | ifError | ifNotError | matchAny =>
    obtain ⟨yes, no, rfl, h⟩ := binary_eq_ok.mp h
    obtain ⟨rfl, rfl⟩ := Prod.mk.inj (Except.ok.inj h)
    exact ⟨rfl, by simp [operands, Test.operands], yes.toNat_lt, no.toNat_lt⟩
  case matchString | matchStringIc | matchCharClass =>
    obtain ⟨a, yes, no, rfl, h⟩ := ternary_eq_ok.mp h
    obtain ⟨rfl, rfl⟩ := Prod.mk.inj (Except.ok.inj h)
    exact ⟨rfl, by simp [operands, Test.operands], yes.toNat_lt, no.toNat_lt⟩
  all_goals
    obtain rfl := List.eq_nil_of_length_eq_zero (Nat.le_zero.mp hfixed)
    obtain ⟨rfl, rfl⟩ := Prod.mk.inj (Except.ok.inj h)
    exact ⟨rfl, rfl, trivial⟩

/-- What is decoded stands in front of all that is left over. -/
theorem words_of_decode (h : decode position w rest = .ok (i, left)) :
    w = i.opcode.value ∧ rest = i.operands ++ left ∧ i.Encodable := by
  unfold decode at h
  split at h
  · cases h
  · next op hop =>
      obtain ⟨rfl, hwords, hi⟩ := ofOpcode_words (List.length_take_le ..) h
      rw [List.take_append_drop] at hwords
      exact ⟨(Opcode.value_of_ofWord? hop).symm, hwords, hi⟩

/-- More words behind an instruction do not change it. -/
theorem decode_append (h : decode position w rest = .ok (i, left)) (position' : Nat)
    (more : List UInt32) : decode position' w (rest ++ more) = .ok (i, left ++ more) := by
  obtain ⟨rfl, rfl, hi⟩ := words_of_decode h
  rw [List.append_assoc]
  exact decode_words hi

theorem drop_size_of_decode (h : decode position w rest = .ok (i, left)) :
    (w :: rest).length = i.size + left.length ∧ (w :: rest).drop i.size = left := by
  obtain ⟨-, rfl, -⟩ := words_of_decode h
  rw [size_eq, List.drop_succ_cons, List.drop_left, List.length_cons, List.length_append]
  exact ⟨by omega, rfl⟩

end

end Instruction

end PegCompiler
