import PegCompiler.Proofs.Blocks
import PegCompiler.Proofs.Settling
import PegCompiler.Proofs.Symbols

/-!
# Symbolic code and its words

Assembly writes an instruction as words that decode to it again, as long as every number fits into a
word and every constant is in its table. Blocks are found again by their lengths, and the code of a
rule by the index of its name.
-/

namespace PegCompiler

/-- Whether a word can hold the number that the operand stands for. An offset wraps around. -/
def Operand.Fits (c : Constants) (names : List String) : Operand → Prop
  | count n => n < UInt32.size
  | offset _ => True
  | symbol s => s.index c names < UInt32.size

instance decidableFits (c : Constants) (names : List String) (o : Operand) :
    Decidable (o.Fits c names) :=
  match o with
  | .count n => inferInstanceAs (Decidable (n < UInt32.size))
  | .offset _ => .isTrue trivial
  | .symbol s => inferInstanceAs (Decidable (s.index c names < UInt32.size))

/-- Whether the operand is read back as what it stands for. -/
structure Operand.Readable (c : Constants) (names : List String) (o : Operand) : Prop where
  fits : o.Fits c names
  known : ∀ s, o = .symbol s → s.Known c names

section Decoding

variable {c : Constants} {names : List String} (position : Nat) (rest : List UInt32)

namespace Operand

theorem toNat_word_count {n : Nat} (h : (count n).Fits c names) :
    ((count n).word c names).toNat = n :=
  UInt32.toNat_ofNat_of_lt' h

theorem toNat_word_symbol {s : Symbol} (h : (symbol s).Fits c names) :
    ((symbol s).word c names).toNat = s.index c names :=
  UInt32.toNat_ofNat_of_lt' h

theorem mapM_offset?_words {operands : List Operand} {offsets : List Nat}
    (h : operands.mapM offset? = some offsets) :
    (operands.map (word c names)).map UInt32.toNat = offsets := by
  induction operands generalizing offsets with
  | nil =>
      obtain rfl : [] = offsets := Option.some.inj h
      rfl
  | cons o os ih =>
      rw [List.mapM_cons] at h
      obtain ⟨k, hk, h⟩ := Option.bind_eq_some_iff.mp h
      obtain ⟨ks, hks, h⟩ := Option.bind_eq_some_iff.mp h
      obtain rfl := Option.some.inj h
      rw [List.map_cons, List.map_cons, ih hks]
      cases o with
      | offset d =>
          obtain rfl := Option.some.inj hk
          rfl
      | count n => cases hk
      | symbol s => cases hk

theorem get?_literal {value : String} (h : (symbol (.literal value)).Readable c names) :
    c.literals.get? ((symbol (.literal value)).word c names).toNat = some value := by
  rw [toNat_word_symbol h.fits]
  exact Pool.get?_index (h.known _ rfl)

theorem get?_charClass {set : CharClass} (h : (symbol (.charClass set)).Readable c names) :
    c.classes.get? ((symbol (.charClass set)).word c names).toNat = some set := by
  rw [toNat_word_symbol h.fits]
  exact Pool.get?_index (h.known _ rfl)

theorem get?_expectation {e : Expectation} (h : (symbol (.expectation e)).Readable c names) :
    c.expectations.get? ((symbol (.expectation e)).word c names).toNat = some e := by
  rw [toNat_word_symbol h.fits]
  exact Pool.get?_index (h.known _ rfl)

theorem get?_function {f : HostFunction} (h : (symbol (.function f)).Readable c names) :
    c.functions.get? ((symbol (.function f)).word c names).toNat = some f := by
  rw [toNat_word_symbol h.fits]
  exact Pool.get?_index (h.known _ rfl)

theorem withOffsets_words {operands : List Operand} (h : (count operands.length).Fits c names)
    (build : List UInt32 → Instruction) :
    Instruction.withOffsets position ((count operands.length).word c names)
      (operands.map (word c names) ++ rest) build =
        .ok (build (operands.map (word c names)), rest) := by
  rw [Instruction.withOffsets_eq_ok, toNat_word_count h]
  simp

end Operand

open Operand in
/-- The words of an instruction without blocks decode to it. -/
theorem decode_op {code : Opcode} {operands : List Operand} {effect : Effect}
    (heffect : Effect.ofOp? code operands = some effect)
    (hreadable : ∀ o ∈ operands, o.Readable c names) :
    ∃ i, Instruction.decode position code.value (operands.map (Operand.word c names) ++ rest) =
      .ok (i, rest) ∧ i.effect? c = some effect := by
  unfold Effect.ofOp? at heffect
  split at heffect <;> simp only [Instruction.decode, Opcode.ofWord?_value]
  all_goals try (obtain rfl := Option.some.inj heffect; exact ⟨_, rfl, rfl⟩)
  -- counts
  case h_9 n | h_12 n | h_15 n | h_18 n =>
    obtain rfl := Option.some.inj heffect
    have hn := toNat_word_count (hreadable _ (List.mem_singleton_self _)).fits
    exact ⟨_, rfl, by rw [Instruction.effect?, hn]⟩
  -- constants
  case h_16 value =>
    obtain rfl := Option.some.inj heffect
    have hvalue := get?_literal (hreadable _ (List.mem_singleton_self _))
    exact ⟨_, rfl, by rw [Instruction.effect?, hvalue, Option.map_some]⟩
  case h_17 e =>
    obtain rfl := Option.some.inj heffect
    have he := get?_expectation (hreadable _ (List.mem_singleton_self _))
    exact ⟨_, rfl, by rw [Instruction.effect?, he, Option.map_some]⟩
  -- offsets
  case h_14 n k offsets =>
    obtain ⟨rfl, ks, hks, rfl⟩ : k = offsets.length ∧ ∃ ks, offsets.mapM offset? = some ks ∧
        Effect.pluck n ks = effect := by
      split at heffect
      · next hk => exact ⟨hk, Option.map_eq_some_iff.mp heffect⟩
      · cases heffect
    have hn := toNat_word_count (hreadable _ (List.mem_cons_self ..)).fits
    exact ⟨_, withOffsets_words _ _ (hreadable (.count offsets.length) (by simp)).fits _,
      by rw [Instruction.effect?, hn, mapM_offset?_words hks]⟩
  case h_20 f n k offsets =>
    obtain ⟨rfl, ks, hks, rfl⟩ : k = offsets.length ∧ ∃ ks, offsets.mapM offset? = some ks ∧
        Effect.call f n ks = effect := by
      split at heffect
      · next hk => exact ⟨hk, Option.map_eq_some_iff.mp heffect⟩
      · cases heffect
    have hf := get?_function (hreadable _ (List.mem_cons_self ..))
    have hn := toNat_word_count (hreadable (.count n) (by simp)).fits
    exact ⟨_, withOffsets_words _ _ (hreadable (.count offsets.length) (by simp)).fits _,
      by rw [Instruction.effect?, hf, hn, mapM_offset?_words hks, Option.map_some]⟩
  case h_23 => cases heffect

open Operand in
/-- The words of a branch decode to it, with the lengths of its blocks. -/
theorem decode_branch {test : Opcode} {operands : List Operand} {condition : Condition}
    {yes no : Nat} (hcondition : Condition.ofTest? test operands = some condition)
    (hreadable : ∀ o ∈ operands, o.Readable c names) (hyes : yes < UInt32.size)
    (hno : no < UInt32.size) :
    ∃ t, Instruction.decode position test.value
      (operands.map (Operand.word c names) ++ [UInt32.ofNat yes, UInt32.ofNat no] ++ rest) =
        .ok (.branch t yes no, rest) ∧ t.condition? c = some condition := by
  have hdecode : ∃ t, Instruction.decode position test.value
      (operands.map (Operand.word c names) ++ [UInt32.ofNat yes, UInt32.ofNat no] ++ rest) =
        .ok (.branch t (UInt32.ofNat yes).toNat (UInt32.ofNat no).toNat, rest) ∧
      t.condition? c = some condition := by
    unfold Condition.ofTest? at hcondition
    split at hcondition <;> simp only [Instruction.decode, Opcode.ofWord?_value]
    all_goals try (obtain rfl := Option.some.inj hcondition; exact ⟨_, rfl, rfl⟩)
    case h_5 value | h_6 value =>
      obtain rfl := Option.some.inj hcondition
      have hvalue := get?_literal (hreadable _ (List.mem_singleton_self _))
      exact ⟨_, rfl, by rw [Test.condition?, hvalue, Option.map_some]⟩
    case h_7 set =>
      obtain rfl := Option.some.inj hcondition
      have hset := get?_charClass (hreadable _ (List.mem_singleton_self _))
      exact ⟨_, rfl, by rw [Test.condition?, hset, Option.map_some]⟩
    case h_8 => cases hcondition
  rwa [UInt32.toNat_ofNat_of_lt' hyes, UInt32.toNat_ofNat_of_lt' hno] at hdecode

theorem decode_loop {body : Nat} (hbody : body < UInt32.size) :
    Instruction.decode position Opcode.whileNotError.value (UInt32.ofNat body :: rest) =
      .ok (.loop body, rest) := by
  have hdecode : Instruction.decode position Opcode.whileNotError.value
      (UInt32.ofNat body :: rest) = .ok (.loop (UInt32.ofNat body).toNat, rest) := rfl
  rwa [UInt32.toNat_ofNat_of_lt' hbody] at hdecode

theorem decode_rule (w : UInt32) :
    Instruction.decode position Opcode.rule.value (w :: rest) = .ok (.rule w, rest) :=
  rfl

end Decoding

namespace Instr

/-- Whether code is read back from its words as it is. -/
structure Readable (c : Constants) (names : List String) (code : List Instr) : Prop where
  length_lt : (listWords c names code).length < UInt32.size
  operands : ∀ o ∈ listOperands code, o.Readable c names

namespace Readable

variable {c : Constants} {names : List String} {i : Instr} {rest : List Instr}

theorem tail (h : Readable c names (i :: rest)) : Readable c names rest := by
  refine ⟨Nat.lt_of_le_of_lt ?_ h.length_lt, fun o ho => h.operands o ?_⟩
  · simp [listWords]
  · exact List.mem_append_right _ ho

theorem op {code : Opcode} {os : List Operand} (h : Readable c names (.op code os :: rest)) :
    ∀ o ∈ os, o.Readable c names :=
  fun o ho => h.operands o (List.mem_append_left _ ho)

theorem yes {test : Opcode} {os : List Operand} {yes no : List Instr}
    (h : Readable c names (.branch test os yes no :: rest)) : Readable c names yes := by
  refine ⟨Nat.lt_of_le_of_lt ?_ h.length_lt, fun o ho => h.operands o ?_⟩
  · simp only [listWords, words, List.length_append, List.length_cons]
    omega
  · simp [listOperands, Instr.operands, ho]

theorem no {test : Opcode} {os : List Operand} {yes no : List Instr}
    (h : Readable c names (.branch test os yes no :: rest)) : Readable c names no := by
  refine ⟨Nat.lt_of_le_of_lt ?_ h.length_lt, fun o ho => h.operands o ?_⟩
  · simp only [listWords, words, List.length_append, List.length_cons]
    omega
  · simp [listOperands, Instr.operands, ho]

theorem test {test : Opcode} {os : List Operand} {yes no : List Instr}
    (h : Readable c names (.branch test os yes no :: rest)) : ∀ o ∈ os, o.Readable c names :=
  fun o ho => h.operands o (by simp [listOperands, Instr.operands, ho])

theorem body {body : List Instr} (h : Readable c names (.loop body :: rest)) :
    Readable c names body := by
  refine ⟨Nat.lt_of_le_of_lt ?_ h.length_lt, fun o ho => h.operands o ?_⟩
  · simp only [listWords, words, List.length_append, List.length_cons]
    omega
  · simp [listOperands, Instr.operands, ho]

end Readable

end Instr

theorem Instr.listWords_branch {c : Constants} {names : List String} {test : Opcode}
    {operands : List Operand} {yes no rest : List Instr} :
    listWords c names (.branch test operands yes no :: rest) =
      test.value :: (operands.map (Operand.word c names) ++
        [UInt32.ofNat (listWords c names yes).length, UInt32.ofNat (listWords c names no).length] ++
        (listWords c names yes ++ (listWords c names no ++ listWords c names rest))) := by
  simp [listWords, words]

theorem Instr.listWords_loop {c : Constants} {names : List String} {body rest : List Instr} :
    listWords c names (.loop body :: rest) =
      Opcode.whileNotError.value :: UInt32.ofNat (listWords c names body).length ::
        (listWords c names body ++ listWords c names rest) := by
  simp [listWords, words]

section Blocks

variable {β : Type} (xs ys zs : List β)

theorem not_length_blocks_lt : ¬(xs ++ (ys ++ zs)).length < xs.length + ys.length := by
  simp only [List.length_append]
  omega

theorem not_length_block_lt : ¬(xs ++ zs).length < xs.length := by
  simp

theorem take_blocks (b : Bool) :
    (if b then (xs ++ (ys ++ zs)).take xs.length
      else ((xs ++ (ys ++ zs)).drop xs.length).take ys.length) = if b then xs else ys := by
  cases b <;> simp

theorem drop_blocks : (xs ++ (ys ++ zs)).drop (xs.length + ys.length) = zs := by
  rw [← List.drop_drop, List.drop_left, List.drop_left]

end Blocks

section Assembled

variable {rules : List Rule} {c : Constants}

/-- The rules with their code as words. -/
def assembled (c : Constants) (rules : List Rule) : List Rule :=
  rules.map fun r => { r with bytecode := some (r.assemble c (rules.map (·.name))) }

theorem idxOf_eq_ruleIndex? {name : String} {i : Nat} (hi : ruleIndex? rules name = some i) :
    (rules.map (·.name)).idxOf name = i := by
  induction rules generalizing i with
  | nil => cases hi
  | cons r rs ih =>
      by_cases hr : r.name = name
      · simp_all [ruleIndex?, List.findIdx?_cons]
      · simp only [ruleIndex?, List.findIdx?_cons, hr, decide_false, Bool.false_eq_true, if_false,
          Option.map_eq_some_iff] at hi
        obtain ⟨j, hj, rfl⟩ := hi
        rw [List.map_cons, List.idxOf_cons, beq_false_of_ne hr, ih hj]
        rfl

theorem getElem?_assembled {name : String} {r : Rule} (hr : findRule? rules name = some r) :
    (assembled c rules)[(rules.map (·.name)).idxOf name]?.bind (·.bytecode) =
      some (r.assemble c (rules.map (·.name))) := by
  rw [Inference.findRule?_eq_getElem?] at hr
  obtain ⟨i, hi, hr⟩ := Option.bind_eq_some_iff.mp hr
  rw [idxOf_eq_ruleIndex? hi, assembled, List.getElem?_map, hr]
  rfl

end Assembled

end PegCompiler
