import PegCompiler.Proofs.Layout
import PegCompiler.Proofs.Paths

/-!
# One instruction after another

What holds of all instructions that code is read as holds of the one that an execution is at, and to
know it of assembled code is to know it of symbolic instructions one by one, whatever the stack
does. A listing tells that code is framed as soon as no instruction in it pops more than a signed
word can count.
-/

namespace PegCompiler

open Instruction

/-- An instruction is the same wherever it stands. -/
theorem Instruction.decode_at {position : Nat} {w : UInt32} {rest left : List UInt32}
    {i : Instruction} (h : decode position w rest = .ok (i, left)) (position' : Nat) :
    decode position' w rest = .ok (i, left) := by
  simpa using decode_append h position' []

/-- Whether `P` holds of all instructions that code is read as, those in blocks included. -/
inductive Throughout (P : Instruction → Prop) : List UInt32 → Prop where
  | nil : Throughout P []
  | plain {w : UInt32} {rest left : List UInt32} {i : Instruction}
      (hdecode : decode 0 w rest = .ok (i, left)) (hplain : i.isPlain) (hi : P i)
      (hrest : Throughout P left) : Throughout P (w :: rest)
  | branch {w : UInt32} {rest left : List UInt32} {test : Test} {yes no : Nat}
      (hdecode : decode 0 w rest = .ok (.branch test yes no, left)) (hi : P (.branch test yes no))
      (hyes : Throughout P (left.take yes)) (hno : Throughout P ((left.drop yes).take no))
      (hrest : Throughout P (left.drop (yes + no))) : Throughout P (w :: rest)
  | loop {w : UInt32} {rest left : List UInt32} {body : Nat}
      (hdecode : decode 0 w rest = .ok (.loop body, left)) (hi : P (.loop body))
      (hbody : Throughout P (left.take body)) (hrest : Throughout P (left.drop body)) :
      Throughout P (w :: rest)

section Reading

variable {P : Instruction → Prop} {names : List String} {code block : List UInt32}

/-- Code is read in one way. -/
theorem Throughout.exists_of_decode {position : Nat} {w : UInt32} {rest left : List UInt32}
    {i : Instruction} (h : Throughout P (w :: rest))
    (hdecode : decode position w rest = .ok (i, left)) :
    P i ∧ (i.isPlain → Throughout P left) ∧
      (∀ test yes no, i = .branch test yes no → Throughout P (left.take yes) ∧
        Throughout P ((left.drop yes).take no) ∧ Throughout P (left.drop (yes + no))) ∧
      ∀ body, i = .loop body → Throughout P (left.take body) ∧ Throughout P (left.drop body) := by
  cases h with
  | plain hdecode' hplain hi hrest =>
      obtain ⟨rfl, rfl⟩ := Prod.mk.inj (Except.ok.inj ((decode_at hdecode 0).symm.trans hdecode'))
      refine ⟨hi, fun _ => hrest, ?_, ?_⟩
      · rintro test yes no rfl
        cases hplain
      · rintro body rfl
        cases hplain
  | branch hdecode' hi hyes hno hrest =>
      obtain ⟨rfl, rfl⟩ := Prod.mk.inj (Except.ok.inj ((decode_at hdecode 0).symm.trans hdecode'))
      refine ⟨hi, nofun, ?_, nofun⟩
      rintro _ _ _ ⟨rfl, rfl, rfl⟩
      exact ⟨hyes, hno, hrest⟩
  | loop hdecode' hi hbody hrest =>
      obtain ⟨rfl, rfl⟩ := Prod.mk.inj (Except.ok.inj ((decode_at hdecode 0).symm.trans hdecode'))
      refine ⟨hi, nofun, nofun, ?_⟩
      rintro _ ⟨rfl⟩
      exact ⟨hbody, hrest⟩

/-- The table of framed code holds the instructions that it is read as. -/
theorem Framed.holds {position stop h k : Nat} {table : List (Nat × Nat)}
    (hcode : Framed names position block h k table) (hP : Throughout P block)
    (hslice : slice code position stop = block) (hstop : stop ≤ code.length) :
    ∀ entry ∈ table, ∃ i, instructionAt? code entry.1 = some i ∧ P i := by
  induction hcode generalizing stop with
  | nil => simp
  | plain hdecode hplain hshifts _ ih =>
      obtain ⟨hi, hrest, -⟩ := hP.exists_of_decode hdecode
      obtain ⟨hleft, -⟩ := slice_of_decode hslice hdecode hstop
      refine List.forall_mem_cons.mpr ⟨⟨_, instructionAt?_of_slice hslice hdecode, hi⟩, ?_⟩
      exact ih (hrest hplain) hleft.symm hstop
  | @branch position yes no w rest left test _ _ _ _ _ _ hdecode htest hlen _ _ _ ihyes ihno ih =>
      obtain ⟨hi, -, hblocks, -⟩ := hP.exists_of_decode hdecode
      obtain ⟨hyes, hno, hrest⟩ := hblocks _ _ _ rfl
      obtain ⟨rfl, hlength⟩ := slice_of_decode hslice hdecode hstop
      let next := position + (Instruction.branch test yes no).size
      have hyesSlice : slice code next (next + yes) = (slice code next stop).take yes :=
        (take_slice (by omega)).symm
      have hnoSlice : slice code (next + yes) (next + yes + no) =
          ((slice code next stop).drop yes).take no := by
        rw [drop_slice, take_slice (by omega)]
      have hrestSlice : slice code (next + yes + no) stop =
          (slice code next stop).drop (yes + no) := by
        rw [drop_slice, Nat.add_assoc]
      simp only [List.forall_mem_cons, List.forall_mem_append]
      refine ⟨⟨_, instructionAt?_of_slice hslice hdecode, hi⟩, ⟨?_, ?_⟩, ?_⟩
      · exact ihyes hyes hyesSlice (by omega)
      · exact ihno hno hnoSlice (by omega)
      · exact ih hrest hrestSlice hstop
  | @loop position body w rest left _ _ _ _ hdecode hpos hlen _ _ ihbody ih =>
      obtain ⟨hi, -, -, hblocks⟩ := hP.exists_of_decode hdecode
      obtain ⟨hbody, hrest⟩ := hblocks _ rfl
      obtain ⟨rfl, hlength⟩ := slice_of_decode hslice hdecode hstop
      let next := position + (Instruction.loop body).size
      have hbodySlice : slice code next (next + body) = (slice code next stop).take body :=
        (take_slice (by omega)).symm
      have hrestSlice : slice code (next + body) stop = (slice code next stop).drop body :=
        drop_slice.symm
      simp only [List.forall_mem_cons, List.forall_mem_append]
      refine ⟨⟨_, instructionAt?_of_slice hslice hdecode, hi⟩, ?_, ?_⟩
      · exact ihbody hbody hbodySlice (by omega)
      · exact ih hrest hrestSlice hstop

/-- What holds throughout framed code holds of the instruction that an execution is at. -/
theorem Throughout.at_config {heights : List (Nat × Nat)} {s : Config} {i : Instruction}
    (h : Throughout P code) (hcode : Framed names 0 code 0 1 heights)
    (hs : s.Framed names code heights) (hinside : s.position < s.stop)
    (hi : instructionAt? code s.position = some i) :
    P i ∧ i.pops ≤ s.depth ∧ ∀ o ∈ i.reads, signed o < s.depth := by
  obtain ⟨height, k, hdepth, -, hflows, -⟩ := hs
  obtain ⟨j, hj, hheight, -, hpops, hreads⟩ := hflows.exists_instruction hinside
  obtain rfl := Option.some.inj (hi.symm.trans hj)
  obtain ⟨j, hj, hP⟩ := hcode.holds h
    (by rw [slice, List.take_length, List.drop_zero]) (Nat.le_refl _) _ hheight
  obtain rfl := Option.some.inj (hi.symm.trans hj)
  rw [hdepth]
  exact ⟨hP, Int.ofNat_le.mpr hpops, hreads⟩

/-- Code is framed if it has a listing and pops no more at once than a signed word can count. -/
theorem Throughout.recovers (h : Throughout P code) (hP : ∀ i, P i → i.pops < signedSize) :
    Recovers names code := by
  induction h with
  | nil =>
      intro depth position h s t lines hs hexec
      rw [listBlock] at hexec
      obtain rfl := (Prod.mk.inj hexec).2
      exact ⟨h, [], .nil, hs, Int.le_refl _, by simp⟩
  | plain hdecode hplain hi _ ih =>
      intro depth position h s t lines hs hexec
      exact framedBetween_plain (decode_at hdecode position) hplain (hP _ hi) ih hs hexec
  | branch hdecode _ _ _ _ ihyes ihno ih =>
      intro depth position h s t lines hs hexec
      exact framedBetween_branch (decode_at hdecode position) ihyes ihno ih hs hexec
  | loop hdecode _ _ _ ihbody ih =>
      intro depth position h s t lines hs hexec
      exact framedBetween_loop (decode_at hdecode position) ihbody ih hs hexec

end Reading

/-! ## Symbolic instructions -/

/-- Whether `Q` holds of the opcode and the operands of all symbolic instructions, those in blocks
included, and the tests of branches can be made on some stack. -/
inductive Instr.Each (Q : Opcode → List Operand → Prop) : List Instr → Prop where
  | nil : Each Q []
  | op {code : Opcode} {operands : List Operand} {rest : List Instr} (hop : Q code operands)
      (hrest : Each Q rest) : Each Q (.op code operands :: rest)
  | branch {test : Opcode} {operands : List Operand} {yes no rest : List Instr}
      (htest : Testable test operands 1) (hyes : Each Q yes) (hno : Each Q no)
      (hrest : Each Q rest) : Each Q (.branch test operands yes no :: rest)
  | loop {body rest : List Instr} (hbody : Each Q body) (hrest : Each Q rest) :
      Each Q (.loop body :: rest)

namespace Instr.Each

variable {Q : Opcode → List Operand → Prop} {a b yes no : List Instr}

theorem append (ha : Each Q a) (hb : Each Q b) : Each Q (a ++ b) := by
  induction ha with
  | nil => exact hb
  | op hop _ ih => exact .op hop ih
  | branch htest hyes hno _ _ _ ih => exact .branch htest hyes hno ih
  | loop hbody _ _ ih => exact .loop hbody ih

theorem one {code : Opcode} {operands : List Operand} (hop : Q code operands) :
    Each Q [.op code operands] :=
  .op hop .nil

theorem condition {outcome : Outcome} {test : Opcode} {operands : List Operand}
    (htest : Testable test operands 1) (hyes : Each Q yes) (hno : Each Q no) :
    Each Q (PegCompiler.condition outcome test operands yes no) := by
  cases outcome with
  | always => exact hyes
  | sometimes => exact .branch htest hyes hno .nil
  | never => exact hno

/-- What short code is read as are its symbolic instructions. -/
theorem throughout {P : Instruction → Prop} {c : Constants} {names : List String}
    {code : List Instr} (h : Each Q code)
    (hQ : ∀ code operands, Q code operands → operands.length < signedSize → ∀ rest, ∃ i,
      decode 0 code.value (operands.map (Operand.word c names) ++ rest) = .ok (i, rest) ∧
        i.isPlain ∧ P i)
    (hbranch : ∀ test yes no, P (.branch test yes no)) (hloop : ∀ body, P (.loop body))
    (hlen : listSize code < signedSize) : Throughout P (listWords c names code) := by
  induction h with
  | nil => exact .nil
  | @op code operands rest hop _ ih =>
      rw [listSize_op] at hlen
      obtain ⟨i, hdecode, hplain, hi⟩ := hQ code operands hop (by omega) (listWords c names rest)
      exact .plain hdecode hplain hi (ih (by omega))
  | @branch test operands yes no rest htest _ _ _ ihyes ihno ih =>
      rw [listSize_branch] at hlen
      have hyesWords := length_listWords c names yes
      have hnoWords := length_listWords c names no
      have hyesLength : (listWords c names yes).length < signedSize := by omega
      have hnoLength : (listWords c names no).length < signedSize := by omega
      rw [listWords_branch]
      obtain ⟨t, hdecode, -⟩ := decode_testable 0 (listWords c names yes ++
        (listWords c names no ++ listWords c names rest)) htest hyesLength hnoLength
      refine .branch hdecode (hbranch _ _ _) ?_ ?_ ?_
      · rw [List.take_left]
        exact ihyes (by omega)
      · rw [List.drop_left, List.take_left]
        exact ihno (by omega)
      · rw [drop_blocks]
        exact ih (by omega)
  | @loop body rest _ _ ihbody ih =>
      rw [listSize_loop] at hlen
      have hbodyWords := length_listWords c names body
      have hdecode := decode_loop 0 (listWords c names body ++ listWords c names rest)
        (lt_size_of_lt_signedSize (show (listWords c names body).length < signedSize by omega))
      rw [listWords_loop]
      refine .loop hdecode (hloop _) ?_ ?_
      · rw [List.take_left]
        exact ihbody (by omega)
      · rw [List.drop_left]
        exact ih (by omega)

end Instr.Each

end PegCompiler
