import Mathlib.Data.List.Forall2
import PegCompiler.Proofs.Emitting
import PegCompiler.Proofs.Occupancy

/-!
# Sweeps over code

The instructions of a rule stand one behind another, those of a block right behind the branch or the
loop that it belongs to. So the words of the rule are read as a list of instructions, without regard
to what is executed, and each of them comes from the symbolic instruction in its place.
-/

namespace PegCompiler

namespace Instruction

def words (i : Instruction) : List UInt32 :=
  i.opcode.value :: i.operands

theorem words_branch (test : Test) (yes no : Nat) :
    (branch test yes no).words =
      test.opcode.value :: (test.operands ++ [UInt32.ofNat yes, UInt32.ofNat no]) := rfl

theorem words_loop (body : Nat) :
    (loop body).words = [Opcode.whileNotError.value, UInt32.ofNat body] := rfl

@[simp] theorem length_words (i : Instruction) : i.words.length = i.size := by
  rw [words, List.length_cons, size_eq]

/-- The number of words of a list of instructions. -/
def totalSize (is : List Instruction) : Nat :=
  (is.flatMap words).length

@[simp] theorem totalSize_nil : totalSize [] = 0 := rfl

@[simp] theorem totalSize_append (is js : List Instruction) :
    totalSize (is ++ js) = totalSize is + totalSize js := by
  simp [totalSize]

@[simp] theorem totalSize_cons (i : Instruction) (is : List Instruction) :
    totalSize (i :: is) = i.size + totalSize is := by
  rw [totalSize, List.flatMap_cons, List.length_append, length_words, totalSize]

theorem length_flatMap_words (is : List Instruction) :
    (is.flatMap words).length = totalSize is := rfl

/-- Words can hold all lengths in an instruction that is not longer than they count. -/
theorem encodable_of_size {i : Instruction} (hplain : i.isPlain) (h : i.size < UInt32.size) :
    i.Encodable := by
  cases i with
  | pluck n offsets | call f n offsets =>
      simp only [size, Encodable] at h ⊢
      omega
  | branch test yes no => cases hplain
  | loop body => cases hplain
  | _ => trivial

end Instruction

/-! ## Reading words -/

/-- The instructions that words are read as, with their positions, until something else comes. -/
def instructions (position : Nat) : List UInt32 → List (Nat × Instruction)
  | [] => []
  | w :: rest =>
      match _hdecode : Instruction.decode position w rest with
      | .ok (i, left) => (position, i) :: instructions (position + i.size) left
      | .error _ => []
termination_by code => code.length
decreasing_by exact Nat.lt_succ_of_le (Instruction.length_of_decode _hdecode)

/-- An instruction where it stands, and how deep in silence. -/
structure Mark where
  position : Nat
  instruction : Instruction
  level : Int

/-- The instructions from a position on, one behind another. -/
def marks (position : Nat) (level : Int) : List Instruction → List Mark
  | [] => []
  | i :: is =>
      ⟨position, i, level⟩ :: marks (position + i.size) (level + i.opcode.silence) is

/-- How much deeper in silence the machine is behind the instructions. -/
def netSilence : List Instruction → Int
  | [] => 0
  | i :: is => i.opcode.silence + netSilence is

@[simp] theorem netSilence_nil : netSilence [] = 0 := rfl

@[simp] theorem netSilence_cons (i : Instruction) (is : List Instruction) :
    netSilence (i :: is) = i.opcode.silence + netSilence is := rfl

@[simp] theorem netSilence_append (is js : List Instruction) :
    netSilence (is ++ js) = netSilence is + netSilence js := by
  induction is with
  | nil => simp
  | cons i is ih => simp [ih, Int.add_assoc]

section Marks

variable (position : Nat) (level : Int) (is js : List Instruction)

theorem marks_append :
    marks position level (is ++ js) =
      marks position level is ++
        marks (position + Instruction.totalSize is) (level + netSilence is) js := by
  induction is generalizing position level with
  | nil => simp [marks]
  | cons i is ih => simp [marks, ih, Nat.add_assoc, Int.add_assoc]

@[simp] theorem map_instruction_marks : (marks position level is).map (·.instruction) = is := by
  induction is generalizing position level with
  | nil => rfl
  | cons i is ih => rw [marks, List.map_cons, ih]

variable {position level is}

theorem position_le_of_mem_marks {mark : Mark} (h : mark ∈ marks position level is) :
    position ≤ mark.position := by
  induction is generalizing position level with
  | nil => cases h
  | cons i is ih =>
      rcases List.mem_cons.mp h with rfl | h
      · exact Nat.le_refl position
      · exact Nat.le_trans (Nat.le_add_right _ _) (ih h)

theorem marks_sorted : (marks position level is).Pairwise fun a b => a.position < b.position := by
  induction is generalizing position level with
  | nil => exact .nil
  | cons i is ih =>
      refine .cons (fun mark hmark => ?_) ih
      have hle := position_le_of_mem_marks hmark
      have hpos := i.size_pos
      dsimp only
      omega

/-- No two instructions stand at the same position. -/
theorem marks_unique {a b : Mark} (ha : a ∈ marks position level is)
    (hb : b ∈ marks position level is) (h : a.position = b.position) : a = b := by
  have hnodup : ((marks position level is).map Mark.position).Nodup :=
    List.pairwise_map.mpr (marks_sorted.imp fun hlt => Nat.ne_of_lt hlt)
  exact List.inj_on_of_nodup_map hnodup ha hb h

variable (position level)

/-- Words of instructions are read as these. -/
theorem instructions_flatMap {is : List Instruction} (his : ∀ i ∈ is, i.Encodable) :
    instructions position (is.flatMap Instruction.words) =
      (marks position level is).map fun mark => (mark.position, mark.instruction) := by
  induction is generalizing position level with
  | nil =>
      rw [List.flatMap_nil, instructions]
      rfl
  | cons i is ih =>
      obtain ⟨hi, his⟩ := List.forall_mem_cons.mp his
      have hdecode : Instruction.decode position i.opcode.value
          (i.operands ++ is.flatMap Instruction.words) =
            .ok (i, is.flatMap Instruction.words) := Instruction.decode_words hi
      rw [List.flatMap_cons, Instruction.words, List.cons_append, instructions]
      split
      · next j left hdecode' =>
          obtain ⟨rfl, rfl⟩ := Prod.mk.inj (Except.ok.inj (hdecode.symm.trans hdecode'))
          rw [marks, List.map_cons, ih (position + i.size) (level + i.opcode.silence) his]
      · next hdecode' => cases hdecode.symm.trans hdecode'

end Marks

/-! ## Symbolic instructions and those that are read -/

/-- Whether the words of symbolic code are those of a list of instructions. -/
inductive Spells (c : Constants) (names : List String) : List Instr → List Instruction → Prop where
  | nil : Spells c names [] []
  | op {code : Opcode} {operands : List Operand} {rest : List Instr} {i : Instruction}
      {is : List Instruction} (hplain : i.isPlain) (hopcode : i.opcode = code)
      (hoperands : i.operands = operands.map (Operand.word c names))
      (hrest : Spells c names rest is) : Spells c names (.op code operands :: rest) (i :: is)
  | branch {code : Opcode} {operands : List Operand} {yes no rest : List Instr} {test : Test}
      {inYes inNo is : List Instruction} (hopcode : test.opcode = code)
      (hoperands : test.operands = operands.map (Operand.word c names))
      (hyes : Spells c names yes inYes) (hno : Spells c names no inNo)
      (hrest : Spells c names rest is) :
      Spells c names (.branch code operands yes no :: rest)
        (.branch test (Instruction.totalSize inYes) (Instruction.totalSize inNo) ::
          (inYes ++ (inNo ++ is)))
  | loop {body rest : List Instr} {inBody is : List Instruction}
      (hbody : Spells c names body inBody) (hrest : Spells c names rest is) :
      Spells c names (.loop body :: rest)
        (.loop (Instruction.totalSize inBody) :: (inBody ++ is))

namespace Spells

variable {c : Constants} {names : List String} {code : List Instr} {is : List Instruction}

theorem listWords_eq (h : Spells c names code is) :
    Instr.listWords c names code = is.flatMap Instruction.words := by
  induction h with
  | nil => rfl
  | op _ hopcode hoperands _ ih =>
      rw [Instr.listWords, Instr.words, ih, List.flatMap_cons, Instruction.words, hopcode,
        hoperands]
  | branch hopcode hoperands _ _ _ ihyes ihno ih =>
      rw [Instr.listWords, Instr.words]
      simp only [ihyes, ihno, ih, Instruction.length_flatMap_words, List.flatMap_cons,
        List.flatMap_append, Instruction.words_branch, hopcode, hoperands, List.cons_append,
        List.append_assoc]
  | loop _ _ ihbody ih =>
      rw [Instr.listWords, Instr.words]
      simp only [ihbody, ih, Instruction.length_flatMap_words, List.flatMap_cons,
        List.flatMap_append, Instruction.words_loop, List.append_assoc]

theorem encodable (h : Spells c names code is)
    (hsize : Instruction.totalSize is < UInt32.size) : ∀ i ∈ is, i.Encodable := by
  induction h with
  | nil => simp
  | op hplain _ _ _ ih =>
      rw [Instruction.totalSize_cons] at hsize
      exact List.forall_mem_cons.mpr
        ⟨Instruction.encodable_of_size hplain (by omega), ih (by omega)⟩
  | branch _ _ _ _ _ ihyes ihno ih =>
      simp only [Instruction.totalSize_cons, Instruction.totalSize_append] at hsize
      simp only [List.forall_mem_cons, List.forall_mem_append]
      exact ⟨⟨by omega, by omega⟩, ihyes (by omega), ihno (by omega), ih (by omega)⟩
  | loop _ _ ihbody ih =>
      simp only [Instruction.totalSize_cons, Instruction.totalSize_append] at hsize
      simp only [List.forall_mem_cons, List.forall_mem_append]
      exact ⟨show _ < UInt32.size by omega, ihbody (by omega), ih (by omega)⟩

end Spells

/-- An instruction that moves the top of the stack is one that words can be read as. -/
theorem exists_instruction_of_moves {c : Constants} {names : List String} {code : Opcode}
    {operands : List Operand} {h k : Nat} (hmoves : Moves code operands h k) :
    ∃ i : Instruction, i.isPlain ∧ i.opcode = code ∧
      i.operands = operands.map (Operand.word c names) := by
  unfold Moves at hmoves
  split at hmoves
  · exact ⟨.push .emptyString, rfl, rfl, rfl⟩
  · exact ⟨.push .undefined, rfl, rfl, rfl⟩
  · exact ⟨.push .null, rfl, rfl, rfl⟩
  · exact ⟨.push .failed, rfl, rfl, rfl⟩
  · exact ⟨.push .emptyArray, rfl, rfl, rfl⟩
  · exact ⟨.push .currPos, rfl, rfl, rfl⟩
  · exact ⟨.pop, rfl, rfl, rfl⟩
  · exact ⟨.popCurrPos, rfl, rfl, rfl⟩
  · exact ⟨.popN _, rfl, rfl, rfl⟩
  · exact ⟨.nip, rfl, rfl, rfl⟩
  · exact ⟨.append, rfl, rfl, rfl⟩
  · exact ⟨.wrap _, rfl, rfl, rfl⟩
  · exact ⟨.text, rfl, rfl, rfl⟩
  · next n m offsets =>
      obtain ⟨rfl, -⟩ := hmoves
      exact ⟨.pluck (UInt32.ofNat n) (offsets.map (Operand.word c names)), rfl, rfl,
        by simp [Instruction.operands, Operand.word]⟩
  · exact ⟨.acceptN _, rfl, rfl, rfl⟩
  · exact ⟨.acceptString _, rfl, rfl, rfl⟩
  · exact ⟨.fail _, rfl, rfl, rfl⟩
  · exact ⟨.loadSavedPos _, rfl, rfl, rfl⟩
  · exact ⟨.updateSavedPos, rfl, rfl, rfl⟩
  · next f n m offsets =>
      obtain ⟨rfl, -⟩ := hmoves
      exact ⟨.call (UInt32.ofNat (f.index c names)) (UInt32.ofNat n)
          (offsets.map (Operand.word c names)), rfl, rfl,
        by simp [Instruction.operands, Operand.word]⟩
  · exact ⟨.rule _, rfl, rfl, rfl⟩
  · exact ⟨.silentFailsOn, rfl, rfl, rfl⟩
  · exact ⟨.silentFailsOff, rfl, rfl, rfl⟩
  · cases hmoves

theorem exists_test_of_testable {c : Constants} {names : List String} {code : Opcode}
    {operands : List Operand} {h : Nat} (htest : Testable code operands h) :
    ∃ t : Test, t.opcode = code ∧ t.operands = operands.map (Operand.word c names) := by
  unfold Testable at htest
  split at htest
  · exact ⟨.isTrue, rfl, rfl⟩
  · exact ⟨.isFailed, rfl, rfl⟩
  · exact ⟨.isNotFailed, rfl, rfl⟩
  · exact ⟨.hasInput, rfl, rfl⟩
  · exact ⟨.hasLiteral _, rfl, rfl⟩
  · exact ⟨.hasLiteralIgnoringCase _, rfl, rfl⟩
  · exact ⟨.hasClass _, rfl, rfl⟩
  · cases htest

theorem Instr.Each.exists_spells {Q : Opcode → List Operand → Prop} {code : List Instr}
    (h : Each Q code) (hQ : ∀ code operands, Q code operands → ∃ h k, Moves code operands h k)
    (c : Constants) (names : List String) : ∃ is, Spells c names code is := by
  induction h with
  | nil => exact ⟨[], .nil⟩
  | op hop _ ih =>
      obtain ⟨h, k, hmoves⟩ := hQ _ _ hop
      obtain ⟨i, hplain, hopcode, hoperands⟩ := exists_instruction_of_moves hmoves
      obtain ⟨is, his⟩ := ih
      exact ⟨i :: is, .op hplain hopcode hoperands his⟩
  | branch htest _ _ _ ihyes ihno ih =>
      obtain ⟨t, hopcode, hoperands⟩ := exists_test_of_testable htest
      obtain ⟨ys, hyes⟩ := ihyes
      obtain ⟨ns, hno⟩ := ihno
      obtain ⟨is, his⟩ := ih
      exact ⟨_, .branch hopcode hoperands hyes hno his⟩
  | loop _ _ ihbody ih =>
      obtain ⟨bs, hbody⟩ := ihbody
      obtain ⟨is, his⟩ := ih
      exact ⟨_, .loop hbody his⟩

/-! ## Marks and emissions -/

@[simp] theorem silence_opcode_branch (test : Test) (yes no : Nat) :
    (Instruction.branch test yes no).opcode.silence = 0 := by
  cases test <;> rfl

@[simp] theorem silence_opcode_loop (body : Nat) :
    (Instruction.loop body).opcode.silence = 0 := rfl

/-- Instructions that go from one level of silence to another. Blocks come back to the level that
they begin at. -/
inductive Quiet : List Instruction → Nat → Nat → Prop where
  | nil {l : Nat} : Quiet [] l l
  | plain {i : Instruction} {is : List Instruction} {l k m : Nat} (hplain : i.isPlain)
      (hsilence : (k : Int) = l + i.opcode.silence) (hrest : Quiet is k m) : Quiet (i :: is) l m
  | branch {test : Test} {inYes inNo is : List Instruction} {l m : Nat} (hyes : Quiet inYes l l)
      (hno : Quiet inNo l l) (hrest : Quiet is l m) :
      Quiet (.branch test (Instruction.totalSize inYes) (Instruction.totalSize inNo) ::
        (inYes ++ (inNo ++ is))) l m
  | loop {inBody is : List Instruction} {l m : Nat} (hbody : Quiet inBody l l)
      (hrest : Quiet is l m) : Quiet (.loop (Instruction.totalSize inBody) :: (inBody ++ is)) l m

namespace Quiet

variable {is : List Instruction} {l m : Nat}

theorem netSilence_eq (h : Quiet is l m) : (m : Int) = l + netSilence is := by
  induction h with
  | nil => simp
  | plain _ hsilence _ ih =>
      rw [ih, hsilence, netSilence_cons, Int.add_assoc]
  | branch _ _ _ ihyes ihno ih =>
      simp only [netSilence_cons, netSilence_append, silence_opcode_branch]
      omega
  | loop _ _ ihbody ih =>
      simp only [netSilence_cons, netSilence_append, silence_opcode_loop]
      omega

/-- A block is as silent at its end as at its beginning. -/
theorem netSilence_eq_zero (h : Quiet is l l) : netSilence is = 0 := by
  have hnet := h.netSilence_eq
  omega

end Quiet

/-- Whether a mark is where a node has emitted an instruction: the level of silence is that of the
node, and the first operand stands for what describes it. -/
def Emission.IsAt (P : Symbol → UInt32 → Prop) (em : Emission) (mark : Mark) : Prop :=
  mark.instruction.opcode = em.opcode ∧ mark.level = em.site.silenced ∧
    ∃ s w, em.symbol? = some s ∧ mark.instruction.operands.head? = some w ∧ P s w

/-- The marks of instructions with constants. -/
def carriers (ms : List Mark) : List Mark :=
  ms.filter (·.instruction.opcode.takesConstant)

theorem carriers_cons (mark : Mark) (ms : List Mark) :
    carriers (mark :: ms) = carriers [mark] ++ carriers ms :=
  List.filter_append [mark] ms

theorem carriers_loop (position body : Nat) (level : Int) (ms : List Mark) :
    carriers (⟨position, .loop body, level⟩ :: ms) = carriers ms :=
  List.filter_cons_of_neg (by simp [Instruction.opcode, Opcode.takesConstant])

theorem carriers_append (ms ns : List Mark) :
    carriers (ms ++ ns) = carriers ms ++ carriers ns :=
  List.filter_append ..

section Emitted

variable {c : Constants} {names : List String} {code : List Instr} {is : List Instruction}
  {l m : Nat} {es : List Emission}

theorem Emits.quiet (hemits : Emits code l m es) (hspells : Spells c names code is) :
    Quiet is l m := by
  induction hspells generalizing l m es with
  | nil =>
      cases hemits
      exact .nil
  | op hplain hopcode _ _ ih =>
      cases hemits with
      | op hsilence _ hrest => exact .plain hplain (hopcode ▸ hsilence) (ih hrest)
  | branch _ _ _ _ _ ihyes ihno ih =>
      cases hemits with
      | branch _ hyes hno hrest => exact .branch (ihyes hyes) (ihno hno) (ih hrest)
  | loop _ _ ihbody ih =>
      cases hemits with
      | loop hbody hrest => exact .loop (ihbody hbody) (ih hrest)

theorem Announces.isAt {code : Opcode} {operands : List Operand} {here : List Emission}
    (hhere : Announces code operands l here) {i : Instruction} (hopcode : i.opcode = code)
    (hoperands : ∃ more, i.operands = operands.map (Operand.word c names) ++ more)
    {P : Symbol → UInt32 → Prop}
    (hP : ∀ s, .symbol s ∈ operands → P s ((Operand.symbol s).word c names)) (position : Nat) :
    List.Forall₂ (Emission.IsAt P) here (carriers [⟨position, i, l⟩]) := by
  cases hhere with
  | nothing hcode =>
      simp [carriers, hopcode, hcode]
  | @one em s more hcode hop hos hsymbol hlevel =>
      subst hos
      have hcarrier : carriers [⟨position, i, (l : Int)⟩] = [⟨position, i, (l : Int)⟩] := by
        simp [carriers, hopcode, hcode]
      rw [hcarrier]
      obtain ⟨more', hmore⟩ := hoperands
      refine .cons ⟨hopcode.trans hop.symm, ?_, s, _, hsymbol, congrArg List.head? hmore, ?_⟩ .nil
      · exact congrArg Int.ofNat hlevel.symm
      · exact hP s (List.mem_cons_self ..)

/-- The instructions with constants in the words of code are those that are emitted. -/
theorem Emits.marked (hemits : Emits code l m es) (hspells : Spells c names code is)
    {P : Symbol → UInt32 → Prop}
    (hP : ∀ s, .symbol s ∈ Instr.listOperands code → P s ((Operand.symbol s).word c names))
    (position : Nat) :
    List.Forall₂ (Emission.IsAt P) es (carriers (marks position l is)) := by
  induction hspells generalizing l m es position with
  | nil =>
      cases hemits
      exact .nil
  | @op _ _ _ i _ _ hopcode hoperands _ ih =>
      cases hemits with
      | op hsilence hhere hrest =>
          simp only [Instr.listOperands_op, List.mem_append] at hP
          rw [marks, carriers_cons, hopcode, ← hsilence]
          refine List.rel_append ?_ (ih hrest (fun s hs => hP s (.inr hs)) _)
          exact hhere.isAt hopcode ⟨[], by rw [hoperands, List.append_nil]⟩
            (fun s hs => hP s (.inl hs)) position
  | branch hopcode hoperands hyes hno _ ihyes ihno ih =>
      cases hemits with
      | branch hhere hemitsYes hemitsNo hrest =>
          simp only [Instr.listOperands_branch, List.mem_append] at hP
          have hnetYes := (hemitsYes.quiet hyes).netSilence_eq_zero
          have hnetNo := (hemitsNo.quiet hno).netSilence_eq_zero
          rw [marks, carriers_cons, silence_opcode_branch, Int.add_zero, marks_append, marks_append,
            hnetYes, hnetNo, Int.add_zero, Int.add_zero, carriers_append, carriers_append,
            List.append_assoc, List.append_assoc]
          refine List.rel_append ?_ (List.rel_append ?_ (List.rel_append ?_ ?_))
          · exact hhere.isAt (i := .branch _ _ _) hopcode ⟨_, congrArg (· ++ _) hoperands⟩
              (fun s hs => hP s (.inl (.inl (.inl hs)))) position
          · exact ihyes hemitsYes (fun s hs => hP s (.inl (.inl (.inr hs)))) _
          · exact ihno hemitsNo (fun s hs => hP s (.inl (.inr hs))) _
          · exact ih hrest (fun s hs => hP s (.inr hs)) _
  | loop hbody _ ihbody ih =>
      cases hemits with
      | loop hemitsBody hrest =>
          simp only [Instr.listOperands_loop, List.mem_append] at hP
          rw [marks, carriers_loop, silence_opcode_loop, Int.add_zero, marks_append,
            (hemitsBody.quiet hbody).netSilence_eq_zero, Int.add_zero, carriers_append]
          refine List.rel_append ?_ ?_
          · exact ihbody hemitsBody (fun s hs => hP s (.inl hs)) _
          · exact ih hrest (fun s hs => hP s (.inr hs)) _

end Emitted

/-! ## Rules -/

theorem Rule.exists_spells (r : Rule) (c : Constants) (names : List String) :
    ∃ is, Spells c names r.lower.code is := by
  have hseats : r.body.Seats False r.body.nodes.length := Expr.seats_of_keepsLabels (False.elim ·) _
  have heach := hseats none 0 .empty (Nat.le_of_eq (Nat.zero_add _)) (False.elim ·)
  refine heach.exists_spells (fun code operands hseated => ?_) c names
  obtain ⟨h, k, hmoves, -⟩ := hseated.moves
  exact ⟨h, k, hmoves⟩

/-- The code of a rule that words can count is read as instructions that are as silent at the end as
at the beginning. -/
theorem Rule.exists_quiet (r : Rule) {c : Constants} {names : List String}
    (hlength : (r.assemble c names).length < UInt32.size) :
    ∃ is, Spells c names r.lower.code is ∧ r.assemble c names = is.flatMap Instruction.words ∧
      Quiet is 0 0 ∧ ∀ i ∈ is, i.Encodable := by
  obtain ⟨is, his⟩ := r.exists_spells c names
  have hcode : r.assemble c names = is.flatMap Instruction.words := his.listWords_eq
  rw [hcode, Instruction.length_flatMap_words] at hlength
  exact ⟨is, his, hcode, r.emits.quiet his, his.encodable hlength⟩

end PegCompiler
