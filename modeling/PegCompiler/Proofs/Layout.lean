import PegCompiler.Proofs.Balance
import PegCompiler.Proofs.Frames
import PegCompiler.Proofs.Words

/-!
# Balanced code is framed

The words that balanced code is assembled to are framed, as long as the numbers in it fit into
signed words. So every block of generated code holds whole instructions, and it has a listing.
-/

namespace PegCompiler

section Words

variable {c : Constants} {names : List String} {h k : Nat}

theorem signed_word_lt {offsets : List Operand} (hbelow : OffsetsBelow h offsets)
    (hreach : OffsetsReach signedSize offsets) (hh : h < signedSize) :
    ∀ w ∈ offsets.map (Operand.word c names), signed w < h := by
  intro w hw
  obtain ⟨o, ho, rfl⟩ := List.mem_map.mp hw
  obtain ⟨d, rfl, hd⟩ := hbelow o ho
  rw [Operand.word, signed_ofInt (hreach d ho) (by omega)]
  exact hd

/-- Some rule is called, even if there are more of them than words. -/
theorem toNat_index_lt {name : String} (h : name ∈ names) :
    (UInt32.ofNat (names.idxOf name)).toNat < names.length := by
  rw [UInt32.toNat_ofNat']
  exact Nat.lt_of_le_of_lt (Nat.mod_le _ _) (List.idxOf_lt_length_of_mem h)

theorem toNat_count {n : Nat} (h : n < signedSize) : (UInt32.ofNat n).toNat = n :=
  UInt32.toNat_ofNat_of_lt' (lt_size_of_lt_signedSize h)

open Instruction

theorem Instruction.Shifts.of_height {i : Instruction} (hpops : i.pops ≤ h)
    (hheight : k + i.pops = h + i.pushes) (hreads : i.reads = [])
    (hrule : ∀ index, i ≠ .rule index) : i.Shifts names h k :=
  ⟨hpops, hheight, by simp [hreads], fun index hi => absurd hi (hrule index)⟩

/-- An instruction that puts one value in place of `n`, and reads the slots that its offsets
tell. -/
theorem Instruction.Shifts.of_offsets {i : Instruction} {n : Nat} {offsets : List Operand}
    (hbelow : OffsetsBelow h offsets) (hreach : OffsetsReach signedSize offsets)
    (hh : h < signedSize) (hk : k + n = h + 1) (hpos : 0 < k)
    (hpops : i.pops = (UInt32.ofNat n).toNat) (hpushes : i.pushes = 1)
    (hreads : i.reads = offsets.map (Operand.word c names)) (hrule : ∀ index, i ≠ .rule index) :
    i.Shifts names h k := by
  have hn := toNat_count (n := n) (by omega)
  refine ⟨by omega, by omega, ?_, fun index hi => absurd hi (hrule index)⟩
  rw [hreads]
  exact signed_word_lt hbelow hreach hh

/-- The words of a balanced instruction are read as one that moves the top in the same way. -/
theorem decode_shifts {code : Opcode} {operands : List Operand} (position : Nat)
    (rest : List UInt32) (hmoves : Moves code operands h k)
    (hreach : OffsetsReach signedSize operands)
    (hrules : ∀ ref, .symbol (.rule ref) ∈ operands → ref.name ∈ names)
    (hh : h + operands.length < signedSize) :
    ∃ i, decode position code.value (operands.map (Operand.word c names) ++ rest) = .ok (i, rest) ∧
      i.isPlain ∧ i.Shifts names h k := by
  -- the cases are the instructions in the order in which `Moves` lists them
  unfold Moves at hmoves
  split at hmoves <;> simp only [decode, Opcode.ofWord?_value]
  case h_1 | h_2 | h_3 | h_4 | h_5 | h_6 | h_15 | h_16 | h_17 | h_19 | h_22 | h_23 =>
    exact ⟨_, rfl, rfl, .of_height (Nat.zero_le _) hmoves rfl (by simp)⟩
  case h_7 | h_8 =>
    have hpops := Nat.le.intro ((Nat.add_comm ..).trans hmoves)
    exact ⟨_, rfl, rfl, .of_height hpops hmoves rfl (by simp)⟩
  case h_9 n =>
    have hn := toNat_count (n := n) (by omega)
    exact ⟨_, rfl, rfl, .of_height (by simp only [pops, Operand.word]; omega)
      (by simp only [pops, pushes, Operand.word]; omega) rfl (by simp)⟩
  case h_10 =>
    obtain ⟨hk, hpos⟩ := hmoves
    exact ⟨_, rfl, rfl, .of_height (by simp only [pops]; omega) (by simp only [pops, pushes]; omega)
      rfl (by simp)⟩
  case h_11 =>
    obtain ⟨hk, hpos⟩ := hmoves
    have hone : signed 1 = 1 := rfl
    refine ⟨_, rfl, rfl, by simp only [pops]; omega, hk, fun o ho => ?_, by simp⟩
    obtain rfl := List.mem_singleton.mp ho
    omega
  case h_12 n =>
    obtain ⟨hk, hpos⟩ := hmoves
    have hn := toNat_count (n := n) (by simp only [List.length_singleton] at hh; omega)
    exact ⟨_, rfl, rfl, .of_height (by simp only [pops, Operand.word]; omega)
      (by simp only [pops, pushes, Operand.word]; omega) rfl (by simp)⟩
  case h_13 =>
    obtain ⟨rfl, hpos⟩ := hmoves
    exact ⟨_, rfl, rfl, .of_height hpos rfl rfl (by simp)⟩
  case h_14 n m offsets =>
    obtain ⟨rfl, hbelow, hk, hpos⟩ := hmoves
    have hreach : OffsetsReach signedSize offsets := fun d hd => hreach d (by simp [hd])
    simp only [List.length_cons] at hh
    exact ⟨_, Operand.withOffsets_words _ _ (lt_size_of_lt_signedSize (by omega)) _, rfl,
      .of_offsets hbelow hreach (by omega) hk hpos rfl rfl rfl (by simp)⟩
  case h_18 n =>
    obtain ⟨rfl, hn⟩ := hmoves
    have hsigned : signed (UInt32.ofNat n) = n := signed_ofNat (by omega)
    refine ⟨_, rfl, rfl, Nat.zero_le _, rfl, fun o ho => ?_, by simp⟩
    obtain rfl := List.mem_singleton.mp ho
    rw [Operand.word, hsigned]
    omega
  case h_20 f n m offsets =>
    obtain ⟨rfl, hbelow, hk, hpos⟩ := hmoves
    have hreach : OffsetsReach signedSize offsets := fun d hd => hreach d (by simp [hd])
    simp only [List.length_cons] at hh
    exact ⟨_, Operand.withOffsets_words _ _ (lt_size_of_lt_signedSize (by omega)) _, rfl,
      .of_offsets hbelow hreach (by omega) hk hpos rfl rfl rfl (by simp)⟩
  case h_21 ref =>
    have hcalled := toNat_index_lt (hrules ref (List.mem_singleton_self _))
    refine ⟨_, rfl, rfl, Nat.zero_le _, hmoves, by simp [reads], ?_⟩
    rintro _ ⟨rfl⟩
    exact hcalled
  case h_24 => cases hmoves

/-- The words of a branch are read as one with a test that finds what it reads. -/
theorem decode_testable {test : Opcode} {operands : List Operand} {yes no : Nat} (position : Nat)
    (rest : List UInt32) (htest : Testable test operands h) (hyes : yes < signedSize)
    (hno : no < signedSize) :
    ∃ t, decode position test.value
      (operands.map (Operand.word c names) ++ [UInt32.ofNat yes, UInt32.ofNat no] ++ rest) =
        .ok (.branch t yes no, rest) ∧ ∀ o ∈ t.reads, signed o < h := by
  have hzero : signed 0 = 0 := rfl
  have hdecode : ∃ t, decode position test.value
      (operands.map (Operand.word c names) ++ [UInt32.ofNat yes, UInt32.ofNat no] ++ rest) =
        .ok (.branch t (UInt32.ofNat yes).toNat (UInt32.ofNat no).toNat, rest) ∧
      ∀ o ∈ t.reads, signed o < h := by
    unfold Testable at htest
    split at htest <;> simp only [decode, Opcode.ofWord?_value]
    case h_1 | h_2 | h_3 =>
      exact ⟨_, rfl, by simpa [Test.reads, hzero] using htest⟩
    case h_8 => cases htest
    all_goals exact ⟨_, rfl, by simp [Test.reads]⟩
  rwa [toNat_count hyes, toNat_count hno] at hdecode

end Words

/-- Whether the offsets in the code fit into signed words and its rules are among `names`. -/
structure Instr.Listable (names : List String) (code : List Instr) : Prop where
  reach : OffsetsReach signedSize (listOperands code)
  rules : ∀ ref, .symbol (.rule ref) ∈ listOperands code → ref.name ∈ names

theorem Instr.Listable.mono {names : List String} {code code' : List Instr}
    (h : Listable names code) (hsub : ∀ o ∈ listOperands code', o ∈ listOperands code) :
    Listable names code' := by
  constructor
  · intro d hd
    exact h.reach d (hsub _ hd)
  · intro ref href
    exact h.rules ref (hsub _ href)

theorem heights_le_mono {table : List (Nat × Nat)} {m n : Nat}
    (h : ∀ entry ∈ table, entry.2 ≤ m) (hmn : m ≤ n) : ∀ entry ∈ table, entry.2 ≤ n :=
  fun entry hentry => Nat.le_trans (h entry hentry) hmn

namespace Balanced

/-- The words of balanced code are framed, and the stack is never higher than there are words. -/
theorem exists_framed {c : Constants} {names : List String} {code : List Instr} {h k : Nat}
    (hbalanced : Balanced code h k) (hcode : Instr.Listable names code)
    (hlen : h + Instr.listSize code < signedSize) (position : Nat) :
    ∃ table, Framed names position (Instr.listWords c names code) h k table ∧
      ∀ entry ∈ table, entry.2 ≤ h + Instr.listSize code := by
  induction hbalanced generalizing position with
  | nil => exact ⟨[], .nil, by simp⟩
  | @op code operands rest h k l hmoves _ ih =>
      have hk := le_of_moves hmoves
      rw [Instr.listSize_op] at hlen
      obtain ⟨i, hdecode, hplain, hshifts⟩ :=
        decode_shifts position (Instr.listWords c names rest) hmoves
          (fun d hd => hcode.reach d (List.mem_append_left _ hd))
          (fun ref href => hcode.rules ref (List.mem_append_left _ href)) (by omega)
      obtain ⟨table, hrest, htable⟩ := ih (hcode.mono fun o ho => List.mem_append_right _ ho)
        (by omega) (position + i.size)
      rw [Instr.listWords, Instr.words, List.cons_append, Instr.listSize_op]
      refine ⟨_, .plain hdecode hplain hshifts hrest, List.forall_mem_cons.mpr ⟨?_, ?_⟩⟩
      · dsimp only
        omega
      · exact heights_le_mono htable (by omega)
  | @branch test operands yes no rest h k l htest hyes hno _ ihyes ihno ih =>
      have hk := hyes.le_size
      rw [Instr.listSize_branch] at hlen
      have hyesWords := Instr.length_listWords c names yes
      have hnoWords := Instr.length_listWords c names no
      obtain ⟨t, hdecode, ht⟩ := decode_testable position (Instr.listWords c names yes ++
        (Instr.listWords c names no ++ Instr.listWords c names rest)) htest
        (show (Instr.listWords c names yes).length < signedSize by omega)
        (show (Instr.listWords c names no).length < signedSize by omega)
      have hblocks := not_length_blocks_lt (Instr.listWords c names yes)
        (Instr.listWords c names no) (Instr.listWords c names rest)
      let next := position + (Instruction.branch t (Instr.listWords c names yes).length
        (Instr.listWords c names no).length).size
      obtain ⟨yesTable, hyes, hyesTable⟩ :=
        ihyes (hcode.mono fun o ho => by simp [ho]) (by omega) next
      obtain ⟨noTable, hno, hnoTable⟩ := ihno (hcode.mono fun o ho => by simp [ho]) (by omega)
        (next + (Instr.listWords c names yes).length)
      obtain ⟨table, hrest, htable⟩ := ih (hcode.mono fun o ho => by simp [ho]) (by omega)
        (next + (Instr.listWords c names yes).length + (Instr.listWords c names no).length)
      rw [Instr.listWords_branch, Instr.listSize_branch]
      refine ⟨(position, h) :: (yesTable ++ noTable ++ table),
        .branch (k := k) hdecode ht (Nat.le_of_not_lt hblocks) ?_ ?_ ?_, ?_⟩
      · rwa [List.take_left]
      · rwa [List.drop_left, List.take_left]
      · rwa [drop_blocks]
      · simp only [List.forall_mem_cons, List.forall_mem_append]
        refine ⟨by omega, ⟨?_, ?_⟩, ?_⟩
        · exact heights_le_mono hyesTable (by omega)
        · exact heights_le_mono hnoTable (by omega)
        · exact heights_le_mono htable (by omega)
  | @loop body rest h l hpos _ _ ihbody ih =>
      rw [Instr.listSize_loop] at hlen
      have hbodyWords := Instr.length_listWords c names body
      have hblock := not_length_block_lt (Instr.listWords c names body)
        (Instr.listWords c names rest)
      have hdecode := decode_loop position (Instr.listWords c names body ++
        Instr.listWords c names rest) (lt_size_of_lt_signedSize
          (show (Instr.listWords c names body).length < signedSize by omega))
      let next := position + (Instruction.loop (Instr.listWords c names body).length).size
      obtain ⟨bodyTable, hbody, hbodyTable⟩ :=
        ihbody (hcode.mono fun o ho => by simp [ho]) (by omega) next
      obtain ⟨table, hrest, htable⟩ := ih (hcode.mono fun o ho => by simp [ho]) (by omega)
        (next + (Instr.listWords c names body).length)
      rw [Instr.listWords_loop, Instr.listSize_loop]
      refine ⟨(position, h) :: (bodyTable ++ table),
        .loop hdecode hpos (Nat.le_of_not_lt hblock) ?_ ?_, ?_⟩
      · rwa [List.take_left]
      · rwa [List.drop_left]
      · simp only [List.forall_mem_cons, List.forall_mem_append]
        refine ⟨by omega, ?_, ?_⟩
        · exact heights_le_mono hbodyTable (by omega)
        · exact heights_le_mono htable (by omega)

end Balanced

theorem exists_listing {names : List String} (name : String) {code : List UInt32}
    (h : Tracks (listBlock names 1 0 code) 0 1) :
    ∃ listing, ((listCode names name code).exec .empty).1 = .ok listing := by
  obtain ⟨statements, t, hblock, ht, -⟩ := h .empty Slots.empty_at
  have htop : t.top = 0 := ht.top
  have hhighest : ¬t.highest < 0 := by
    have hle := ht.top_le
    omega
  simp [listCode, Tracked.exec_bind, hblock, htop, Slots.exec_result, hhighest]

section Rules

variable {r : Rule} {c : Constants} {names : List String} (hchoices : r.body.ChoicesNonempty)
  (hrefs : ∀ ref ∈ r.body.refs, ref.name ∈ names)
  (hlen : (r.assemble c names).length < signedSize)
  (hreach : OffsetsReach signedSize (Instr.listOperands r.lower.code))

include hchoices hrefs hlen hreach

theorem Rule.exists_framed :
    ∃ table, Framed names 0 (r.assemble c names) 0 1 table ∧
      ∀ entry ∈ table, entry.2 < signedSize := by
  have hbalanced : Balanced r.lower.code 0 1 := Expr.lower_balanced hchoices none 0 .empty
  have hcode : Instr.Listable names r.lower.code := ⟨hreach, fun ref href =>
    hrefs ref (Expr.mem_refs_of_lower (Expr.lower_covers r.body none 0 .empty _ href))⟩
  rw [Rule.assemble, Instr.length_listWords] at hlen
  obtain ⟨table, hframed, htable⟩ := hbalanced.exists_framed (c := c) hcode (by omega) 0
  refine ⟨table, hframed, fun entry hentry => ?_⟩
  have hle := htable entry hentry
  omega

theorem Rule.exists_list :
    ∃ listing, Rule.list names { r with bytecode := some (r.assemble c names) } = .ok listing := by
  obtain ⟨table, hframed, htable⟩ := Rule.exists_framed hchoices hrefs hlen hreach
  obtain ⟨listing, hlisting⟩ := exists_listing r.name (hframed.tracks htable 1)
  refine ⟨listing, ?_⟩
  simp only [Rule.list, hlisting]

end Rules

end PegCompiler
