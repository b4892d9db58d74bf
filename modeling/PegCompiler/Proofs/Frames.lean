import PegCompiler.Proofs.Decoding
import PegCompiler.Proofs.Tracking

/-!
# Frames of code

What an instruction takes from the stack and puts there can be told from its operands. Code is
framed when every instruction finds what it takes, the blocks of a branch lead to one height and the
body of a loop comes back to where it began. Code has a listing just when it is framed.
-/

namespace PegCompiler

/-- How far below the top the test reads. -/
def Test.reads : Test → List UInt32
  | isTrue | isFailed | isNotFailed => [0]
  | _ => []

namespace Instruction

/-- The number of values that are taken from the stack. -/
def pops : Instruction → Nat
  | pop | popCurrPos | append | text => 1
  | nip => 2
  | popN n | wrap n | pluck n _ | call _ n _ => n.toNat
  | _ => 0

/-- The number of values that are put on the stack. -/
def pushes : Instruction → Nat
  | push _ | nip | wrap _ | text | pluck _ _ | acceptN _ | acceptString _ | fail _ | call _ _ _
  | rule _ => 1
  | pop | popCurrPos | popN _ | append | branch _ _ _ | loop _ | loadSavedPos _ | updateSavedPos
  | silentFailsOn | silentFailsOff => 0

/-- How far below the top the instruction reads, besides what it takes. -/
def reads : Instruction → List UInt32
  | append => [1]
  | pluck _ offsets => offsets
  | call _ _ offsets => offsets
  | loadSavedPos offset => [offset]
  | branch test _ _ => test.reads
  | loop _ => Test.isNotFailed.reads
  | _ => []

/-- The number of words in the blocks of the instruction. -/
def extent : Instruction → Nat
  | branch _ yes no => yes + no
  | loop body => body
  | _ => 0

/-- Whether the instruction finds what it needs on a stack of height `h` and leaves one of height
`k`, in a program with rules of these `names`. -/
structure Shifts (names : List String) (i : Instruction) (h k : Nat) : Prop where
  pops_le : i.pops ≤ h
  height : k + i.pops = h + i.pushes
  reads_lt : ∀ o ∈ i.reads, signed o < h
  called : ∀ index, i = .rule index → index.toNat < names.length

theorem plain_or (i : Instruction) :
    i.isPlain ∨ (∃ test yes no, i = .branch test yes no) ∨ ∃ body, i = .loop body := by
  cases i with
  | branch test yes no => exact .inr (.inl ⟨test, yes, no, rfl⟩)
  | loop body => exact .inr (.inr ⟨body, rfl⟩)
  | _ => exact .inl rfl

section Statements

variable {names : List String} {i : Instruction} {h k : Nat}

open Tracked

/-- What an instruction needs is enough for its statements. -/
theorem Shifts.tracks (hi : i.Shifts names h k) (hplain : i.isPlain) (hpops : i.pops < signedSize) :
    Tracks (i.statements names) h k := by
  obtain ⟨hle, hk, hreads, hcalled⟩ := hi
  cases i with
  | branch | loop => cases hplain
  | push | acceptString | fail =>
      obtain rfl : k = h + 1 := hk
      exact .bind (.push _) fun _ => .pure _
  | acceptN n =>
      obtain rfl : k = h + 1 := hk
      simp only [statements]
      split
      · exact .bind (.push _) fun _ => .pure _
      · exact .bind (.push _) fun _ => .pure _
  | pop | popCurrPos => exact .bind (.pop hk) fun _ => .pure _
  | popN n => exact .bind (.popMany (signed_eq_toNat hpops) hk) fun _ => .pure _
  | nip =>
      have hk : k + 2 = h + 1 := hk
      have hle : 2 ≤ h := hle
      refine .bind (.pop (Nat.sub_add_cancel (by omega))) fun value => ?_
      refine .bind (.pop (show k - 1 + 1 = h - 1 by omega)) fun _ => ?_
      exact .bind (.push_back (by omega) value) fun _ => .pure _
  | append =>
      have hk : k + 1 = h := hk
      have hread : signed 1 < h := hreads 1 (List.mem_singleton_self 1)
      have hone : signed 1 = 1 := rfl
      refine .bind (.pop hk) fun value => ?_
      exact .bind (.topName (by omega)) fun _ => .pure _
  | wrap n =>
      have hk : k + n.toNat = h + 1 := hk
      have hle : n.toNat ≤ h := hle
      have hrest : k - 1 + n.toNat = h := by omega
      refine .bind (.popMany (signed_eq_toNat hpops) hrest) fun values => ?_
      exact .bind (.push_back (by omega) _) fun _ => .pure _
  | text =>
      obtain rfl : k = h := Nat.succ.inj hk
      refine .bind (.pop (Nat.sub_add_cancel hle)) fun value => ?_
      exact .bind (.push_back hle _) fun _ => .pure _
  | pluck n offsets | call f n offsets =>
      have hle : n.toNat ≤ h := hle
      have hk : k + n.toNat = h + 1 := hk
      exact .replace hreads (signed_eq_toNat hpops) hk (by omega) _
  | loadSavedPos offset =>
      obtain rfl : k = h := hk
      exact .bind (.index (hreads offset (List.mem_singleton_self offset))) fun _ => .pure _
  | rule index =>
      obtain rfl : k = h + 1 := hk
      simp only [statements, List.getElem?_eq_getElem (hcalled index rfl)]
      exact .bind (.push _) fun _ => .pure _
  | updateSavedPos | silentFailsOn | silentFailsOff =>
      obtain rfl : k = h := hk
      exact .pure _

/-- When there are statements for an instruction it found what it needs. -/
theorem shifts_of_statements (hplain : i.isPlain) (hpops : i.pops < signedSize) {s t : Slots}
    (hs : s.At h) {a : List String} (hexec : (i.statements names).exec s = (.ok a, t)) :
    i.Shifts names h (h - i.pops + i.pushes) := by
  suffices hneeds : i.pops ≤ h ∧ (∀ o ∈ i.reads, signed o < h) ∧
      ∀ index, i = .rule index → index.toNat < names.length from
    ⟨hneeds.1, by omega, hneeds.2.1, hneeds.2.2⟩
  cases i with
  | branch | loop => cases hplain
  | pop | popCurrPos | text =>
      obtain ⟨_, _, hpop, -⟩ := exec_bind_eq_ok.mp hexec
      exact ⟨(hs.of_pop hpop).1, by simp [reads], by simp⟩
  | popN n | wrap n =>
      obtain ⟨_, _, hpop, -⟩ := exec_bind_eq_ok.mp hexec
      exact ⟨(hs.of_popMany (signed_eq_toNat hpops) hpop).1, by simp [reads], by simp⟩
  | nip =>
      obtain ⟨_, _, hpop, hexec⟩ := exec_bind_eq_ok.mp hexec
      obtain ⟨_, _, hpop', -⟩ := exec_bind_eq_ok.mp hexec
      obtain ⟨hle, hs⟩ := hs.of_pop hpop
      have hle' := (hs.of_pop hpop').1
      exact ⟨show 2 ≤ h by omega, by simp [reads], by simp⟩
  | append =>
      obtain ⟨_, _, hpop, hexec⟩ := exec_bind_eq_ok.mp hexec
      obtain ⟨_, _, htop, -⟩ := exec_bind_eq_ok.mp hexec
      obtain ⟨hle, hs⟩ := hs.of_pop hpop
      have hpos := (hs.of_topName htop).1
      have hone : signed 1 = 1 := rfl
      refine ⟨hle, fun o ho => ?_, by simp⟩
      obtain rfl := List.mem_singleton.mp ho
      omega
  | pluck n offsets | call f n offsets =>
      obtain ⟨_, _, hindices, hexec⟩ := exec_bind_eq_ok.mp hexec
      obtain ⟨_, _, hpop, -⟩ := exec_bind_eq_ok.mp hexec
      obtain ⟨hreads, rfl⟩ := hs.of_indices hindices
      exact ⟨(hs.of_popMany (signed_eq_toNat hpops) hpop).1, hreads, by simp⟩
  | loadSavedPos offset =>
      obtain ⟨_, _, hindex, -⟩ := exec_bind_eq_ok.mp hexec
      refine ⟨Nat.zero_le _, fun o ho => ?_, by simp⟩
      obtain rfl := List.mem_singleton.mp ho
      exact (hs.of_index hindex).1
  | rule index =>
      refine ⟨Nat.zero_le _, by simp [reads], ?_⟩
      rintro _ ⟨rfl⟩
      refine Nat.lt_of_not_le fun hle => ?_
      simp [statements, List.getElem?_eq_none hle] at hexec
  | _ => exact ⟨Nat.zero_le _, by simp [reads], by simp⟩

theorem tracks_test {test : Test} (hreads : ∀ o ∈ test.reads, signed o < h) :
    Tracks test.text h h := by
  have hzero : signed 0 = 0 := rfl
  cases test with
  | isTrue =>
      have hpos := hreads 0 (List.mem_singleton_self 0)
      exact .topName (by omega)
  | isFailed | isNotFailed =>
      have hpos := hreads 0 (List.mem_singleton_self 0)
      exact .bind (.topName (by omega)) fun _ => .pure _
  | _ => exact .pure _

theorem reads_of_test {test : Test} {s t : Slots} (hs : s.At h) {a : String}
    (hexec : test.text.exec s = (.ok a, t)) : (∀ o ∈ test.reads, signed o < h) ∧ t = s := by
  have hzero : signed 0 = 0 := rfl
  cases test with
  | isTrue =>
      obtain ⟨hpos, rfl⟩ := hs.of_topName hexec
      exact ⟨by simpa [Test.reads, hzero] using hpos, rfl⟩
  | isFailed | isNotFailed =>
      obtain ⟨_, _, htop, hreturn⟩ := exec_bind_eq_ok.mp hexec
      obtain ⟨hpos, rfl⟩ := hs.of_topName htop
      exact ⟨by simpa [Test.reads, hzero] using hpos, (Prod.mk.inj hreturn).2.symm⟩
  | _ => exact ⟨by simp [Test.reads], (Prod.mk.inj hexec).2.symm⟩

end Statements

end Instruction

/-- Code at a position that takes a stack of one height to one of another. The table holds each
instruction in it with the height that the stack has there. -/
inductive Framed (names : List String) : Nat → List UInt32 → Nat → Nat → List (Nat × Nat) → Prop
    where
  | nil {position h : Nat} : Framed names position [] h h []
  | plain {position : Nat} {w : UInt32} {rest left : List UInt32} {i : Instruction} {h k l : Nat}
      {table : List (Nat × Nat)} (hdecode : Instruction.decode position w rest = .ok (i, left))
      (hplain : i.isPlain) (hshifts : i.Shifts names h k)
      (hrest : Framed names (position + i.size) left k l table) :
      Framed names position (w :: rest) h l ((position, h) :: table)
  | branch {position yes no : Nat} {w : UInt32} {rest left : List UInt32} {test : Test}
      {h k l : Nat} {yesTable noTable table : List (Nat × Nat)}
      (hdecode : Instruction.decode position w rest = .ok (.branch test yes no, left))
      (htest : ∀ o ∈ test.reads, signed o < h) (hlen : yes + no ≤ left.length)
      (hyes : Framed names (position + (Instruction.branch test yes no).size) (left.take yes) h k
        yesTable)
      (hno : Framed names (position + (Instruction.branch test yes no).size + yes)
        ((left.drop yes).take no) h k noTable)
      (hrest : Framed names (position + (Instruction.branch test yes no).size + yes + no)
        (left.drop (yes + no)) k l table) :
      Framed names position (w :: rest) h l ((position, h) :: (yesTable ++ noTable ++ table))
  | loop {position body : Nat} {w : UInt32} {rest left : List UInt32} {h l : Nat}
      {bodyTable table : List (Nat × Nat)}
      (hdecode : Instruction.decode position w rest = .ok (.loop body, left)) (hpos : 0 < h)
      (hlen : body ≤ left.length)
      (hbody : Framed names (position + (Instruction.loop body).size) (left.take body) h h
        bodyTable)
      (hrest : Framed names (position + (Instruction.loop body).size + body) (left.drop body) h l
        table) :
      Framed names position (w :: rest) h l ((position, h) :: (bodyTable ++ table))

section Listed

variable {names : List String} {position : Nat} {code : List UInt32} {h k : Nat}
  {table : List (Nat × Nat)}

open Tracked

/-- Framed code has a listing. -/
theorem Framed.tracks (hcode : Framed names position code h k table)
    (hsmall : ∀ entry ∈ table, entry.2 < signedSize) (depth : Nat) :
    Tracks (listBlock names depth position code) h k := by
  induction hcode generalizing depth with
  | nil =>
      rw [listBlock]
      exact .pure []
  | plain hdecode hplain hshifts _ ih =>
      obtain ⟨hh, hsmall⟩ := List.forall_mem_cons.mp hsmall
      have hstatements := hshifts.tracks hplain (Nat.lt_of_le_of_lt hshifts.pops_le hh)
      rw [listBlock_plain hdecode hplain]
      exact .bind hstatements fun _ => .bind (ih hsmall depth) fun _ => .pure _
  | branch hdecode htest hlen _ _ _ ihyes ihno ih =>
      simp only [List.forall_mem_cons, List.forall_mem_append] at hsmall
      obtain ⟨-, ⟨hyes, hno⟩, hrest⟩ := hsmall
      rw [listBlock_branch hdecode]
      simp only [if_neg (Nat.not_lt.mpr hlen)]
      refine .bind (Instruction.tracks_test htest) fun _ => ?_
      refine .bind (.checkedIf (ihyes hyes _) (ihno hno _)) fun _ => ?_
      exact .bind (ih hrest _) fun _ => .pure _
  | loop hdecode hpos hlen _ _ ihbody ih =>
      simp only [List.forall_mem_cons, List.forall_mem_append] at hsmall
      obtain ⟨-, hbody, hrest⟩ := hsmall
      rw [listBlock_loop hdecode]
      simp only [if_neg (Nat.not_lt.mpr hlen)]
      refine .bind (.bind (.topName hpos) fun _ => .pure _) fun _ => ?_
      exact .bind (.checkedLoop (ihbody hbody _)) fun _ => .bind (ih hrest _) fun _ => .pure _

/-- Whether code is framed that takes the stack followed by `s` to the one followed by `t`, without
ever being higher than `t` says. -/
def FramedBetween (names : List String) (position : Nat) (code : List UInt32) (h : Nat)
    (s t : Slots) : Prop :=
  ∃ k table, Framed names position code h k table ∧ t.At k ∧ s.highest ≤ t.highest ∧
    ∀ entry ∈ table, (entry.2 : Int) ≤ t.highest + 1

/-- Whether every listing of the block tells that it is framed. -/
def Recovers (names : List String) (code : List UInt32) : Prop :=
  ∀ (depth position h : Nat) (s t : Slots) (lines : List String), s.At h →
    (listBlock names depth position code).exec s = (.ok lines, t) →
    FramedBetween names position code h s t

theorem Slots.At.le_highest {s : Slots} (hs : s.At h) : (h : Int) ≤ s.highest + 1 := by
  obtain ⟨htop, hle⟩ := hs
  omega

theorem Slots.At.unique {s : Slots} (hh : s.At h) (hk : s.At k) : h = k := by
  have htop := hh.top
  have htop' := hk.top
  omega

theorem Instruction.pops_lt {i : Instruction} (h : ∀ w ∈ i.operands, w.toNat < signedSize) :
    i.pops < signedSize := by
  cases i with
  | popN n | wrap n | pluck n _ => exact h n (List.mem_cons_self ..)
  | call f n offsets => exact h n (List.mem_cons_of_mem _ (List.mem_cons_self ..))
  | _ => simp only [pops, signedSize, UInt32.size]; omega

theorem Instruction.toNat_reads_lt {i : Instruction}
    (h : ∀ w ∈ i.operands, w.toNat < signedSize) : ∀ o ∈ i.reads, o.toNat < signedSize := by
  have hsize : 1 < signedSize := by decide
  cases i with
  | append => simpa [reads] using hsize
  | loop body => simpa [reads, Test.reads] using Nat.lt_of_succ_lt hsize
  | branch test yes no => cases test <;> simp [reads, Test.reads, Nat.lt_of_succ_lt hsize]
  | pluck n offsets =>
      exact fun o ho => h o (List.mem_cons_of_mem _ (List.mem_cons_of_mem _ ho))
  | call f n offsets =>
      intro o ho
      exact h o (List.mem_cons_of_mem _ (List.mem_cons_of_mem _ (List.mem_cons_of_mem _ ho)))
  | loadSavedPos offset => exact h
  | _ => simp [reads]

section Steps

variable {w : UInt32} {rest left : List UInt32} {depth : Nat} {s t : Slots} {lines : List String}

theorem framedBetween_plain {i : Instruction}
    (hdecode : Instruction.decode position w rest = .ok (i, left)) (hplain : i.isPlain)
    (hpops : i.pops < signedSize) (hleft : Recovers names left) (hs : s.At h)
    (hexec : (listBlock names depth position (w :: rest)).exec s = (.ok lines, t)) :
    FramedBetween names position (w :: rest) h s t := by
  rw [listBlock_plain hdecode hplain] at hexec
  obtain ⟨lines', u, hstatements, hafter⟩ := exec_bind_eq_ok.mp hexec
  obtain ⟨after, t', hlist, hreturn⟩ := exec_bind_eq_ok.mp hafter
  obtain rfl := (Prod.mk.inj hreturn).2
  have hshifts := Instruction.shifts_of_statements hplain hpops hs hstatements
  obtain ⟨_, u', htracks, hu, hsu⟩ := hshifts.tracks hplain hpops s hs
  obtain rfl := (Prod.mk.inj (hstatements.symm.trans htracks)).2
  obtain ⟨k, table, hrest, ht, hut, htable⟩ := hleft _ _ _ _ _ _ hu hlist
  have hle := hs.le_highest
  refine ⟨k, _, .plain hdecode hplain hshifts hrest, ht, Int.le_trans hsu hut, ?_⟩
  exact List.forall_mem_cons.mpr ⟨by dsimp only; omega, htable⟩

theorem framedBetween_branch {test : Test} {yes no : Nat}
    (hdecode : Instruction.decode position w rest = .ok (.branch test yes no, left))
    (hyes : Recovers names (left.take yes)) (hno : Recovers names ((left.drop yes).take no))
    (hleft : Recovers names (left.drop (yes + no))) (hs : s.At h)
    (hexec : (listBlock names depth position (w :: rest)).exec s = (.ok lines, t)) :
    FramedBetween names position (w :: rest) h s t := by
  rw [listBlock_branch hdecode] at hexec
  obtain ⟨condition, s', htest, hblocks⟩ := exec_bind_eq_ok.mp hexec
  obtain ⟨hreads, rfl⟩ := Instruction.reads_of_test hs htest
  by_cases hlen : left.length < yes + no
  · simp [hlen] at hblocks
  simp only [if_neg hlen] at hblocks
  obtain ⟨_, u, hif, hafter⟩ := exec_bind_eq_ok.mp hblocks
  obtain ⟨v, hyesList, hnoList, htop⟩ := Slots.exec_checkedIf_eq_ok.mp hif
  obtain ⟨after, t', hlist, hreturn⟩ := exec_bind_eq_ok.mp hafter
  obtain rfl := (Prod.mk.inj hreturn).2
  obtain ⟨k, yesTable, hyesCode, hv, hsv, hyesTable⟩ := hyes _ _ _ _ _ _ hs hyesList
  have hback : Slots.At { v with top := s'.top } h := ⟨hs.top, Int.le_trans hs.top_le hsv⟩
  obtain ⟨k', noTable, hnoCode, hu, hvu, hnoTable⟩ := hno _ _ _ _ _ _ hback hnoList
  obtain rfl : k' = k := hu.unique ⟨htop.trans hv.top, hu.top_le⟩
  obtain ⟨l, table, hrest, ht, hut, htable⟩ := hleft _ _ _ _ _ _ hu hlist
  have hle := hs.le_highest
  dsimp only at hvu
  refine ⟨l, _, .branch hdecode hreads (Nat.le_of_not_lt hlen) hyesCode hnoCode hrest, ht,
    by omega, ?_⟩
  simp only [List.forall_mem_cons, List.forall_mem_append]
  refine ⟨by omega, ⟨fun entry hentry => ?_, fun entry hentry => ?_⟩, htable⟩
  · have hentry := hyesTable entry hentry
    omega
  · have hentry := hnoTable entry hentry
    omega

theorem framedBetween_loop {body : Nat}
    (hdecode : Instruction.decode position w rest = .ok (.loop body, left))
    (hbody : Recovers names (left.take body)) (hleft : Recovers names (left.drop body))
    (hs : s.At h) (hexec : (listBlock names depth position (w :: rest)).exec s = (.ok lines, t)) :
    FramedBetween names position (w :: rest) h s t := by
  rw [listBlock_loop hdecode] at hexec
  obtain ⟨condition, s', htest, hblocks⟩ := exec_bind_eq_ok.mp hexec
  obtain ⟨hreads, rfl⟩ := Instruction.reads_of_test hs htest
  by_cases hlen : left.length < body
  · simp [hlen] at hblocks
  simp only [if_neg hlen] at hblocks
  obtain ⟨_, u, hloop, hafter⟩ := exec_bind_eq_ok.mp hblocks
  obtain ⟨hbodyList, htop⟩ := Slots.exec_checkedLoop_eq_ok.mp hloop
  obtain ⟨after, t', hlist, hreturn⟩ := exec_bind_eq_ok.mp hafter
  obtain rfl := (Prod.mk.inj hreturn).2
  obtain ⟨k, bodyTable, hbodyCode, hu, hsu, hbodyTable⟩ := hbody _ _ _ _ _ _ hs hbodyList
  obtain rfl : k = h := hu.unique ⟨htop.trans hs.top, hu.top_le⟩
  obtain ⟨l, table, hrest, ht, hut, htable⟩ := hleft _ _ _ _ _ _ hu hlist
  have hle := hs.le_highest
  have hzero : signed 0 = 0 := rfl
  have hpos := hreads 0 (List.mem_singleton_self 0)
  refine ⟨l, _, .loop hdecode (by omega) (Nat.le_of_not_lt hlen) hbodyCode hrest, ht, by omega, ?_⟩
  simp only [List.forall_mem_cons, List.forall_mem_append]
  refine ⟨by omega, fun entry hentry => ?_, htable⟩
  have hentry := hbodyTable entry hentry
  omega

end Steps

/-- Code of small words that has a listing is framed. -/
theorem recovers (hwords : ∀ w ∈ code, w.toNat < signedSize) : Recovers names code := by
  induction hn : code.length using Nat.strongRecOn generalizing code with
  | ind n ih =>
      have hshorter : ∀ block : List UInt32, block.length < n → (∀ w ∈ block, w ∈ code) →
          Recovers names block := fun block hlt hsub =>
        ih _ hlt (fun w hw => hwords w (hsub w hw)) rfl
      intro depth position h s t lines hs hexec
      cases code with
      | nil =>
          rw [listBlock] at hexec
          obtain rfl := (Prod.mk.inj hexec).2
          exact ⟨h, [], .nil, hs, Int.le_refl _, by simp⟩
      | cons w rest =>
          cases hdecode : Instruction.decode position w rest with
          | error fault => exact absurd hexec (not_exec_listBlock_of_fault hdecode)
          | ok found =>
              obtain ⟨i, left⟩ := found
              obtain ⟨-, rfl, -⟩ := Instruction.words_of_decode hdecode
              simp only [List.length_cons, List.length_append] at hn
              have hblock : ∀ block : List UInt32, block <:+: left → Recovers names block := by
                intro block hblock
                refine hshorter block ?_ fun w hw => ?_
                · have hlen := hblock.length_le
                  omega
                · simp [hblock.subset hw]
              have htake : ∀ n, left.take n <:+: left := fun n => (List.take_prefix ..).isInfix
              have hdrop : ∀ n, left.drop n <:+: left := fun n => (List.drop_suffix ..).isInfix
              obtain hplain | ⟨test, yes, no, rfl⟩ | ⟨body, rfl⟩ := i.plain_or
              · have hpops : i.pops < signedSize :=
                  Instruction.pops_lt fun w hw => hwords w (by simp [hw])
                exact framedBetween_plain hdecode hplain hpops (hblock _ (List.infix_refl _)) hs
                  hexec
              · have hno : (left.drop yes).take no <:+: left :=
                  (List.take_prefix ..).isInfix.trans (hdrop yes)
                exact framedBetween_branch hdecode (hblock _ (htake _)) (hblock _ hno)
                  (hblock _ (hdrop _)) hs hexec
              · exact framedBetween_loop hdecode (hblock _ (htake _)) (hblock _ (hdrop _)) hs hexec

end Listed

end PegCompiler
