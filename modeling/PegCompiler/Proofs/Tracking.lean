import PegCompiler.Bytecode.Listing

/-!
# Following the stack

A listing follows the top of the stack through the words of the code. Each of its operations
succeeds on a stack that is high enough, and fails on a lower one.
-/

namespace PegCompiler

/-- Whether no blocks belong to the instruction. -/
def Instruction.isPlain : Instruction → Bool
  | branch _ _ _ => false
  | loop _ => false
  | _ => true

/-- Whether a stack of `height` slots is followed. -/
structure Slots.At (s : Slots) (height : Nat) : Prop where
  top : s.top = (height : Int) - 1
  top_le : s.top ≤ s.highest

theorem Slots.empty_at : Slots.empty.At 0 :=
  ⟨rfl, Int.le_refl _⟩

/-- Whether a computation succeeds on stacks of height `h` and leaves them with height `k`. -/
def Tracks {α : Type} (x : Tracked α) (h k : Nat) : Prop :=
  ∀ s : Slots, s.At h → ∃ a t, x.exec s = (.ok a, t) ∧ t.At k ∧ s.highest ≤ t.highest

namespace Tracks

open Tracked Slots

variable {α β : Type} {h k l : Nat}

theorem pure (a : α) : Tracks (Pure.pure a) h h :=
  fun s hs => ⟨a, s, rfl, hs, Int.le_refl _⟩

theorem bind {x : Tracked α} {f : α → Tracked β} (hx : Tracks x h k)
    (hf : ∀ a, Tracks (f a) k l) : Tracks (x >>= f) h l := by
  intro s hs
  obtain ⟨a, t, hxs, ht, hst⟩ := hx s hs
  obtain ⟨b, u, hft, hu, htu⟩ := hf a t ht
  exact ⟨b, u, exec_bind_eq_ok.mpr ⟨a, t, hxs, hft⟩, hu, Int.le_trans hst htu⟩

theorem push (value : String) : Tracks (Slots.push value) h (h + 1) := by
  rintro s ⟨htop, -⟩
  refine ⟨_, _, exec_push value s (by omega), ⟨?_, ?_⟩, ?_⟩
  · simp only [htop]
    omega
  · exact Int.le_max_right _ _
  · exact Int.le_max_left _ _

theorem push_back (hpos : 0 < k) (value : String) : Tracks (Slots.push value) (k - 1) k := by
  have hpush : Tracks (Slots.push value) (k - 1) (k - 1 + 1) := .push value
  rwa [Nat.sub_add_cancel hpos] at hpush

theorem pop (hk : k + 1 = h) : Tracks Slots.pop h k := by
  rintro s ⟨htop, hle⟩
  refine ⟨_, _, (exec_pop s).trans (if_neg (by omega)), ⟨?_, ?_⟩, Int.le_refl _⟩
  · simp only [htop]
    omega
  · dsimp only
    omega

theorem popMany {w : UInt32} {n : Nat} (hw : signed w = n) (hk : k + n = h) :
    Tracks (Slots.popMany w) h k := by
  rintro s ⟨htop, hle⟩
  refine ⟨_, _, (exec_popMany w s).trans (if_neg (by omega)), ⟨?_, ?_⟩, Int.le_refl _⟩
  · simp only [htop, hw]
    omega
  · dsimp only
    omega

theorem topName (hpos : 0 < h) : Tracks Slots.topName h h := by
  rintro s hs
  have htop := hs.top
  exact ⟨_, s, (exec_topName s).trans (by rw [if_neg (by omega)]), hs, Int.le_refl _⟩

theorem index {w : UInt32} (hw : signed w < h) : Tracks (Slots.index w) h h := by
  rintro s hs
  have htop := hs.top
  exact ⟨_, s, (exec_index w s).trans (by rw [if_neg (by omega)]), hs, Int.le_refl _⟩

theorem indices {ws : List UInt32} (hws : ∀ w ∈ ws, signed w < h) :
    Tracks (ws.mapM (m := Tracked) Slots.index) h h := by
  induction ws with
  | nil => exact .pure []
  | cons w ws ih =>
      obtain ⟨hw, hws⟩ := List.forall_mem_cons.mp hws
      rw [List.mapM_cons]
      exact .bind (.index hw) fun _ => .bind (ih hws) fun _ => .pure _

/-- The values of some slots replace the topmost ones. -/
theorem replace {ws : List UInt32} {w : UInt32} {n : Nat} (hws : ∀ w ∈ ws, signed w < h)
    (hw : signed w = n) (hk : k + n = h + 1) (hpos : 0 < k) (build : List String → String) :
    Tracks (do
      let values ← ws.mapM Slots.index
      let _ ← (Slots.popMany w : Tracked (List String))
      return [← Slots.push (build values)]) h k := by
  have hpop : k - 1 + n = h := by omega
  refine .bind (.indices hws) fun values => .bind (.popMany hw hpop) fun _ => ?_
  exact .bind (.push_back hpos _) fun _ => .pure _

theorem checkedIf {position : Nat} {yes : Tracked α} {no : Tracked β} (hyes : Tracks yes h k)
    (hno : Tracks no h k) : Tracks (Slots.checkedIf position yes no) h k := by
  rintro s hs
  obtain ⟨a, t, hyes, ht, hst⟩ := hyes s hs
  have hback : Slots.At { t with top := s.top } h := ⟨hs.top, Int.le_trans hs.top_le hst⟩
  obtain ⟨b, u, hno, hu, htu⟩ := hno _ hback
  have htop : u.top = t.top := by rw [hu.top, ht.top]
  exact ⟨(a, b), u, exec_checkedIf_eq_ok.mpr ⟨t, hyes, hno, htop⟩, hu, Int.le_trans hst htu⟩

theorem checkedLoop {position : Nat} {body : Tracked α} (hbody : Tracks body h h) :
    Tracks (Slots.checkedLoop position body) h h := by
  rintro s hs
  obtain ⟨a, t, hbody, ht, hst⟩ := hbody s hs
  have htop : t.top = s.top := by rw [ht.top, hs.top]
  exact ⟨a, t, exec_checkedLoop_eq_ok.mpr ⟨hbody, htop⟩, ht, hst⟩

end Tracks

/-! ## What success tells -/

namespace Slots.At

open Tracked Slots

variable {s t : Slots} {h n : Nat} {w : UInt32}

theorem of_pop (hs : s.At h) {a : String} (hexec : exec pop s = (.ok a, t)) :
    1 ≤ h ∧ t.At (h - 1) := by
  obtain ⟨htop, hle⟩ := hs
  rw [exec_pop] at hexec
  split at hexec
  · simp at hexec
  · obtain rfl := (Prod.mk.inj hexec).2
    exact ⟨by omega, by dsimp only; omega, by dsimp only; omega⟩

theorem of_popMany (hs : s.At h) (hw : signed w = n) {a : List String}
    (hexec : exec (popMany w) s = (.ok a, t)) : n ≤ h ∧ t.At (h - n) := by
  obtain ⟨htop, hle⟩ := hs
  rw [exec_popMany, hw] at hexec
  split at hexec
  · simp at hexec
  · obtain rfl := (Prod.mk.inj hexec).2
    exact ⟨by omega, by dsimp only; omega, by dsimp only; omega⟩

theorem of_topName (hs : s.At h) {a : String} (hexec : exec topName s = (.ok a, t)) :
    0 < h ∧ t = s := by
  have htop := hs.top
  rw [exec_topName] at hexec
  obtain ⟨hok, rfl⟩ := Prod.mk.inj hexec
  split at hok
  · cases hok
  · exact ⟨by omega, rfl⟩

theorem of_index (hs : s.At h) {a : String} (hexec : exec (index w) s = (.ok a, t)) :
    signed w < h ∧ t = s := by
  have htop := hs.top
  rw [exec_index] at hexec
  obtain ⟨hok, rfl⟩ := Prod.mk.inj hexec
  split at hok
  · cases hok
  · exact ⟨by omega, rfl⟩

theorem of_indices {ws : List UInt32} (hs : s.At h) {as : List String}
    (hexec : exec (ws.mapM (m := Tracked) index) s = (.ok as, t)) :
    (∀ w ∈ ws, signed w < h) ∧ t = s := by
  induction ws generalizing as t with
  | nil => exact ⟨by simp, (Prod.mk.inj hexec).2.symm⟩
  | cons w ws ih =>
      rw [List.mapM_cons] at hexec
      obtain ⟨a, s', hfirst, hothers⟩ := exec_bind_eq_ok.mp hexec
      obtain ⟨hw, rfl⟩ := hs.of_index hfirst
      obtain ⟨as, t', hrest, hreturn⟩ := exec_bind_eq_ok.mp hothers
      obtain ⟨hws, rfl⟩ := ih hrest
      exact ⟨List.forall_mem_cons.mpr ⟨hw, hws⟩, (Prod.mk.inj hreturn).2.symm⟩

end Slots.At

/-! ## Numbers in signed words -/

/-- The numbers that a signed word can hold are below this one. -/
def signedSize : Nat := UInt32.size / 2

theorem lt_size_of_lt_signedSize {n : Nat} (h : n < signedSize) : n < UInt32.size :=
  Nat.lt_trans h (by decide)

theorem signed_eq_toNat {w : UInt32} (h : w.toNat < signedSize) : signed w = w.toNat :=
  signed_of_lt (by simp only [signedSize, UInt32.size] at h ⊢; omega)

theorem signed_ofNat {n : Nat} (h : n < signedSize) : signed (UInt32.ofNat n) = n := by
  have htoNat : (UInt32.ofNat n).toNat = n := by
    rw [UInt32.toNat_ofNat_of_lt' (lt_size_of_lt_signedSize h)]
  rw [signed_of_lt, htoNat]
  simp only [htoNat, signedSize, UInt32.size] at h ⊢
  omega

theorem signed_ofInt {d : Int} (hlow : -signedSize ≤ d) (hhigh : d < signedSize) :
    signed (UInt32.ofInt d) = d := by
  simp only [signedSize, UInt32.size] at hlow hhigh
  simp only [signed, UInt32.ofInt, UInt32.toNat_ofNat', UInt32.size]
  split <;> omega

/-! ## Blocks -/

section Blocks

variable {names : List String} {depth position : Nat} {w : UInt32} {rest left : List UInt32}

theorem not_exec_listBlock_of_fault {fault : Fault}
    (hdecode : Instruction.decode position w rest = .error fault) {s t : Slots} {a : List String} :
    (listBlock names depth position (w :: rest)).exec s ≠ (.ok a, t) := by
  rw [listBlock]
  split
  · simp
  · next h => cases hdecode.symm.trans h

theorem listBlock_plain {i : Instruction}
    (hdecode : Instruction.decode position w rest = .ok (i, left))
    (hplain : i.isPlain) :
    listBlock names depth position (w :: rest) = (do
      let statements ← i.statements names
      let after ← listBlock names depth (position + i.size) left
      return statements.map (Listing.line depth) ++ after) := by
  rw [listBlock]
  split
  · next h => cases hdecode.symm.trans h
  · next j left' h =>
      obtain ⟨rfl, rfl⟩ := Prod.mk.inj (Except.ok.inj (hdecode.symm.trans h))
      cases i with
      | branch | loop => cases hplain
      | _ => rfl

theorem listBlock_branch {test : Test} {yes no : Nat}
    (hdecode : Instruction.decode position w rest = .ok (.branch test yes no, left)) :
    listBlock names depth position (w :: rest) = (do
      let next := position + (Instruction.branch test yes no).size
      let condition ← test.text
      if left.length < yes + no then throw (.longBranches position)
      let (ifPart, elsePart) ← Slots.checkedIf position
        (listBlock names (depth + 1) next (left.take yes))
        (listBlock names (depth + 1) (next + yes) ((left.drop yes).take no))
      let after ← listBlock names depth (next + yes + no) (left.drop (yes + no))
      return Listing.line depth ("if (" ++ condition ++ ") \x7b") :: ifPart ++
        (if no = 0 then [] else Listing.line depth "\x7d else \x7b" :: elsePart) ++
        Listing.line depth "\x7d" :: after) := by
  rw [listBlock]
  split
  · next h => cases hdecode.symm.trans h
  · next j left' h =>
      obtain ⟨rfl, rfl⟩ := Prod.mk.inj (Except.ok.inj (hdecode.symm.trans h))
      rfl

theorem listBlock_loop {body : Nat}
    (hdecode : Instruction.decode position w rest = .ok (.loop body, left)) :
    listBlock names depth position (w :: rest) = (do
      let next := position + (Instruction.loop body).size
      let condition ← Test.isNotFailed.text
      if left.length < body then throw (.longLoop position)
      let part ← Slots.checkedLoop position (listBlock names (depth + 1) next (left.take body))
      let after ← listBlock names depth (next + body) (left.drop body)
      return Listing.line depth ("while (" ++ condition ++ ") \x7b") :: part ++
        Listing.line depth "\x7d" :: after) := by
  rw [listBlock]
  split
  · next h => cases hdecode.symm.trans h
  · next j left' h =>
      obtain ⟨rfl, rfl⟩ := Prod.mk.inj (Except.ok.inj (hdecode.symm.trans h))
      rfl

end Blocks

end PegCompiler
