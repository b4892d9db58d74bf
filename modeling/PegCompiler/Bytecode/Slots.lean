import PegCompiler.Bytecode.Fault

/-!
# Stack slots

The stack of a rule is followed without running it: a tracker knows which slot is on top and the
highest one that ever was. Values are given names by their slots.

An operation that fails leaves the tracker as it stands at that moment, so the state survives the
fault. The operations run in any monad with such a state and with faults.
-/

namespace PegCompiler

structure Slots where
  /-- The slot on top, `-1` when the stack is empty. -/
  top : Int
  highest : Int
  deriving DecidableEq, Repr

/-- Computations that follow the stack. -/
abbrev Tracked := ExceptT Fault (StateM Slots)

/-- The answer of a computation that starts with `s`, and the tracker behind it. -/
def Tracked.exec (x : Tracked α) (s : Slots) : Except Fault α × Slots :=
  x.run.run s

namespace Tracked

@[simp] theorem exec_pure (a : α) (s : Slots) : exec (pure a) s = (.ok a, s) := rfl

@[simp] theorem exec_throw (fault : Fault) (s : Slots) :
    exec (throw fault : Tracked α) s = (.error fault, s) := rfl

@[simp] theorem exec_get (s : Slots) : exec get s = (.ok s, s) := rfl

@[simp] theorem exec_set (s t : Slots) : exec (set t) s = (.ok ⟨⟩, t) := rfl

@[simp] theorem exec_modify (f : Slots → Slots) (s : Slots) :
    exec (modify f) s = (.ok ⟨⟩, f s) := rfl

theorem exec_bind (x : Tracked α) (f : α → Tracked β) (s : Slots) :
    exec (x >>= f) s = match exec x s with
      | (.ok a, t) => exec (f a) t
      | (.error fault, t) => (.error fault, t) := by
  simp only [exec, ExceptT.run_bind, StateT.run_bind]
  generalize x.run.run s = r
  rcases r with ⟨_ | _, _⟩ <;> rfl

@[simp] theorem exec_map (f : α → β) (x : Tracked α) (s : Slots) :
    exec (f <$> x) s = match exec x s with
      | (.ok a, t) => (.ok (f a), t)
      | (.error fault, t) => (.error fault, t) := by
  simp only [exec, ExceptT.run_map, StateT.run_map]
  generalize x.run.run s = r
  rcases r with ⟨_ | _, _⟩ <;> rfl

theorem exec_bind_eq_ok {x : Tracked α} {f : α → Tracked β} {s u : Slots} {b : β} :
    exec (x >>= f) s = (.ok b, u) ↔
      ∃ a t, exec x s = (.ok a, t) ∧ exec (f a) t = (.ok b, u) := by
  rw [exec_bind]
  rcases exec x s with ⟨_ | a, t⟩
  · simp
  · constructor
    · exact fun h => ⟨a, t, rfl, h⟩
    · rintro ⟨a, t, ⟨rfl, rfl⟩, h⟩
      exact h

end Tracked

/-- A word as a signed number of 32 bits. -/
def signed (w : UInt32) : Int :=
  if 2 * w.toNat < UInt32.size then w.toNat else (w.toNat : Int) - UInt32.size

theorem signed_of_lt {w : UInt32} (h : 2 * w.toNat < UInt32.size) : signed w = w.toNat := by
  simp only [signed, h, if_true]

namespace Slots

def empty : Slots := ⟨-1, -1⟩

def label (slot : Int) : String := s!"s{slot}"

/-- The declaration of every slot that was ever used. -/
def defines (s : Slots) : String :=
  if s.highest < 0 then ""
  else
    "let " ++ ", ".intercalate ((List.range (s.highest + 1).toNat).map fun (i : Nat) => label i) ++
      ";"

variable {m : Type → Type} [Monad m] [MonadStateOf Slots m] [MonadExceptOf Fault m]

def name (slot : Int) : m String :=
  if slot < 0 then throw (.underflow slot) else pure (label slot)

def push (value : String) : m String := do
  modify fun s => ⟨s.top + 1, max s.highest (s.top + 1)⟩
  return (← name (← get).top) ++ " = " ++ value ++ ";"

def pop : m String := do
  let s ← get
  let top ← name s.top
  set { s with top := s.top - 1 }
  return top

/-- Names of the topmost slots, from the deepest one. -/
def popMany (w : UInt32) : m (List String) := do
  let s ← get
  let n := signed w
  if 0 < n ∧ s.top - n + 1 < 0 then throw (.underflow (s.top - n + 1))
  set { s with top := s.top - n }
  return (List.range n.toNat).map fun (i : Nat) => label (s.top - n + 1 + i)

def topName : m String := do
  name (← get).top

/-- The name of the slot `w` places below the top. -/
def index (w : UInt32) : m String := do
  name ((← get).top - signed w)

/-- The bottom slot, which holds the value of a rule. -/
def result : m String := do
  if (← get).highest < 0 then throw .noResult
  name 0

/-- Runs both branches of a condition from the same top; they have to agree on the new one. -/
def checkedIf (position : Nat) (yes : m α) (no : m β) : m (α × β) := do
  let before := (← get).top
  let a ← yes
  let afterThen := (← get).top
  modify fun s => { s with top := before }
  let b ← no
  let afterElse := (← get).top
  if afterThen ≠ afterElse then throw (.unevenBranches before afterThen afterElse position)
  return (a, b)

/-- The body of a loop has to leave the top where it was. -/
def checkedLoop (position : Nat) (body : m α) : m α := do
  let before := (← get).top
  let a ← body
  let after := (← get).top
  if after ≠ before then throw (.unevenLoop before after position)
  return a

section Exec

open Tracked

theorem exec_name (slot : Int) (s : Slots) :
    exec (name slot) s = (if slot < 0 then .error (.underflow slot) else .ok (label slot), s) := by
  unfold name
  split <;> rfl

theorem exec_push (value : String) (s : Slots) (h : -1 ≤ s.top) :
    exec (push value) s =
      (.ok (label (s.top + 1) ++ " = " ++ value ++ ";"),
        ⟨s.top + 1, max s.highest (s.top + 1)⟩) := by
  have hn : ¬s.top + 1 < 0 := by omega
  simp [push, exec_bind, exec_name, hn]

theorem exec_pop (s : Slots) :
    exec pop s = if s.top < 0 then (.error (.underflow s.top), s)
      else (.ok (label s.top), { s with top := s.top - 1 }) := by
  by_cases h : s.top < 0 <;> simp [pop, exec_bind, exec_name, h]

theorem exec_popMany (w : UInt32) (s : Slots) :
    exec (popMany w) s =
      if 0 < signed w ∧ s.top - signed w + 1 < 0 then
        (.error (.underflow (s.top - signed w + 1)), s)
      else (.ok ((List.range (signed w).toNat).map fun (i : Nat) =>
        label (s.top - signed w + 1 + i)), { s with top := s.top - signed w }) := by
  by_cases h : 0 < signed w ∧ s.top - signed w + 1 < 0 <;> simp [popMany, exec_bind, h]

theorem exec_topName (s : Slots) :
    exec topName s =
      (if s.top < 0 then .error (.underflow s.top) else .ok (label s.top), s) := by
  simp [topName, exec_bind, exec_name]

theorem exec_index (w : UInt32) (s : Slots) :
    exec (index w) s = (if s.top - signed w < 0 then .error (.underflow (s.top - signed w))
      else .ok (label (s.top - signed w)), s) := by
  simp [index, exec_bind, exec_name]

theorem exec_result (s : Slots) :
    exec result s = (if s.highest < 0 then .error .noResult else .ok (label 0), s) := by
  by_cases h : s.highest < 0 <;> simp [result, exec_bind, exec_name, h]

theorem exec_checkedIf_eq_ok {position : Nat} {yes : Tracked α} {no : Tracked β} {s u : Slots}
    {a : α} {b : β} :
    exec (checkedIf position yes no) s = (.ok (a, b), u) ↔
      ∃ t, exec yes s = (.ok a, t) ∧ exec no { t with top := s.top } = (.ok b, u) ∧
        u.top = t.top := by
  rw [checkedIf, exec_bind]
  simp only [exec_get, exec_bind, exec_modify]
  rcases hy : exec yes s with ⟨_ | a', t⟩
  · simp
  dsimp only
  rcases hn : exec no { t with top := s.top } with ⟨_ | b', v⟩
  · simp only [Prod.mk.injEq, reduceCtorEq, false_and, false_iff]
    rintro ⟨_, ⟨_, rfl⟩, h, _⟩
    simp [hn] at h
  by_cases h : t.top = v.top
  · simp only [h, ne_eq, not_true_eq_false, if_false, exec_pure, Prod.mk.injEq,
      Except.ok.injEq]
    constructor
    · rintro ⟨⟨rfl, rfl⟩, rfl⟩
      exact ⟨t, ⟨rfl, rfl⟩, hn, h.symm⟩
    · rintro ⟨t', ⟨rfl, rfl⟩, h', _⟩
      rw [hn, Prod.mk.injEq, Except.ok.injEq] at h'
      exact ⟨⟨rfl, h'.1⟩, h'.2⟩
  · simp only [h, ne_eq, not_false_eq_true, if_true, exec_bind, exec_throw, Prod.mk.injEq,
      reduceCtorEq, false_and, false_iff]
    rintro ⟨t', ⟨_, rfl⟩, h', hu⟩
    rw [hn, Prod.mk.injEq] at h'
    exact h (by rw [← hu, h'.2])

theorem exec_checkedLoop_eq_ok {position : Nat} {body : Tracked α} {s u : Slots} {a : α} :
    exec (checkedLoop position body) s = (.ok a, u) ↔
      exec body s = (.ok a, u) ∧ u.top = s.top := by
  rw [checkedLoop, exec_bind]
  simp only [exec_get, exec_bind]
  rcases h : exec body s with ⟨_ | a', t⟩
  · simp
  by_cases ht : t.top = s.top
  · simp only [ht, ne_eq, not_true_eq_false, if_false, exec_pure, Prod.mk.injEq,
      Except.ok.injEq, iff_self_and]
    rintro ⟨-, rfl⟩
    exact ht
  · simp only [ht, ne_eq, not_false_eq_true, if_true, exec_bind, exec_throw, Prod.mk.injEq,
      Except.ok.injEq, reduceCtorEq, false_and, false_iff]
    rintro ⟨⟨-, rfl⟩, hu⟩
    exact ht hu

end Exec

end Slots

end PegCompiler
