import PegCompiler.Proofs.Machine

/-!
# Calls of host functions

The machine can keep a record of the host functions that it calls and of what it hands to them. The
record is only written: without it the machine does the same.
-/

namespace PegCompiler

/-- A call as the host function gets it. The position of a predicate is its saved position too. -/
structure Call (α : Type) where
  function : HostFunction
  args : List (Value α)
  savedPosition : Nat
  position : Nat

/-- A state with all calls that were made before. -/
structure Recorded (α : Type) extends State α where
  calls : List (Call α)

variable {α : Type}

/-- The call that an effect makes. -/
def Effect.call? (s : State α) : Effect → Option (Call α)
  | call f _ offsets =>
      some ⟨f, offsets.map fun o => s.stack[o]?.getD .undefined, s.savedPosition, s.position⟩
  | _ => none

/-- Applies the effect and adds its call to the record. -/
def Effect.record (σ : Setting) (h : Host α) (s : Recorded α) (effect : Effect) :
    Option (Recorded α) :=
  (effect.apply σ h s.toState).map fun t =>
    ⟨t, (effect.call? s.toState).elim s.calls (s.calls ++ [·])⟩

section Runs

variable (σ : Setting) (h : Host α) (rules : List Rule) (c : Constants)

/-- Runs an instruction as `Instruction.run` does, and records its calls. -/
def Instruction.record (run : List UInt32 → Recorded α → Option (Recorded α))
    (again left : List UInt32) (s : Recorded α) (i : Instruction) : Option (Recorded α) :=
  match i with
  | branch test yes no =>
      if left.length < yes + no then none
      else (test.condition? c).bind fun condition => (condition.holds? σ s.toState).bind fun b =>
        (run (if b then left.take yes else (left.drop yes).take no) s).bind
          (run (left.drop (yes + no)))
  | loop body =>
      if left.length < body then none
      else (Condition.isNotFailed.holds? σ s.toState).bind fun b =>
        if b then (run (left.take body) s).bind (run again) else run (left.drop body) s
  | rule i =>
      (rules[i.toNat]?.bind (·.bytecode)).bind fun code =>
        (run code { s with stack := [] }).bind fun t =>
          match t.stack with
          | [v] => run left { t with stack := v :: s.stack }
          | _ => none
  | i => (i.effect? c).bind fun effect => (effect.record σ h s).bind (run left)

/-- Runs code to its end with a record of the calls. -/
def recordWords : Nat → List UInt32 → Recorded α → Option (Recorded α)
  | 0, _, _ => none
  | _ + 1, [], s => some s
  | fuel + 1, w :: rest, s =>
      match Instruction.decode 0 w rest with
      | .error _ => none
      | .ok (i, left) => i.record σ h rules c (recordWords fuel) (w :: rest) left s

variable {σ : Setting} {h : Host α} {rules : List Rule} {c : Constants}

theorem bind_mono {β γ : Type} {a a' : Option β} {f f' : β → Option γ} {b : γ}
    (ha : ∀ x, a = some x → a' = some x) (hf : ∀ x, f x = some b → f' x = some b)
    (hb : a.bind f = some b) : a'.bind f' = some b := by
  obtain ⟨x, hx, hb⟩ := Option.bind_eq_some_iff.mp hb
  rw [ha x hx]
  exact hf x hb

/-- What comes to an end with `run` does so with all that runs further. -/
theorem Instruction.record_mono {run run' : List UInt32 → Recorded α → Option (Recorded α)}
    (hrun : ∀ code s t, run code s = some t → run' code s = some t) {again left : List UInt32}
    {s t : Recorded α} {i : Instruction}
    (ht : i.record σ h rules c run again left s = some t) :
    i.record σ h rules c run' again left s = some t := by
  cases i with
  | branch test yes no =>
      simp only [Instruction.record] at ht ⊢
      split at ht
      · cases ht
      · next hlen =>
          rw [if_neg hlen]
          refine bind_mono (fun _ => id) (fun condition => ?_) ht
          refine bind_mono (fun _ => id) fun b => ?_
          exact bind_mono (hrun _ s) fun u => hrun _ u t
  | loop body =>
      simp only [Instruction.record] at ht ⊢
      split at ht
      · cases ht
      · next hlen =>
          rw [if_neg hlen]
          refine bind_mono (fun _ => id) (fun b => ?_) ht
          cases b with
          | true => exact bind_mono (hrun _ s) fun u => hrun _ u t
          | false => exact hrun _ s t
  | rule i =>
      refine bind_mono (fun _ => id) (fun code => ?_) ht
      refine bind_mono (hrun code _) fun u => ?_
      split
      · exact hrun left _ t
      · exact id
  | _ =>
      simp only [Instruction.record] at ht ⊢
      refine bind_mono (fun _ => id) (fun effect => ?_) ht
      exact bind_mono (fun _ => id) fun u => hrun left u t

theorem Instruction.record_of_effect? {run : List UInt32 → Recorded α → Option (Recorded α)}
    {again left : List UInt32} {s : Recorded α} {i : Instruction} {effect : Effect}
    (heffect : i.effect? c = some effect) :
    i.record σ h rules c run again left s = (effect.record σ h s).bind (run left) := by
  cases i with
  | branch | loop | rule => cases heffect
  | _ => simp only [Instruction.record, heffect, Option.bind_some]

theorem recordWords_of_decode {fuel : Nat} {w : UInt32} {rest left : List UInt32} {i : Instruction}
    (hdecode : Instruction.decode 0 w rest = .ok (i, left)) (s : Recorded α) :
    recordWords σ h rules c (fuel + 1) (w :: rest) s =
      i.record σ h rules c (recordWords σ h rules c fuel) (w :: rest) left s := by
  rw [recordWords, hdecode]

theorem recordWords_of_le {m n : Nat} {code : List UInt32} {s t : Recorded α} (hmn : m ≤ n)
    (ht : recordWords σ h rules c m code s = some t) :
    recordWords σ h rules c n code s = some t := by
  induction m generalizing n code s t with
  | zero => cases ht
  | succ m ih =>
      obtain ⟨n, rfl⟩ := Nat.exists_eq_add_of_lt hmn
      cases code with
      | nil => exact ht
      | cons w rest =>
          rw [recordWords] at ht ⊢
          split at ht
          · cases ht
          · exact Instruction.record_mono (fun code s t => ih (Nat.le_add_right m n)) ht

/-- Two recorded runs, with the fuel of the longer. -/
theorem exists_recordWords_both {code code' : List UInt32} {s t s' t' : Recorded α}
    (ht : ∃ fuel, recordWords σ h rules c fuel code s = some t)
    (ht' : ∃ fuel, recordWords σ h rules c fuel code' s' = some t') :
    ∃ fuel, recordWords σ h rules c fuel code s = some t ∧
      recordWords σ h rules c fuel code' s' = some t' := by
  obtain ⟨m, hm⟩ := ht
  obtain ⟨n, hn⟩ := ht'
  exact ⟨max m n, recordWords_of_le (Nat.le_max_left m n) hm,
    recordWords_of_le (Nat.le_max_right m n) hn⟩

/-! ## Runs without a record -/

theorem map_bind_toState {β : Type} {a : Option β} {f : β → Option (Recorded α)}
    {f' : β → Option (State α)} (hf : ∀ b, (f b).map Recorded.toState = f' b) :
    (a.bind f).map Recorded.toState = a.bind f' := by
  cases a with
  | none => rfl
  | some b => exact hf b

theorem bind_toState {a : Option (Recorded α)} {a' : Option (State α)}
    {f : Recorded α → Option (Recorded α)} {f' : State α → Option (State α)}
    (ha : a.map Recorded.toState = a') (hf : ∀ t, (f t).map Recorded.toState = f' t.toState) :
    (a.bind f).map Recorded.toState = a'.bind f' := by
  subst ha
  cases a with
  | none => rfl
  | some t => exact hf t

theorem Instruction.map_record {run : List UInt32 → Recorded α → Option (Recorded α)}
    {run' : List UInt32 → State α → Option (State α)}
    (hrun : ∀ code s, (run code s).map Recorded.toState = run' code s.toState)
    (again left : List UInt32) (s : Recorded α) (i : Instruction) :
    (i.record σ h rules c run again left s).map Recorded.toState =
      i.run σ h rules c run' again left s.toState := by
  cases i with
  | branch test yes no =>
      simp only [Instruction.record, Instruction.run]
      split
      · rfl
      · refine map_bind_toState fun condition => map_bind_toState fun b => ?_
        exact bind_toState (hrun _ s) (hrun _)
  | loop body =>
      simp only [Instruction.record, Instruction.run]
      split
      · rfl
      · refine map_bind_toState fun b => ?_
        cases b with
        | true => exact bind_toState (hrun _ s) (hrun _)
        | false => exact hrun _ s
  | rule i =>
      refine map_bind_toState fun code => bind_toState (hrun code _) fun t => ?_
      rcases t.stack with _ | ⟨v, _ | _⟩
      · rfl
      · exact hrun left _
      · rfl
  | _ =>
      simp only [Instruction.record, Instruction.run]
      refine map_bind_toState fun effect => bind_toState ?_ (hrun left)
      rw [Effect.record, Option.map_map]
      exact Option.map_id'

theorem map_recordWords (fuel : Nat) (code : List UInt32) (s : Recorded α) :
    (recordWords σ h rules c fuel code s).map Recorded.toState =
      runWords σ h rules c fuel code s.toState := by
  induction fuel generalizing code s with
  | zero => rfl
  | succ fuel ih =>
      cases code with
      | nil => rfl
      | cons w rest =>
          rw [recordWords, runWords]
          cases Instruction.decode 0 w rest with
          | error _ => rfl
          | ok decoded => exact Instruction.map_record ih _ _ s _

theorem runWords_of_le {m n : Nat} {code : List UInt32} {s t : State α} (hmn : m ≤ n)
    (ht : runWords σ h rules c m code s = some t) : runWords σ h rules c n code s = some t := by
  rw [← map_recordWords m code ⟨s, []⟩] at ht
  obtain ⟨t, hrun, rfl⟩ := Option.map_eq_some_iff.mp ht
  rw [← map_recordWords n code ⟨s, []⟩, recordWords_of_le hmn hrun, Option.map_some]

/-- More fuel does not change where a run ends. -/
theorem runWords_unique {m n : Nat} {code : List UInt32} {s t t' : State α}
    (ht : runWords σ h rules c m code s = some t)
    (ht' : runWords σ h rules c n code s = some t') : t = t' := by
  have hmax := runWords_of_le (Nat.le_max_left m n) ht
  rw [runWords_of_le (Nat.le_max_right m n) ht'] at hmax
  exact (Option.some.inj hmax).symm

end Runs

namespace Grammar

/-- Runs `code` with the rules and constants of the grammar, and records the calls. -/
def recordCode (g : Grammar) (σ : Setting) (h : Host α) (fuel : Nat) (code : List UInt32)
    (s : Recorded α) : Option (Recorded α) :=
  g.constants.bind fun c => recordWords σ h g.rules c fuel code s

/-- The record changes nothing. -/
theorem map_recordCode (g : Grammar) (σ : Setting) (h : Host α) (fuel : Nat) (code : List UInt32)
    (s : Recorded α) :
    (g.recordCode σ h fuel code s).map Recorded.toState = g.runCode σ h fuel code s.toState :=
  map_bind_toState fun _ => map_recordWords fuel code s

end Grammar

end PegCompiler
