import Mathlib.Data.List.Forall2
import PegCompiler.Proofs.Recording
import PegCompiler.Proofs.Values

/-!
# Labels in their slots

While code is generated a label is a slot, and while it runs that slot holds the value of the label.
`Located` carries this through a run: it stays so when more is pushed, and it is why a call gets the
values that the labels have.
-/

namespace PegCompiler

variable {α : Type} {height slot : Nat} {stack : List (Value α)} {v : Value α}

/-- The offset of a slot in use is written as it is, as long as the height fits into a word. -/
theorem writtenOffset_eq (hheight : height ≤ UInt32.size) (hslot : slot < height) :
    writtenOffset height slot = height - 1 - slot := by
  rw [writtenOffset, UInt32.ofInt, UInt32.toNat_ofNat', UInt32.size] at *
  omega

/-- Whether a slot, one of the `height` ones in use, holds the value. -/
structure Holds (height : Nat) (stack : List (Value α)) (slot : Nat) (v : Value α) : Prop where
  lt : slot < height
  get : stack[height - 1 - slot]? = some v

namespace Holds

theorem push (h : Holds height stack slot v) (w : Value α) :
    Holds (height + 1) (w :: stack) slot v := by
  obtain ⟨hlt, hget⟩ := h
  refine ⟨Nat.lt_succ_of_lt hlt, ?_⟩
  obtain ⟨k, hk⟩ : ∃ k, height - 1 - slot = k := ⟨_, rfl⟩
  have hindex : height + 1 - 1 - slot = k + 1 := by omega
  rw [hindex, List.getElem?_cons_succ, ← hk, hget]

theorem top (height : Nat) (stack : List (Value α)) (v : Value α) :
    Holds (height + 1) (v :: stack) height v := by
  refine ⟨Nat.lt_succ_self height, ?_⟩
  have hindex : height + 1 - 1 - height = 0 := by omega
  rw [hindex, List.getElem?_cons_zero]

theorem written (h : Holds height stack slot v) (hheight : height ≤ UInt32.size) :
    stack[writtenOffset height slot]? = some v := by
  rw [writtenOffset_eq hheight h.lt, h.get]

end Holds

/-- Whether the slots hold the values, one by one. -/
abbrev AllHold (height : Nat) (stack : List (Value α)) : List Nat → List (Value α) → Prop :=
  List.Forall₂ (Holds height stack)

namespace AllHold

variable {slots : List Nat} {vs : List (Value α)}

theorem push (h : AllHold height stack slots vs) (w : Value α) :
    AllHold (height + 1) (w :: stack) slots vs :=
  List.Forall₂.imp (fun _ _ hslot => hslot.push w) h

theorem concat (h : AllHold height stack slots vs) (hslot : Holds height stack slot v) :
    AllHold height stack (slots ++ [slot]) (vs ++ [v]) := by
  induction h with
  | nil => exact .cons hslot .nil
  | cons hhead _ ih => exact .cons hhead ih

/-- The picked values behind an expression with its value on top. -/
theorem mark {scope : Scope} (h : AllHold height stack scope.picked vs) (e : Expr) (v : Value α) :
    AllHold (height + 1) (v :: stack) (scope.mark e.label? e.isPicked height).picked
      (if e.isPicked then vs ++ [v] else vs) := by
  unfold Scope.mark
  cases e.isPicked with
  | false => exact h.push v
  | true => exact (h.push v).concat (.top height stack v)

/-- The slots are found where the code looks for them. -/
theorem mapM_written (h : AllHold height stack slots vs) (hheight : height ≤ UInt32.size) :
    slots.mapM (fun slot => stack[writtenOffset height slot]?) = some vs := by
  induction h with
  | nil => rfl
  | cons hhead _ ih =>
      rw [List.mapM_cons, hhead.written hheight, ih]
      rfl

theorem map_written (h : AllHold height stack slots vs) (hheight : height ≤ UInt32.size) :
    slots.map (fun slot => stack[writtenOffset height slot]?.getD .undefined) = vs := by
  induction h with
  | nil => rfl
  | cons hhead _ ih =>
      rw [List.map_cons, hhead.written hheight, ih]
      rfl

end AllHold

/-- Whether the labels with their slots are those of `env` with their values. -/
def Located (height : Nat) (stack : List (Value α)) (labels : List (String × Nat)) (env : Env α) :
    Prop :=
  List.Forall₂ (fun l b => l.1 = b.1 ∧ Holds height stack l.2 b.2) labels env

namespace Located

variable {labels : List (String × Nat)} {env : Env α}

theorem nil : Located height stack [] [] :=
  List.Forall₂.nil

theorem push (h : Located height stack labels env) (w : Value α) :
    Located (height + 1) (w :: stack) labels env :=
  List.Forall₂.imp (fun _ _ hlabel => ⟨hlabel.1, hlabel.2.push w⟩) h

theorem bind (h : Located height stack labels env) (hslot : Holds height stack slot v)
    (label : String) : Located height stack (Scope.bind labels label slot) (env.bind label v) := by
  induction h with
  | nil => exact .cons ⟨rfl, hslot⟩ .nil
  | @cons l b ls bs hhead htail ih =>
      obtain ⟨name, n⟩ := l
      obtain ⟨name', w⟩ := b
      obtain ⟨rfl, hholds⟩ := hhead
      rw [Scope.bind, Env.bind]
      split
      · exact .cons ⟨rfl, hslot⟩ htail
      · exact .cons ⟨rfl, hholds⟩ ih

theorem names_eq (h : Located height stack labels env) :
    labels.map (·.1) = env.map (·.1) := by
  induction h with
  | nil => rfl
  | cons hhead _ ih => rw [List.map_cons, List.map_cons, hhead.1, ih]

theorem allHold (h : Located height stack labels env) :
    AllHold height stack (labels.map (·.2)) (env.map (·.2)) := by
  induction h with
  | nil => exact .nil
  | cons hhead _ ih => exact .cons hhead.2 ih

/-- The scope behind an expression with its value on top. -/
theorem mark {scope : Scope} (h : Located height stack scope.labels env) (e : Expr) (v : Value α) :
    Located (height + 1) (v :: stack) (scope.mark e.label? e.isPicked height).labels
      (env.behind e v) := by
  unfold Scope.mark Env.behind
  cases e.label? with
  | none => exact h.push v
  | some label => exact (h.push v).bind (.top height stack v) label

end Located

/-! ## Scopes of expressions -/

namespace Expr

def isNamed : Expr → Bool
  | apply _ (.named _) _ => true
  | _ => false

def isSequence : Expr → Bool
  | sequence _ _ => true
  | _ => false

/-- An expression adds its own label and pick to the scope, unless it shares the scope of what is
inside of it. -/
theorem scope_lower {e : Expr} (hnamed : e.isNamed = false) (hcalls : e.callsAction = false)
    (height : Nat) (scope : Scope) :
    (e.lower none height scope).scope = scope.mark e.label? e.isPicked height := by
  cases e with
  | choice t es =>
      rw [lower, scope_lowerAlternatives]
      rfl
  | sequence t es =>
      cases es with
      | nil => rfl
      | cons e es => cases hcalls
  | apply t op e =>
      cases op with
      | named name => cases hnamed
      | action code =>
          rw [lower]
          dsimp only
          split <;> rfl
      | _ => rfl
  | leaf t l =>
      rw [lower, scope_lowerLeaf]
      rfl

end Expr

end PegCompiler
