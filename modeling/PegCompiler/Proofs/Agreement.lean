import PegCompiler.Proofs.Revision
import PegCompiler.Proofs.Soundness

/-!
# Outcomes and consumption

What consumes does not always succeed, as far as the outcomes tell. Both follow the references of a
grammar, one as the least solution of its equations and the other by rounds that estimate what is
still open. It is enough to compare them rule by rule: where the outcomes of the rules follow from
their bodies, the rules that are not said to match always solve the equations of consumption.
-/

namespace PegCompiler

namespace Expr

variable {k : String → Bool} {known : String → Outcome}

/-- What consumes does not always match when no rule does that counts as consuming. -/
theorem outcomeGiven_ne_always (hk : ∀ name, k name → known name ≠ .always) {e : Expr}
    (hchoices : e.ChoicesNonempty) (hc : e.consumesGiven k) :
    e.outcomeGiven known ≠ .always := by
  induction e with
  | choice t es ih =>
      obtain ⟨hne, hes⟩ := choicesNonempty_choice.mp hchoices
      obtain ⟨e, he⟩ := List.exists_mem_of_ne_nil es hne
      rw [consumesGiven, allConsumeGiven_eq_all, List.all_eq_true] at hc
      rw [outcomeGiven_choice, Ne, Outcome.ofChoice_eq_always]
      exact fun halways =>
        ih e he (hes e he) (hc e he) (halways _ (List.mem_map_of_mem he))
  | sequence t es ih =>
      have hes := choicesNonempty_sequence.mp hchoices
      rw [consumesGiven, anyConsumesGiven_eq_any, List.any_eq_true] at hc
      obtain ⟨e, he, hc⟩ := hc
      rw [outcomeGiven_sequence, Ne, Outcome.ofSequence_eq_always]
      exact fun halways => ih e he (hes e he) hc (halways _ (List.mem_map_of_mem he))
  | apply t op e ih =>
      rw [consumesGiven, Bool.and_eq_true] at hc
      have he := ih (choicesNonempty_apply.mp hchoices) hc.2
      cases op with
      | simpleAnd | simpleNot | optional | zeroOrMore => simp [Operator.forgetsBody] at hc
      | _ => exact he
  | leaf t l =>
      cases l with
      | ruleRef name => exact hk name hc
      | semanticAnd code | semanticNot code => cases hc
      | literal value ignoreCase =>
          have hempty : value.isEmpty = false := by
            simpa [consumesGiven, Leaf.consumesGiven] using hc
          simp [outcomeGiven, Leaf.outcome, hempty]
      | charClass set =>
          rw [outcomeGiven, Leaf.outcome]
          · split <;> simp
          · simp
      | any => simp [outcomeGiven, Leaf.outcome]

end Expr

section Rules

variable {rules rules' : List Rule} {known : String → Outcome}

theorem Consistent.ne_always (hknown : Consistent rules known)
    (hchoices : ∀ r ∈ rules, r.body.ChoicesNonempty) {name : String}
    (hc : ruleConsumes rules name) : known name ≠ .always := by
  have hle : decide (known name ≠ .always) := by
    refine of_ruleConsumes (k := fun name => decide (known name ≠ .always))
      (fun name r hr hbody => ?_) (fun _ _ h => h) hc
    rw [decide_eq_true_iff]
    intro halways
    have hbody' := (hknown name r hr).eq_of_ne (by simp [halways])
    exact Expr.outcomeGiven_ne_always (fun name hname => of_decide_eq_true hname)
      (hchoices r (mem_of_findRule? hr)) hbody (hbody'.trans halways)
  exact of_decide_eq_true hle

theorem Consistent.outcomeGiven_ne_always (hknown : Consistent rules known)
    (hchoices : ∀ r ∈ rules, r.body.ChoicesNonempty) {e : Expr} (he : e.ChoicesNonempty)
    (hc : e.consumes rules) : e.outcomeGiven known ≠ .always :=
  Expr.outcomeGiven_ne_always (fun _ => hknown.ne_always hchoices) he hc

/-! ## Consumption after inference -/

open Inference

/-- Outcomes in the tree play no role for consumption. -/
theorem Expr.consumesGiven_annotate (k : String → Bool) (e : Expr) :
    (e.annotate known).consumesGiven k = e.consumesGiven k := by
  have hrevise := annotate_rename_eq_revise known id e
  rw [rename_eq_self fun _ _ => rfl] at hrevise
  rw [hrevise, consumesGiven_revise]
  rfl

theorem Inference.Progress.ruleValue_consumesGiven (h : Progress rules rules') (k : String → Bool)
    (name : String) : ruleValue rules' (Expr.consumesGiven k) name =
      ruleValue rules (Expr.consumesGiven k) name := by
  rcases h.findRule? name with ⟨hr, hr'⟩ | ⟨r, r', hr, hr', rfl | ⟨known, rfl⟩⟩
  · rw [ruleValue, ruleValue, hr, hr']
  · rw [ruleValue, ruleValue, hr, hr']
  · rw [ruleValue, ruleValue, hr, hr', settled]
    exact Expr.consumesGiven_annotate k r.body

/-- The rules consume just as before inference. -/
theorem Inference.Progress.ruleConsumes_eq (h : Progress rules rules') :
    ruleConsumes rules' = ruleConsumes rules := by
  have hwithin (n : Nat) : consumesWithin rules' n = consumesWithin rules n := by
    induction n with
    | zero => rfl
    | succ n ih =>
        funext name
        rw [consumesWithin, consumesWithin, ih, h.ruleValue_consumesGiven]
  funext name
  rw [Bool.eq_iff_iff, ruleConsumes_iff, ruleConsumes_iff, h.length_eq, hwithin]

theorem Inference.Progress.endlessRepetition?_annotate (h : Progress rules rules') (e : Expr) :
    (e.annotate known).endlessRepetition? rules' = e.endlessRepetition? rules := by
  cases e with
  | apply t op e =>
      have hc : (e.annotate known).consumes rules' = e.consumes rules := by
        rw [Expr.consumes, Expr.consumes, h.ruleConsumes_eq, Expr.consumesGiven_annotate]
      rw [Expr.annotate, Expr.endlessRepetition?, Expr.endlessRepetition?, hc]
  | _ => rfl

/-- What a grammar repeats consumes just when it does so before inference. -/
theorem Inference.Progress.endlessRepetition?_eq_none_iff {g g' : Grammar}
    (h : Progress g.rules g'.rules) (hnone : ∀ r ∈ g.rules, r.outcome = none)
    (hsome : ∀ r ∈ g'.rules, r.outcome.isSome) :
    g'.endlessRepetition? = none ↔ g.endlessRepetition? = none := by
  rw [Grammar.endlessRepetition?_eq_none_iff, Grammar.endlessRepetition?_eq_none_iff]
  constructor
  · intro hrep r hr n hn
    obtain ⟨i, hi⟩ := List.mem_iff_getElem?.mp hr
    obtain ⟨r', hr', hstep⟩ := h.step i r hi
    have hmem := List.mem_of_getElem? hr'
    rcases hstep with rfl | ⟨-, k, -, rfl⟩
    · have hnot := hsome _ hmem
      rw [hnone _ hr] at hnot
      cases hnot
    · rw [← h.endlessRepetition?_annotate n]
      exact hrep _ hmem _ (Expr.nodes_annotate r.body ▸ List.mem_map_of_mem hn)
  · intro hrep r' hr' n hn
    obtain ⟨r, hr, k, -, rfl⟩ := h.exists_settled hnone hsome hr'
    obtain ⟨m, hm, rfl⟩ := List.mem_map.mp (Expr.nodes_annotate r.body ▸ hn)
    rw [h.endlessRepetition?_annotate]
    exact hrep r hr m hm

/-- Every reference has been followed. -/
theorem Inference.Progress.refsDefined_of_settled (h : Progress rules rules')
    (hnone : ∀ r ∈ rules, r.outcome = none) (hsome : ∀ r ∈ rules', r.outcome.isSome) :
    RefsDefined rules' := by
  intro r' hr' ref href
  obtain ⟨i, hi⟩ := List.mem_iff_getElem?.mp hr'
  obtain ⟨r, hr, -⟩ := h.exists_source_at hi
  have hsettled : (Inference.outcomeAt? rules' i).isSome := by
    rw [Inference.outcomeAt?, hi]
    exact hsome r' hr'
  obtain ⟨k, hk, hi'⟩ := h.settled_of_isSome hr (hnone r (List.mem_of_getElem? hr)) hsettled
  obtain rfl := Option.some.inj (hi.symm.trans hi')
  obtain ⟨m, o, hm, -⟩ := hk.ref ref (Expr.refs_annotate r.body ▸ href)
  rw [isDefined_congr h.names, isDefined_iff_mem, ← ruleIndex?_isSome_iff, hm]
  rfl

end Rules

end PegCompiler
