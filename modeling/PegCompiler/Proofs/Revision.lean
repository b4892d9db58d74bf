import PegCompiler.Check.Labels
import PegCompiler.Check.LeftRecursion
import PegCompiler.Check.Plucking
import PegCompiler.Check.Repetition
import PegCompiler.Proofs.Consumption
import PegCompiler.Proofs.Outcomes
import PegCompiler.Proofs.Renaming

/-!
# Revised expressions

The passes behind the checks give outcomes to nodes and rename references, and leave expressions as
they are otherwise. No check looks at outcomes. Those of labels and of picked values do not look at
references either; the others follow a reference to what it names, so for them the renamed reference
must consume whenever the old one does.
-/

namespace PegCompiler

namespace Expr

mutual
/-- The expression with the outcome `m n` of every node `n` and with `f name` in place of every
reference to `name`. -/
def revise (m : Expr → Outcome) (f : String → String) : Expr → Expr
  | choice t es => choice { t with outcome := m (choice t es) } (reviseList m f es)
  | sequence t es => sequence { t with outcome := m (sequence t es) } (reviseList m f es)
  | apply t op e => apply { t with outcome := m (apply t op e) } op (revise m f e)
  | leaf t l => leaf { t with outcome := m (leaf t l) } (l.rename f)

def reviseList (m : Expr → Outcome) (f : String → String) : List Expr → List Expr
  | [] => []
  | e :: es => revise m f e :: reviseList m f es
end

variable {m : Expr → Outcome} {f : String → String}

theorem reviseList_eq_map (es : List Expr) : reviseList m f es = es.map (revise m f) := by
  induction es with
  | nil => rfl
  | cons e es ih => rw [reviseList, ih, List.map_cons]

theorem revise_choice (t : Tag) (es : List Expr) :
    (choice t es).revise m f =
      choice { t with outcome := m (choice t es) } (es.map (revise m f)) := by
  rw [revise, reviseList_eq_map]

theorem revise_sequence (t : Tag) (es : List Expr) :
    (sequence t es).revise m f =
      sequence { t with outcome := m (sequence t es) } (es.map (revise m f)) := by
  rw [revise, reviseList_eq_map]

theorem rename_eq_revise (f : String → String) (e : Expr) : e.rename f = e.revise outcome f := by
  induction e with
  | choice t es ih =>
      rw [revise_choice, ← List.map_congr_left ih, rename, mapLeaves, mapLeavesList_eq_map]
      rfl
  | sequence t es ih =>
      rw [revise_sequence, ← List.map_congr_left ih, rename, mapLeaves, mapLeavesList_eq_map]
      rfl
  | apply t op e ih =>
      rw [revise, ← ih, rename, mapLeaves]
      rfl
  | leaf t l => rfl

theorem annotate_rename_eq_revise (k : String → Outcome) (f : String → String) (e : Expr) :
    (e.rename f).annotate k = e.revise (fun n => (n.rename f).outcomeGiven k) f := by
  induction e with
  | choice t es ih =>
      rw [revise_choice, ← List.map_congr_left ih, rename, mapLeaves, mapLeavesList_eq_map,
        annotate_choice, List.map_map]
      rfl
  | sequence t es ih =>
      rw [revise_sequence, ← List.map_congr_left ih, rename, mapLeaves, mapLeavesList_eq_map,
        annotate_sequence, List.map_map]
      rfl
  | apply t op e ih =>
      rw [revise, ← ih, rename, mapLeaves, annotate, outcomeGiven]
      rfl
  | leaf t l => rfl

theorem nodes_revise (e : Expr) : (e.revise m f).nodes = e.nodes.map (revise m f) := by
  induction e with
  | choice t es ih => rw [nodes, List.map_cons, revise_choice, nodes, listNodes_map ih]
  | sequence t es ih => rw [nodes, List.map_cons, revise_sequence, nodes, listNodes_map ih]
  | apply t op e ih => rw [nodes, List.map_cons, revise, nodes, ih]
  | leaf t l => rfl

theorem refs_revise (e : Expr) :
    (e.revise m f).refs = e.refs.map fun ref => ⟨f ref.name, ref.location⟩ := by
  have href : ref? ∘ revise m f = fun n => (ref? n).map fun ref => ⟨f ref.name, ref.location⟩ := by
    funext n
    cases n with
    | leaf t l => cases l <;> rfl
    | _ => rfl
  rw [refs, nodes_revise, List.filterMap_map, href, refs, List.map_filterMap]

/-- To rename what no reference names changes nothing. -/
theorem rename_eq_self {e : Expr} (h : ∀ ref ∈ e.refs, f ref.name = ref.name) :
    e.rename f = e := by
  induction e with
  | choice t es ih =>
      have hes : es.map (rename f) = es.map id := List.map_congr_left fun e he =>
        ih e he fun ref href => h ref (refs_choice t es ▸ List.mem_flatMap.mpr ⟨e, he, href⟩)
      rw [rename, mapLeaves, mapLeavesList_eq_map]
      exact congrArg _ (hes.trans (List.map_id es))
  | sequence t es ih =>
      have hes : es.map (rename f) = es.map id := List.map_congr_left fun e he =>
        ih e he fun ref href => h ref (refs_sequence t es ▸ List.mem_flatMap.mpr ⟨e, he, href⟩)
      rw [rename, mapLeaves, mapLeavesList_eq_map]
      exact congrArg _ (hes.trans (List.map_id es))
  | apply t op e ih => exact congrArg _ (ih h)
  | leaf t l =>
      cases l with
      | ruleRef name =>
          have hname : f name = name := h ⟨name, t.location⟩ (by simp [refs, nodes, ref?])
          simp [rename, mapLeaves, Leaf.rename, hname]
      | _ => rfl

/-! ## Labels and picked values -/

theorem labelScopeList_map {φ : Expr → Expr} {es : List Expr}
    (h : ∀ e ∈ es, ∀ scope, labelScope scope (φ e) = labelScope scope e) (scope : LabelScope) :
    labelScopeList scope (es.map φ) = labelScopeList scope es := by
  induction es generalizing scope with
  | nil => rfl
  | cons e es ih =>
      obtain ⟨he, hes⟩ := List.forall_mem_cons.mp h
      rw [List.map_cons, labelScopeList, labelScopeList, he, funext (ih hes)]

theorem checkAlternatives_map {φ : Expr → Expr} {es : List Expr}
    (h : ∀ e ∈ es, ∀ scope, labelScope scope (φ e) = labelScope scope e) (scope : LabelScope) :
    checkAlternatives scope (es.map φ) = checkAlternatives scope es := by
  induction es with
  | nil => rfl
  | cons e es ih =>
      obtain ⟨he, hes⟩ := List.forall_mem_cons.mp h
      rw [List.map_cons, checkAlternatives, checkAlternatives, he, ih hes]

theorem labelScope_revise (e : Expr) (scope : LabelScope) :
    labelScope scope (e.revise m f) = labelScope scope e := by
  induction e generalizing scope with
  | choice t es ih => rw [revise_choice, labelScope, checkAlternatives_map ih, labelScope]
  | sequence t es ih => rw [revise_sequence, labelScope, labelScopeList_map ih, labelScope]
  | apply t op e ih =>
      rw [revise]
      cases op with
      | labeled label location pick =>
          cases label with
          | some label => simp only [labelScope, ih]
          | none => simp only [labelScope, ih]
      | _ => simp only [labelScope, ih]
  | leaf t l => rfl

theorem reservedLabel?_revise (words : List String) (e : Expr) :
    (e.revise m f).reservedLabel? words = e.reservedLabel? words := by
  cases e with
  | apply t op e =>
      rw [revise]
      cases op with
      | labeled label location pick => cases label <;> rfl
      | _ => rfl
  | _ => rfl

theorem pluckInActionList?_map {φ : Expr → Expr} {es : List Expr}
    (h : ∀ e ∈ es, ∀ action, pluckInAction? action (φ e) = pluckInAction? action e)
    (action : Option Location) :
    pluckInActionList? action (es.map φ) = pluckInActionList? action es := by
  induction es with
  | nil => rfl
  | cons e es ih =>
      obtain ⟨he, hes⟩ := List.forall_mem_cons.mp h
      rw [List.map_cons, pluckInActionList?, pluckInActionList?, he, ih hes]

theorem pluckInAction?_revise (e : Expr) (action : Option Location) :
    pluckInAction? action (e.revise m f) = pluckInAction? action e := by
  induction e generalizing action with
  | choice t es ih => rw [revise_choice, pluckInAction?, pluckInActionList?_map ih, pluckInAction?]
  | sequence t es ih =>
      rw [revise_sequence, pluckInAction?, pluckInActionList?_map ih, pluckInAction?]
  | apply t op e ih =>
      rw [revise]
      cases op with
      | labeled label location pick =>
          cases pick with
          | true => cases action <;> simp only [pluckInAction?, ih]
          | false => simp only [pluckInAction?, ih]
      | _ => simp only [pluckInAction?, ih]
  | leaf t l => rfl

/-! ## Consumption -/

theorem consumesGiven_revise (k : String → Bool) (e : Expr) :
    (e.revise m f).consumesGiven k = e.consumesGiven (k ∘ f) := by
  induction e with
  | choice t es ih =>
      rw [Bool.eq_iff_iff, revise_choice]
      simp only [consumesGiven, allConsumeGiven_eq_all, List.all_map, List.all_eq_true]
      exact forall₂_congr fun e he => by rw [Function.comp_apply, ih e he]
  | sequence t es ih =>
      rw [Bool.eq_iff_iff, revise_sequence]
      simp only [consumesGiven, anyConsumesGiven_eq_any, List.any_map, List.any_eq_true]
      exact exists_congr fun e => and_congr_right fun he => by rw [Function.comp_apply, ih e he]
  | apply t op e ih => rw [revise, consumesGiven, ih, consumesGiven]
  | leaf t l => cases l <;> rfl

section Consuming

variable {rules rules' : List Rule}

theorem consumes_revise (h : ∀ name, ruleConsumes rules name → ruleConsumes rules' (f name))
    {e : Expr} (he : e.consumes rules) : (e.revise m f).consumes rules' := by
  rw [consumes, consumesGiven_revise]
  exact consumesGiven_mono (fun ref _ => h ref.name) he

theorem endlessRepetition?_revise
    (h : ∀ name, ruleConsumes rules name → ruleConsumes rules' (f name)) {e : Expr}
    (he : e.endlessRepetition? rules = none) :
    (e.revise m f).endlessRepetition? rules' = none := by
  cases e with
  | apply t op e =>
      rw [revise]
      simp only [endlessRepetition?] at he ⊢
      split
      · next r hr =>
          simp only [hr] at he
          split at he
          · next hc => rw [if_pos (consumes_revise h hc)]
          · cases he
      · rfl
  | _ => rfl

theorem exists_leftRef_of_choice {es : List Expr} {ref : RuleRef}
    (ih : ∀ e ∈ es, ref ∈ (e.revise m f).leftRefs rules' →
      ∃ s ∈ e.leftRefs rules, ref.name = f s.name)
    (href : ref ∈ leftRefsChoice rules' (es.map (revise m f))) :
    ∃ s ∈ leftRefsChoice rules es, ref.name = f s.name := by
  induction es with
  | nil => cases href
  | cons e es ihes =>
      obtain ⟨ihe, ih⟩ := List.forall_mem_cons.mp ih
      rw [List.map_cons, leftRefsChoice] at href
      rcases List.mem_append.mp href with href | href
      · obtain ⟨s, hs, hname⟩ := ihe href
        exact ⟨s, List.mem_append.mpr (.inl hs), hname⟩
      · obtain ⟨s, hs, hname⟩ := ihes ih href
        exact ⟨s, List.mem_append.mpr (.inr hs), hname⟩

/-- An element that ends the left positions of a sequence still ends them, as it still consumes. -/
theorem exists_leftRef_of_sequence
    (h : ∀ name, ruleConsumes rules name → ruleConsumes rules' (f name)) {es : List Expr}
    {ref : RuleRef}
    (ih : ∀ e ∈ es, ref ∈ (e.revise m f).leftRefs rules' →
      ∃ s ∈ e.leftRefs rules, ref.name = f s.name)
    (href : ref ∈ leftRefsSequence rules' (es.map (revise m f))) :
    ∃ s ∈ leftRefsSequence rules es, ref.name = f s.name := by
  induction es with
  | nil => cases href
  | cons e es ihes =>
      obtain ⟨ihe, ih⟩ := List.forall_mem_cons.mp ih
      rw [List.map_cons, leftRefsSequence] at href
      rcases List.mem_append.mp href with href | href
      · obtain ⟨s, hs, hname⟩ := ihe href
        exact ⟨s, List.mem_append.mpr (.inl hs), hname⟩
      · split at href
        · cases href
        · next hrevised =>
            have hc : ¬e.consumes rules := fun hc => hrevised (consumes_revise h hc)
            obtain ⟨s, hs, hname⟩ := ihes ih href
            exact ⟨s, List.mem_append.mpr (.inr (by rwa [if_neg hc])), hname⟩

/-- What stands at a left position stood at one before. -/
theorem exists_leftRef_of_revise
    (h : ∀ name, ruleConsumes rules name → ruleConsumes rules' (f name)) {e : Expr} {ref : RuleRef}
    (href : ref ∈ (e.revise m f).leftRefs rules') :
    ∃ s ∈ e.leftRefs rules, ref.name = f s.name := by
  induction e with
  | choice t es ih =>
      rw [revise_choice, leftRefs] at href
      exact exists_leftRef_of_choice ih href
  | sequence t es ih =>
      rw [revise_sequence, leftRefs] at href
      exact exists_leftRef_of_sequence h ih href
  | apply t op e ih => exact ih href
  | leaf t l =>
      cases l with
      | ruleRef name =>
          obtain rfl := List.mem_singleton.mp href
          exact ⟨_, List.mem_singleton_self _, rfl⟩
      | _ => cases href

end Consuming

end Expr

end PegCompiler
