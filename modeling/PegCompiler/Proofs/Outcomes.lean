import PegCompiler.Grammar.Inference
import PegCompiler.Proofs.Trees

/-!
# Outcomes that follow from those of the rules

Once the outcome of every rule is known, those of the nodes follow by recursion. To know more of
the rules never turns a definite outcome of a node into another one.
-/

namespace PegCompiler

namespace Outcome

/-- Whether `o'` says what `o` says, or more. -/
def Below (o o' : Outcome) : Prop :=
  o = sometimes ∨ o = o'

theorem Below.refl (o : Outcome) : o.Below o := .inr rfl

theorem Below.trans {a b c : Outcome} (h : a.Below b) (h' : b.Below c) : a.Below c := by
  rcases h with rfl | rfl
  · exact .inl rfl
  · exact h'

theorem sometimes_below (o : Outcome) : sometimes.Below o := .inl rfl

theorem Below.eq_of_ne {o o' : Outcome} (h : o.Below o') (hne : o ≠ sometimes) : o' = o := by
  rcases h with h | h
  · exact absurd h hne
  · exact h.symm

theorem Below.invert {o o' : Outcome} (h : o.Below o') : o.invert.Below o'.invert := by
  rcases h with rfl | rfl
  · exact .inl rfl
  · exact .refl _

theorem ofChoice_eq_always {os : List Outcome} :
    ofChoice os = always ↔ ∀ o ∈ os, o = always := by
  unfold ofChoice
  grind

theorem ofChoice_eq_never {os : List Outcome} :
    ofChoice os = never ↔ os ≠ [] ∧ ∀ o ∈ os, o = never := by
  cases os with
  | nil => simp [ofChoice]
  | cons o os =>
      cases o with
      | always =>
          simp [ofChoice]
          grind
      | sometimes | never => simp [ofChoice]

theorem ofSequence_eq_always {os : List Outcome} :
    ofSequence os = always ↔ ∀ o ∈ os, o = always := by
  unfold ofSequence
  grind

theorem ofSequence_eq_never {os : List Outcome} :
    ofSequence os = never ↔ never ∈ os := by
  unfold ofSequence
  grind

/-- An outcome is below another if that one is the same whenever it is definite. -/
theorem below_of_imp {o o' : Outcome} (ha : o = always → o' = always)
    (hn : o = never → o' = never) : o.Below o' := by
  cases o with
  | always => exact .inr (ha rfl).symm
  | sometimes => exact .inl rfl
  | never => exact .inr (hn rfl).symm

section Map

variable {α : Type} {f g : α → Outcome} {as : List α}

theorem ofChoice_map_below (h : ∀ a ∈ as, (f a).Below (g a)) :
    (ofChoice (as.map f)).Below (ofChoice (as.map g)) := by
  refine below_of_imp ?_ ?_
  · simp only [ofChoice_eq_always, List.forall_mem_map]
    exact fun hf a ha => (h a ha).eq_of_ne (by simp [hf a ha]) ▸ hf a ha
  · simp only [ofChoice_eq_never, List.forall_mem_map, ne_eq, List.map_eq_nil_iff]
    exact fun ⟨hne, hf⟩ => ⟨hne, fun a ha => (h a ha).eq_of_ne (by simp [hf a ha]) ▸ hf a ha⟩

theorem ofSequence_map_below (h : ∀ a ∈ as, (f a).Below (g a)) :
    (ofSequence (as.map f)).Below (ofSequence (as.map g)) := by
  refine below_of_imp ?_ ?_
  · simp only [ofSequence_eq_always, List.forall_mem_map]
    exact fun hf a ha => (h a ha).eq_of_ne (by simp [hf a ha]) ▸ hf a ha
  · simp only [ofSequence_eq_never, List.mem_map]
    rintro ⟨a, ha, hf⟩
    exact ⟨a, ha, (h a ha).eq_of_ne (by simp [hf]) ▸ hf⟩

end Map

end Outcome

theorem Operator.outcome_below {op : Operator} {o o' : Outcome} (h : o.Below o') :
    (op.outcome o).Below (op.outcome o') := by
  cases op with
  | simpleNot => exact h.invert
  | optional | zeroOrMore => exact .refl _
  | _ => exact h

namespace Expr

mutual
/-- The outcome of an expression when those of the rules are `known`. -/
def outcomeGiven (known : String → Outcome) : Expr → Outcome
  | choice _ es => .ofChoice (outcomesGiven known es)
  | sequence _ es => .ofSequence (outcomesGiven known es)
  | apply _ op e => op.outcome (outcomeGiven known e)
  | leaf _ (.ruleRef name) => known name
  | leaf _ l => l.outcome

def outcomesGiven (known : String → Outcome) : List Expr → List Outcome
  | [] => []
  | e :: es => outcomeGiven known e :: outcomesGiven known es
end

mutual
/-- The expression with the outcome of every node. -/
def annotate (known : String → Outcome) : Expr → Expr
  | choice t es =>
      choice { t with outcome := .ofChoice (outcomesGiven known es) } (annotateList known es)
  | sequence t es =>
      sequence { t with outcome := .ofSequence (outcomesGiven known es) } (annotateList known es)
  | apply t op e =>
      apply { t with outcome := op.outcome (outcomeGiven known e) } op (annotate known e)
  | leaf t l => leaf { t with outcome := outcomeGiven known (leaf t l) } l

def annotateList (known : String → Outcome) : List Expr → List Expr
  | [] => []
  | e :: es => annotate known e :: annotateList known es
end

variable {known known' : String → Outcome}

theorem outcomesGiven_eq_map (es : List Expr) :
    outcomesGiven known es = es.map (outcomeGiven known) := by
  induction es with
  | nil => rfl
  | cons e es ih => rw [outcomesGiven, ih, List.map_cons]

theorem annotateList_eq_map (es : List Expr) :
    annotateList known es = es.map (annotate known) := by
  induction es with
  | nil => rfl
  | cons e es ih => rw [annotateList, ih, List.map_cons]

theorem outcomeGiven_choice (t : Tag) (es : List Expr) :
    (choice t es).outcomeGiven known = .ofChoice (es.map (outcomeGiven known)) := by
  rw [outcomeGiven, outcomesGiven_eq_map]

theorem outcomeGiven_sequence (t : Tag) (es : List Expr) :
    (sequence t es).outcomeGiven known = .ofSequence (es.map (outcomeGiven known)) := by
  rw [outcomeGiven, outcomesGiven_eq_map]

theorem annotate_choice (t : Tag) (es : List Expr) :
    (choice t es).annotate known =
      choice { t with outcome := (choice t es).outcomeGiven known } (es.map (annotate known)) := by
  rw [annotate, annotateList_eq_map, outcomeGiven]

theorem annotate_sequence (t : Tag) (es : List Expr) :
    (sequence t es).annotate known =
      sequence { t with outcome := (sequence t es).outcomeGiven known }
        (es.map (annotate known)) := by
  rw [annotate, annotateList_eq_map, outcomeGiven]

@[simp] theorem outcome_annotate (e : Expr) :
    (e.annotate known).outcome = e.outcomeGiven known := by
  cases e <;> simp [annotate, outcome, tag, outcomeGiven]

/-- Outcomes that stand in the tree already play no role. -/
@[simp] theorem outcomeGiven_annotate (e : Expr) :
    (e.annotate known').outcomeGiven known = e.outcomeGiven known := by
  induction e with
  | choice t es ih =>
      rw [annotate_choice, outcomeGiven_choice, outcomeGiven_choice, List.map_map]
      exact congrArg _ (List.map_congr_left ih)
  | sequence t es ih =>
      rw [annotate_sequence, outcomeGiven_sequence, outcomeGiven_sequence, List.map_map]
      exact congrArg _ (List.map_congr_left ih)
  | apply t op e ih => rw [annotate, outcomeGiven, ih, outcomeGiven]
  | leaf t l => cases l <;> rfl

@[simp] theorem annotate_annotate (e : Expr) :
    (e.annotate known').annotate known = e.annotate known := by
  induction e with
  | choice t es ih =>
      have houtcome : (choice { t with outcome := (choice t es).outcomeGiven known' }
          (es.map (annotate known'))).outcomeGiven known = (choice t es).outcomeGiven known := by
        rw [← annotate_choice, outcomeGiven_annotate]
      rw [annotate_choice, annotate_choice, annotate_choice, houtcome, List.map_map]
      exact congrArg _ (List.map_congr_left ih)
  | sequence t es ih =>
      have houtcome : (sequence { t with outcome := (sequence t es).outcomeGiven known' }
          (es.map (annotate known'))).outcomeGiven known = (sequence t es).outcomeGiven known := by
        rw [← annotate_sequence, outcomeGiven_annotate]
      rw [annotate_sequence, annotate_sequence, annotate_sequence, houtcome, List.map_map]
      exact congrArg _ (List.map_congr_left ih)
  | apply t op e ih => rw [annotate, annotate, ih, outcomeGiven_annotate, annotate]
  | leaf t l => cases l <;> rfl

theorem outcomeGiven_below (h : ∀ name, (known name).Below (known' name)) (e : Expr) :
    (e.outcomeGiven known).Below (e.outcomeGiven known') := by
  induction e with
  | choice t es ih =>
      rw [outcomeGiven_choice, outcomeGiven_choice]
      exact Outcome.ofChoice_map_below ih
  | sequence t es ih =>
      rw [outcomeGiven_sequence, outcomeGiven_sequence]
      exact Outcome.ofSequence_map_below ih
  | apply t op e ih => exact Operator.outcome_below ih
  | leaf t l =>
      cases l with
      | ruleRef name => exact h name
      | _ => exact .refl _

/-- Only the rules that an expression refers to matter. -/
theorem outcomeGiven_congr {e : Expr} (h : ∀ ref ∈ e.refs, known ref.name = known' ref.name) :
    e.outcomeGiven known = e.outcomeGiven known' := by
  induction e with
  | choice t es ih =>
      rw [outcomeGiven_choice, outcomeGiven_choice]
      refine congrArg _ (List.map_congr_left fun e he => ih e he fun ref href => h ref ?_)
      exact refs_choice t es ▸ List.mem_flatMap.mpr ⟨e, he, href⟩
  | sequence t es ih =>
      rw [outcomeGiven_sequence, outcomeGiven_sequence]
      refine congrArg _ (List.map_congr_left fun e he => ih e he fun ref href => h ref ?_)
      exact refs_sequence t es ▸ List.mem_flatMap.mpr ⟨e, he, href⟩
  | apply t op e ih => rw [outcomeGiven, outcomeGiven, ih h]
  | leaf t l =>
      cases l with
      | ruleRef name => exact h ⟨name, t.location⟩ (by simp [refs, nodes, ref?])
      | _ => rfl

theorem annotate_congr {e : Expr} (h : ∀ ref ∈ e.refs, known ref.name = known' ref.name) :
    e.annotate known = e.annotate known' := by
  induction e with
  | choice t es ih =>
      rw [annotate_choice, annotate_choice, outcomeGiven_congr h]
      refine congrArg _ (List.map_congr_left fun e he => ih e he fun ref href => h ref ?_)
      exact refs_choice t es ▸ List.mem_flatMap.mpr ⟨e, he, href⟩
  | sequence t es ih =>
      rw [annotate_sequence, annotate_sequence, outcomeGiven_congr h]
      refine congrArg _ (List.map_congr_left fun e he => ih e he fun ref href => h ref ?_)
      exact refs_sequence t es ▸ List.mem_flatMap.mpr ⟨e, he, href⟩
  | apply t op e ih => rw [annotate, annotate, ih h, outcomeGiven_congr (e := e) h]
  | leaf t l => rw [annotate, annotate, outcomeGiven_congr h]

theorem nodes_annotate (e : Expr) :
    (e.annotate known).nodes = e.nodes.map (annotate known) := by
  induction e with
  | choice t es ih => rw [nodes, List.map_cons, annotate_choice, nodes, listNodes_map ih]
  | sequence t es ih => rw [nodes, List.map_cons, annotate_sequence, nodes, listNodes_map ih]
  | apply t op e ih => rw [nodes, List.map_cons, annotate, nodes, ih]
  | leaf t l => rfl

@[simp] theorem refs_annotate (e : Expr) : (e.annotate known).refs = e.refs := by
  have href : ref? ∘ annotate known = ref? := by
    funext n
    cases n with
    | leaf t l => cases l <;> rfl
    | _ => rfl
  rw [refs, nodes_annotate, List.filterMap_map, href, refs]

@[simp] theorem choicesNonempty_annotate {e : Expr} :
    (e.annotate known).ChoicesNonempty ↔ e.ChoicesNonempty := by
  induction e with
  | choice t es ih => rw [annotate_choice]; simp +contextual [ih]
  | sequence t es ih => rw [annotate_sequence]; simp +contextual [ih]
  | apply t op e ih => simp [annotate, ih]
  | leaf t l => simp [annotate]

end Expr

end PegCompiler
