import PegCompiler.Check.Rules

/-!
# Induction on expressions

The children of a choice and of a sequence stand in a list, so an induction on expressions takes its
hypothesis for all members of that list. A property of all nodes of an expression is one of the node
itself and of all nodes of its children.
-/

namespace PegCompiler

namespace Expr

@[elab_as_elim, induction_eliminator]
theorem induct {motive : Expr → Prop}
    (choice : ∀ t es, (∀ e ∈ es, motive e) → motive (.choice t es))
    (sequence : ∀ t es, (∀ e ∈ es, motive e) → motive (.sequence t es))
    (apply : ∀ t op e, motive e → motive (.apply t op e))
    (leaf : ∀ t l, motive (.leaf t l)) (e : Expr) : motive e :=
  @Expr.rec motive (fun es => ∀ e ∈ es, motive e) choice sequence apply leaf (by simp)
    (fun _ _ he hes => by simpa using ⟨he, hes⟩) e

theorem listNodes_eq_flatMap (es : List Expr) : listNodes es = es.flatMap nodes := by
  induction es with
  | nil => rfl
  | cons e es ih => rw [listNodes, ih, List.flatMap_cons]

theorem listNodes_map {f : Expr → Expr} {es : List Expr}
    (h : ∀ e ∈ es, (f e).nodes = e.nodes.map f) :
    listNodes (es.map f) = (listNodes es).map f := by
  rw [listNodes_eq_flatMap, listNodes_eq_flatMap, List.flatMap_map, List.map_flatMap,
    List.flatMap_def, List.flatMap_def, List.map_congr_left h]

theorem self_mem_nodes (e : Expr) : e ∈ e.nodes := by
  cases e <;> simp [nodes]

theorem mem_nodes_choice {n : Expr} {t : Tag} {es : List Expr} :
    n ∈ (choice t es).nodes ↔ n = choice t es ∨ ∃ e ∈ es, n ∈ e.nodes := by
  simp [nodes, listNodes_eq_flatMap]

theorem mem_nodes_sequence {n : Expr} {t : Tag} {es : List Expr} :
    n ∈ (sequence t es).nodes ↔ n = sequence t es ∨ ∃ e ∈ es, n ∈ e.nodes := by
  simp [nodes, listNodes_eq_flatMap]

theorem mem_nodes_apply {n : Expr} {t : Tag} {op : Operator} {e : Expr} :
    n ∈ (apply t op e).nodes ↔ n = apply t op e ∨ n ∈ e.nodes := by
  simp [nodes]

theorem mem_nodes_leaf {n : Expr} {t : Tag} {l : Leaf} :
    n ∈ (leaf t l).nodes ↔ n = leaf t l := by
  simp [nodes]

/-- The nodes below a node are nodes of the whole expression. -/
theorem mem_nodes_trans {m n e : Expr} (hm : m ∈ n.nodes) (hn : n ∈ e.nodes) : m ∈ e.nodes := by
  induction e with
  | choice t es ih =>
      rcases mem_nodes_choice.mp hn with rfl | ⟨e, he, hn⟩
      · exact hm
      · exact mem_nodes_choice.mpr (.inr ⟨e, he, ih e he hn⟩)
  | sequence t es ih =>
      rcases mem_nodes_sequence.mp hn with rfl | ⟨e, he, hn⟩
      · exact hm
      · exact mem_nodes_sequence.mpr (.inr ⟨e, he, ih e he hn⟩)
  | apply t op e ih =>
      rcases mem_nodes_apply.mp hn with rfl | hn
      · exact hm
      · exact mem_nodes_apply.mpr (.inr (ih hn))
  | leaf t l =>
      obtain rfl := mem_nodes_leaf.mp hn
      exact hm

/-- Whether every choice inside of the expression has an alternative. -/
def ChoicesNonempty (e : Expr) : Prop :=
  ∀ t, choice t [] ∉ e.nodes

@[simp] theorem choicesNonempty_choice {t : Tag} {es : List Expr} :
    (choice t es).ChoicesNonempty ↔ es ≠ [] ∧ ∀ e ∈ es, e.ChoicesNonempty := by
  simp only [ChoicesNonempty, mem_nodes_choice, choice.injEq, not_or, not_exists, not_and]
  constructor
  · intro h
    exact ⟨fun hes => (h t).1 rfl hes.symm, fun e he t' => (h t').2 e he⟩
  · intro h t'
    exact ⟨fun _ hes => h.1 hes.symm, fun e he => h.2 e he t'⟩

@[simp] theorem choicesNonempty_sequence {t : Tag} {es : List Expr} :
    (sequence t es).ChoicesNonempty ↔ ∀ e ∈ es, e.ChoicesNonempty := by
  simp only [ChoicesNonempty, mem_nodes_sequence, reduceCtorEq, false_or, not_exists, not_and]
  constructor
  · intro h e he t'
    exact h t' e he
  · intro h t' e he
    exact h e he t'

@[simp] theorem choicesNonempty_apply {t : Tag} {op : Operator} {e : Expr} :
    (apply t op e).ChoicesNonempty ↔ e.ChoicesNonempty := by
  simp [ChoicesNonempty, mem_nodes_apply]

@[simp] theorem choicesNonempty_leaf {t : Tag} {l : Leaf} : (leaf t l).ChoicesNonempty := by
  simp [ChoicesNonempty, mem_nodes_leaf]

theorem mem_refs {ref : RuleRef} {e : Expr} :
    ref ∈ e.refs ↔ ∃ t, leaf t (.ruleRef ref.name) ∈ e.nodes ∧ t.location = ref.location := by
  simp only [refs, List.mem_filterMap]
  constructor
  · rintro ⟨n, hn, href⟩
    cases n with
    | leaf t l =>
        cases l <;> simp only [ref?, Option.some.injEq, reduceCtorEq] at href
        subst href
        exact ⟨t, hn, rfl⟩
    | _ => simp [ref?] at href
  · rintro ⟨t, hn, ht⟩
    exact ⟨_, hn, by simp [ref?, ht]⟩

theorem refs_choice (t : Tag) (es : List Expr) : (choice t es).refs = es.flatMap refs := by
  have h : (choice t es).refs = (listNodes es).filterMap ref? := rfl
  rw [h, listNodes_eq_flatMap, List.filterMap_flatMap]
  rfl

theorem refs_sequence (t : Tag) (es : List Expr) : (sequence t es).refs = es.flatMap refs := by
  have h : (sequence t es).refs = (listNodes es).filterMap ref? := rfl
  rw [h, listNodes_eq_flatMap, List.filterMap_flatMap]
  rfl

theorem refs_apply (t : Tag) (op : Operator) (e : Expr) : (apply t op e).refs = e.refs := by
  rfl

theorem mem_refs_of_mem_nodes {ref : RuleRef} {n e : Expr} (hn : n ∈ e.nodes)
    (href : ref ∈ n.refs) : ref ∈ e.refs := by
  obtain ⟨t, ht, hloc⟩ := mem_refs.mp href
  exact mem_refs.mpr ⟨t, mem_nodes_trans ht hn, hloc⟩

end Expr

section Nodes

variable {P : Expr → Prop} {t : Tag} {es : List Expr}

theorem forall_nodes_choice (hall : ∀ n ∈ (Expr.choice t es).nodes, P n) :
    ∀ e ∈ es, ∀ n ∈ e.nodes, P n :=
  fun e he n hn => hall n (Expr.mem_nodes_choice.mpr (.inr ⟨e, he, hn⟩))

theorem forall_nodes_sequence (hall : ∀ n ∈ (Expr.sequence t es).nodes, P n) :
    ∀ e ∈ es, ∀ n ∈ e.nodes, P n :=
  fun e he n hn => hall n (Expr.mem_nodes_sequence.mpr (.inr ⟨e, he, hn⟩))

theorem forall_nodes_apply {op : Operator} {e : Expr}
    (hall : ∀ n ∈ (Expr.apply t op e).nodes, P n) : ∀ n ∈ e.nodes, P n :=
  fun n hn => hall n (Expr.mem_nodes_apply.mpr (.inr hn))

end Nodes

end PegCompiler
