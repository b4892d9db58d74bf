import PegCompiler.Bytecode.Pool

/-!
# Histories of a pool

Values that are added to a pool one after another are given positions. Whatever is added later, the
value that a position was given for stays there, and a value that is added once more is given the
same position. So in the end a pool that was empty holds the distinct values in the order in which
they came up first.
-/

namespace PegCompiler

namespace Pool

variable {α : Type} [DecidableEq α] {a b : α}

/-- Adds values in turn: the position that each of them is given, and the pool behind the last. -/
def placeAll : List α → Pool α → List Nat × Pool α
  | [], p => ([], p)
  | a :: as, p =>
      let (i, q) := p.place a
      let (is, q) := placeAll as q
      (i :: is, q)

theorem placeAll_cons (a : α) (as : List α) (p : Pool α) :
    placeAll (a :: as) p = (p.index a :: (placeAll as (p.add a)).1, (placeAll as (p.add a)).2) :=
  rfl

theorem index_add_self (p : Pool α) (a : α) : (p.add a).index a = p.index a := by
  rw [index_eq_idxOf, index_eq_idxOf, values_add]
  split
  · rfl
  · next h =>
      rw [List.idxOf_append, if_neg h, List.idxOf_eq_length h]
      simp

theorem index_inj {p : Pool α} (ha : a ∈ p.values) (hb : b ∈ p.values) :
    p.index a = p.index b ↔ a = b := by
  refine ⟨fun h => ?_, congrArg p.index⟩
  have hget := get?_index ha
  rw [h, get?_index hb] at hget
  exact (Option.some.inj hget).symm

theorem removeAll_concat (as bs : List α) (a : α) :
    as.removeAll (bs ++ [a]) = (as.removeAll bs).filter fun b => !b == a := by
  rw [List.removeAll, List.removeAll, List.filter_filter]
  refine List.filter_congr fun b _ => ?_
  rw [Bool.eq_iff_iff]
  simp [and_comm]

/-- What is new comes behind what the pool had, once and in the order in which it came up. -/
theorem values_placeAll (as : List α) (p : Pool α) :
    (placeAll as p).2.values = p.values ++ (as.removeAll p.values).eraseDups := by
  induction as generalizing p with
  | nil => simp [placeAll, List.removeAll]
  | cons a as ih =>
      rw [placeAll_cons, ih, values_add]
      by_cases h : a ∈ p.values
      · simp [List.removeAll, h]
      · have hnew : (a :: as).removeAll p.values = a :: as.removeAll p.values := by
          simp [List.removeAll, h]
        rw [if_neg h, hnew, List.eraseDups_cons, ← removeAll_concat, List.append_assoc,
          List.singleton_append]

theorem index_placeAll_of_mem {p : Pool α} (h : a ∈ p.values) (as : List α) :
    (placeAll as p).2.index a = p.index a := by
  rw [index_eq_idxOf, index_eq_idxOf, values_placeAll, List.idxOf_append, if_pos h]

/-- Each value is given the position that it has in the end. -/
theorem positions_placeAll (as : List α) (p : Pool α) :
    (placeAll as p).1 = as.map (placeAll as p).2.index := by
  induction as generalizing p with
  | nil => rfl
  | cons a as ih =>
      have hmem : a ∈ (p.add a).values := mem_add.mpr (.inr rfl)
      rw [placeAll_cons, List.map_cons, ← ih, index_placeAll_of_mem hmem, index_add_self]

theorem mem_placeAll {as : List α} {p : Pool α} :
    a ∈ (placeAll as p).2.values ↔ a ∈ p.values ∨ a ∈ as := by
  by_cases hp : a ∈ p.values <;> simp [values_placeAll, List.removeAll, hp]

theorem get?_placeAll {p : Pool α} (h : a ∈ p.values) (as : List α) :
    (placeAll as p).2.get? (p.index a) = some a := by
  rw [← index_placeAll_of_mem h as]
  exact get?_index (mem_placeAll.mpr (.inl h))

/-- After any additions to an empty pool its values are the distinct ones among those that were
added. Each addition was told where its value stands among them, and the value is got back from
there whatever is added later. Two additions were told the same just when their values are equal.
What the table finds is what the list of values has. -/
theorem keeps_first_additions (as : List α) :
    (placeAll as empty).2.values = as.eraseDups ∧
      (placeAll as empty).1 = as.map as.eraseDups.idxOf ∧
      (∀ later, (placeAll as empty).1.map (placeAll later (placeAll as empty).2).2.get? =
        as.map some) ∧
      (∀ j k : Nat, (placeAll as empty).1[j]? = (placeAll as empty).1[k]? ↔ as[j]? = as[k]?) ∧
      ∀ a i, (placeAll as empty).2.find? a = some i ↔ (placeAll as empty).2.get? i = some a := by
  have hvalues : (placeAll as empty).2.values = as.eraseDups := by
    rw [values_placeAll, values_empty, List.nil_append, List.removeAll,
      List.filter_eq_self.mpr (by simp)]
  have hpositions := positions_placeAll as empty
  have hmem {a : α} (ha : a ∈ as) : a ∈ (placeAll as empty).2.values := mem_placeAll.mpr (.inr ha)
  refine ⟨hvalues, ?_, fun later => ?_, fun j k => ?_, fun a i => find?_eq_some_iff⟩
  · rw [hpositions, ← hvalues]
    exact List.map_congr_left fun a _ => index_eq_idxOf _ a
  · rw [hpositions, List.map_map]
    exact List.map_congr_left fun a ha => get?_placeAll (hmem ha) later
  · rw [hpositions, List.getElem?_map, List.getElem?_map]
    cases hj : as[j]? with
    | none => cases as[k]? <;> simp
    | some a =>
        cases hk : as[k]? with
        | none => simp
        | some b =>
            have hinj := index_inj (hmem (List.mem_of_getElem? hj)) (hmem (List.mem_of_getElem? hk))
            simpa using hinj

example : placeAll ["x", "y", "x", "z", "y"] empty =
    ([0, 1, 0, 2, 1], (placeAll ["x", "y", "z"] empty).2) := rfl

end Pool

end PegCompiler
