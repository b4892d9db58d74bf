/-!
# Pools of distinct values

A pool keeps every value that is added to it once, in the order of first additions, next to a table
in which the position of a value is looked up. The position of a value never changes afterwards.
-/

namespace PegCompiler

structure Pool (α : Type) where
  values : List α
  /-- Each value with its position, the newest first. -/
  table : List (α × Nat)
  nodup : values.Nodup
  mem_table_iff : ∀ {a i}, (a, i) ∈ table ↔ values[i]? = some a
  deriving Repr

namespace Pool

def empty : Pool α := ⟨[], [], .nil, by simp⟩

instance : Inhabited (Pool α) := ⟨empty⟩

def size (p : Pool α) : Nat := p.values.length

def isEmpty (p : Pool α) : Bool := p.values.isEmpty

def get? (p : Pool α) (i : Nat) : Option α := p.values[i]?

@[simp] theorem values_empty : (empty : Pool α).values = [] := rfl

theorem nodup_push {p : Pool α} {a : α} (h : a ∉ p.values) : (p.values ++ [a]).Nodup := by
  refine List.nodup_append.mpr ⟨p.nodup, by simp, fun b hb c hc heq => ?_⟩
  obtain rfl := List.mem_singleton.mp hc
  exact h (heq ▸ hb)

theorem mem_table_push {p : Pool α} {a b : α} {i : Nat} :
    (b, i) ∈ (a, p.size) :: p.table ↔ (p.values ++ [a])[i]? = some b := by
  rw [List.mem_cons, p.mem_table_iff, Prod.mk.injEq, size]
  rcases Nat.lt_trichotomy i p.values.length with hlt | rfl | hgt
  · simp [List.getElem?_append_left hlt, Nat.ne_of_lt hlt]
  · simp [eq_comm]
  · have hlen : (p.values ++ [a]).length ≤ i := by
      rw [List.length_append]
      exact hgt
    simp [List.getElem?_eq_none hlen, Nat.le_of_lt hgt, Nat.ne_of_gt hgt]

/-- Puts a new value behind the others and into the table. -/
def push (p : Pool α) (a : α) (h : a ∉ p.values) : Pool α :=
  ⟨p.values ++ [a], (a, p.size) :: p.table, nodup_push h, mem_table_push⟩

variable [DecidableEq α]

/-- The position that the table has for `a`. -/
def find? (p : Pool α) (a : α) : Option Nat := p.table.lookup a

theorem get?_of_find? {p : Pool α} {a : α} {i : Nat} (h : p.find? a = some i) :
    p.get? i = some a := by
  obtain ⟨newer, older, htable, -⟩ := List.lookup_eq_some_iff.mp h
  exact p.mem_table_iff.mp (by simp [htable])

/-- Looking up a value in the table is the inverse of taking it from its position. -/
theorem find?_eq_some_iff {p : Pool α} {a : α} {i : Nat} :
    p.find? a = some i ↔ p.get? i = some a := by
  refine ⟨get?_of_find?, fun hi => ?_⟩
  have hsome : (p.find? a).isSome :=
    List.lookup_isSome_iff.mpr ⟨(a, i), p.mem_table_iff.mpr hi, beq_self_eq_true a⟩
  obtain ⟨j, hj⟩ := Option.isSome_iff_exists.mp hsome
  have hget := get?_of_find? hj
  have hlt := (List.getElem?_eq_some_iff.mp hget).1
  rw [hj, (List.getElem?_inj hlt p.nodup).mp (hget.trans hi.symm)]

theorem find?_eq_none_iff {p : Pool α} {a : α} : p.find? a = none ↔ a ∉ p.values := by
  simp only [Option.eq_none_iff_forall_ne_some, List.mem_iff_getElem?, not_exists, ne_eq,
    find?_eq_some_iff, get?]

/-- The position of `a`, and the pool with it: `a` is added unless the table has it. -/
def place (p : Pool α) (a : α) : Nat × Pool α :=
  match h : p.find? a with
  | some i => (i, p)
  | none => (p.size, p.push a (find?_eq_none_iff.mp h))

/-- The position of `a`, or the one it would get. -/
def index (p : Pool α) (a : α) : Nat := (p.place a).1

/-- Adds `a` unless it is there already. -/
def add (p : Pool α) (a : α) : Pool α := (p.place a).2

theorem values_add (p : Pool α) (a : α) :
    (p.add a).values = if a ∈ p.values then p.values else p.values ++ [a] := by
  unfold add place
  split
  · next i h => exact (if_pos (List.mem_of_getElem? (find?_eq_some_iff.mp h))).symm
  · next h => exact (if_neg (find?_eq_none_iff.mp h)).symm

theorem index_eq_idxOf (p : Pool α) (a : α) : p.index a = p.values.idxOf a := by
  unfold index place
  split
  · next i h =>
      obtain ⟨hlt, rfl⟩ := List.getElem?_eq_some_iff.mp (find?_eq_some_iff.mp h)
      exact (p.nodup.idxOf_getElem i hlt).symm
  · next h => exact (List.idxOf_eq_length (find?_eq_none_iff.mp h)).symm

theorem mem_add {p : Pool α} {a b : α} : b ∈ (p.add a).values ↔ b ∈ p.values ∨ b = a := by
  rw [values_add]
  split
  · next h => exact ⟨.inl, fun hb => hb.elim id fun hba => hba ▸ h⟩
  · simp

theorem get?_index {p : Pool α} {a : α} (h : a ∈ p.values) : p.get? (p.index a) = some a := by
  simp [get?, index_eq_idxOf, List.getElem?_eq_getElem (List.idxOf_lt_length_of_mem h)]

theorem index_lt_size {p : Pool α} {a : α} (h : a ∈ p.values) : p.index a < p.size :=
  index_eq_idxOf p a ▸ List.idxOf_lt_length_of_mem h

end Pool

end PegCompiler
