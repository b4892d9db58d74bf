import PegCompiler.Grammar.Build
import PegCompiler.Grammar.Outline
import PegCompiler.Proofs.Trees
import Mathlib.Data.List.Lex

/-!
# The order of traversals

The place of a node is the path of indices that leads to it from the root. All nodes of a grammar in
the order of their places, each once, is the list that every traversal goes through: visits and
edits look at them one after another, and outlines print them so. A visit ends where its action
does. An edit that is stopped has rewritten the nodes before the one that stopped it, and nothing
else.
-/

namespace PegCompiler

namespace Expr

variable {e : Expr} {es : List Expr} {p : List Nat} {n : Expr}

/-- The node at the end of a path of child indices. -/
def node? : List Nat → Expr → Option Expr
  | [], e => some e
  | i :: p, e => (e.children[i]?).bind (node? p)

/-- Moves a place below the child with the index `i`. -/
def placeBelow (i : Nat) (x : List Nat × Expr) : List Nat × Expr :=
  (i :: x.1, x.2)

mutual
/-- The nodes with their places, a node before what is below it and this from left to right. -/
def places : Expr → List (List Nat × Expr)
  | choice t es => ([], choice t es) :: listPlaces 0 es
  | sequence t es => ([], sequence t es) :: listPlaces 0 es
  | apply t op e => ([], apply t op e) :: (places e).map (placeBelow 0)
  | leaf t l => [([], leaf t l)]

def listPlaces (i : Nat) : List Expr → List (List Nat × Expr)
  | [] => []
  | e :: es => (places e).map (placeBelow i) ++ listPlaces (i + 1) es
end

/-- Induction from the children of a node to the node, whatever it is. -/
theorem children_induct {motive : Expr → Prop}
    (h : ∀ e, (∀ c ∈ e.children, motive c) → motive e) (e : Expr) : motive e := by
  induction e with
  | choice t es ih => exact h _ ih
  | sequence t es ih => exact h _ ih
  | apply t op e ih => exact h _ (by simpa [children] using ih)
  | leaf t l => exact h _ (by simp [children])

section Children

theorem nodes_eq (e : Expr) : e.nodes = e :: listNodes e.children := by
  cases e <;> simp [nodes, listNodes, children]

theorem places_eq (e : Expr) : e.places = ([], e) :: listPlaces 0 e.children := by
  cases e <;> simp [places, listPlaces, children]

theorem outlineList_eq_join (depth : Nat) (es : List Expr) :
    outlineList depth es = String.join (es.map (outline depth)) := by
  induction es with
  | nil => rfl
  | cons e es ih => rw [outlineList, ih, List.map_cons, String.join_cons]

/-- An outline goes on with the outlines of the children. -/
theorem outline_eq (depth : Nat) (e : Expr) :
    e.outline depth = e.line depth ++ String.join (e.children.map (outline (depth + 1))) := by
  cases e <;> simp [outline, outlineList_eq_join, children]

end Children

section Order

theorem listPlaces_snd {i : Nat} (h : ∀ e ∈ es, e.places.map Prod.snd = e.nodes) :
    (listPlaces i es).map Prod.snd = listNodes es := by
  induction es generalizing i with
  | nil => rfl
  | cons e es ih =>
      obtain ⟨he, hes⟩ := List.forall_mem_cons.mp h
      rw [listPlaces, List.map_append, List.map_map, ih hes, listNodes, ← he]
      rfl

theorem places_snd (e : Expr) : e.places.map Prod.snd = e.nodes := by
  induction e using children_induct with
  | h e ih => rw [places_eq, nodes_eq, List.map_cons, listPlaces_snd ih]

theorem mem_listPlaces {i : Nat} (h : ∀ e ∈ es, ∀ p, (p, n) ∈ e.places ↔ e.node? p = some n) :
    (p, n) ∈ listPlaces i es ↔
      ∃ j q, p = (i + j) :: q ∧ (es[j]?).bind (node? q) = some n := by
  induction es generalizing i with
  | nil => simp [listPlaces]
  | cons e es ih =>
      obtain ⟨he, hes⟩ := List.forall_mem_cons.mp h
      have hhere : (p, n) ∈ e.places.map (placeBelow i) ↔ ∃ q, p = i :: q ∧ e.node? q = some n := by
        simp only [List.mem_map, placeBelow, Prod.mk.injEq, Prod.exists]
        constructor
        · rintro ⟨q, n', hq, rfl, rfl⟩
          exact ⟨q, rfl, (he q).mp hq⟩
        · rintro ⟨q, rfl, hq⟩
          exact ⟨q, n, (he q).mpr hq, rfl, rfl⟩
      rw [listPlaces, List.mem_append, hhere, ih hes]
      constructor
      · rintro (⟨q, rfl, hq⟩ | ⟨j, q, rfl, hq⟩)
        · exact ⟨0, q, rfl, by simpa using hq⟩
        · exact ⟨j + 1, q, by rw [Nat.add_assoc, Nat.add_comm 1 j], by simpa using hq⟩
      · rintro ⟨_ | j, q, rfl, hq⟩
        · exact .inl ⟨q, rfl, by simpa using hq⟩
        · exact .inr ⟨j, q, by rw [Nat.add_assoc, Nat.add_comm 1 j], by simpa using hq⟩

/-- The places are those at which there is a node. -/
theorem mem_places : (p, n) ∈ e.places ↔ e.node? p = some n := by
  induction e using children_induct generalizing p with
  | h e ih =>
      rw [places_eq, List.mem_cons, mem_listPlaces fun c hc p => ih c hc]
      cases p with
      | nil => simp [node?, eq_comm]
      | cons i q => simp [node?]

theorem map_fst_placeBelow (i : Nat) (xs : List (List Nat × Expr)) :
    (xs.map (placeBelow i)).map Prod.fst = (xs.map Prod.fst).map (i :: ·) := by
  rw [List.map_map, List.map_map]
  rfl

theorem le_of_mem_listPlaces {i : Nat} (h : p ∈ (listPlaces i es).map Prod.fst) :
    ∃ j q, p = j :: q ∧ i ≤ j := by
  induction es generalizing i with
  | nil => simp [listPlaces] at h
  | cons e es ih =>
      rw [listPlaces, List.map_append, List.mem_append] at h
      rcases h with h | h
      · obtain ⟨x, hx, rfl⟩ := List.mem_map.mp h
        obtain ⟨y, -, rfl⟩ := List.mem_map.mp hx
        exact ⟨i, y.1, rfl, le_rfl⟩
      · obtain ⟨j, q, rfl, hj⟩ := ih h
        exact ⟨j, q, rfl, by omega⟩

theorem listPlaces_sorted {i : Nat}
    (h : ∀ e ∈ es, (e.places.map Prod.fst).Pairwise (· < ·)) :
    ((listPlaces i es).map Prod.fst).Pairwise (· < ·) := by
  induction es generalizing i with
  | nil => simp [listPlaces]
  | cons e es ih =>
      obtain ⟨he, hes⟩ := List.forall_mem_cons.mp h
      rw [listPlaces, List.map_append, List.pairwise_append, map_fst_placeBelow]
      refine ⟨List.pairwise_map.mpr (he.imp fun hlt => ?_), ih hes, ?_⟩
      · exact List.cons_lt_cons_iff.mpr (.inr ⟨rfl, hlt⟩)
      · intro a ha b hb
        obtain ⟨q, -, rfl⟩ := List.mem_map.mp ha
        obtain ⟨j, q', rfl, hj⟩ := le_of_mem_listPlaces hb
        exact List.cons_lt_cons_iff.mpr (.inl (by omega))

/-- A place comes before those below it, and these come in the order of their indices. -/
theorem places_sorted (e : Expr) : (e.places.map Prod.fst).Pairwise (· < ·) := by
  induction e using children_induct with
  | h e ih =>
      rw [places_eq, List.map_cons, List.pairwise_cons]
      refine ⟨fun p hp => ?_, listPlaces_sorted ih⟩
      obtain ⟨j, q, rfl, -⟩ := le_of_mem_listPlaces hp
      exact List.nil_lt_cons ..

end Order

section Outline

theorem join_map_listPlaces {depth i : Nat}
    (h : ∀ e ∈ es, ∀ depth,
      e.outline depth = String.join (e.places.map fun x => x.2.line (depth + x.1.length))) :
    String.join (es.map (outline (depth + 1))) =
      String.join ((listPlaces i es).map fun x => x.2.line (depth + x.1.length)) := by
  induction es generalizing i with
  | nil => rfl
  | cons e es ih =>
      obtain ⟨he, hes⟩ := List.forall_mem_cons.mp h
      have hhere : (e.places.map (placeBelow i)).map (fun x => x.2.line (depth + x.1.length)) =
          e.places.map fun x => x.2.line (depth + 1 + x.1.length) := by
        simp [placeBelow, Function.comp_def, Nat.add_assoc, Nat.add_comm 1]
      rw [listPlaces, List.map_append, String.join_append, hhere, ← he, ← ih hes, List.map_cons,
        String.join_cons]

/-- The lines of an outline are those of the nodes in their order, indented by the lengths of their
paths. -/
theorem outline_eq_places (e : Expr) (depth : Nat) :
    e.outline depth =
      String.join (e.places.map fun x => x.2.line (depth + x.1.length)) := by
  induction e using children_induct generalizing depth with
  | h e ih =>
      rw [outline_eq, places_eq, List.map_cons, String.join_cons, join_map_listPlaces ih]
      rfl

end Outline

end Expr

section Breaks

variable {α β σ ε : Type}

theorem run_bind_of_ok {x : ExceptT ε (StateM σ) α} {k : α → ExceptT ε (StateM σ) β} {a : α}
    {s t : σ} (h : x.run.run s = (.ok a, t)) : (x >>= k).run.run s = (k a).run.run t := by
  simp only [ExceptT.run_bind, StateT.run_bind, h]
  rfl

theorem run_bind_of_error {x : ExceptT ε (StateM σ) α} {k : α → ExceptT ε (StateM σ) β}
    {reason : ε} {s t : σ} (h : x.run.run s = (.error reason, t)) :
    (x >>= k).run.run s = (.error reason, t) := by
  simp only [ExceptT.run_bind, StateT.run_bind, h]
  rfl

/-- What is behind the first break is not met any more. -/
theorem forM_of_break {f : α → ExceptT ε (StateM σ) Unit} {before after : List α} {x : α}
    {s t u : σ} {reason : ε} (hbefore : (forM before f).run.run s = (.ok (), t))
    (hx : (f x).run.run t = (.error reason, u)) :
    (forM (before ++ x :: after) f).run.run s = (.error reason, u) := by
  rw [List.forM_append, run_bind_of_ok hbefore, List.forM_cons, run_bind_of_error hx]

/-- Notes what it meets, and breaks off with the `n`-th of it. -/
def recordUpTo (n : Nat) (x : α) : ExceptT α (StateM (List α)) Unit := do
  modify (· ++ [x])
  if (← get).length = n then throw x

theorem run_recordUpTo (n : Nat) (x : α) (seen : List α) :
    (recordUpTo n x).run.run seen =
      (if seen.length + 1 = n then .error x else .ok (), seen ++ [x]) := by
  have hlen : (seen ++ [x]).length = seen.length + 1 := by simp
  have hrun : (recordUpTo n x).run.run seen =
      (if (seen ++ [x]).length = n then throw x else pure () :
        ExceptT α (StateM (List α)) Unit).run.run (seen ++ [x]) := rfl
  rw [hrun, hlen]
  split <;> rfl

theorem run_forM_recordUpTo (n : Nat) (xs seen : List α) :
    (forM xs (recordUpTo (seen.length + n + 1))).run.run seen =
      match xs[n]? with
      | some x => (.error x, seen ++ xs.take (n + 1))
      | none => (.ok (), seen ++ xs) := by
  induction xs generalizing n seen with
  | nil => simp; rfl
  | cons x xs ih =>
      have hx := run_recordUpTo (seen.length + n + 1) x seen
      rw [List.forM_cons]
      cases n with
      | zero =>
        rw [if_pos rfl] at hx
        rw [run_bind_of_error hx]
        rfl
      | succ n =>
        rw [if_neg (by omega)] at hx
        have hlen : seen.length + (n + 1) + 1 = (seen ++ [x]).length + n + 1 := by simp; omega
        rw [run_bind_of_ok hx, hlen, ih]
        simp

end Breaks

/-! ## Edits -/

/-- A node without what is below it. -/
inductive Head where
  | choice (tag : Tag)
  | sequence (tag : Tag)
  | apply (tag : Tag) (op : Operator)
  | leaf (tag : Tag) (leaf : Leaf)

def Expr.head : Expr → Head
  | choice t _ => .choice t
  | sequence t _ => .sequence t
  | apply t op _ => .apply t op
  | leaf t l => .leaf t l

/-- What is made of a node in the state `s`. -/
def Rewriting.head (r : Rewriting σ) (s : σ) : Head → Head
  | .choice t => .choice (r.tag s t)
  | .sequence t => .sequence (r.tag s t)
  | .apply t op => .apply (r.tag s t) (r.operator s op)
  | .leaf t l => .leaf (r.tag s t) (r.leaf s l)

section Edits

variable {σ ε : Type}

/-- An editor looks at nodes one after another without a stop, gets from one state to another by it
and leaves these nodes for them, each made in the state behind the look at it. -/
inductive Editor.Passes (f : Editor σ ε) : List Expr → σ → List Head → σ → Prop where
  | nil (s : σ) : f.Passes [] s [] s
  | cons {n : Expr} {ns : List Expr} {s t u : σ} {hs : List Head} (look : f.look n s = (t, none))
      (rest : f.Passes ns t hs u) : f.Passes (n :: ns) s (f.rewriting.head t n.head :: hs) u

/-- Whether an edit that has `nodes` before it passes the first of them, where it leaves `hs`, and
ends in `state`: behind all of them, or at the next one, where it is `stopped`. -/
def Editor.Ends (f : Editor σ ε) (nodes : List Expr) (s : σ) (hs : List Head) (state : σ)
    (stopped : Option ε) : Prop :=
  ∃ passed t, f.Passes passed s hs t ∧
    match stopped with
    | none => nodes = passed ∧ state = t
    | some reason => ∃ n left, nodes = passed ++ n :: left ∧ f.look n t = (state, some reason)

namespace Editor

variable {f : Editor σ ε} {e : Expr} {xs ys : List Expr} {hs hs' : List Head} {s t u state : σ}
  {stopped : Option ε} {reason : ε}

theorem Passes.append (h : f.Passes xs s hs t) (h' : f.Passes ys t hs' u) :
    f.Passes (xs ++ ys) s (hs ++ hs') u := by
  induction h with
  | nil s => exact h'
  | cons look _ ih => exact .cons look (ih h')

theorem Passes.length_eq (h : f.Passes xs s hs t) : hs.length = xs.length := by
  induction h with
  | nil s => rfl
  | cons look _ ih => rw [List.length_cons, List.length_cons, ih]

theorem ends_nil (f : Editor σ ε) (s : σ) : f.Ends [] s [] s none :=
  ⟨[], s, .nil s, rfl, rfl⟩

theorem ends_of_stop (h : f.look e s = (state, some reason)) :
    f.Ends (e :: xs) s [] state (some reason) :=
  ⟨[], s, .nil s, e, xs, rfl, h⟩

theorem Ends.cons (h : f.look e s = (t, none)) (hxs : f.Ends xs t hs state stopped) :
    f.Ends (e :: xs) s (f.rewriting.head t e.head :: hs) state stopped := by
  obtain ⟨passed, u, hpass, hend⟩ := hxs
  refine ⟨e :: passed, u, .cons h hpass, ?_⟩
  cases stopped with
  | none => exact ⟨congrArg (e :: ·) hend.1, hend.2⟩
  | some reason =>
      obtain ⟨n, left, rfl, hlook⟩ := hend
      exact ⟨n, left, rfl, hlook⟩

theorem Ends.append (h : f.Ends xs s hs t none) (h' : f.Ends ys t hs' state stopped) :
    f.Ends (xs ++ ys) s (hs ++ hs') state stopped := by
  obtain ⟨_, _, hpass, rfl, rfl⟩ := h
  obtain ⟨passed, u, hpass', hend⟩ := h'
  refine ⟨xs ++ passed, u, hpass.append hpass', ?_⟩
  cases stopped with
  | none => exact ⟨congrArg (xs ++ ·) hend.1, hend.2⟩
  | some reason =>
      obtain ⟨n, left, rfl, hlook⟩ := hend
      exact ⟨n, left, (List.append_assoc ..).symm, hlook⟩

theorem Ends.append_of_stopped (h : f.Ends xs s hs state (some reason)) (ys : List Expr) :
    f.Ends (xs ++ ys) s hs state (some reason) := by
  obtain ⟨passed, t, hpass, n, left, rfl, hlook⟩ := h
  exact ⟨passed, t, hpass, n, left ++ ys, by simp, hlook⟩

theorem Ends.length_eq (h : f.Ends xs s hs state none) : hs.length = xs.length := by
  obtain ⟨_, _, hpass, rfl, _⟩ := h
  exact hpass.length_eq

theorem Ends.length_lt (h : f.Ends xs s hs state (some reason)) : hs.length < xs.length := by
  obtain ⟨passed, t, hpass, n, left, rfl, -⟩ := h
  simp [hpass.length_eq]

end Editor

namespace Expr

/-- Whether `ys` are the nodes `xs` after `hs` were put in place of the first of them: all stand
where they stood, and those that come later are unchanged, with what is below them. -/
structure Replaced (hs : List Head) (xs ys : List (List Nat × Expr)) : Prop where
  paths : ys.map Prod.fst = xs.map Prod.fst
  heads : (ys.take hs.length).map (·.2.head) = hs
  rest : ys.drop hs.length = xs.drop hs.length

namespace Replaced

variable {hs hs' : List Head} {h : Head} {x y : List Nat × Expr}
  {xs ys xs' ys' : List (List Nat × Expr)}

theorem refl (xs : List (List Nat × Expr)) : Replaced [] xs xs :=
  ⟨rfl, rfl, rfl⟩

theorem cons (hpath : y.1 = x.1) (hhead : y.2.head = h) (hrest : Replaced hs xs ys) :
    Replaced (h :: hs) (x :: xs) (y :: ys) :=
  ⟨by simp [hpath, hrest.paths], by simpa [hhead] using hrest.heads, by simpa using hrest.rest⟩

theorem length_eq (h : Replaced hs xs ys) : ys.length = xs.length := by
  simpa using congrArg List.length h.paths

theorem append (h : Replaced hs xs ys) (hlen : hs.length = xs.length)
    (h' : Replaced hs' xs' ys') : Replaced (hs ++ hs') (xs ++ xs') (ys ++ ys') where
  paths := by rw [List.map_append, List.map_append, h.paths, h'.paths]
  heads := by
    have hys : hs.length = ys.length := hlen.trans h.length_eq.symm
    have hall := h.heads
    rw [hys, List.take_length] at hall
    rw [List.length_append, hys, List.take_length_add_append, List.map_append, hall, h'.heads]
  rest := by
    have hys : hs.length = ys.length := hlen.trans h.length_eq.symm
    calc (ys ++ ys').drop (hs ++ hs').length
        = ys'.drop hs'.length := by rw [List.length_append, hys, List.drop_length_add_append]
      _ = xs'.drop hs'.length := h'.rest
      _ = (xs ++ xs').drop (hs ++ hs').length := by
        rw [List.length_append, hlen, List.drop_length_add_append]

theorem append_of_le (h : Replaced hs xs ys) (hlen : hs.length ≤ xs.length)
    (zs : List (List Nat × Expr)) : Replaced hs (xs ++ zs) (ys ++ zs) where
  paths := by rw [List.map_append, List.map_append, h.paths]
  heads := by
    rw [List.take_append_of_le_length (hlen.trans_eq h.length_eq.symm), h.heads]
  rest := by
    rw [List.drop_append_of_le_length (hlen.trans_eq h.length_eq.symm),
      List.drop_append_of_le_length hlen, h.rest]

theorem below (i : Nat) (h : Replaced hs xs ys) :
    Replaced hs (xs.map (placeBelow i)) (ys.map (placeBelow i)) where
  paths := by rw [map_fst_placeBelow, map_fst_placeBelow, h.paths]
  heads := by
    rw [← List.map_take, List.map_map]
    exact h.heads
  rest := by rw [← List.map_drop, ← List.map_drop, h.rest]

end Replaced

theorem length_places (e : Expr) : e.places.length = e.nodes.length := by
  rw [← places_snd, List.length_map]

/-- Nothing is changed in an expression when none of its nodes is replaced. -/
theorem eq_of_replaced_nil {e e' : Expr} (h : Replaced [] e.places e'.places) : e' = e := by
  have hrest : e'.places = e.places := h.rest
  rw [places_eq, places_eq, List.cons.injEq, Prod.mk.injEq] at hrest
  exact hrest.1.2

/-- What an edit does to expressions side by side: it ends somewhere among their nodes, has
replaced those that it passed, and expressions that begin behind its end are unchanged. -/
structure EditsList (f : Editor σ ε) (es : List Expr) (s : σ) (hs : List Head) : Prop where
  ends : f.Ends (listNodes es) s hs (editList f es s).state (editList f es s).stopped
  replaced : ∀ i, Replaced hs (listPlaces i es) (listPlaces i (editList f es s).value)
  kept : ∀ i, hs.length ≤ (listNodes (es.take i)).length →
    (editList f es s).value.drop i = es.drop i

structure Edits (f : Editor σ ε) (e : Expr) (s : σ) (hs : List Head) : Prop where
  ends : f.Ends e.nodes s hs (e.edit f s).state (e.edit f s).stopped
  replaced : Replaced hs e.places (e.edit f s).value.places

theorem exists_editsList {f : Editor σ ε} {es : List Expr}
    (h : ∀ e ∈ es, ∀ s, ∃ hs, Edits f e s hs) (s : σ) : ∃ hs, EditsList f es s hs := by
  induction es generalizing s with
  | nil => exact ⟨[], f.ends_nil s, fun i => .refl _, fun i _ => rfl⟩
  | cons e es ih =>
      obtain ⟨he, hes⟩ := List.forall_mem_cons.mp h
      obtain ⟨hs, hends, hreplaced⟩ := he s
      cases hstop : (e.edit f s).stopped with
      | none =>
          rw [hstop] at hends
          obtain ⟨hs', hrest⟩ := ih hes (e.edit f s).state
          have hedit : editList f (e :: es) s =
              (editList f es (e.edit f s).state).map ((e.edit f s).value :: ·) := by
            rw [editList, Edited.cons, hstop]
          refine ⟨hs ++ hs', ?_, fun i => ?_, fun i hi => ?_⟩
          · rw [hedit]
            exact hends.append hrest.ends
          · rw [hedit]
            refine (hreplaced.below i).append ?_ (hrest.replaced (i + 1))
            rw [hends.length_eq, List.length_map, length_places]
          · cases i with
            | zero =>
              have hlen : (hs ++ hs').length = 0 := Nat.le_zero.mp hi
              rw [List.length_append, hends.length_eq, nodes_eq, List.length_cons] at hlen
              omega
            | succ i =>
              rw [List.take_succ_cons, listNodes, List.length_append, List.length_append,
                hends.length_eq] at hi
              rw [hedit]
              exact hrest.kept i (Nat.le_of_add_le_add_left hi)
      | some reason =>
          rw [hstop] at hends
          have hedit : editList f (e :: es) s =
              ⟨(e.edit f s).value :: es, (e.edit f s).state, some reason⟩ := by
            rw [editList, Edited.cons, hstop]
          refine ⟨hs, ?_, fun i => ?_, fun i hi => ?_⟩
          · rw [hedit]
            exact hends.append_of_stopped (listNodes es)
          · rw [hedit]
            refine (hreplaced.below i).append_of_le ?_ _
            rw [List.length_map, length_places]
            exact hends.length_lt.le
          · rw [hedit]
            cases i with
            | zero =>
              obtain rfl : hs = [] := List.length_eq_zero_iff.mp (Nat.le_zero.mp hi)
              rw [eq_of_replaced_nil hreplaced]
            | succ i => rfl

/-- An edit that gets past a node, if it does, has made of it what it goes on to leave there. -/
theorem exists_edits_of_enter {f : Editor σ ε} {e : Expr} {s : σ} {next : σ → Edited σ ε Expr}
    (hedit : e.edit f s = f.enter e s next)
    (hnext : ∀ t, ∃ hs, f.Ends (listNodes e.children) t hs (next t).state (next t).stopped ∧
      (next t).value.head = f.rewriting.head t e.head ∧
      Replaced hs (listPlaces 0 e.children) (listPlaces 0 (next t).value.children)) :
    ∃ hs, Edits f e s hs := by
  rcases hlook : f.look e s with ⟨t, _ | reason⟩
  · obtain ⟨hs, hends, hhead, hreplaced⟩ := hnext t
    have hpass : e.edit f s = next t := by rw [hedit, Editor.enter, hlook]
    refine ⟨f.rewriting.head t e.head :: hs, ?_, ?_⟩
    · rw [hpass, nodes_eq]
      exact hends.cons hlook
    · rw [hpass, places_eq, places_eq]
      exact .cons rfl hhead hreplaced
  · have hstop : e.edit f s = ⟨e, t, some reason⟩ := by rw [hedit, Editor.enter, hlook]
    refine ⟨[], ?_, ?_⟩
    · rw [hstop, nodes_eq]
      exact Editor.ends_of_stop hlook
    · rw [hstop]
      exact .refl _

theorem exists_edits (f : Editor σ ε) (e : Expr) (s : σ) : ∃ hs, Edits f e s hs := by
  induction e generalizing s with
  | choice t es ih =>
      refine exists_edits_of_enter (by rw [edit]) fun u => ?_
      obtain ⟨hs, h⟩ := exists_editsList ih u
      exact ⟨hs, h.ends, rfl, h.replaced 0⟩
  | sequence t es ih =>
      refine exists_edits_of_enter (by rw [edit]) fun u => ?_
      obtain ⟨hs, h⟩ := exists_editsList ih u
      exact ⟨hs, h.ends, rfl, h.replaced 0⟩
  | apply t op e ih =>
      refine exists_edits_of_enter (by rw [edit]) fun u => ?_
      obtain ⟨hs, h⟩ := ih u
      refine ⟨hs, ?_, rfl, ?_⟩
      · simpa [children, listNodes, Edited.map] using h.ends
      · simpa [children, listPlaces, Edited.map] using h.replaced.below 0
  | leaf t l =>
      refine exists_edits_of_enter (by rw [edit]) fun u => ?_
      exact ⟨[], f.ends_nil u, rfl, .refl _⟩

end Expr

/-- The rules with other bodies. -/
def withBodies (rs : List Rule) (bodies : List Expr) : List Rule :=
  List.zipWith (fun r body => { r with body }) rs bodies

theorem withBodies_self (rs : List Rule) : withBodies rs (rs.map (·.body)) = rs := by
  induction rs with
  | nil => rfl
  | cons r rs ih => simpa [withBodies] using ih

theorem Grammar.editRules_eq (f : Editor σ ε) (rs : List Rule) (s : σ) :
    editRules f rs s = (Expr.editList f (rs.map (·.body)) s).map (withBodies rs) := by
  induction rs generalizing s with
  | nil => rfl
  | cons r rs ih =>
      rw [editRules, List.map_cons, Expr.editList]
      cases hstop : (r.body.edit f s).stopped with
      | none => simp [Edited.cons, Edited.map, hstop, ih, withBodies]
      | some reason =>
          have hself := withBodies_self rs
          simp only [withBodies] at hself
          simp [Edited.cons, Edited.map, hstop, withBodies, hself]

namespace Grammar

/-- The nodes of the rules' bodies with their places, which begin with the index of the rule. -/
def places (g : Grammar) : List (List Nat × Expr) :=
  Expr.listPlaces 0 (g.rules.map (·.body))

def node? (g : Grammar) : List Nat → Option Expr
  | [] => none
  | i :: p => (g.rules[i]?).bind (·.body.node? p)

theorem places_sorted (g : Grammar) : (g.places.map Prod.fst).Pairwise (· < ·) :=
  Expr.listPlaces_sorted fun e _ => e.places_sorted

theorem mem_places (g : Grammar) (p : List Nat) (n : Expr) :
    (p, n) ∈ g.places ↔ g.node? p = some n := by
  rw [places, Expr.mem_listPlaces fun e _ p => Expr.mem_places]
  cases p with
  | nil => simp [node?]
  | cons i p => cases h : g.rules[i]? <;> simp [node?, h]

theorem nodes_eq_listNodes (g : Grammar) : g.nodes = Expr.listNodes (g.rules.map (·.body)) := by
  rw [nodes, Expr.listNodes_eq_flatMap, List.flatMap_map]

theorem places_snd (g : Grammar) : g.places.map Prod.snd = g.nodes := by
  rw [places, Expr.listPlaces_snd fun e _ => e.places_snd, nodes_eq_listNodes]

end Grammar

theorem length_editList (f : Editor σ ε) (es : List Expr) (s : σ) :
    (Expr.editList f es s).value.length = es.length := by
  induction es generalizing s with
  | nil => rfl
  | cons e es ih =>
      rw [Expr.editList, Edited.cons]
      split
      · rfl
      · exact congrArg (· + 1) (ih _)

theorem map_body_withBodies {rs : List Rule} {bodies : List Expr}
    (h : bodies.length = rs.length) : (withBodies rs bodies).map (·.body) = bodies := by
  induction rs generalizing bodies with
  | nil => rw [List.eq_nil_of_length_eq_zero h]; rfl
  | cons r rs ih =>
      cases bodies with
      | nil => cases h
      | cons e es => exact congrArg (e :: ·) (ih (Nat.succ.inj h))

/-- An edit of a grammar is one of the bodies of its rules side by side. -/
theorem Grammar.edit_eq (f : Editor σ ε) (g : Grammar) (s : σ) :
    g.edit f s = (Expr.editList f (g.rules.map (·.body)) s).map fun bodies =>
      { g with rules := withBodies g.rules bodies } := by
  rw [edit, editRules_eq]
  rfl

end Edits

/-- All traversals of a grammar meet its nodes in the order of their places, each once, and end at
the first break: a visit has then met the items up to this one, and an edit has rewritten the nodes
before the one that stopped it. The items begin with the initializers that there are. -/
theorem Grammar.traversals_in_order (g : Grammar) :
    ((g.places.map Prod.fst).Pairwise (· < ·) ∧ (∀ p n, (p, n) ∈ g.places ↔ g.node? p = some n) ∧
      g.places.map Prod.snd = g.nodes) ∧
    (g.items =
        (match g.topLevelInitializer, g.initializer with
          | some top, some code => [.topLevelInitializer top, .initializer code]
          | some top, none => [.topLevelInitializer top]
          | none, some code => [.initializer code]
          | none, none => []) ++
        g.rules.flatMap (fun r => .rule r :: r.body.nodes.map .expr) ∧
      g.items.filterMap Item.expr? = g.nodes ∧
      ∀ (m : Type → Type) [Monad m] [LawfulMonad m] (f : Item → m Unit),
        g.visit f = forM g.items f) ∧
    (g.outline = String.join (g.rules.map fun r =>
      r.name ++ (r.outcome.map Outcome.remark).getD "" ++ ":\n" ++
        String.join (r.body.places.map fun x => x.2.line (1 + x.1.length)))) ∧
    (∀ (σ ε : Type) (f : Item → ExceptT ε (StateM σ) Unit) (before after : List Item) (x : Item)
      (s t u : σ) (reason : ε), g.items = before ++ x :: after →
      (forM before f).run.run s = (.ok (), t) → (f x).run.run t = (.error reason, u) →
      (g.visit f).run.run s = (.error reason, u)) ∧
    (∀ n, (g.visit (recordUpTo (n + 1))).run.run [] =
      match g.items[n]? with
      | some x => (.error x, g.items.take (n + 1))
      | none => (.ok (), g.items)) ∧
    ∀ (σ ε : Type) (f : Editor σ ε) (s : σ), ∃ hs,
      f.Ends g.nodes s hs (g.edit f s).state (g.edit f s).stopped ∧
      Expr.Replaced hs g.places (g.edit f s).value.places ∧
      (g.edit f s).value = { g with
        rules := withBodies g.rules ((g.edit f s).value.rules.map (·.body)) } ∧
      ∀ i, hs.length ≤ ((g.rules.take i).flatMap (·.body.nodes)).length →
        (g.edit f s).value.rules.drop i = g.rules.drop i := by
  refine ⟨⟨g.places_sorted, g.mem_places, g.places_snd⟩,
    ⟨?items, g.items_filterMap, fun m _ _ f => g.visit_eq_forM f⟩, ?outlines, ?breaks, ?records,
    ?edits⟩
  case items =>
    rw [items]
    cases g.topLevelInitializer <;> cases g.initializer <;> rfl
  case outlines =>
    rw [outline]
    congr 2
    funext r
    rw [Rule.outline, Expr.outline_eq_places]
  case breaks =>
    intro σ ε f before after x s t u reason hitems hbefore hx
    rw [g.visit_eq_forM, hitems]
    exact forM_of_break hbefore hx
  case records =>
    intro n
    have h := run_forM_recordUpTo n g.items []
    simp only [List.length_nil, Nat.zero_add, List.nil_append] at h
    rw [g.visit_eq_forM]
    cases hx : g.items[n]? <;> rwa [hx] at h
  case edits =>
    intro σ ε f s
    obtain ⟨hs, hends, hreplaced, hkept⟩ := Expr.exists_editsList
      (fun e (_ : e ∈ g.rules.map (·.body)) s => e.exists_edits f s) s
    have hlen : (Expr.editList f (g.rules.map (·.body)) s).value.length = g.rules.length := by
      rw [length_editList, List.length_map]
    have hbodies : (g.edit f s).value.rules.map (·.body) =
        (Expr.editList f (g.rules.map (·.body)) s).value := by
      rw [g.edit_eq]
      exact map_body_withBodies hlen
    refine ⟨hs, ?_, ?_, ?_, fun i hi => ?_⟩
    · rw [g.edit_eq, nodes_eq_listNodes]
      exact hends
    · rw [places, places, hbodies]
      exact hreplaced 0
    · rw [hbodies, g.edit_eq]
      rfl
    · have hrest := hkept i (by
        rwa [← List.map_take, Expr.listNodes_eq_flatMap, List.flatMap_map])
      rw [g.edit_eq]
      change (withBodies g.rules _).drop i = _
      rw [withBodies, List.drop_zipWith, hrest, ← List.map_drop]
      exact withBodies_self _

section Interrupted

open Build

def interrupted : Grammar :=
  { grammar
      [rule "a" (named "list" (sequence [labeled "x" (literal "y"), ruleRef "b", literal "z"])),
        rule "b" (literal "w")] with
    topLevelInitializer := some (.ofText "use std::fmt;")
    initializer := some (.ofText "let n = 0;") }

/-- Counts the nodes and stops at references. Names, labels and literals that it passes are marked
with as many `!` as there have been nodes. -/
def markNames : Editor Nat String where
  look e seen := (seen + 1, e.ref?.map (·.name))
  rewriting :=
    { tag _ t := t
      operator seen
        | .named name => .named (name.pushn '!' seen)
        | .labeled (some label) location pick =>
            .labeled (some (label.pushn '!' seen)) location pick
        | op => op
      leaf seen
        | .literal value ignoreCase => .literal (value.pushn '!' seen) ignoreCase
        | l => l }

/-- What is in front of the reference is marked; what follows it is not, nor is the next rule. -/
theorem interrupted_before_reference :
    interrupted.items.take 2 =
      [.topLevelInitializer (.ofText "use std::fmt;"), .initializer (.ofText "let n = 0;")] ∧
    (interrupted.visit (recordUpTo 7)).run.run [] =
      (.error (.expr (literal "y")), interrupted.items.take 7) ∧
    (interrupted.edit markNames 0).stopped = some "b" ∧
    (interrupted.edit markNames 0).value.rules.map (·.body) =
      [named "list!" (sequence [labeled "x!!!" (literal "y!!!!"), ruleRef "b", literal "z"]),
        literal "w"] ∧
    (interrupted.edit markNames 0).value.rules.drop 1 = interrupted.rules.drop 1 := by
  obtain ⟨-, ⟨hitems, -, -⟩, -, hbreaks, -, hedits⟩ := interrupted.traversals_in_order
  have hstop : (interrupted.edit markNames 0).stopped = some "b" := rfl
  obtain ⟨hs, hends, -, -, hdrop⟩ := hedits Nat String markNames 0
  rw [hstop] at hends
  have hlen : hs.length ≤ 6 := Nat.le_of_lt_succ hends.length_lt
  refine ⟨?_, hbreaks _ _ (recordUpTo 7) (interrupted.items.take 6) (interrupted.items.drop 7) _ []
    _ _ _ rfl rfl rfl, hstop, rfl, hdrop 1 hlen⟩
  rw [hitems]
  rfl

end Interrupted

end PegCompiler
