import PegCompiler.Grammar.Basic

/-!
# Traversals

All traversals meet the nodes of an expression in one order, a node before its children and these
from left to right, rule by rule. `nodes` lists them; `visit` runs an action on each, and ends where
the action ends; `edit` rewrites the nodes that it passes and keeps what it has done when it is
stopped.
-/

namespace PegCompiler

namespace Expr

mutual
def nodes : Expr → List Expr
  | choice t es => choice t es :: listNodes es
  | sequence t es => sequence t es :: listNodes es
  | apply t op e => apply t op e :: nodes e
  | leaf t l => [leaf t l]

def listNodes : List Expr → List Expr
  | [] => []
  | e :: es => nodes e ++ listNodes es
end

variable {m : Type → Type} [Monad m]

mutual
def visit (f : Expr → m Unit) : Expr → m Unit
  | choice t es => do
      f (choice t es)
      visitList f es
  | sequence t es => do
      f (sequence t es)
      visitList f es
  | apply t op e => do
      f (apply t op e)
      visit f e
  | leaf t l => f (leaf t l)

def visitList (f : Expr → m Unit) : List Expr → m Unit
  | [] => pure ()
  | e :: es => do
      visit f e
      visitList f es
end

/-- The leaf at the end of a chain of operators, if the chain does end in a leaf. -/
def core? : Expr → Option Leaf
  | choice _ _ => none
  | sequence _ _ => none
  | apply _ _ e => core? e
  | leaf _ l => some l

end Expr

/-- What an edit leaves behind: the new value, the state, and the reason if it was stopped. -/
structure Edited (σ ε α : Type) where
  value : α
  state : σ
  stopped : Option ε

/-- What is made of a node in a given state. The node keeps its children. -/
structure Rewriting (σ : Type) where
  tag : σ → Tag → Tag
  operator : σ → Operator → Operator
  leaf : σ → Leaf → Leaf

/-- Leaves all nodes but the leaves as they are. -/
def Rewriting.ofLeaf (f : Leaf → Leaf) : Rewriting σ where
  tag _ t := t
  operator _ op := op
  leaf _ := f

instance : Coe (Leaf → Leaf) (Rewriting σ) := ⟨Rewriting.ofLeaf⟩

/-- An edit looks at each node before its children, where it may stop with a reason, and rewrites
each node that it passes before it goes on to the children. -/
structure Editor (σ ε : Type) where
  look : Expr → σ → σ × Option ε
  rewriting : Rewriting σ

namespace Edited

variable {σ ε α β : Type}

def map (f : α → β) (x : Edited σ ε α) : Edited σ ε β :=
  ⟨f x.value, x.state, x.stopped⟩

/-- Goes on from `x` to the `rest` of a list, which stays as it is when `x` was stopped. -/
def cons (x : Edited σ ε α) (rest : List α) (next : σ → Edited σ ε (List α)) :
    Edited σ ε (List α) :=
  match x.stopped with
  | some reason => ⟨x.value :: rest, x.state, some reason⟩
  | none => (next x.state).map (x.value :: ·)

end Edited

/-- Looks at the node `e` and goes on unless that stops the edit. -/
def Editor.enter (f : Editor σ ε) (e : Expr) (s : σ) (next : σ → Edited σ ε Expr) :
    Edited σ ε Expr :=
  match f.look e s with
  | (s, some reason) => ⟨e, s, some reason⟩
  | (s, none) => next s

namespace Expr

variable {σ ε : Type}

mutual
def edit (f : Editor σ ε) : Expr → σ → Edited σ ε Expr
  | choice t es, s => f.enter (choice t es) s fun s =>
      (editList f es s).map (choice (f.rewriting.tag s t))
  | sequence t es, s => f.enter (sequence t es) s fun s =>
      (editList f es s).map (sequence (f.rewriting.tag s t))
  | apply t op e, s => f.enter (apply t op e) s fun s =>
      (edit f e s).map (apply (f.rewriting.tag s t) (f.rewriting.operator s op))
  | leaf t l, s => f.enter (leaf t l) s fun s =>
      ⟨leaf (f.rewriting.tag s t) (f.rewriting.leaf s l), s, none⟩

def editList (f : Editor σ ε) : List Expr → σ → Edited σ ε (List Expr)
  | [], s => ⟨[], s, none⟩
  | e :: es, s => (edit f e s).cons es (editList f es)
end

end Expr

/-- What a traversal of a grammar meets. -/
inductive Item where
  | topLevelInitializer (code : Code)
  | initializer (code : Code)
  | rule (r : Rule)
  | expr (e : Expr)

/-- Stops at an expression in which `find` finds something. -/
def Item.stopAt (find : Expr → Option ε) : Item → Except ε Unit
  | expr e =>
      match find e with
      | some reason => .error reason
      | none => .ok ()
  | _ => .ok ()

/-- What broke off a computation, if something did. -/
def breakOf? : Except ε α → Option ε
  | .ok _ => none
  | .error reason => some reason

@[simp] theorem breakOf?_ok (a : α) : breakOf? (.ok a : Except ε α) = none := rfl

@[simp] theorem breakOf?_ok_bind (a : α) (next : α → Except ε β) :
    breakOf? (.ok a >>= next) = breakOf? (next a) := rfl

@[simp] theorem breakOf?_error_bind (reason : ε) (next : α → Except ε β) :
    breakOf? (.error reason >>= next) = some reason := rfl

namespace Grammar

/-- All that is in a grammar: the initializers, then each rule before the nodes of its body. -/
def items (g : Grammar) : List Item :=
  (g.topLevelInitializer.map Item.topLevelInitializer).toList ++
    ((g.initializer.map Item.initializer).toList ++
      g.rules.flatMap fun r => .rule r :: r.body.nodes.map .expr)

def nodes (g : Grammar) : List Expr :=
  g.rules.flatMap (·.body.nodes)

def visit {m : Type → Type} [Monad m] (f : Item → m Unit) (g : Grammar) : m Unit := do
  if let some code := g.topLevelInitializer then
    f (.topLevelInitializer code)
  if let some code := g.initializer then
    f (.initializer code)
  g.rules.forM fun r => do
    f (.rule r)
    r.body.visit (f ∘ .expr)

/-- The first that `find` finds, going through the expressions of the grammar. -/
def findInExprs? (find : Expr → Option ε) (g : Grammar) : Option ε :=
  breakOf? (g.visit (Item.stopAt find))

def editRules (f : Editor σ ε) : List Rule → σ → Edited σ ε (List Rule)
  | [], s => ⟨[], s, none⟩
  | r :: rs, s =>
      ((r.body.edit f s).map fun body => { r with body }).cons rs (editRules f rs)

def edit (f : Editor σ ε) (g : Grammar) (s : σ) : Edited σ ε Grammar :=
  (editRules f g.rules s).map fun rules => { g with rules }

end Grammar

/-! ## Visits of lists -/

section Visits

variable {m : Type → Type} [Monad m] [LawfulMonad m]

mutual
theorem Expr.visit_eq_forM (f : Expr → m Unit) : ∀ e : Expr, e.visit f = forM e.nodes f
  | .choice t es => by rw [visit, nodes, List.forM_cons, visitList_eq_forM f es]
  | .sequence t es => by rw [visit, nodes, List.forM_cons, visitList_eq_forM f es]
  | .apply t op e => by rw [visit, nodes, List.forM_cons, visit_eq_forM f e]
  | .leaf t l => by simp [visit, nodes]

theorem Expr.visitList_eq_forM (f : Expr → m Unit) :
    ∀ es : List Expr, visitList f es = forM (listNodes es) f
  | [] => rfl
  | e :: es => by
      rw [visitList, listNodes, List.forM_append, visit_eq_forM f e, visitList_eq_forM f es]
end

theorem Grammar.visit_eq_forM (f : Item → m Unit) (g : Grammar) : g.visit f = forM g.items f := by
  have hrules (rs : List Rule) :
      forM (rs.flatMap fun r => .rule r :: r.body.nodes.map .expr) f =
        forM rs fun r => f (.rule r) >>= fun _ => r.body.visit (f ∘ .expr) := by
    induction rs with
    | nil => rfl
    | cons r rs ih =>
        rw [List.flatMap_cons, List.forM_append, ih, List.forM_cons, List.forM_cons,
          Expr.visit_eq_forM, List.forM_map]
        rfl
  rw [visit, items, List.forM_append, List.forM_append, hrules, List.forM_eq_forM]
  cases g.topLevelInitializer <;> cases g.initializer <;> simp

end Visits

/-- The expression that an item is. -/
def Item.expr? : Item → Option Expr
  | expr e => some e
  | _ => none

theorem Grammar.items_filterMap (g : Grammar) : g.items.filterMap Item.expr? = g.nodes := by
  have hrules (rs : List Rule) :
      (rs.flatMap fun r => Item.rule r :: r.body.nodes.map .expr).filterMap Item.expr? =
        rs.flatMap (·.body.nodes) := by
    induction rs with
    | nil => rfl
    | cons r rs ih =>
        have hsome : Item.expr? ∘ Item.expr = some := rfl
        rw [List.flatMap_cons, List.filterMap_append, ih, List.flatMap_cons,
          List.filterMap_cons_none rfl, List.filterMap_map, hsome, List.filterMap_some]
  rw [items, List.filterMap_append, List.filterMap_append, hrules]
  cases g.topLevelInitializer <;> cases g.initializer <;> rfl

theorem Grammar.findInExprs?_eq (find : Expr → Option ε) (g : Grammar) :
    g.findInExprs? find = g.nodes.findSome? find := by
  rw [findInExprs?, visit_eq_forM, ← g.items_filterMap]
  induction g.items with
  | nil => rfl
  | cons i is ih =>
      rw [List.forM_cons]
      cases i with
      | expr e =>
          cases hfind : find e with
          | some reason => simp [Item.stopAt, Item.expr?, hfind]
          | none => simpa [Item.stopAt, Item.expr?, hfind] using ih
      | _ =>
          rw [List.filterMap_cons_none rfl]
          simpa [Item.stopAt] using ih

end PegCompiler
