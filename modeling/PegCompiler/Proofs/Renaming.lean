import PegCompiler.Grammar.Redirect
import PegCompiler.Proofs.Trees

/-!
# Renaming in place

The removal of proxies renames references rule by rule, in rules that it renamed before. All of that
amounts to one renaming of the rules that stay: what was redirected earlier follows the later
redirects.
-/

namespace PegCompiler

/-! ## Renamed expressions -/

namespace Expr

mutual
def mapLeaves (f : Leaf → Leaf) : Expr → Expr
  | choice t es => choice t (mapLeavesList f es)
  | sequence t es => sequence t (mapLeavesList f es)
  | apply t op e => apply t op (mapLeaves f e)
  | leaf t l => leaf t (f l)

def mapLeavesList (f : Leaf → Leaf) : List Expr → List Expr
  | [] => []
  | e :: es => mapLeaves f e :: mapLeavesList f es
end

/-- The expression with `f name` in place of every reference to `name`. -/
def rename (f : String → String) (e : Expr) : Expr :=
  e.mapLeaves (Leaf.rename f)

theorem mapLeavesList_eq_map (f : Leaf → Leaf) (es : List Expr) :
    mapLeavesList f es = es.map (mapLeaves f) := by
  induction es with
  | nil => rfl
  | cons e es ih => rw [mapLeavesList, ih, List.map_cons]

theorem nodes_mapLeaves (f : Leaf → Leaf) (e : Expr) :
    (e.mapLeaves f).nodes = e.nodes.map (mapLeaves f) := by
  induction e with
  | choice t es ih =>
      rw [nodes, List.map_cons, mapLeaves, mapLeavesList_eq_map, nodes, listNodes_map ih]
  | sequence t es ih =>
      rw [nodes, List.map_cons, mapLeaves, mapLeavesList_eq_map, nodes, listNodes_map ih]
  | apply t op e ih => simp only [mapLeaves, nodes, ih, List.map_cons]
  | leaf t l => rfl

theorem mapLeaves_id (e : Expr) : e.mapLeaves id = e := by
  induction e with
  | choice t es ih =>
      rw [mapLeaves, mapLeavesList_eq_map, List.map_congr_left ih, List.map_id']
  | sequence t es ih =>
      rw [mapLeaves, mapLeavesList_eq_map, List.map_congr_left ih, List.map_id']
  | apply t op e ih => rw [mapLeaves, ih]
  | leaf t l => rfl

theorem mapLeaves_mapLeaves (f g : Leaf → Leaf) (e : Expr) :
    (e.mapLeaves f).mapLeaves g = e.mapLeaves (g ∘ f) := by
  induction e with
  | choice t es ih =>
      rw [mapLeaves, mapLeaves, mapLeaves, mapLeavesList_eq_map, mapLeavesList_eq_map,
        mapLeavesList_eq_map, List.map_map]
      exact congrArg _ (List.map_congr_left ih)
  | sequence t es ih =>
      rw [mapLeaves, mapLeaves, mapLeaves, mapLeavesList_eq_map, mapLeavesList_eq_map,
        mapLeavesList_eq_map, List.map_map]
      exact congrArg _ (List.map_congr_left ih)
  | apply t op e ih => simp only [mapLeaves, ih]
  | leaf t l => rfl

@[simp] theorem length_nodes_rename (f : String → String) (e : Expr) :
    (e.rename f).nodes.length = e.nodes.length := by
  rw [rename, nodes_mapLeaves, List.length_map]

@[simp] theorem choicesNonempty_rename {f : String → String} {e : Expr} :
    (e.rename f).ChoicesNonempty ↔ e.ChoicesNonempty := by
  induction e with
  | choice t es ih => simp_all [rename, mapLeaves, mapLeavesList_eq_map]
  | sequence t es ih => simp_all [rename, mapLeaves, mapLeavesList_eq_map]
  | apply t op e ih => simp_all [rename, mapLeaves]
  | leaf t l => simp [rename, mapLeaves]

theorem exists_ref_of_rename {f : String → String} {e : Expr} {ref : RuleRef}
    (h : ref ∈ (e.rename f).refs) : ∃ s ∈ e.refs, ref.name = f s.name := by
  obtain ⟨t, ht, hloc⟩ := mem_refs.mp h
  rw [rename, nodes_mapLeaves] at ht
  obtain ⟨n, hn, heq⟩ := List.mem_map.mp ht
  cases n with
  | leaf t' l =>
      cases l with
      | ruleRef name =>
          simp only [mapLeaves, Leaf.rename, leaf.injEq, Leaf.ruleRef.injEq] at heq
          exact ⟨⟨name, t'.location⟩, mem_refs.mpr ⟨t', hn, rfl⟩, heq.2.symm⟩
      | _ => simp [mapLeaves, Leaf.rename] at heq
  | _ => simp [mapLeaves] at heq

end Expr

theorem Leaf.rename_id : Leaf.rename id = id := by
  funext l
  cases l <;> rfl

theorem Leaf.rename_comp (f g : String → String) :
    Leaf.rename g ∘ Leaf.rename f = Leaf.rename (g ∘ f) := by
  funext l
  cases l <;> rfl

theorem Expr.rename_rename (f g : String → String) (e : Expr) :
    (e.rename f).rename g = e.rename (g ∘ f) := by
  rw [rename, rename, mapLeaves_mapLeaves, Leaf.rename_comp, rename]

namespace Rule

variable (f g : String → String) (r : Rule)

def rename : Rule :=
  { r with body := r.body.rename f }

@[simp] theorem name_rename : (r.rename f).name = r.name := rfl

theorem rename_id : r.rename id = r := by
  rw [rename, Expr.rename, Leaf.rename_id, Expr.mapLeaves_id]

theorem rename_rename : (r.rename f).rename g = r.rename (g ∘ f) := by
  rw [rename, rename, Expr.rename_rename, rename]

@[simp] theorem target?_rename : (r.rename f).target? = r.target?.map f := by
  obtain ⟨name, loc, body, loc', outcome, code⟩ := r
  cases body with
  | leaf t l => cases l <;> rfl
  | _ => rfl

end Rule

/-! ## Renaming by an edit -/

theorem Editor.enter_renaming (f : String → String) (e : Expr)
    (next : Unit → Edited Unit Empty Expr) :
    (Editor.renaming f).enter e () next = next () := rfl

theorem Expr.editList_renaming {f : String → String} {es : List Expr}
    (h : ∀ e ∈ es, e.edit (.renaming f) () = ⟨e.rename f, (), none⟩) :
    editList (.renaming f) es () = ⟨es.map (rename f), (), none⟩ := by
  induction es with
  | nil => rfl
  | cons e es ih =>
      obtain ⟨he, hes⟩ := List.forall_mem_cons.mp h
      rw [editList, he, Edited.cons, ih hes]
      rfl

/-- The edit is never stopped, and in the end it has renamed every reference. -/
theorem Expr.edit_renaming (f : String → String) (e : Expr) :
    e.edit (.renaming f) () = ⟨e.rename f, (), none⟩ := by
  induction e with
  | choice t es ih =>
      rw [edit, Editor.enter_renaming, editList_renaming ih, rename, mapLeaves,
        mapLeavesList_eq_map]
      rfl
  | sequence t es ih =>
      rw [edit, Editor.enter_renaming, editList_renaming ih, rename, mapLeaves,
        mapLeavesList_eq_map]
      rfl
  | apply t op e ih =>
      rw [edit, Editor.enter_renaming, ih]
      rfl
  | leaf t l => rfl

namespace Grammar

variable (f h : String → String) (g : Grammar)

theorem editRules_renaming (rules : List Rule) :
    editRules (.renaming f) rules () = ⟨rules.map (Rule.rename f), (), none⟩ := by
  induction rules with
  | nil => rfl
  | cons r rs ih =>
      rw [editRules, Expr.edit_renaming, Edited.map, Edited.cons, ih]
      rfl

theorem rename_eq : g.rename f = { g with rules := g.rules.map (Rule.rename f) } := by
  rw [rename, edit, editRules_renaming]
  rfl

theorem rename_id : g.rename id = g := by
  rw [rename_eq, funext Rule.rename_id, List.map_id']

theorem rename_rename : (g.rename f).rename h = g.rename (h ∘ f) := by
  simp [rename_eq, Function.comp_def, Rule.rename_rename]

end Grammar

/-! ## One pass -/

/-- Redirects from a proxy to its target, after the redirects `f`. -/
def redirectTo (f : String → String) (r : Rule) : String → String :=
  match r.target? with
  | none => f
  | some target => fun name => if f name = r.name then f target else f name

/-- What each reference names once the proxies are taken in turn. -/
def redirect (rules : List Rule) : String → String :=
  rules.foldl redirectTo id

/-- Whether a rule stays: it is no proxy, or a start rule. -/
def Rule.lasts (isStart : String → Bool) (r : Rule) : Bool :=
  r.target?.isNone || isStart r.name

def lastingRules (isStart : String → Bool) (rules : List Rule) : List Rule :=
  rules.filter (Rule.lasts isStart)

/-- The rules that stay, redirected. -/
def withoutProxies (isStart : String → Bool) (rules : List Rule) : List Rule :=
  (lastingRules isStart rules).map (Rule.rename (redirect rules))

section InPlace

variable {isStart : String → Bool} {g : Grammar}

/-- Where the rules stand that do not stay, `first` being the position of the first rule. -/
def vanishing (isStart : String → Bool) (rules : List Rule) (first : Nat) : List Nat :=
  match rules with
  | [] => []
  | r :: rs =>
      if r.lasts isStart then vanishing isStart rs (first + 1)
      else first :: vanishing isStart rs (first + 1)

theorem redirectTo_rename (f : String → String) (r : Rule) :
    redirectTo f r =
      match (r.rename f).target? with
      | none => f
      | some target => replaceName r.name target ∘ f := by
  cases h : r.target? with
  | none => simp [redirectTo, h]
  | some target =>
      funext name
      simp [redirectTo, h, replaceName]

/-- The target of a rule is read after the redirects of the rules before it. -/
theorem ProxyState.step_renamed (f : String → String) (removed : List Nat) {index : Nat} {r : Rule}
    (h : g.rules[index]? = some r) :
    ProxyState.step isStart ⟨g.rename f, removed⟩ index =
      ⟨g.rename (redirectTo f r),
        if r.lasts isStart then removed else removed ++ [index]⟩ := by
  have hget : (g.rename f).rules[index]? = some (r.rename f) := by
    rw [Grammar.rename_eq, List.getElem?_map, h, Option.map_some]
  rw [step, redirectTo_rename]
  simp only [hget]
  cases htarget : r.target? with
  | none => simp [htarget, Rule.lasts]
  | some target =>
      by_cases hstart : isStart r.name <;>
        simp [htarget, hstart, Rule.lasts, Grammar.rename_rename]

/-- The pass has renamed all rules, `done` of which it has taken already. -/
theorem foldl_step (f : String → String) (removed : List Nat) {done left : List Rule}
    (h : done ++ left = g.rules) :
    (List.range' done.length left.length).foldl (ProxyState.step isStart) ⟨g.rename f, removed⟩ =
      ⟨g.rename (left.foldl redirectTo f), removed ++ vanishing isStart left done.length⟩ := by
  induction left generalizing done f removed with
  | nil => simp [vanishing]
  | cons r rs ih =>
      have hget : g.rules[done.length]? = some r := by
        simp [← h]
      have hlen : (done ++ [r]).length = done.length + 1 := by simp
      have hrest := ih (redirectTo f r)
        (if r.lasts isStart then removed else removed ++ [done.length])
        (by simpa using h : (done ++ [r]) ++ rs = g.rules)
      rw [hlen] at hrest
      rw [List.length_cons, List.range'_succ, List.foldl_cons,
        ProxyState.step_renamed f removed hget, hrest, List.foldl_cons, vanishing]
      split <;> simp

/-- To remove the positions where rules vanish is to keep the others, whatever stands before. -/
theorem eraseAll_vanishing (f : String → String) (before : List Rule) (rules : List Rule) :
    eraseAll (vanishing isStart rules before.length) (before ++ rules.map (Rule.rename f)) =
      before ++ (lastingRules isStart rules).map (Rule.rename f) := by
  induction rules generalizing before with
  | nil => simp [vanishing, lastingRules, eraseAll]
  | cons r rs ih =>
      have hrest := ih (before ++ [r.rename f])
      simp only [List.length_append, List.length_singleton, List.append_assoc,
        List.singleton_append] at hrest
      rw [vanishing, List.map_cons]
      by_cases hr : r.lasts isStart
      · rw [if_pos hr, hrest]
        simp [lastingRules, hr]
      · rw [if_neg hr]
        change (eraseAll _ _).eraseIdx before.length = _
        rw [hrest]
        simp [lastingRules, hr, List.eraseIdx_append_of_length_le]

/-- The pass renames the rules that stay as the redirects in turn do. -/
theorem Grammar.removeProxies_eq (isStart : String → Bool) (g : Grammar) :
    g.removeProxies isStart = { g with rules := withoutProxies isStart g.rules } := by
  have hrun : (List.range' 0 g.rules.length).foldl (ProxyState.step isStart) ⟨_, []⟩ = _ :=
    foldl_step id [] (List.nil_append g.rules)
  rw [g.rename_id, List.length_nil, ← List.range_eq_range', List.nil_append] at hrun
  have herase : eraseAll (vanishing isStart g.rules 0)
      (g.rules.map (Rule.rename (redirect g.rules))) = withoutProxies isStart g.rules :=
    eraseAll_vanishing (redirect g.rules) [] g.rules
  rw [removeProxies, hrun, ← redirect, rename_eq]
  simp only [herase]

end InPlace

end PegCompiler
