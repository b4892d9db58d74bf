import PegCompiler.Proofs.Logs
import PegCompiler.Proofs.Offsets

/-!
# Shadowing

The check for duplicate labels and lowering keep a scope each, and they do not agree on what goes
out of it: behind a labeled expression the labels inside of it stay in the scope of the check, but
not in that of lowering. What lowering has in scope the check has, too. So where the check finds
nothing no label is put into a scope that has it, and the parameters of every function stand for one
labeled expression each.
-/

namespace PegCompiler

/-! ## The scope of the check -/

namespace Pass

variable {o : Options} {g : Grammar}

theorem accepts_reportDuplicateLabels :
    reportDuplicateLabels.Accepts o g ↔ g.duplicateLabel? = none :=
  check_eq_ok_iff

theorem exists_labelScope (haccepted : reportDuplicateLabels.Accepts o g) {r : Rule}
    (hr : r ∈ g.rules) : ∃ known, r.body.labelScope [] = .ok known := by
  have hnone : r.duplicateLabel? = none :=
    List.findSome?_eq_none_iff.mp (accepts_reportDuplicateLabels.mp haccepted) r hr
  unfold Rule.duplicateLabel? at hnone
  split at hnone
  · next known hknown => exact ⟨known, hknown⟩
  · cases hnone

end Pass

namespace Operator

/-- Whether a label is put into the scope. -/
def binds : Operator → Bool
  | labeled (some _) _ _ => true
  | _ => false

theorem eq_labeled_of_binds {op : Operator} (h : op.binds) :
    ∃ label location pick, op = labeled (some label) location pick := by
  unfold binds at h
  split at h
  · exact ⟨_, _, _, rfl⟩
  · cases h

end Operator

/-- The labels that the check has in scope. -/
def LabelScope.names (known : LabelScope) : List String :=
  known.map (·.1)

theorem notMem_names_of_lookup {known : LabelScope} {label : String}
    (h : known.lookup label = none) : label ∉ known.names := by
  intro hmem
  obtain ⟨place, hplace, rfl⟩ := List.mem_map.mp hmem
  simpa using List.lookup_eq_none_iff.mp h place hplace

theorem exists_labelScope_of_checkAlternatives {known : LabelScope} {es : List Expr}
    (h : Expr.checkAlternatives known es = .ok ()) :
    ∀ e ∈ es, ∃ behind, e.labelScope known = .ok behind := by
  induction es with
  | nil => simp
  | cons e es ih =>
      rw [Expr.checkAlternatives] at h
      cases he : e.labelScope known with
      | error defect =>
          rw [he] at h
          cases h
      | ok behind =>
          rw [he] at h
          exact List.forall_mem_cons.mpr ⟨⟨behind, he⟩, ih h⟩

theorem labelScopeList_cons_eq_ok {known behind : LabelScope} {e : Expr} {es : List Expr}
    (h : Expr.labelScopeList known (e :: es) = .ok behind) :
    ∃ next, e.labelScope known = .ok next ∧ Expr.labelScopeList next es = .ok behind := by
  rw [Expr.labelScopeList] at h
  cases he : e.labelScope known with
  | error defect =>
      rw [he] at h
      cases h
  | ok next =>
      rw [he] at h
      exact ⟨next, rfl, h⟩

namespace Expr

variable {t : Tag} {e : Expr} {known behind : LabelScope}

theorem labelScope_choice_eq_ok {es : List Expr} (h : (choice t es).labelScope known = .ok behind) :
    checkAlternatives known es = .ok () ∧ behind = known := by
  rw [labelScope] at h
  cases hes : checkAlternatives known es with
  | error defect =>
      rw [hes] at h
      cases h
  | ok _ =>
      rw [hes] at h
      exact ⟨rfl, (Except.ok.inj h).symm⟩

theorem labelScope_labeled_eq_ok {label : String} {location : Location} {pick : Bool}
    (h : (apply t (.labeled (some label) location pick) e).labelScope known = .ok behind) :
    label ∉ known.names ∧
      ∃ inside, e.labelScope known = .ok inside ∧ behind = (label, location) :: inside := by
  rw [labelScope] at h
  cases hlookup : known.lookup label with
  | some first =>
      rw [hlookup] at h
      cases h
  | none =>
      rw [hlookup] at h
      cases he : e.labelScope known with
      | error defect =>
          rw [he] at h
          cases h
      | ok inside =>
          rw [he] at h
          exact ⟨notMem_names_of_lookup hlookup, inside, rfl, (Except.ok.inj h).symm⟩

theorem labelScope_apply_eq_ok {op : Operator} (hop : op.binds = false)
    (h : (apply t op e).labelScope known = .ok behind) :
    ∃ inside, e.labelScope known = .ok inside ∧
      behind = if op.isScoped then known else inside := by
  rw [labelScope] at h
  · cases he : e.labelScope known with
    | error defect =>
        rw [he] at h
        cases h
    | ok inside =>
        rw [he] at h
        exact ⟨inside, rfl, (Except.ok.inj h).symm⟩
  · rintro label location pick rfl
    cases hop

/-- Labels that are in scope stay in scope. -/
theorem names_subset_of_labelScope (h : e.labelScope known = .ok behind) :
    known.names ⊆ behind.names := by
  induction e generalizing known behind with
  | choice t es ih =>
      obtain ⟨-, rfl⟩ := labelScope_choice_eq_ok h
      exact List.Subset.refl _
  | sequence t es ih =>
      rw [labelScope] at h
      induction es generalizing known with
      | nil =>
          obtain rfl := Except.ok.inj h
          exact List.Subset.refl _
      | cons e es ihes =>
          obtain ⟨he, hes⟩ := List.forall_mem_cons.mp ih
          obtain ⟨next, hnext, hrest⟩ := labelScopeList_cons_eq_ok h
          exact List.Subset.trans (he hnext) (ihes hes hrest)
  | apply t op e ih =>
      cases hop : op.binds with
      | true =>
          obtain ⟨label, location, pick, rfl⟩ := Operator.eq_labeled_of_binds hop
          obtain ⟨-, inside, hinside, rfl⟩ := labelScope_labeled_eq_ok h
          exact List.Subset.trans (ih hinside) (List.subset_cons_self ..)
      | false =>
          obtain ⟨inside, hinside, rfl⟩ := labelScope_apply_eq_ok hop h
          split
          · exact List.Subset.refl _
          · exact ih hinside
  | leaf t l =>
      obtain rfl := Except.ok.inj h
      exact List.Subset.refl _

end Expr

/-! ## The scope of lowering -/

/-- What is in scope in lowering while the check has `known` in scope: the labels are distinct,
those of the nodes `bound`, and the check has all of them. -/
structure Tidy (root : Expr) (known : LabelScope) (bound : List Site) (s : Scope) : Prop where
  known : s.names ⊆ known.names
  nodup : s.names.Nodup
  labels : s.names.map some = bound.map (·.node.label?)
  sites : ∀ b ∈ bound, b.Of root

namespace Tidy

variable {root : Expr} {known : LabelScope} {bound : List Site} {s : Scope}

theorem empty (root : Expr) : Tidy root [] [] .empty where
  known := List.nil_subset _
  nodup := List.nodup_nil
  labels := rfl
  sites := by simp

theorem mono (h : Tidy root known bound s) {more : LabelScope} (hmore : known.names ⊆ more.names) :
    Tidy root more bound s :=
  { h with known := List.Subset.trans h.known hmore }

/-- Only the names count. -/
theorem of_names_eq (h : Tidy root known bound s) {s' : Scope} (hs : s'.names = s.names) :
    Tidy root known bound s' where
  known := hs ▸ h.known
  nodup := hs ▸ h.nodup
  labels := hs ▸ h.labels
  sites := h.sites

theorem mark (h : Tidy root known bound s) {label : String} (hlabel : label ∉ known.names)
    {site : Site} (hsite : site.Of root) (hnode : site.node.label? = some label)
    {inside : LabelScope} (hinside : known.names ⊆ inside.names) (location : Location)
    (pick : Bool) (slot : Nat) :
    Tidy root ((label, location) :: inside) (bound ++ [site]) (s.mark (some label) pick slot) := by
  have hfresh : label ∉ s.names := fun hmem => hlabel (h.known hmem)
  have hnames := (s.names_mark_some label pick slot).trans (if_neg hfresh)
  refine ⟨?_, ?_, ?_, ?_⟩
  · rw [hnames]
    intro l hl
    rcases List.mem_append.mp hl with hl | hl
    · exact List.mem_cons_of_mem _ (hinside (h.known hl))
    · obtain rfl := List.mem_singleton.mp hl
      exact List.mem_cons_self ..
  · rw [hnames]
    exact List.nodup_append.mpr ⟨h.nodup, List.pairwise_singleton .., fun l hl l' hl' heq =>
      hfresh (List.mem_singleton.mp hl' ▸ heq ▸ hl)⟩
  · rw [hnames, List.map_append, List.map_append, h.labels, List.map_singleton, List.map_singleton,
      hnode]
  · intro b hb
    rcases List.mem_append.mp hb with hb | hb
    · exact h.sites b hb
    · rwa [List.mem_singleton.mp hb]

end Tidy

/-! ## What happens in lowering -/

/-- Whether the parameters of a function stand for one labeled node each. -/
def HostFunction.StandsFor (f : HostFunction) (root : Expr) (bound : List Site) : Prop :=
  f.params.Nodup ∧ f.params.map some = bound.map (·.node.label?) ∧ ∀ b ∈ bound, b.Of root

/-- Whether a label that is put into a scope is not there yet, and a function that is called has
parameters that stand for one labeled node each. -/
def Event.Fresh (root : Expr) : Event → Prop
  | binds site s => site.Of root ∧ ∃ label, site.node.label? = some label ∧ label ∉ s.names
  | ends _ _ _ _ _ => True
  | calls f bound => f.StandsFor root bound

/-- Whether nothing is shadowed while the log is kept, nor by what follows. -/
structure Log.Unshadowed (root : Expr) (known : LabelScope) (l : Log) : Prop where
  fresh : ∀ event ∈ l.events, event.Fresh root
  tidy : Tidy root known l.bound l.lowered.scope

theorem Tidy.standsFor {root : Expr} {known : LabelScope} {bound : List Site} {s : Scope}
    (h : Tidy root known bound s) (predicate : Bool) (body : String) :
    (⟨predicate, s.names, body⟩ : HostFunction).StandsFor root bound :=
  ⟨h.nodup, h.labels, h.sites⟩

theorem params_of_mem_functions_sequenceEnd {action : Option String} {n height : Nat} {s : Scope}
    {f : HostFunction} (hf : f ∈ (sequenceEnd action n height s).functions) :
    f.params = s.names := by
  unfold Lowered.functions sequenceEnd at hf
  split at hf
  · cases action with
    | none => cases hf
    | some body =>
        obtain rfl := List.mem_singleton.mp hf
        rfl
  · cases hf

theorem function?_failure (outcome : Outcome) (e : Expectation) :
    (failure outcome e).2.filterMap Symbol.function? = [] := by
  unfold failure
  split <;> rfl

theorem params_of_mem_functions_lowerLeaf {t : Tag} {l : Leaf} {height : Nat} {s : Scope}
    {f : HostFunction} (hf : f ∈ (lowerLeaf t l height s).functions) : f.params = s.names := by
  cases l with
  | semanticAnd code | semanticNot code =>
      obtain rfl := List.mem_singleton.mp hf
      rfl
  | ruleRef name => cases hf
  | literal value ignoreCase =>
      simp only [Lowered.functions, lowerLeaf, lowerLiteral] at hf
      split at hf
      · cases hf
      · rw [List.filterMap_append, function?_failure, List.append_nil] at hf
        cases ht : t.outcome <;> cases ignoreCase <;> simp [ht, Symbol.function?] at hf
  | charClass set =>
      simp only [Lowered.functions, lowerLeaf, lowerCharClass] at hf
      rw [List.filterMap_append, function?_failure, List.append_nil] at hf
      split at hf <;> cases hf
  | any =>
      simp only [Lowered.functions, lowerLeaf, lowerAny] at hf
      rw [function?_failure] at hf
      cases hf

theorem bound_logAlternatives (around : List Expr) (bound : List Site) (es : List Expr)
    (height : Nat) (s : Scope) :
    (Expr.logAlternatives around bound es height s).bound = bound := by
  cases es with
  | nil => rfl
  | cons e es =>
      rw [Expr.logAlternatives]
      dsimp only
      split <;> rfl

/-- Whether the log of an expression is without shadowing where the check finds no fault, as long as
the scopes of the two agree before. -/
def Expr.LogsUnshadowed (e root : Expr) : Prop :=
  ∀ around bound action height s known behind,
    (Site.mk e around).Of root → Tidy root known bound s → e.labelScope known = .ok behind →
      (e.log around bound action height s).Unshadowed root behind

theorem logElements_unshadowed {root : Expr} {es : List Expr} (site : Site)
    (action : Option String) (hes : ∀ e ∈ es, e.LogsUnshadowed root)
    (hsites : ∀ e ∈ es, (Site.mk e (site.node :: site.around)).Of root) {bound : List Site}
    {s : Scope} {known behind : LabelScope} (htidy : Tidy root known bound s)
    (h : Expr.labelScopeList known es = .ok behind) (n height : Nat) :
    (Expr.logElements site bound action n es height s).Unshadowed root behind := by
  induction es generalizing bound s known n height with
  | nil =>
      obtain rfl := Except.ok.inj h
      refine ⟨List.forall_mem_cons.mpr ⟨trivial, ?_⟩, ?_⟩
      · intro event hevent
        obtain ⟨f, hf, rfl⟩ := List.mem_map.mp hevent
        have hparams := params_of_mem_functions_sequenceEnd hf
        exact ⟨hparams ▸ htidy.nodup, hparams ▸ htidy.labels, htidy.sites⟩
      · exact htidy.of_names_eq (congrArg Scope.names (scope_sequenceEnd ..))
  | cons e es ih =>
      obtain ⟨he, hes⟩ := List.forall_mem_cons.mp hes
      obtain ⟨hsite, hsites⟩ := List.forall_mem_cons.mp hsites
      obtain ⟨next, hnext, hrest⟩ := labelScopeList_cons_eq_ok h
      have hfirst := he _ bound none height s known next hsite htidy hnext
      have hlast := ih hes hsites hfirst.tidy hrest (n + 1) (height + 1)
      exact ⟨List.forall_mem_append.mpr ⟨hfirst.fresh, hlast.fresh⟩, hlast.tidy⟩

namespace Operator

variable {op : Operator} {t : Tag} {e : Expr} {height : Nat} {s : Scope} {site : Site}

@[simp] theorem names_scopeInside : (op.scopeInside s).names = s.names := by
  cases op <;> rfl

theorem bindings_eq_nil (hop : op.binds = false) : op.bindings site s = [] := by
  unfold binds at hop
  unfold bindings
  split
  · cases hop
  · rfl

/-- Only named expressions have their labels in scope behind them. -/
theorem tidy_behind {root : Expr} {known inside : LabelScope} {bound : List Site} {body : Log}
    (hop : op.binds = false) (htidy : Tidy root known bound s)
    (hinside : known.names ⊆ inside.names) (hbody : body.Unshadowed root inside) :
    Tidy root (if op.isScoped then known else inside) (op.boundBehind site bound body.bound)
      (op.lowered t e height s body.lowered).scope := by
  cases op with
  | named name => exact hbody.tidy
  | action code =>
      refine htidy.of_names_eq ?_
      unfold lowered
      dsimp only
      split <;> rfl
  | labeled label location pick =>
      cases label with
      | none => exact (htidy.mono hinside).of_names_eq rfl
      | some label => cases hop
  | _ => exact htidy.of_names_eq rfl

theorem fresh_calls {root : Expr} {known : LabelScope} {body : Log}
    (hbody : body.Unshadowed root known) : ∀ event ∈ op.calls e body, event.Fresh root := by
  intro event hevent
  unfold calls at hevent
  split at hevent
  · split at hevent
    · cases hevent
    · obtain rfl := List.mem_singleton.mp hevent
      exact hbody.tidy.standsFor false _
  · cases hevent

end Operator

namespace Expr

theorem logsUnshadowed (e root : Expr) : e.LogsUnshadowed root := by
  induction e with
  | choice t es ih =>
      intro around bound action height s known behind hsite htidy h
      obtain ⟨hes, rfl⟩ := labelScope_choice_eq_ok h
      constructor
      · refine forall_mem_logAlternatives fun e he => ?_
        obtain ⟨inside, hinside⟩ := exists_labelScope_of_checkAlternatives hes e he
        have htidy := htidy.of_names_eq s.names_inner
        exact (ih e he _ bound none height s.inner _ inside (hsite.child he) htidy hinside).fresh
      · rw [log, bound_logAlternatives]
        refine htidy.of_names_eq (congrArg Scope.names ?_)
        rw [lowered_logAlternatives (fun e _ => e.lowered_log), scope_lowerAlternatives]
  | sequence t es ih =>
      intro around bound action height s known behind hsite htidy h
      have hes : labelScopeList known es = .ok behind := h
      have hinside := logElements_unshadowed ⟨sequence t es, around⟩ action ih
        (fun e he => hsite.child he) (htidy.of_names_eq s.names_inner) hes 0 (height + 1)
      exact ⟨hinside.fresh, hinside.tidy.of_names_eq rfl⟩
  | apply t op e ih =>
      intro around bound action height s known behind hsite htidy h
      have hbody (inside : LabelScope) (hinside : e.labelScope known = .ok inside) :=
        ih (apply t op e :: around) bound (op.called? e) (op.heightInside e height)
          (op.scopeInside s) known inside (hsite.child (List.mem_singleton.mpr rfl))
          (htidy.of_names_eq Operator.names_scopeInside) hinside
      cases hop : op.binds with
      | true =>
          obtain ⟨label, location, pick, rfl⟩ := Operator.eq_labeled_of_binds hop
          obtain ⟨hlabel, inside, hinside, rfl⟩ := labelScope_labeled_eq_ok h
          have hnew : label ∉ s.names := fun hmem => hlabel (htidy.known hmem)
          have hmore := names_subset_of_labelScope hinside
          refine ⟨?_, htidy.mark hlabel hsite rfl hmore location pick height⟩
          exact List.forall_mem_append.mpr
            ⟨List.forall_mem_cons.mpr ⟨⟨hsite, label, rfl, hnew⟩, (hbody inside hinside).fresh⟩,
              Operator.fresh_calls (hbody inside hinside)⟩
      | false =>
          obtain ⟨inside, hinside, rfl⟩ := labelScope_apply_eq_ok hop h
          have hmore := names_subset_of_labelScope hinside
          refine ⟨?_, Operator.tidy_behind hop htidy hmore (hbody inside hinside)⟩
          rw [log, Operator.bindings_eq_nil hop]
          exact List.forall_mem_append.mpr
            ⟨(hbody inside hinside).fresh, Operator.fresh_calls (hbody inside hinside)⟩
  | leaf t l =>
      intro around bound action height s known behind hsite htidy h
      obtain rfl := Except.ok.inj h
      refine ⟨?_, htidy.of_names_eq (congrArg Scope.names (scope_lowerLeaf ..))⟩
      intro event hevent
      obtain ⟨f, hf, rfl⟩ := List.mem_map.mp hevent
      have hparams := params_of_mem_functions_lowerLeaf hf
      exact ⟨hparams ▸ htidy.nodup, hparams ▸ htidy.labels, htidy.sites⟩

end Expr

/-! ## Lowering that refuses to shadow -/

namespace Scope

/-- The scope behind a labeled expression, unless the label is there before. -/
def markNew? (s : Scope) (label : Option String) (pick : Bool) (slot : Nat) : Option Scope :=
  if label.any (· ∈ s.names) then none else some (s.mark label pick slot)

end Scope

/-- What is made of the code of the operand, when no label is shadowed by that. -/
def Operator.loweredNew? (t : Tag) (op : Operator) (e : Expr) (height : Nat) (s : Scope)
    (body : Lowered) : Option Lowered :=
  match op with
  | labeled label _ pick =>
      (s.markNew? label pick height).map fun scope => ⟨body.code, body.symbols, scope⟩
  | op => some (op.lowered t e height s body)

namespace Expr

mutual
/-- Lowering that fails when it comes to a label that is in scope already. -/
def lowerNew? (action : Option String) : Expr → Nat → Scope → Option Lowered
  | choice _ es, height, s => lowerAlternativesNew? es height s
  | sequence _ es, height, s => do
      let inside ← lowerElementsNew? action 0 es (height + 1) s.inner
      return ⟨[.op .pushCurrPos []] ++ inside.code, inside.symbols,
        ⟨inside.scope.labels, s.picked⟩⟩
  | apply t op e, height, s => do
      let body ← lowerNew? (op.called? e) e (op.heightInside e height) (op.scopeInside s)
      op.loweredNew? t e height s body
  | leaf t l, height, s => return lowerLeaf t l height s

def lowerAlternativesNew? : List Expr → Nat → Scope → Option Lowered
  | [], _, s => return ⟨[], [], s⟩
  | e :: es, height, s => do
      let first ← lowerNew? none e height s.inner
      if e.outcome = .always || es.isEmpty then return ⟨first.code, first.symbols, s⟩
      else
        let rest ← lowerAlternativesNew? es height s
        return ⟨first.code ++ [orElse rest.code], first.symbols ++ rest.symbols, s⟩

def lowerElementsNew? (action : Option String) (n : Nat) :
    List Expr → Nat → Scope → Option Lowered
  | [], height, s => return sequenceEnd action n height s
  | e :: es, height, s => do
      let first ← lowerNew? none e height s
      let rest ← lowerElementsNew? action (n + 1) es (height + 1) first.scope
      return ⟨first.code ++ condition e.outcome .ifNotError [] rest.code (unwind (n + 1)),
        first.symbols ++ rest.symbols, rest.scope⟩
end

end Expr

def Rule.lowerNew? (r : Rule) : Option Lowered :=
  r.body.lowerNew? none 0 .empty

/-- A labeled expression that is logged with a new label gets it. -/
theorem Operator.loweredNew?_of_fresh {root : Expr} {t : Tag} {op : Operator} {e : Expr}
    {site : Site} {height : Nat} {s : Scope} (body : Lowered)
    (hsite : site.node = .apply t op e)
    (h : ∀ event ∈ op.bindings site s, event.Fresh root) :
    op.loweredNew? t e height s body = some (op.lowered t e height s body) := by
  cases op with
  | labeled label location pick =>
      cases label with
      | none => rfl
      | some label =>
          obtain ⟨-, l, hl, hnew⟩ := h (.binds site s) (List.mem_singleton.mpr rfl)
          rw [hsite] at hl
          obtain rfl : label = l := Option.some.inj hl
          simp [loweredNew?, Scope.markNew?, hnew, lowered]
  | _ => rfl

/-- Whether lowering that refuses to shadow does what lowering does, as long as the log of that has
only new labels. -/
def Expr.LowersNew (e root : Expr) : Prop :=
  ∀ around bound action height s,
    (∀ event ∈ (e.log around bound action height s).events, event.Fresh root) →
      e.lowerNew? action height s = some (e.lower action height s)

section NewLists

variable {root : Expr} {es : List Expr}

theorem lowerAlternativesNew?_of_fresh (hes : ∀ e ∈ es, e.LowersNew root)
    {around : List Expr} {bound : List Site} {height : Nat} {s : Scope}
    (h : ∀ event ∈ (Expr.logAlternatives around bound es height s).events, event.Fresh root) :
    Expr.lowerAlternativesNew? es height s = some (Expr.lowerAlternatives es height s) := by
  induction es with
  | nil => rfl
  | cons e es ih =>
      obtain ⟨he, hes⟩ := List.forall_mem_cons.mp hes
      rw [Expr.logAlternatives] at h
      rw [Expr.lowerAlternativesNew?, Expr.lowerAlternatives]
      dsimp only at h ⊢
      split at h
      · next hlast =>
          rw [he _ _ _ _ _ h, if_pos hlast]
          simp [hlast]
      · next hlast =>
          obtain ⟨hfirst, hrest⟩ := List.forall_mem_append.mp h
          rw [he _ _ _ _ _ hfirst, if_neg hlast]
          simp [hlast, ih hes hrest]

theorem lowerElementsNew?_of_fresh (hes : ∀ e ∈ es, e.LowersNew root) {site : Site}
    {bound : List Site} {action : Option String} {n height : Nat} {s : Scope}
    (h : ∀ event ∈ (Expr.logElements site bound action n es height s).events,
      event.Fresh root) :
    Expr.lowerElementsNew? action n es height s =
      some (Expr.lowerElements action n es height s) := by
  induction es generalizing bound n height s with
  | nil => rfl
  | cons e es ih =>
      obtain ⟨he, hes⟩ := List.forall_mem_cons.mp hes
      obtain ⟨hfirst, hrest⟩ := List.forall_mem_append.mp h
      rw [Expr.lowered_log] at hrest
      rw [Expr.lowerElementsNew?, Expr.lowerElements, he _ _ _ _ _ hfirst]
      simp [ih hes hrest]

end NewLists

theorem Expr.lowersNew (e root : Expr) : e.LowersNew root := by
  induction e with
  | choice t es ih => exact fun _ _ _ _ _ h => lowerAlternativesNew?_of_fresh ih h
  | sequence t es ih =>
      intro around bound action height s h
      rw [lowerNew?, lowerElementsNew?_of_fresh ih h]
      rfl
  | apply t op e ih =>
      intro around bound action height s h
      rw [log] at h
      obtain ⟨h, -⟩ := List.forall_mem_append.mp h
      obtain ⟨hbindings, hinside⟩ := List.forall_mem_append.mp h
      rw [lowerNew?, ih _ _ _ _ _ hinside, lower_apply]
      exact Operator.loweredNew?_of_fresh _ rfl hbindings
  | leaf t l => exact fun _ _ _ _ _ _ => rfl

/-! ## Main result -/

/-- No label is shadowed in a rule of a grammar without duplicate labels, whatever the outcomes are:
every label is new when it is put into a scope, all functions that are called have parameters that
stand for one labeled expression each, and it makes no difference to refuse labels that are there
already. -/
theorem labels_never_shadowed {o : Options} {g : Grammar}
    (haccepted : Pass.reportDuplicateLabels.Accepts o g) {r : Rule} (hr : r ∈ g.rules) :
    r.log.lowered = r.lower ∧
      (∀ site s, .binds site s ∈ r.log.events →
        site.Of r.body ∧ ∃ label, site.node.label? = some label ∧ label ∉ s.names) ∧
      r.log.functions = r.lower.functions ∧
      (∀ f bound, .calls f bound ∈ r.log.events → f.StandsFor r.body bound) ∧
      r.lowerNew? = some r.lower := by
  obtain ⟨known, hknown⟩ := Pass.exists_labelScope haccepted hr
  have hlog : r.log.Unshadowed r.body known :=
    r.body.logsUnshadowed r.body [] [] none 0 .empty [] known .root (.empty r.body) hknown
  have hcalls : r.log.functions = r.lower.functions :=
    (r.body.log_callsAll [] [] none 0 .empty).trans (congrArg Lowered.functions r.lowered_log)
  exact ⟨r.lowered_log, fun site s h => hlog.fresh _ h, hcalls, fun f bound h => hlog.fresh _ h,
    r.body.lowersNew r.body [] [] none 0 .empty hlog.fresh⟩

open Build in
/-- A rule with `inner` in the scope of the check at its end, but not in that of lowering. -/
def nestedLabels : Rule :=
  rule "start" (named "pair" (action (sequence
    [labeled "first" (sequence [labeled "inner" any, semanticAnd "inner != first"]),
      choice [labeled "other" any, sequence [labeled "other" any, semanticNot "other"]],
      labeled "second" any]) "return [first, second];"))

theorem nestedLabels_not_shadowed :
    Pass.reportDuplicateLabels.Accepts .standard (Build.grammar [nestedLabels]) ∧
      nestedLabels.lower.functions =
        [⟨true, ["inner"], "inner != first"⟩, ⟨true, ["first", "other"], "other"⟩,
          ⟨false, ["first", "second"], "return [first, second];"⟩] ∧
      (∀ f bound, .calls f bound ∈ nestedLabels.log.events →
        f.StandsFor nestedLabels.body bound) ∧
      nestedLabels.lowerNew? = some nestedLabels.lower := by
  have haccepted : Pass.reportDuplicateLabels.Accepts .standard (Build.grammar [nestedLabels]) := by
    decide
  obtain ⟨-, -, -, hcalls, hnew⟩ :=
    labels_never_shadowed haccepted (r := nestedLabels) (List.mem_singleton.mpr rfl)
  exact ⟨haccepted, rfl, hcalls, hnew⟩

end PegCompiler
