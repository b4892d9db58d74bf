import PegCompiler.Proofs.Faithfulness
import PegCompiler.Proofs.Logs

/-!
# Ends of sequences

At the end of a sequence picked values go before an action around it. The check for plucking keeps
these apart, but it follows the actions in its own way: it forgets them at a labeled expression and
hands them down through everything else, whereas in lowering a sequence knows only the action that
it is the body of, and what is picked stays in the innermost sequence. Still no action is dropped.
-/

namespace PegCompiler

namespace Site

/-- Below an action something has an action as its parent. -/
@[simp] theorem action?_child_action (e : Expr) (t : Tag) (code : Code) (body : Expr)
    (around : List Expr) : (Site.mk e (.apply t (.action code) body :: around)).action? =
      some code := rfl

theorem called?_child (e : Expr) (t : Tag) (op : Operator) (around : List Expr) :
    (Site.mk e (.apply t op e :: around)).called? = op.called? e := by
  cases op with
  | action code => rfl
  | _ =>
      unfold called?
      split <;> rfl

theorem called?_eq_none {s : Site} (h : s.action? = none) : s.called? = none := by
  simp [called?, h]

end Site

/-! ## Picked values -/

theorem Expr.picked_lower {e : Expr} {place : Location} (h : e.pluckInAction? (some place) = none)
    (action : Option String) (height : Nat) (s : Scope) :
    (e.lower action height s).scope.picked = s.picked := by
  induction e generalizing action height s with
  | choice t es _ => rw [lower, scope_lowerAlternatives]
  | sequence t es _ => rfl
  | apply t op e ih =>
      cases op with
      | named name => exact ih h none height s
      | action code =>
          rw [lower]
          dsimp only
          split <;> rfl
      | labeled label location pick =>
          cases pick with
          | false => rfl
          | true => cases h
      | _ => rfl
  | leaf t l => rw [lower, scope_lowerLeaf]

/-! ## What happens at the end -/

/-- Whether a sequence comes to its end with all its elements, with the action it has to call, and
with nothing picked when it is the body of an action. -/
def Event.Settled (root : Expr) : Event → Prop
  | ends site action n _ s =>
      site.Of root ∧ (∃ t es, site.node = .sequence t es ∧ n = es.length) ∧
        action = site.called? ∧ (site.action?.isSome → s.picked = [])
  | _ => True

/-- Whether the sequences in an expression are settled where the check has found no fault, as long
as it has an action in mind when there is one right around. -/
def Expr.Settles (e root : Expr) : Prop :=
  ∀ around bound height s context,
    (Site.mk e around).Of root → e.pluckInAction? context = none →
      ((Site.mk e around).action?.isSome → context.isSome) →
        ∀ event ∈ (e.log around bound (Site.mk e around).called? height s).events,
          event.Settled root

theorem settled_calls (root : Expr) (fs : List HostFunction) (bound : List Site) :
    ∀ event ∈ fs.map (Event.calls · bound), event.Settled root := by
  intro event hevent
  obtain ⟨f, -, rfl⟩ := List.mem_map.mp hevent
  trivial

section Lists

variable {root : Expr} {es : List Expr} {context : Option Location}

theorem logElements_settled (hes : ∀ e ∈ es, e.Settles root) {t : Tag} {all : List Expr}
    {around : List Expr} (hsite : (Site.mk (.sequence t all) around).Of root)
    (hsites : ∀ e ∈ es, (Site.mk e (.sequence t all :: around)).Of root)
    (hpicks : ∀ e ∈ es, e.pluckInAction? context = none)
    (hcontext : (Site.mk (.sequence t all) around).action?.isSome → context.isSome)
    (bound : List Site) {n : Nat} (hn : n + es.length = all.length) (height : Nat) {s : Scope}
    (hs : (Site.mk (.sequence t all) around).action?.isSome → s.picked = []) :
    ∀ event ∈ (Expr.logElements ⟨.sequence t all, around⟩ bound
        (Site.mk (.sequence t all) around).called? n es height s).events,
      event.Settled root := by
  induction es generalizing bound n height s with
  | nil =>
      exact List.forall_mem_cons.mpr
        ⟨⟨hsite, ⟨t, all, rfl, hn⟩, rfl, hs⟩, settled_calls root _ bound⟩
  | cons e es ih =>
      obtain ⟨he, hes⟩ := List.forall_mem_cons.mp hes
      obtain ⟨hfirstSite, hsites⟩ := List.forall_mem_cons.mp hsites
      obtain ⟨hpick, hpicks⟩ := List.forall_mem_cons.mp hpicks
      have hfirst := he _ bound height s context hfirstSite hpick (fun h => by cases h)
      rw [Site.called?_eq_none rfl] at hfirst
      refine List.forall_mem_append.mpr ⟨hfirst, ?_⟩
      refine ih hes hsites hpicks _ (by rw [← hn, List.length_cons]; omega) (height + 1)
        fun haction => ?_
      obtain ⟨place, rfl⟩ := Option.isSome_iff_exists.mp (hcontext haction)
      rw [Expr.lowered_log, Expr.picked_lower hpick, hs haction]

end Lists

namespace Expr

/-- Below an operator the check goes on, with an action in mind when the operator is one. -/
theorem exists_context {t : Tag} {op : Operator} {e : Expr} {context : Option Location}
    (h : (apply t op e).pluckInAction? context = none) (around : List Expr) :
    ∃ inside, e.pluckInAction? inside = none ∧
      ((Site.mk e (apply t op e :: around)).action?.isSome → inside.isSome) := by
  cases op with
  | action code => exact ⟨some code.location, h, fun _ => rfl⟩
  | _ =>
      obtain ⟨inside, hinside⟩ := exists_pluckInAction?_body h
      exact ⟨inside, hinside, fun haction => by cases haction⟩

theorem settles (e root : Expr) : e.Settles root := by
  induction e with
  | choice t es ih =>
      intro around bound height s context hsite hpicks _
      refine forall_mem_logAlternatives fun e he => ?_
      have hpick := pluckInActionList?_eq_none_iff.mp hpicks e he
      have hinside := ih e he _ bound height s.inner context (hsite.child he) hpick
        fun haction => by cases haction
      rwa [Site.called?_eq_none rfl] at hinside
  | sequence t es ih =>
      intro around bound height s context hsite hpicks hcontext
      exact logElements_settled ih hsite (fun e he => hsite.child he)
        (pluckInActionList?_eq_none_iff.mp hpicks) hcontext bound (Nat.zero_add _) (height + 1)
        fun _ => rfl
  | apply t op e ih =>
      intro around bound height s context hsite hpicks _
      obtain ⟨inside, hinside, hcontext⟩ := exists_context hpicks around
      have hbody := ih (apply t op e :: around) bound (op.heightInside e height)
        (op.scopeInside s) inside (hsite.child (List.mem_singleton.mpr rfl)) hinside hcontext
      rw [Site.called?_child] at hbody
      rw [log]
      refine List.forall_mem_append.mpr ⟨List.forall_mem_append.mpr ⟨?_, hbody⟩, ?_⟩
      · intro event hevent
        unfold Operator.bindings at hevent
        split at hevent
        · obtain rfl := List.mem_singleton.mp hevent
          trivial
        · cases hevent
      · intro event hevent
        unfold Operator.calls at hevent
        split at hevent
        · split at hevent
          · cases hevent
          · obtain rfl := List.mem_singleton.mp hevent
            trivial
        · cases hevent
  | leaf t l => exact fun _ bound _ _ _ _ _ _ => settled_calls root _ bound

end Expr

theorem Rule.log_settled {r : Rule} (h : r.body.pluckInAction? none = none) :
    ∀ event ∈ r.log.events, event.Settled r.body := by
  have hroot : (Site.mk r.body []).called? = none := Site.called?_eq_none rfl
  have hevents := r.body.settles r.body [] [] 0 .empty none .root h fun haction => by cases haction
  rw [hroot] at hevents
  exact hevents

theorem Pass.pluckInAction?_eq_none {o : Options} {g : Grammar}
    (haccepted : reportIncorrectPlucking.Accepts o g) {r : Rule} (hr : r ∈ g.rules) :
    r.body.pluckInAction? none = none :=
  List.findSome?_eq_none_iff.mp (accepts_reportIncorrectPlucking.mp haccepted) r hr

/-! ## Code at the end -/

/-- Whether the code is the call of a function in place of the `n` values of a sequence. -/
def Lowered.Calls (l : Lowered) (f : HostFunction) (n height : Nat) (s : Scope) : Prop :=
  l = ⟨[.op .loadSavedPos [.count n], callOf f (n + 1) height s], [.function f], s⟩

/-- Whether the code calls nothing. -/
def Lowered.CallsNothing (l : Lowered) : Prop :=
  (∀ operands, .op .call operands ∉ l.code) ∧ l.functions = []

theorem sequenceEnd_calls {s : Scope} (h : s.picked = []) (body : String) (n height : Nat) :
    (sequenceEnd (some body) n height s).Calls ⟨false, s.names, body⟩ n height s := by
  simp [Lowered.Calls, sequenceEnd, h]

theorem sequenceEnd_callsNothing (n height : Nat) (s : Scope) :
    (sequenceEnd none n height s).CallsNothing := by
  unfold sequenceEnd Lowered.CallsNothing
  split <;> simp [Lowered.functions]

theorem sequenceEnd_wraps {s : Scope} (h : s.picked = []) (n height : Nat) :
    sequenceEnd none n height s = ⟨[.op .wrap [.count n], .op .nip []], [], s⟩ := by
  simp [sequenceEnd, h]

namespace Site

theorem called?_of_elements {site : Site} {t : Tag} {es : List Expr}
    (hnode : site.node = .sequence t es) (hes : es ≠ []) :
    site.called? = site.action?.map (·.text) := by
  cases es with
  | nil => exact absurd rfl hes
  | cons e es => simp [called?, hnode, Expr.callsAction]

theorem called?_of_empty {site : Site} {t : Tag} (hnode : site.node = .sequence t []) :
    site.called? = none := by
  simp [called?, hnode, Expr.callsAction]

end Site

/-- An action around a sequence without elements makes the call by itself. -/
theorem lower_action_empty (t t' : Tag) (code : Code) (action : Option String) (height : Nat)
    (s : Scope) :
    ((Expr.apply t (.action code) (.sequence t' [])).lower action height s).code =
      [.op .pushCurrPos [], .op .pushCurrPos [], .op .wrap [.count 0], .op .nip []] ++
        condition t'.outcome .ifNotError []
          [.op .loadSavedPos [.count 1], callOf ⟨false, s.names, code.text⟩ 1 (height + 2) s] [] ++
        [.op .nip []] :=
  rfl

/-! ## Main result -/

/-- In a grammar that picks no values in actions no sequence drops the action around it. At the end
of its elements it calls the action, and has picked nothing; without elements it has nothing to hand
over, and the action is called behind it. No other sequence calls an action. -/
theorem sequences_call_actions {o : Options} {g : Grammar}
    (haccepted : Pass.reportIncorrectPlucking.Accepts o g) {r : Rule} (hr : r ∈ g.rules) :
    r.log.lowered = r.lower ∧
      (∀ site action n height s, .ends site action n height s ∈ r.log.events →
        site.Of r.body ∧ (∃ t es, site.node = .sequence t es ∧ n = es.length) ∧
          (∀ code, site.action? = some code → s.picked = [] ∧
            if n = 0 then
              sequenceEnd action n height s = ⟨[.op .wrap [.count 0], .op .nip []], [], s⟩
            else (sequenceEnd action n height s).Calls ⟨false, s.names, code.text⟩ n height s) ∧
          (site.action? = none → (sequenceEnd action n height s).CallsNothing)) ∧
      ∀ t t' code action height s,
        ((Expr.apply t (.action code) (.sequence t' [])).lower action height s).code =
          [.op .pushCurrPos [], .op .pushCurrPos [], .op .wrap [.count 0], .op .nip []] ++
            condition t'.outcome .ifNotError []
              [.op .loadSavedPos [.count 1],
                callOf ⟨false, s.names, code.text⟩ 1 (height + 2) s] [] ++
            [.op .nip []] := by
  refine ⟨r.lowered_log, ?_, lower_action_empty⟩
  intro site action n height s hends
  obtain ⟨hsite, ⟨t, es, hnode, rfl⟩, rfl, hpicked⟩ :=
    Rule.log_settled (Pass.pluckInAction?_eq_none haccepted hr) _ hends
  refine ⟨hsite, ⟨t, es, hnode, rfl⟩, ?_, ?_⟩
  · intro code hcode
    have hs : s.picked = [] := hpicked (by rw [hcode]; rfl)
    refine ⟨hs, ?_⟩
    split
    · next hempty =>
        obtain rfl := List.eq_nil_of_length_eq_zero hempty
        rw [Site.called?_of_empty hnode]
        exact sequenceEnd_wraps hs 0 height
    · next hlength =>
        rw [Site.called?_of_elements hnode (by rintro rfl; exact hlength rfl), hcode]
        exact sequenceEnd_calls hs code.text es.length height
  · intro hnone
    rw [Site.called?_eq_none hnone]
    exact sequenceEnd_callsNothing es.length height s

open Build in
/-- An item between brackets, of which the inner sequence picks the middle. -/
def bracketedItem : Expr :=
  sequence [labeled "item" (sequence [literal "(", pluck any, literal ")"]),
    named "end" (literal ";")]

open Build in
def bracketed : Rule :=
  rule "start" (action bracketedItem "return item;")

theorem bracketed_calls_action :
    Pass.reportIncorrectPlucking.Accepts .standard (Build.grammar [bracketed]) ∧
      .ends ⟨bracketedItem, [bracketed.body]⟩ (some "return item;") 2 3 ⟨[("item", 1)], []⟩ ∈
        bracketed.log.events ∧
      (sequenceEnd (some "return item;") 2 3 ⟨[("item", 1)], []⟩).Calls
        ⟨false, ["item"], "return item;"⟩ 2 3 ⟨[("item", 1)], []⟩ := by
  have haccepted : Pass.reportIncorrectPlucking.Accepts .standard (Build.grammar [bracketed]) := by
    decide
  have hends : .ends ⟨bracketedItem, [bracketed.body]⟩ (some "return item;") 2 3
      ⟨[("item", 1)], []⟩ ∈ bracketed.log.events :=
    .tail _ (.tail _ (.head _))
  obtain ⟨-, hevents, -⟩ :=
    sequences_call_actions haccepted (r := bracketed) (List.mem_singleton.mpr rfl)
  obtain ⟨-, -, haction, -⟩ := hevents _ _ _ _ _ hends
  exact ⟨haccepted, hends, (haction ⟨"return item;", .unknown⟩ rfl).2⟩

/-- An action around a sequence without elements. -/
def emptyAction : Rule :=
  Build.rule "start" (Build.action Build.empty "return 1;")

/-- A sequence without elements does not call the action around it, although nothing is picked. -/
theorem empty_sequence_leaves_call :
    Pass.reportIncorrectPlucking.Accepts .standard (Build.grammar [emptyAction]) ∧
      .ends ⟨Build.empty, [emptyAction.body]⟩ none 0 2 ⟨[], []⟩ ∈ emptyAction.log.events ∧
      (Site.mk Build.empty [emptyAction.body]).action? = some ⟨"return 1;", .unknown⟩ ∧
      (sequenceEnd none 0 2 ⟨[], []⟩).code = [.op .wrap [.count 0], .op .nip []] ∧
      (sequenceEnd none 0 2 ⟨[], []⟩).functions = [] :=
  ⟨by decide, .head _, rfl, rfl, rfl⟩

end PegCompiler
