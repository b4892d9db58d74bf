import PegCompiler.Proofs.Delivery
import PegCompiler.Proofs.Offsets

/-!
# Code computes values

The code of an expression leaves the very value that evaluation comes to, and calls the same host
functions with the same arguments. The induction is on the evaluation. An element of a sequence must
not share its scope with what is inside of it, and a sequence must not both pick values and have an
action.
-/

namespace PegCompiler

open Instr

variable {α : Type} {σ : Setting} {h : Host α} {rules : List Rule}

/-! ## Sequences -/

section Sequences

variable {s : Recorded α} {base : List (Value α)} {start height : Nat} {scope : Scope}
  {calls : List (Call α)} {done : Gathered α}

theorem Value.ofList_ne_failed {vs : List (Value α)} (hvs : ∀ v ∈ vs, v ≠ .failed) :
    Value.ofList vs ≠ .failed := by
  match vs with
  | [] => simp [ofList]
  | [v] => exact hvs v (List.mem_singleton_self v)
  | _ :: _ :: _ => simp [ofList]

theorem achieves_sequenceEnd {action : Option String}
    (hhost : ∀ f args saved p, h.action f args saved p ≠ .failed)
    (hplucked : action.isSome → done.picked = []) (hcalls : s.calls = calls)
    (hs : s.stack = done.values.reverse ++ .position start :: base)
    (hlabels : Located height s.stack scope.labels done.env)
    (hpicked : AllHold height s.stack scope.picked done.picked)
    (hne : ∀ v ∈ done.picked, v ≠ .failed) (hheight : height ≤ UInt32.size) :
    Achieves σ h rules (sequenceEnd action done.values.length height scope).code s
      (Delivers base start (done.answer h action start s.position calls)) := by
  have hall : s.stack = (done.values.reverse ++ [.position start]) ++ base := by
    rw [hs, List.append_assoc]
    rfl
  unfold sequenceEnd
  subst hcalls
  split
  · next hempty =>
      obtain hnil : scope.picked = [] := List.isEmpty_iff.mp hempty
      have hnone : done.picked = [] := by
        rw [hnil] at hpicked
        exact List.forall₂_nil_left_iff.mp hpicked
      cases action with
      | some code =>
          have hsaved : s.stack[done.values.length]? = some (.position start) := by
            simp [hs]
          refine .loadSavedPos hsaved (.callAction hlabels hheight hall (by simp) (.nil ?_))
          exact ⟨rfl, hhost _ _ _ _, rfl, rfl⟩
      | none =>
          refine .wrap hs (List.length_reverse ..) (.nip rfl (.nil ?_))
          refine ⟨rfl, ?_⟩
          simp [Gathered.answer, Gathered.value, hnone]
  · next hempty =>
      have hsome : done.picked ≠ [] := by
        intro hnone
        rw [hnone] at hpicked
        exact hempty (List.isEmpty_iff.mpr (List.forall₂_nil_right_iff.mp hpicked))
      cases action with
      | some code => exact absurd (hplucked rfl) hsome
      | none =>
          have hvalue : done.value = .ofList done.picked := by simp [Gathered.value, hsome]
          refine .pluck hall (by simp) (hpicked.mapM_written hheight) (.nil ⟨rfl, ?_, ?_, rfl⟩)
          · exact hvalue ▸ Value.ofList_ne_failed hne
          · exact congrArg (· :: base) hvalue.symm

/-- A failed element takes the values before it with it. -/
theorem achieves_unwind {vs : List (Value α)} {n : Nat} (hcalls : s.calls = calls)
    (hs : s.stack = .failed :: vs ++ .position start :: base) (hn : vs.length = n) :
    Achieves σ h rules (unwind (n + 1)) s (Delivers base start ⟨none, calls⟩) := by
  have hrest : ∀ t : Recorded α, t.calls = calls → t.stack = .position start :: base →
      Achieves σ h rules [.op .popCurrPos [], .op .pushFailed []] t
        (Delivers base start ⟨none, calls⟩) :=
    fun t hcalls ht => .popCurrPos ht (.push rfl (.nil ⟨hcalls, rfl, rfl⟩))
  unfold unwind dropTop
  split
  · next hone =>
      obtain rfl : vs = [] := List.length_eq_zero_iff.mp (by omega)
      exact .pop hs (hrest _ hcalls rfl)
  · exact .popN hs (by simp [hn]) (hrest _ hcalls rfl)

end Sequences

/-! ## Repetitions and rules -/

section Repetitions

variable {s : Recorded α} {base : List (Value α)} {p height : Nat} {a : Answer α}
  {outcome : Outcome} {env : Env α} {calls : List (Call α)} {scope : Scope} {body : Lowered}

/-- Whether code goes on with a repetition on top of an array of what is done, up to the failure
that ends it, with that answer in the end. -/
def Repeats (σ : Setting) (h : Host α) (rules : List Rule) (code : List Instr)
    (base : List (Value α)) (done : List (Value α)) (p : Nat) (calls : List (Call α))
    (a : Answer α) : Prop :=
  ∀ s : Recorded α, s.position = p → s.calls = calls → s.stack = .array done :: base →
    Achieves σ h rules code s fun t => Achieves σ h rules [PegCompiler.appendLoop code] t fun u =>
      ∃ q ws, a.result = some (q, .array ws) ∧ u.stack = .failed :: .array ws :: base ∧
        u.position = q ∧ u.calls = a.calls

/-- What a loop leaves: the array below the failure that ended it is the value of the repetition. -/
theorem Achieves.loop_pop {code : List Instr}
    (hloop : Achieves σ h rules [PegCompiler.appendLoop code] s fun u =>
      ∃ q ws, a.result = some (q, .array ws) ∧ u.stack = .failed :: .array ws :: base ∧
        u.position = q ∧ u.calls = a.calls) :
    Achieves σ h rules [PegCompiler.appendLoop code, .op .pop []] s (Delivers base p a) := by
  refine hloop.append fun u hu => ?_
  obtain ⟨result, calls⟩ := a
  obtain ⟨q, ws, rfl, hstack, hq, hcalls⟩ := hu
  exact .pop hstack (.nil ⟨hcalls, by simp, rfl, hq⟩)

theorem computes_zeroOrMore
    (hmany : ∀ stack, Located height stack scope.labels env →
      height + 1 + listSize body.code ≤ UInt32.size →
      Repeats σ h rules body.code stack [] p calls a)
    (outer : Scope) :
    Computes σ h rules (lowerZeroOrMore body outer).code height scope.labels env p calls a := by
  intro s hp hcalls hlabels hroom
  have hsize := (lowerZeroOrMore_wraps body outer).size
  have hloop := hmany s.stack hlabels (by omega) { s with stack := .array [] :: s.stack } hp hcalls
    rfl
  exact .push rfl (hloop.append fun t ht => .loop_pop ht)

/-- One or more repetitions, where a success of the first is followed by the others. -/
theorem computes_oneOrMore {first : Answer α} (hadmits : outcome.Admits first.position?)
    (hbody : Computes σ h rules body.code (height + 1) scope.labels env p calls first)
    (hfail : ∀ calls', first = ⟨none, calls'⟩ → a = ⟨none, calls'⟩)
    (hmany : ∀ q v calls', first = ⟨some (q, v), calls'⟩ → ∀ stack,
      Located height stack scope.labels env → height + 1 + listSize body.code ≤ UInt32.size →
      Repeats σ h rules body.code stack [v] q calls' a)
    (outer : Scope) :
    Computes σ h rules (lowerOneOrMore outcome body outer).code height scope.labels env p calls
      a := by
  intro s hp hcalls hlabels hroom
  have hsize := (lowerOneOrMore_wraps outcome body outer).size
  refine .push rfl ((hbody.above hp hcalls hlabels hroom hsize _ _).append fun t ht =>
    .ifNotError ht hadmits ?_ ?_)
  · rintro q v calls' rfl hcalls' hv hstack hq
    exact .loop_pop (.appendLoop hstack hv
      (hmany q v calls' rfl s.stack hlabels (by omega) _ hq hcalls' rfl))
  · rintro calls' rfl hcalls' hstack hp'
    rw [hfail calls' rfl]
    exact .pop hstack (.pop rfl (.push rfl (.nil ⟨hcalls', rfl, hp'⟩)))

theorem Achieves.rule {ref : RuleRef} {r : Rule} (hr : findRule? rules ref.name = some r)
    (hbody : Achieves σ h rules r.lower.code { s with stack := [] } (Delivers [] p a)) :
    Achieves σ h rules [.op .rule [.symbol (.rule ref)]] s (Delivers s.stack p a) := by
  obtain ⟨t, hperforms, ht⟩ := hbody
  refine ht.cases ?_ ?_
  · rintro q v calls' rfl hcalls hv hstack hq
    exact ⟨_, .rule hr hperforms hstack .nil, hcalls, hv, rfl, hq⟩
  · rintro calls' rfl hcalls hstack hp
    exact ⟨_, .rule hr hperforms hstack .nil, hcalls, rfl, hp⟩

end Repetitions

/-! ## Expressions -/

/-- What evaluation with values relies on at a node: a named expression is no part of another, a
sequence no element of another, and what an action stands around does not pick. -/
structure Expr.Orderly (n : Expr) : Prop where
  named : ∀ e ∈ n.children, e.isNamed = false
  nested : ∀ t es, n = .sequence t es → ∀ e ∈ es, e.isSequence = false
  picked : ∀ t code t' es, n = .apply t (.action code) (.sequence t' es) →
    ∀ e ∈ es, e.isPicked = false

/-- A node whose code can be relied on also when predicates decide by what they get. -/
structure Expr.Dependable (rules : List Rule) (σ : Setting) (h : Host α) (n : Expr) : Prop where
  orderly : n.Orderly
  reliable : n.Reliable rules σ
  admits : ∀ fuel env p calls a, (Task.expr n env).eval rules σ h fuel p calls = some a →
    n.outcome.Admits a.position?

/-- What there is to evaluate is computed if its code comes to the same answer. -/
def Task.Computed (rules : List Rule) (σ : Setting) (h : Host α) (p : Nat) (calls : List (Call α))
    (a : Answer α) : Task α → Prop
  | expr e env => (∀ n ∈ e.nodes, n.Dependable rules σ h) → ∀ height scope,
      Computes σ h rules (e.lower none height scope).code height scope.labels env p calls a
  | first es env => es ≠ [] → (∀ e ∈ es, ∀ n ∈ e.nodes, n.Dependable rules σ h) →
      ∀ height scope,
      Computes σ h rules (Expr.lowerAlternatives es height scope).code height scope.labels env p
        calls a
  | elements action start es done => (∀ e ∈ es, ∀ n ∈ e.nodes, n.Dependable rules σ h) →
      (∀ e ∈ es, e.isNamed = false ∧ e.isSequence = false) →
      (action.isSome → done.picked = [] ∧ ∀ e ∈ es, e.isPicked = false) →
      (∀ v ∈ done.picked, v ≠ .failed) →
      ∀ height scope (s : Recorded α) base, s.position = p → s.calls = calls →
      s.stack = done.values.reverse ++ .position start :: base →
      Located height s.stack scope.labels done.env →
      AllHold height s.stack scope.picked done.picked →
      height + listSize (Expr.lowerElements action done.values.length es height scope).code ≤
        UInt32.size →
      Achieves σ h rules (Expr.lowerElements action done.values.length es height scope).code s
        (Delivers base start a)
  | many e env done => (∀ n ∈ e.nodes, n.Dependable rules σ h) → ∀ height scope stack,
      Located height stack scope.labels env →
      height + 1 + listSize (e.lower none (height + 1) scope).code ≤ UInt32.size →
      Repeats σ h rules (e.lower none (height + 1) scope).code stack done p calls a

section Expressions

variable {e : Expr} {es : List Expr} {p height : Nat} {first a : Answer α} {env : Env α}
  {calls : List (Call α)} {scope : Scope}

/-- The first alternative decides if it succeeds, and the others do if it fails. -/
theorem computes_alternatives (hadmits : e.outcome.Admits first.position?)
    (hbody : Computes σ h rules (e.lower none height scope.inner).code height scope.labels env p
      calls first)
    (hsome : ∀ q v calls', first = ⟨some (q, v), calls'⟩ → a = first)
    (hlast : ∀ calls', first = ⟨none, calls'⟩ → es = [] → a = first)
    (hrest : ∀ calls', first = ⟨none, calls'⟩ → es ≠ [] →
      Computes σ h rules (Expr.lowerAlternatives es height scope).code height scope.labels env p
        calls' a) :
    Computes σ h rules (Expr.lowerAlternatives (e :: es) height scope).code height scope.labels env
      p calls a := by
  intro s hp hcalls hlabels hroom
  rw [Expr.lowerAlternatives] at hroom ⊢
  dsimp only at hroom ⊢
  split at hroom
  · next hlast' =>
      have ha : a = first := by
        obtain ⟨_ | ⟨q, v⟩, calls'⟩ := first
        · refine hlast calls' rfl ?_
          simpa [hadmits.ne_always] using hlast'
        · exact hsome q v calls' rfl
      rw [if_pos hlast', ha]
      exact hbody s hp hcalls hlabels hroom
  · next hmore =>
      simp only [orElse, listSize_append, listSize_branch, listSize_op, listSize_nil,
        List.length_nil] at hroom
      have hne : es ≠ [] := by
        rintro rfl
        simp at hmore
      rw [if_neg hmore]
      refine (hbody s hp hcalls hlabels (by omega)).append fun t ht =>
        .branch rfl (holds?_isFailed ht.leaves) (ht.cases ?_ ?_)
      · rintro q v calls' rfl - - - -
        rw [hsome q v calls' rfl]
        exact .nil ht
      · rintro calls' rfl hcalls' hstack hp'
        exact .pop hstack (hrest calls' rfl hne { t with stack := s.stack } hp' hcalls' hlabels
          (by omega))

/-- An element of a sequence that fails ends the sequence, and one that succeeds goes on. -/
theorem achieves_elements {action : Option String} {done : Gathered α} {start : Nat}
    {s : Recorded α} {base : List (Value α)} (hadmits : e.outcome.Admits first.position?)
    (hchoices : e.ChoicesNonempty) (hnamed : e.isNamed = false) (hflat : e.callsAction = false)
    (hp : s.position = p) (hcalls : s.calls = calls)
    (hs : s.stack = done.values.reverse ++ .position start :: base)
    (hlabels : Located height s.stack scope.labels done.env)
    (hpicked : AllHold height s.stack scope.picked done.picked)
    (hroom : height + listSize (Expr.lowerElements action done.values.length (e :: es) height
      scope).code ≤ UInt32.size)
    (hbody : Computes σ h rules (e.lower none height scope).code height scope.labels done.env p
      calls first)
    (hfail : ∀ calls', first = ⟨none, calls'⟩ → a = ⟨none, calls'⟩)
    (hrest : ∀ q v calls', first = ⟨some (q, v), calls'⟩ → v ≠ .failed → ∀ (t : Recorded α) scope',
      t.position = q → t.calls = calls' →
      t.stack = (done.add e v).values.reverse ++ .position start :: base →
      Located (height + 1) t.stack scope'.labels (done.add e v).env →
      AllHold (height + 1) t.stack scope'.picked (done.add e v).picked →
      height + 1 + listSize (Expr.lowerElements action (done.add e v).values.length es (height + 1)
        scope').code ≤ UInt32.size →
      Achieves σ h rules (Expr.lowerElements action (done.add e v).values.length es (height + 1)
        scope').code t (Delivers base start a)) :
    Achieves σ h rules (Expr.lowerElements action done.values.length (e :: es) height scope).code s
      (Delivers base start a) := by
  have hlength : ∀ v, (done.add e v).values.length = done.values.length + 1 := fun v => by
    simp [Gathered.add]
  rw [Expr.lowerElements] at hroom ⊢
  rw [listSize_append] at hroom
  refine (hbody s hp hcalls hlabels (by omega)).append fun t ht => .ifNotError ht hadmits ?_ ?_
  · rintro q v calls' rfl hcalls' hv hstack hq
    have hscope := Expr.scope_lower hnamed hflat height scope
    have hrest := hrest q v calls' rfl hv t (e.lower none height scope).scope hq hcalls'
    rw [hlength] at hrest
    refine hrest ?_ ?_ ?_ ?_
    · rw [hstack, hs]
      simp [Gathered.add]
    · rw [hstack, hscope]
      exact hlabels.mark e v
    · rw [hstack, hscope]
      exact hpicked.mark e v
    · have hsize := (Expr.lower_balanced hchoices none height scope).le_size
      have hle := size_le_condition hadmits.ne_never .ifNotError []
        (Expr.lowerElements action (done.values.length + 1) es (height + 1)
          (e.lower none height scope).scope).code (unwind (done.values.length + 1))
      omega
  · rintro calls' rfl hcalls' hstack -
    rw [hfail calls' rfl]
    exact achieves_unwind hcalls' (by rw [hstack, hs]; rfl) (List.length_reverse ..)

/-- A sequence saves the position where it starts below the values of its elements. -/
theorem computes_sequence {action : Option String} (scope : Scope)
    (hbody : ∀ height scope (s : Recorded α) base, s.position = p → s.calls = calls →
      s.stack = .position p :: base → Located height s.stack scope.labels env →
      scope.picked = [] →
      height + listSize (Expr.lowerElements action 0 es height scope).code ≤ UInt32.size →
      Achieves σ h rules (Expr.lowerElements action 0 es height scope).code s
        (Delivers base p a)) (t : Tag) :
    Computes σ h rules ((Expr.sequence t es).lower action height scope).code height scope.labels
      env p calls a := by
  intro s hp hcalls hlabels hroom
  subst hp
  simp only [Expr.lower, listSize_append, listSize_op, listSize_nil] at hroom
  refine .push rfl (hbody (height + 1) scope.inner _ s.stack rfl hcalls rfl (hlabels.push _) rfl ?_)
  omega

theorem computes_apply {t : Tag} {op : Operator}
    (hhost : ∀ f args saved p, h.action f args saved p ≠ .failed)
    (hop : op.repetition? = none)
    (hcode : ∀ code t' e' es, op = .action code → e = .sequence t' (e' :: es) → False)
    (hnamed : e.isNamed = false) (he : e.outcome.Admits a.position?)
    (ht : t.outcome.Admits (op.result p a.position?))
    (hbody : ∀ height scope, Computes σ h rules (e.lower none height scope).code height
      scope.labels env p calls a) :
    Computes σ h rules ((Expr.apply t op e).lower none height scope).code height scope.labels env p
      calls (op.answer σ h env p e a) := by
  cases op with
  | named name => exact computes_named (hbody height scope)
  | action code =>
      have hflat : e.callsAction = false := by
        cases e with
        | sequence t' es =>
            cases es with
            | nil => rfl
            | cons e' es => exact (hcode code t' e' es rfl rfl).elim
        | _ => rfl
      rw [Expr.lower]
      dsimp only
      rw [if_neg (by simp [hflat])]
      exact computes_action hhost (Expr.scope_lower hnamed hflat (height + 1) scope.inner) he
        (hbody (height + 1) scope.inner) code.location scope
  | labeled label location pick => exact hbody height scope.inner
  | text => exact computes_text ht (hbody (height + 1) scope.inner) e
  | simpleAnd => exact computes_simpleAnd he (hbody (height + 1) scope.inner) e
  | simpleNot => exact computes_simpleNot he (hbody (height + 1) scope.inner) e
  | optional => exact computes_optional he (hbody height scope.inner) e
  | group => exact hbody height scope.inner
  | zeroOrMore | oneOrMore => cases hop

end Expressions

theorem Expr.callsAction_of_isSequence {e : Expr} (hsequence : e.isSequence = false) :
    e.callsAction = false := by
  cases e with
  | sequence t es => cases hsequence
  | _ => rfl

theorem Gathered.forall_picked_add {done : Gathered α} {e : Expr} {v : Value α}
    {P : Value α → Prop} (hdone : ∀ w ∈ done.picked, P w) (hv : P v) :
    ∀ w ∈ (done.add e v).picked, P w := by
  intro w hw
  rw [add] at hw
  split at hw
  · rcases List.mem_append.mp hw with hw | hw
    · exact hdone w hw
    · exact List.mem_singleton.mp hw ▸ hv
  · exact hdone w hw

/-- Every evaluation is computed when the nodes of all rules are dependable. -/
theorem Task.computed_of_eval (hhost : ∀ f args saved p, h.action f args saved p ≠ .failed)
    (hnodes : ∀ r ∈ rules, ∀ n ∈ r.body.nodes, n.Dependable rules σ h)
    (hsizes : ∀ r ∈ rules, listSize r.lower.code ≤ UInt32.size) {fuel p : Nat} {task : Task α}
    {calls : List (Call α)} {a : Answer α} (ha : task.eval rules σ h fuel p calls = some a) :
    task.Computed rules σ h p calls a := by
  fun_induction eval rules σ h fuel task p calls generalizing a with
  | case1 => cases ha
  | case2 fuel t es env p calls ih =>
      intro hall height scope
      refine ih ha ?_ (forall_nodes_choice hall) height scope
      rintro rfl
      exact (hall _ (Expr.self_mem_nodes _)).reliable.nonempty _ rfl
  | case3 fuel t es env p calls ih =>
      intro hall height scope
      have hnode := (hall _ (Expr.self_mem_nodes _)).orderly
      refine computes_sequence scope
        (fun height scope s base hp hcalls hs hlabels hpicked hroom => ?_) t
      refine ih ha (forall_nodes_sequence hall) (fun e he => ⟨hnode.named e he, hnode.nested t es
        rfl e he⟩) (by simp) (by simp) height scope s base hp hcalls hs hlabels ?_ hroom
      rw [hpicked]
      exact .nil
  | case4 fuel t name env p calls ih =>
      obtain ⟨r, hr, ha⟩ := Option.bind_eq_some_iff.mp ha
      intro hall height scope s hp hcalls hlabels hroom
      have hmem := mem_of_findRule? hr
      have href : findRule? rules (RuleRef.mk name t.location).name = some r := hr
      refine .rule href ?_
      exact ih r ha (hnodes r hmem) 0 .empty { s with stack := [] } hp hcalls .nil
        (by rw [Nat.zero_add]; exact hsizes r hmem)
  | case5 fuel t l env p calls hl =>
      obtain rfl := Option.some.inj ha
      intro hall height scope
      have hnode := (hall _ (Expr.self_mem_nodes _)).reliable
      exact computes_leaf hl (hnode.outcome_leaf t l rfl hl)
        (fun value hv => hnode.stable t value (by rw [hv])) height scope env p calls
  | case6 fuel t code t' e es env p calls ih =>
      intro hall height scope
      have hnode := (hall _ (Expr.self_mem_nodes _)).orderly
      have hbody := forall_nodes_apply hall
      have hseq := (hbody _ (Expr.self_mem_nodes _)).orderly
      have hcode : ((Expr.apply t (.action code) (.sequence t' (e :: es))).lower none height
          scope).code = ((Expr.sequence t' (e :: es)).lower (some code.text) height
          scope.inner).code := rfl
      rw [hcode]
      refine computes_sequence scope.inner
        (fun height scope s base hp hcalls hs hlabels hpicked hroom => ?_) t'
      refine ih ha (forall_nodes_sequence hbody) (fun e he => ⟨hseq.named e he, hseq.nested t' _
        rfl e he⟩) (fun _ => ⟨rfl, hnode.picked t code t' _ rfl⟩) (by simp) height scope s base hp
        hcalls hs hlabels ?_ hroom
      rw [hpicked]
      exact .nil
  | case7 fuel t e env p calls ih =>
      intro hall height scope
      exact computes_zeroOrMore (ih ha (forall_nodes_apply hall) height scope.inner) scope
  | case8 fuel t e env p calls ih ihmany =>
      obtain ⟨first, he, ha⟩ := Option.bind_eq_some_iff.mp ha
      intro hall height scope
      have hbody := forall_nodes_apply hall
      have hadmits := (hbody _ (Expr.self_mem_nodes _)).admits fuel env p calls first he
      refine computes_oneOrMore hadmits (ih he hbody (height + 1) scope.inner) ?_ ?_ scope
      · rintro calls' rfl
        exact (Option.some.inj ha).symm
      · rintro q v calls' rfl stack hlabels hroom
        exact ihmany q v calls' ha hbody height scope.inner stack hlabels hroom
  | case9 fuel t op e env p calls hcode hz ho ih =>
      obtain ⟨body, he, rfl⟩ := Option.map_eq_some_iff.mp ha
      intro hall height scope
      have hnode := hall _ (Expr.self_mem_nodes _)
      have hbody := forall_nodes_apply hall
      have hop : op.repetition? = none := by cases op <;> simp_all [Operator.repetition?]
      have heval : eval rules σ h (fuel + 1) (expr (.apply t op e) env) p calls =
          some (op.answer σ h env p e body) := by
        rw [eval, he]
        · rfl
        · exact hcode
        · exact hz
        · exact ho
      have ht := hnode.admits (fuel + 1) env p calls _ heval
      rw [Operator.position?_answer] at ht
      exact computes_apply hhost hop hcode (hnode.orderly.named e (List.mem_singleton_self e))
        ((hbody _ (Expr.self_mem_nodes _)).admits fuel env p calls body he) ht (ih he hbody)
  | case10 => exact fun hne => absurd rfl hne
  | case11 fuel e es env p calls ih ihrest =>
      obtain ⟨first, he, ha⟩ := Option.bind_eq_some_iff.mp ha
      intro _ hall height scope
      obtain ⟨hbody, hes⟩ := List.forall_mem_cons.mp hall
      have hadmits := (hbody _ (Expr.self_mem_nodes _)).admits fuel env p calls first he
      refine computes_alternatives hadmits (ih he hbody height scope.inner) ?_ ?_ ?_
      · rintro q v calls' rfl
        exact (Option.some.inj ha).symm
      · rintro calls' rfl rfl
        cases fuel with
        | zero => cases ha
        | succ fuel => exact (Option.some.inj ha).symm
      · rintro calls' rfl hne
        exact ihrest calls' ha hne hes height scope
  | case12 fuel action start done p calls =>
      obtain rfl := Option.some.inj ha
      intro _ _ hplucked hne height scope s base hp hcalls hs hlabels hpicked hroom
      exact hp ▸ achieves_sequenceEnd hhost (fun hsome => (hplucked hsome).1) hcalls hs hlabels
        hpicked hne (by omega)
  | case13 fuel action start e es done p calls ih ihrest =>
      obtain ⟨first, he, ha⟩ := Option.bind_eq_some_iff.mp ha
      intro hall hflat hplucked hne height scope s base hp hcalls hs hlabels hpicked hroom
      obtain ⟨hbody, hes⟩ := List.forall_mem_cons.mp hall
      obtain ⟨⟨hnamed, hsequence⟩, hflat⟩ := List.forall_mem_cons.mp hflat
      have hadmits := (hbody _ (Expr.self_mem_nodes _)).admits fuel done.env p calls first he
      refine achieves_elements hadmits (fun t ht => (hbody _ ht).reliable.nonempty t rfl) hnamed
        (Expr.callsAction_of_isSequence hsequence) hp hcalls hs hlabels hpicked hroom
        (ih he hbody height scope) ?_ ?_
      · rintro calls' rfl
        exact (Option.some.inj ha).symm
      · rintro q v calls' rfl hv t scope' hq hcalls' hs' hlabels' hpicked' hroom'
        refine ihrest q v calls' ha hes hflat (fun hsome => ?_) ?_ (height + 1) scope' t base hq
          hcalls' hs' hlabels' hpicked' hroom'
        · obtain ⟨hnone, hunpicked⟩ := hplucked hsome
          obtain ⟨heunpicked, hunpicked⟩ := List.forall_mem_cons.mp hunpicked
          exact ⟨by simp [Gathered.add, heunpicked, hnone], hunpicked⟩
        · exact Gathered.forall_picked_add hne hv
  | case14 fuel e env done p calls ih ihmany =>
      obtain ⟨first, he, ha⟩ := Option.bind_eq_some_iff.mp ha
      intro hall height scope stack hlabels hroom s hp hcalls hs
      have hinside : Located (height + 1) s.stack scope.labels env := hs ▸ hlabels.push _
      refine (ih he hall (height + 1) scope s hp hcalls hinside hroom).mono fun t ht => ?_
      refine ht.cases ?_ ?_
      · rintro q v calls' rfl hcalls' hv hstack hq
        exact .appendLoop (by rw [hstack, hs]) hv
          (ihmany q v calls' ha hall height scope stack hlabels hroom _ hq hcalls' rfl)
      · rintro calls' rfl hcalls' hstack hp'
        obtain rfl := Option.some.inj ha
        exact .loop_stop hstack ⟨p, done, rfl, by rw [hstack, hs], hp', hcalls'⟩

end PegCompiler
