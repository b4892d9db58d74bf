import PegCompiler.Proofs.Blocks
import PegCompiler.Proofs.Soundness
import PegCompiler.Proofs.Symbols

/-!
# Code follows evaluation

The code of an expression leaves one value on the stack: the failure mark at the position where it
began if the expression fails, another value behind what was consumed if it succeeds. The induction
is on the evaluation. A branch that was left away could not have been taken, since the outcomes of
the nodes are sound.
-/

namespace PegCompiler

variable {α : Type} {σ : Setting} {h : Host α} {rules : List Rule}

/-- Whether the state is as an evaluation at `p` leaves it on top of `base`. -/
def Leaves (base : List (Value α)) (p : Nat) (result : Option Nat) (t : State α) : Prop :=
  match result with
  | some q => (∃ v, v ≠ .failed ∧ t.stack = v :: base) ∧ t.position = q
  | none => t.stack = .failed :: base ∧ t.position = p

/-- Whether actions never fail and predicates answer as the setting says. -/
structure Host.Obeys (h : Host α) (σ : Setting) : Prop where
  action : ∀ f args saved p, h.action f args saved p ≠ .failed
  predicate : ∀ f args p, h.predicate f args p = σ.holds f.body p

/-- What code can rely on at a node: its outcome is sound, and on a leaf it is the one of that leaf;
a choice has alternatives, and a literal whose case is ignored has a stable one. -/
structure Expr.Reliable (rules : List Rule) (σ : Setting) (n : Expr) : Prop where
  admits : ∀ p result, Parses rules σ (.expr n) p result → n.outcome.Admits result
  outcome_leaf : ∀ t l, n = .leaf t l → (∀ name, l ≠ .ruleRef name) → t.outcome = l.outcome
  nonempty : ∀ t, n ≠ .choice t []
  stable : ∀ t value, n = .leaf t (.literal value true) → Text.CaseStable value

/-- What there is to evaluate is simulated if its code does the same. -/
def Goal.Simulated (rules : List Rule) (σ : Setting) (h : Host α) (p : Nat)
    (result : Option Nat) : Goal → Prop
  | expr e => (∀ n ∈ e.nodes, n.Reliable rules σ) → ∀ action height scope (s : State α),
      s.position = p →
      Reaches σ h rules (e.lower action height scope).code s (Leaves s.stack p result)
  | first es => es ≠ [] → (∀ e ∈ es, ∀ n ∈ e.nodes, n.Reliable rules σ) →
      ∀ height scope (s : State α), s.position = p →
      Reaches σ h rules (Expr.lowerAlternatives es height scope).code s (Leaves s.stack p result)
  | all es => (∀ e ∈ es, ∀ n ∈ e.nodes, n.Reliable rules σ) →
      ∀ action n height scope (s : State α) (vs base : List (Value α)) start,
      s.position = p → s.stack = vs ++ .position start :: base → vs.length = n →
      (∀ v ∈ vs, v ≠ .failed) → (∀ slot ∈ scope.picked, height ≤ slot + n ∧ slot < height) →
      Reaches σ h rules (Expr.lowerElements action n es height scope).code s
        (Leaves base start result)
  | many e => (∀ n ∈ e.nodes, n.Reliable rules σ) →
      ∀ height scope (s : State α) (vs base : List (Value α)),
      s.position = p → s.stack = .array vs :: base →
      Reaches σ h rules (e.lower none height scope).code s fun t =>
        Reaches σ h rules [appendLoop (e.lower none height scope).code] t fun u =>
          ∃ ws, u.stack = .failed :: .array ws :: base ∧ result = some u.position

theorem holds?_isFailed {s : State α} {base : List (Value α)} {p : Nat} {result : Option Nat}
    (hs : Leaves base p result s) :
    Condition.isFailed.holds? σ s = some result.isNone := by
  cases result with
  | none =>
      obtain ⟨hstack, -⟩ := hs
      simp [Condition.holds?, hstack, Value.isFailed]
  | some q =>
      obtain ⟨⟨v, hv, hstack⟩, -⟩ := hs
      simp [Condition.holds?, hstack, hv]

theorem holds?_isNotFailed {s : State α} {base : List (Value α)} {p : Nat} {result : Option Nat}
    (hs : Leaves base p result s) :
    Condition.isNotFailed.holds? σ s = some result.isSome := by
  cases result with
  | none =>
      obtain ⟨hstack, -⟩ := hs
      simp [Condition.holds?, hstack, Value.isFailed]
  | some q =>
      obtain ⟨⟨v, hv, hstack⟩, -⟩ := hs
      simp [Condition.holds?, hstack, hv]

/-! ## Leaves -/

theorem Reaches.fail {s : State α} {e : Expectation} {p : Nat} (hp : s.position = p) :
    Reaches σ h rules [.op .fail [.symbol (.expectation e)]] s (Leaves s.stack p none) :=
  .op rfl rfl (.nil ⟨rfl, hp⟩)

theorem Reaches.acceptN {s : State α} {n p q : Nat} (hp : s.position = p) (hq : p + n = q) :
    Reaches σ h rules [.op .acceptN [.count n]] s (Leaves s.stack p (some q)) :=
  .op rfl rfl (.nil ⟨⟨_, by simp, rfl⟩, by rw [← hq, ← hp]⟩)

theorem isSome_ite_some {c : Prop} [Decidable c] {q : Nat} :
    (if c then some q else none).isSome = decide c := by
  by_cases hc : c <;> simp [hc]

theorem Reaches.test {s : State α} {test : Opcode} {operands : List Operand}
    {accept : List Instr} {e : Expectation} {condition : Condition} {p : Nat} {result : Option Nat}
    (hp : s.position = p) (hcondition : Condition.ofTest? test operands = some condition)
    (hholds : condition.holds? σ s = some result.isSome)
    (haccept : ∀ q, result = some q → Reaches σ h rules accept s (Leaves s.stack p (some q))) :
    Reaches σ h rules [.branch test operands accept [.op .fail [.symbol (.expectation e)]]] s
      (Leaves s.stack p result) := by
  refine .branch hcondition hholds ?_
  cases result with
  | some q => exact haccept q rfl
  | none => exact .fail hp

theorem simulates_any {s : State α} {p : Nat} (hp : s.position = p) (scope : Scope) :
    Reaches σ h rules (lowerAny .sometimes scope).code s
      (Leaves s.stack p (Leaf.any.match? σ p)) := by
  refine .test hp rfl ?_ fun q hq => ?_
  · simp [Condition.holds?, Leaf.match?, isSome_ite_some, hp]
  · simp only [Leaf.match?, Option.ite_none_right_eq_some, Option.some.injEq] at hq
    exact .acceptN hp hq.2

theorem simulates_charClass {s : State α} {p : Nat} (hp : s.position = p) (set : CharClass)
    (scope : Scope) :
    Reaches σ h rules (lowerCharClass (Leaf.charClass set).outcome set scope).code s
      (Leaves s.stack p ((Leaf.charClass set).match? σ p)) := by
  by_cases hparts : set.parts.isEmpty
  · simp only [Leaf.outcome, hparts, if_true, Leaf.match?]
    exact .fail hp
  · simp only [Leaf.outcome, hparts, Leaf.match?, Bool.not_false, Bool.true_and]
    refine .test hp rfl ?_ fun q hq => ?_
    · simp [Condition.holds?, isSome_ite_some, hp]
    · simp only [Option.ite_none_right_eq_some, Option.some.injEq] at hq
      exact .acceptN hp hq.2

theorem simulates_literal {s : State α} {p : Nat} (hp : s.position = p) (value : String)
    (ignoreCase : Bool) (hstable : ignoreCase → Text.CaseStable value) (scope : Scope) :
    Reaches σ h rules
      (lowerLiteral (Leaf.literal value ignoreCase).outcome value ignoreCase scope).code s
      (Leaves s.stack p ((Leaf.literal value ignoreCase).match? σ p)) := by
  by_cases hempty : value.isEmpty
  · obtain rfl := String.isEmpty_iff.mp hempty
    have hmatch : (Leaf.literal "" ignoreCase).match? σ p = some p := by
      cases ignoreCase <;> simp [Leaf.match?]
    rw [hmatch]
    exact .op rfl rfl (.nil ⟨⟨_, by simp [Plain.value], rfl⟩, hp⟩)
  · simp only [Leaf.outcome, lowerLiteral, hempty]
    cases ignoreCase with
    | false =>
        refine .test hp rfl ?_ fun q hq => ?_
        · rw [Condition.holds?, Leaf.match?, isSome_ite_some, hp, Bool.decide_eq_true]
          rfl
        · simp only [Leaf.match?, Option.ite_none_right_eq_some, Option.some.injEq] at hq
          exact .op rfl rfl (.nil ⟨⟨_, by simp, rfl⟩, by rw [← hq.2, ← hp]; rfl⟩)
    | true =>
        refine .test hp rfl ?_ fun q hq => ?_
        · simp [Condition.holds?, Leaf.match?, (hstable rfl).foldedLength?_eq, isSome_ite_some, hp]
        · simp only [Leaf.match?, (hstable rfl).foldedLength?_eq] at hq
          split at hq
          · exact .acceptN hp (Option.some.inj hq)
          · cases hq

theorem simulates_predicate {s : State α} {p height : Nat} (hp : s.position = p) {code : Code}
    {onTrue onFalse : Opcode} {ifTrue ifFalse : Plain} {result : Option Nat}
    (hhost : h.Obeys σ)
    (htrue : Effect.ofOp? onTrue [] = some (.push ifTrue))
    (hfalse : Effect.ofOp? onFalse [] = some (.push ifFalse))
    (hyes : σ.holds code.text p → ∀ t : State α, t.stack = ifTrue.value p :: s.stack →
      t.position = p → Leaves s.stack p result t)
    (hno : ¬σ.holds code.text p → ∀ t : State α, t.stack = ifFalse.value p :: s.stack →
      t.position = p → Leaves s.stack p result t) (scope : Scope) :
    Reaches σ h rules (semanticPredicate .sometimes code onTrue onFalse height scope).code s
      (Leaves s.stack p result) := by
  subst hp
  have hnil : s.stack = [] ++ s.stack := rfl
  refine .op rfl rfl (.call hnil rfl fun args => .branch rfl rfl ?_)
  simp only [if_true, hhost.predicate, Value.isTrue]
  split
  · next hb => exact .pop rfl (.push htrue (.nil (hyes hb _ rfl rfl)))
  · next hb => exact .pop rfl (.push hfalse (.nil (hno hb _ rfl rfl)))

theorem simulates_leaf {s : State α} {p height : Nat} (hp : s.position = p) (hhost : h.Obeys σ)
    {t : Tag} {l : Leaf} (hl : ∀ name, l ≠ .ruleRef name) (ht : t.outcome = l.outcome)
    (hstable : ∀ value, l = .literal value true → Text.CaseStable value) (scope : Scope) :
    Reaches σ h rules (lowerLeaf t l height scope).code s
      (Leaves s.stack p (l.match? σ p)) := by
  cases l with
  | semanticAnd code =>
      simp only [lowerLeaf, ht]
      refine simulates_predicate hp hhost rfl rfl ?_ ?_ scope
      · intro hb u hu hup
        simp only [Leaf.match?, hb, if_true]
        exact ⟨⟨_, by simp [Plain.value], hu⟩, hup⟩
      · intro hb u hu hup
        simp only [Leaf.match?, hb]
        exact ⟨hu, hup⟩
  | semanticNot code =>
      simp only [lowerLeaf, ht]
      refine simulates_predicate hp hhost rfl rfl ?_ ?_ scope
      · intro hb u hu hup
        simp only [Leaf.match?, hb, if_true]
        exact ⟨hu, hup⟩
      · intro hb u hu hup
        simp only [Leaf.match?, hb]
        exact ⟨⟨_, by simp [Plain.value], hu⟩, hup⟩
  | ruleRef name => exact absurd rfl (hl name)
  | literal value ignoreCase =>
      simp only [lowerLeaf, ht]
      refine simulates_literal hp value ignoreCase (fun hi => hstable value ?_) scope
      rw [hi]
  | charClass set =>
      simp only [lowerLeaf, ht]
      exact simulates_charClass hp set scope
  | any =>
      simp only [lowerLeaf, ht]
      exact simulates_any hp scope

/-! ## Operators -/

section Operators

variable {s t : State α} {base : List (Value α)} {p : Nat} {result : Option Nat}
  {outcome : Outcome} {P : State α → Prop}

theorem Reaches.ifNotError {yes no : List Instr} (ht : Leaves base p result t)
    (hadmits : outcome.Admits result)
    (hyes : ∀ q, result = some q → Reaches σ h rules yes t P)
    (hno : result = none → Reaches σ h rules no t P) :
    Reaches σ h rules (PegCompiler.condition outcome .ifNotError [] yes no) t P := by
  refine .condition rfl (holds?_isNotFailed ht) ?_ ?_ ?_
  · rintro rfl
    exact hadmits
  · rintro rfl
    rw [hadmits]
    rfl
  · cases result with
    | some q => exact hyes q rfl
    | none => exact hno rfl

theorem Reaches.ifError {yes no : List Instr} (ht : Leaves base p result t)
    (hadmits : outcome.Admits result) (hyes : result = none → Reaches σ h rules yes t P)
    (hno : ∀ q, result = some q → Reaches σ h rules no t P) :
    Reaches σ h rules (PegCompiler.condition outcome.invert .ifError [] yes no) t P := by
  refine .condition rfl (holds?_isFailed ht) ?_ ?_ ?_
  · intro ho
    obtain rfl : outcome = .never := by cases outcome <;> first | rfl | cases ho
    rw [hadmits]
    rfl
  · intro ho
    obtain rfl : outcome = .always := by cases outcome <;> first | rfl | cases ho
    rw [Option.isNone_eq_false_iff]
    exact hadmits
  · cases result with
    | some q => exact hno q rfl
    | none => exact hyes rfl

/-- To remove what lies below the value changes nothing else. -/
theorem Reaches.nip_leaves {w : Value α} (ht : Leaves (w :: base) p result t) :
    Reaches σ h rules [.op .nip []] t (Leaves base p result) := by
  cases result with
  | none => exact .nip ht.1 (.nil ⟨rfl, ht.2⟩)
  | some q =>
      obtain ⟨⟨v, hv, hstack⟩, hq⟩ := ht
      exact .nip hstack (.nil ⟨⟨v, hv, rfl⟩, hq⟩)

variable {body : Lowered}

theorem simulates_named {name : String}
    (hbody : ∀ s : State α, s.position = p →
      Reaches σ h rules body.code s (Leaves s.stack p result)) (hp : s.position = p) :
    Reaches σ h rules (lowerNamed outcome name body).code s (Leaves s.stack p result) := by
  have hsilent : Reaches σ h rules ([.op .silentFailsOn []] ++ body.code ++
      [.op .silentFailsOff []]) s (Leaves s.stack p result) := by
    refine .silentFailsOn ((hbody _ (by exact hp)).append fun t ht => ?_)
    exact .silentFailsOff (.nil ht)
  refine hsilent.append fun t ht => ?_
  split
  · refine .branch rfl (holds?_isFailed ht) ?_
    cases result with
    | some q => exact .nil ht
    | none => exact .pop ht.1 (.fail ht.2)
  · exact .nil ht

theorem simulates_action {code : String} {height : Nat} {scope : Scope} (hhost : h.Obeys σ)
    (hadmits : outcome.Admits result)
    (hbody : ∀ s : State α, s.position = p →
      Reaches σ h rules body.code s (Leaves s.stack p result)) (hp : s.position = p) :
    Reaches σ h rules (lowerAction outcome code height body scope).code s
      (Leaves s.stack p result) := by
  simp only [lowerAction, List.append_assoc, List.cons_append, List.nil_append]
  refine .push rfl ((hbody _ (by exact hp)).append fun t ht => ?_)
  have hcall : Reaches σ h rules (PegCompiler.condition outcome .ifNotError []
      [.op .loadSavedPos [.count 1], callOf ⟨false, body.scope.names, code⟩ 1 (height + 2)
        body.scope] []) t (Leaves (.position s.position :: s.stack) p result) := by
    refine .ifNotError ht hadmits ?_ ?_
    · rintro q rfl
      obtain ⟨⟨v, -, hstack⟩, hq⟩ := ht
      have hsplit : t.stack = [v] ++ (.position s.position :: s.stack) := hstack
      have hsaved : t.stack[1]? = some (.position s.position) := by rw [hsplit]; rfl
      refine .loadSavedPos hsaved (.call hsplit rfl fun args => .nil ?_)
      exact ⟨⟨_, hhost.action _ _ _ _, rfl⟩, hq⟩
    · rintro rfl
      exact .nil ht
  exact hcall.append fun u hu => .nip_leaves hu

theorem simulates_text {scope : Scope} (hadmits : outcome.Admits result)
    (hbody : ∀ s : State α, s.position = p →
      Reaches σ h rules body.code s (Leaves s.stack p result)) (hp : s.position = p) :
    Reaches σ h rules (lowerText outcome body scope).code s (Leaves s.stack p result) := by
  simp only [lowerText, List.cons_append, List.nil_append]
  refine .push rfl ((hbody _ (by exact hp)).append fun t ht => ?_)
  refine .ifNotError ht hadmits ?_ ?_
  · rintro q rfl
    obtain ⟨⟨v, -, hstack⟩, hq⟩ := ht
    exact .pop hstack (.text rfl fun cs => .nil ⟨⟨_, by simp, rfl⟩, hq⟩)
  · rintro rfl
    exact .nip_leaves ht

theorem simulates_simpleAnd {scope : Scope} (hadmits : outcome.Admits result)
    (hbody : ∀ s : State α, s.position = p →
      Reaches σ h rules body.code s (Leaves s.stack p result)) (hp : s.position = p) :
    Reaches σ h rules (lowerSimpleAnd outcome body scope).code s
      (Leaves s.stack p (Operator.simpleAnd.result p result)) := by
  simp only [lowerSimpleAnd, List.append_assoc, List.cons_append, List.nil_append]
  refine .push rfl (.silentFailsOn ((hbody _ (by exact hp)).append fun t ht => .silentFailsOff ?_))
  refine .ifNotError (by exact ht) hadmits ?_ ?_
  · rintro q rfl
    obtain ⟨⟨v, -, hstack⟩, -⟩ := ht
    refine .pop hstack (.popCurrPos rfl (.push rfl (.nil ?_)))
    exact ⟨⟨_, by simp [Plain.value], rfl⟩, hp⟩
  · rintro rfl
    exact .pop ht.1 (.pop rfl (.push rfl (.nil ⟨rfl, ht.2⟩)))

theorem simulates_simpleNot {scope : Scope} (hadmits : outcome.Admits result)
    (hbody : ∀ s : State α, s.position = p →
      Reaches σ h rules body.code s (Leaves s.stack p result)) (hp : s.position = p) :
    Reaches σ h rules (lowerSimpleNot outcome body scope).code s
      (Leaves s.stack p (Operator.simpleNot.result p result)) := by
  simp only [lowerSimpleNot, List.append_assoc, List.cons_append, List.nil_append]
  refine .push rfl (.silentFailsOn ((hbody _ (by exact hp)).append fun t ht => .silentFailsOff ?_))
  refine .ifError (by exact ht) hadmits ?_ ?_
  · rintro rfl
    refine .pop ht.1 (.pop rfl (.push rfl (.nil ?_)))
    exact ⟨⟨_, by simp [Plain.value], rfl⟩, ht.2⟩
  · rintro q rfl
    obtain ⟨⟨v, -, hstack⟩, -⟩ := ht
    exact .pop hstack (.popCurrPos rfl (.push rfl (.nil ⟨rfl, hp⟩)))

theorem simulates_optional {scope : Scope} (hadmits : outcome.Admits result)
    (hbody : ∀ s : State α, s.position = p →
      Reaches σ h rules body.code s (Leaves s.stack p result)) (hp : s.position = p) :
    Reaches σ h rules (lowerOptional outcome body scope).code s
      (Leaves s.stack p (Operator.optional.result p result)) := by
  refine (hbody s hp).append fun t ht => .ifError ht hadmits ?_ ?_
  · rintro rfl
    refine .pop ht.1 (.push rfl (.nil ?_))
    exact ⟨⟨_, by simp [Plain.value], rfl⟩, ht.2⟩
  · rintro q rfl
    exact .nil ht

end Operators

/-! ## Sequences, choices and repetitions -/

section Composites

variable {s : State α} {vs base : List (Value α)} {start n height : Nat} {scope : Scope}

theorem simulates_sequenceEnd {action : Option String} (hhost : h.Obeys σ)
    (hs : s.stack = vs ++ .position start :: base) (hn : vs.length = n)
    (hvs : ∀ v ∈ vs, v ≠ .failed)
    (hpicked : ∀ slot ∈ scope.picked, height ≤ slot + n ∧ slot < height) :
    Reaches σ h rules (sequenceEnd action n height scope).code s
      (Leaves base start (some s.position)) := by
  have hall : s.stack = (vs ++ [.position start]) ++ base := by rw [hs, List.append_assoc]; rfl
  have hlen : (vs ++ [Value.position (α := α) start]).length = n + 1 := by simp [hn]
  unfold sequenceEnd
  split
  · cases action with
    | some body =>
        have hsaved : s.stack[n]? = some (.position start) := by simp [hs, ← hn]
        refine .loadSavedPos hsaved (.call hall hlen fun args => .nil ?_)
        exact ⟨⟨_, hhost.action _ _ _ _, rfl⟩, rfl⟩
    | none =>
        refine .wrap hs hn (.nip rfl (.nil ?_))
        exact ⟨⟨_, by simp, rfl⟩, rfl⟩
  · refine .pluck hall hlen (fun slot hslot => ?_) fun v hv => .nil ⟨⟨v, hv, rfl⟩, rfl⟩
    obtain ⟨hlow, hhigh⟩ := hpicked slot hslot
    have hlt : writtenOffset height slot < vs.length := hn ▸ writtenOffset_lt hlow hhigh
    refine ⟨vs[writtenOffset height slot], ?_, hvs _ (List.getElem_mem hlt)⟩
    rw [hs, List.getElem?_append_left hlt, List.getElem?_eq_getElem hlt]

/-- A failed element takes the values before it with it. -/
theorem reaches_unwind (hs : s.stack = .failed :: vs ++ .position start :: base)
    (hn : vs.length = n) :
    Reaches σ h rules (unwind (n + 1)) s (Leaves base start none) := by
  have hrest : ∀ t : State α, t.stack = .position start :: base →
      Reaches σ h rules [.op .popCurrPos [], .op .pushFailed []] t (Leaves base start none) :=
    fun t ht => .popCurrPos ht (.push rfl (.nil ⟨rfl, rfl⟩))
  unfold unwind dropTop
  split
  · next hone =>
      obtain rfl : vs = [] := List.length_eq_zero_iff.mp (by omega)
      exact .pop hs (hrest _ rfl)
  · exact .popN hs (by simp [hn]) (hrest _ rfl)

end Composites

theorem Reaches.appendLoop {body : List Instr} {s : State α} {v : Value α}
    {vs base : List (Value α)} {P : State α → Prop} (hs : s.stack = v :: .array vs :: base)
    (hv : v ≠ .failed)
    (hbody : Reaches σ h rules body { s with stack := .array (vs ++ [v]) :: base }
      fun t => Reaches σ h rules [PegCompiler.appendLoop body] t P) :
    Reaches σ h rules [PegCompiler.appendLoop body] s P := by
  have hgo : Condition.isNotFailed.holds? σ s = some true := by simp [Condition.holds?, hs, hv]
  have happend : Reaches σ h rules (.op .append [] :: body) s
      fun t => Reaches σ h rules [PegCompiler.appendLoop body] t P := .arrayAppend hs hbody
  obtain ⟨t, hst, u, htu, hu⟩ := happend
  exact ⟨u, .loopGo hgo hst htu, hu⟩

theorem Reaches.loop_stop {body : List Instr} {s : State α} {base : List (Value α)}
    {P : State α → Prop} (hs : s.stack = .failed :: base) (hP : P s) :
    Reaches σ h rules [.loop body] s P :=
  ⟨s, .loopStop (by simp [Condition.holds?, hs, Value.isFailed]) .nil, hP⟩

/-- What a loop leaves: the array below the failure that ended it is the value of the repetition. -/
theorem Reaches.loop_pop {body : List Instr} {s : State α} {base : List (Value α)} {p : Nat}
    {result : Option Nat}
    (hloop : Reaches σ h rules [PegCompiler.appendLoop body] s fun u =>
      ∃ ws, u.stack = .failed :: .array ws :: base ∧ result = some u.position) :
    Reaches σ h rules [PegCompiler.appendLoop body, .op .pop []] s (Leaves base p result) := by
  refine hloop.append fun u hu => ?_
  obtain ⟨ws, hstack, rfl⟩ := hu
  exact .pop hstack (.nil ⟨⟨_, by simp, rfl⟩, rfl⟩)

theorem Reaches.rule {ref : RuleRef} {r : Rule} {s : State α} {p : Nat} {result : Option Nat}
    (hr : findRule? rules ref.name = some r)
    (hbody : Reaches σ h rules r.lower.code { s with stack := [] } (Leaves [] p result)) :
    Reaches σ h rules [.op .rule [.symbol (.rule ref)]] s (Leaves s.stack p result) := by
  obtain ⟨t, hexec, ht⟩ := hbody
  cases result with
  | none => exact ⟨_, .rule hr hexec ht.1 .nil, rfl, ht.2⟩
  | some q =>
      obtain ⟨⟨v, hv, hstack⟩, hq⟩ := ht
      exact ⟨_, .rule hr hexec hstack .nil, ⟨v, hv, rfl⟩, hq⟩

theorem simulates_apply {t : Tag} {op : Operator} {e : Expr} {p : Nat} {body : Option Nat}
    (hhost : h.Obeys σ) (hop : op.repetition? = none) (he : e.outcome.Admits body)
    (ht : t.outcome.Admits (op.result p body))
    (hbody : ∀ action height scope (s : State α), s.position = p →
      Reaches σ h rules (e.lower action height scope).code s (Leaves s.stack p body))
    (action : Option String) (height : Nat) (scope : Scope) (s : State α) (hp : s.position = p) :
    Reaches σ h rules ((Expr.apply t op e).lower action height scope).code s
      (Leaves s.stack p (op.result p body)) := by
  cases op with
  | named name => exact simulates_named (fun s hp => hbody none height scope s hp) hp
  | action code =>
      rw [Expr.lower]
      dsimp only
      split
      · exact hbody _ height scope.inner s hp
      · exact simulates_action hhost he (fun s hp => hbody none _ scope.inner s hp) hp
  | labeled label location pick => exact hbody none height scope.inner s hp
  | text => exact simulates_text ht (fun s hp => hbody none _ scope.inner s hp) hp
  | simpleAnd => exact simulates_simpleAnd he (fun s hp => hbody none _ scope.inner s hp) hp
  | simpleNot => exact simulates_simpleNot he (fun s hp => hbody none _ scope.inner s hp) hp
  | optional => exact simulates_optional he (fun s hp => hbody none _ scope.inner s hp) hp
  | group => exact hbody none height scope.inner s hp
  | zeroOrMore | oneOrMore => cases hop

/-- One or more repetitions, where a success of the first is followed by the others. -/
theorem simulates_oneOrMore {body : Lowered} {outcome : Outcome} {scope : Scope} {s : State α}
    {p : Nat} {first result : Option Nat} (hadmits : outcome.Admits first)
    (hbody : ∀ s : State α, s.position = p →
      Reaches σ h rules body.code s (Leaves s.stack p first)) (hp : s.position = p)
    (hfail : first = none → result = none)
    (hmany : ∀ q, first = some q → ∀ (s : State α) (vs base : List (Value α)), s.position = q →
      s.stack = .array vs :: base → Reaches σ h rules body.code s fun t =>
        Reaches σ h rules [appendLoop body.code] t fun u =>
          ∃ ws, u.stack = .failed :: .array ws :: base ∧ result = some u.position) :
    Reaches σ h rules (lowerOneOrMore outcome body scope).code s (Leaves s.stack p result) := by
  refine .push rfl ((hbody _ (by exact hp)).append fun t ht => .ifNotError ht hadmits ?_ ?_)
  · rintro q rfl
    obtain ⟨⟨v, hv, hstack⟩, hq⟩ := ht
    refine .loop_pop (.appendLoop hstack hv (hmany q rfl _ _ _ ?_ rfl))
    exact hq
  · rintro rfl
    rw [hfail rfl]
    exact .pop ht.1 (.pop rfl (.push rfl (.nil ⟨rfl, ht.2⟩)))

section First

variable {e : Expr} {es : List Expr} {p : Nat} {first result : Option Nat} {height : Nat}
  {scope : Scope} {s : State α}

/-- The first alternative decides if it succeeds, and the others do if it fails. -/
theorem simulates_alternatives (hadmits : e.outcome.Admits first)
    (hbody : Reaches σ h rules (e.lower none height scope.inner).code s (Leaves s.stack p first))
    (hsome : ∀ q, first = some q → result = some q)
    (hlast : first = none → es = [] → result = none)
    (hrest : first = none → es ≠ [] → ∀ t : State α, t.stack = s.stack → t.position = p →
      Reaches σ h rules (Expr.lowerAlternatives es height scope).code t
        (Leaves s.stack p result)) :
    Reaches σ h rules (Expr.lowerAlternatives (e :: es) height scope).code s
      (Leaves s.stack p result) := by
  rw [Expr.lowerAlternatives]
  dsimp only
  cases first with
  | some q =>
      obtain rfl := hsome q rfl
      split
      · exact hbody
      · exact hbody.append fun t ht => .branch rfl (holds?_isFailed ht) (.nil ht)
  | none =>
      have hne : e.outcome ≠ .always := by
        intro ho
        rw [ho] at hadmits
        cases hadmits
      by_cases hes : es = []
      · obtain rfl := hlast rfl hes
        simpa [hes] using hbody
      · rw [if_neg (by simp [hne, hes])]
        refine hbody.append fun t ht => .branch rfl (holds?_isFailed ht) ?_
        exact .pop ht.1 (hrest rfl hes _ rfl ht.2)

/-- An element of a sequence that fails ends the sequence, and one that succeeds goes on. -/
theorem simulates_elements {action : Option String} {n start : Nat} {vs base : List (Value α)}
    (hadmits : e.outcome.Admits first) (hs : s.stack = vs ++ .position start :: base)
    (hn : vs.length = n)
    (hbody : Reaches σ h rules (e.lower none height scope).code s (Leaves s.stack p first))
    (hfail : first = none → result = none)
    (hrest : ∀ q, first = some q → ∀ (t : State α) v, v ≠ .failed → t.position = q →
      t.stack = (v :: vs) ++ .position start :: base →
      Reaches σ h rules (Expr.lowerElements action (n + 1) es (height + 1)
        (e.lower none height scope).scope).code t (Leaves base start result)) :
    Reaches σ h rules (Expr.lowerElements action n (e :: es) height scope).code s
      (Leaves base start result) := by
  rw [Expr.lowerElements]
  refine hbody.append fun t ht => .ifNotError ht hadmits ?_ ?_
  · rintro q rfl
    obtain ⟨⟨v, hv, hstack⟩, hq⟩ := ht
    exact hrest q rfl t v hv hq (by rw [hstack, hs]; rfl)
  · rintro rfl
    rw [hfail rfl]
    exact reaches_unwind (by rw [ht.1, hs]; rfl) hn

end First

/-- Every evaluation is simulated when the nodes of all rules are reliable. -/
theorem Parses.simulated (hhost : h.Obeys σ)
    (hrules : ∀ r ∈ rules, ∀ n ∈ r.body.nodes, n.Reliable rules σ) {g : Goal} {p : Nat}
    {result : Option Nat} (hparses : Parses rules σ g p result) :
    g.Simulated rules σ h p result := by
  induction hparses with
  | @leaf t l p result hl ho =>
      intro hall action height scope s hp
      have hnode := hall _ (Expr.self_mem_nodes _)
      subst ho
      exact simulates_leaf hp hhost hl (hnode.outcome_leaf t l rfl hl)
        (fun value hv => hnode.stable t value (by rw [hv])) scope
  | @ref t name r p result hr _ ih =>
      intro hall action height scope s hp
      have href : findRule? rules (RuleRef.mk name t.location).name = some r := hr
      exact .rule href (ih (hrules r (mem_of_findRule? hr)) none 0 .empty _ hp)
  | choice _ ih =>
      intro hall action height scope s hp
      refine ih ?_ (forall_nodes_choice hall) height scope s hp
      rintro rfl
      exact (hall _ (Expr.self_mem_nodes _)).nonempty _ rfl
  | @sequence t es p result _ ih =>
      intro hall action height scope s hp
      rw [Expr.lower]
      refine .push rfl ?_
      refine ih (forall_nodes_sequence hall) action 0 (height + 1) scope.inner _ [] s.stack p ?_ ?_
        rfl (by simp) (by simp [Scope.inner])
      · exact hp
      · simp [State.push, Plain.value, hp]
  | @apply t op e p body result hop hbody ho ih =>
      intro hall action height scope s hp
      have hnode := hall _ (Expr.self_mem_nodes _)
      have he := forall_nodes_apply hall _ (Expr.self_mem_nodes _)
      subst ho
      exact simulates_apply hhost hop (he.admits p body hbody)
        (hnode.admits p _ (.apply hop hbody rfl)) (ih (forall_nodes_apply hall)) action height scope
        s hp
  | @zeroOrMore t e p result _ ih =>
      intro hall action height scope s hp
      have hmany := ih (forall_nodes_apply hall) (height + 1) scope.inner (s.push (.array [])) []
        s.stack hp rfl
      exact .push rfl (hmany.append fun t ht => .loop_pop ht)
  | @noneOfMany t e p hbody ih =>
      intro hall action height scope s hp
      have he := forall_nodes_apply hall _ (Expr.self_mem_nodes _)
      exact simulates_oneOrMore (he.admits p none hbody)
        (fun s hp => ih (forall_nodes_apply hall) none _ _ s hp) hp (fun _ => rfl) (by simp)
  | @oneOrMore t e p q result hbody _ ih ihmany =>
      intro hall action height scope s hp
      have he := forall_nodes_apply hall _ (Expr.self_mem_nodes _)
      refine simulates_oneOrMore (he.admits p (some q) hbody)
        (fun s hp => ih (forall_nodes_apply hall) none _ _ s hp) hp (by simp) ?_
      rintro _ ⟨⟩ s vs base hq hs
      exact ihmany (forall_nodes_apply hall) (height + 1) scope.inner s vs base hq hs
  | firstNil => exact fun hne => absurd rfl hne
  | @firstHere e es p q hbody ih =>
      intro _ hall height scope s hp
      have he := List.forall_mem_cons.mp hall
      exact simulates_alternatives ((he.1 e e.self_mem_nodes).admits p _ hbody)
        (ih he.1 none height scope.inner s hp) (fun _ h => h) (by simp) (by simp)
  | @firstLater e es p result hbody hrest ih ihrest =>
      intro _ hall height scope s hp
      have he := List.forall_mem_cons.mp hall
      refine simulates_alternatives ((he.1 e e.self_mem_nodes).admits p _ hbody)
        (ih he.1 none height scope.inner s hp) (by simp) ?_ ?_
      · rintro - rfl
        exact hrest.unique .firstNil
      · intro _ hes t ht hp'
        exact ht ▸ ihrest hes he.2 height scope t hp'
  | allNil =>
      intro _ action n height scope s vs base start hp hs hn hvs hpicked
      exact hp ▸ simulates_sequenceEnd hhost hs hn hvs hpicked
  | @allStop e es p hbody ih =>
      intro hall action n height scope s vs base start hp hs hn hvs hpicked
      have he := List.forall_mem_cons.mp hall
      exact simulates_elements ((he.1 e e.self_mem_nodes).admits p _ hbody) hs hn
        (ih he.1 none height scope s hp) (fun _ => rfl) (by simp)
  | @allGo e es p q result hbody _ ih ihrest =>
      intro hall action n height scope s vs base start hp hs hn hvs hpicked
      have he := List.forall_mem_cons.mp hall
      refine simulates_elements ((he.1 e e.self_mem_nodes).admits p _ hbody) hs hn
        (ih he.1 none height scope s hp) (by simp) ?_
      rintro _ ⟨⟩ t v hv hq ht
      refine ihrest he.2 action (n + 1) (height + 1) _ t (v :: vs) base start hq ht (by simp [hn])
        (List.forall_mem_cons.mpr ⟨hv, hvs⟩) fun slot hslot => ?_
      rcases Expr.picked_of_lower hslot with hslot | rfl
      · have hbounds := hpicked slot hslot
        omega
      · omega
  | @manyStop e p _ ih =>
      intro hall height scope s vs base hp hs
      refine (ih hall none height scope s hp).mono fun t ht => ?_
      obtain ⟨hstack, hp'⟩ := ht
      exact .loop_stop hstack ⟨vs, by rw [hstack, hs], by rw [hp']⟩
  | @manyGo e p q result _ _ ih ihmany =>
      intro hall height scope s vs base hp hs
      refine (ih hall none height scope s hp).mono fun t ht => ?_
      obtain ⟨⟨v, hv, hstack⟩, hq⟩ := ht
      exact .appendLoop (by rw [hstack, hs]) hv (ihmany hall height scope _ _ base hq rfl)

end PegCompiler
