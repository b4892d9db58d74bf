import PegCompiler.Proofs.Logs
import PegCompiler.Proofs.Marks
import PegCompiler.Proofs.Termination

/-!
# Expressions that may fail

The code of every expression may come to an end. If the expression consumes, it may end in a
failure, unless an outcome says that something in it which consumes always matches. A choice fails
behind all of its alternatives, a sequence at the element that consumes, and a loop is left as soon
as its body fails.
-/

namespace PegCompiler

variable {rules : List Rule}

/-- Whether the code may leave one value, a failure or not. -/
def Completes (rules : List Rule) (code : List Instr) : Prop :=
  ∀ fs, ∃ failed, MayRun rules code fs (failed :: fs)

def MayFail (rules : List Rule) (code : List Instr) : Prop :=
  ∀ fs, MayRun rules code fs (true :: fs)

theorem MayFail.completes {code : List Instr} (h : MayFail rules code) : Completes rules code :=
  fun fs => ⟨true, h fs⟩

/-- Whether the code of the expression may come to an end, and to a failure if it consumes. -/
structure Expr.Runs (rules : List Rule) (e : Expr) (code : List Instr) : Prop where
  completes : Completes rules code
  mayFail : e.consumes rules → MayFail rules code

section Leaves

variable {outcome : Outcome} {height : Nat} {s : Scope}

theorem MayRun.exists_push {code : Opcode} {v : Plain}
    (heffect : Effect.ofOp? code [] = some (.push v)) (fs : List Bool) :
    ∃ b, MayRun rules [.op code []] fs (b :: fs) := by
  cases v with
  | failed => exact ⟨true, .op heffect rfl .nil⟩
  | _ => exact ⟨false, .op heffect rfl .nil⟩

theorem semanticPredicate_completes (code : Code) {onTrue onFalse : Opcode} {v w : Plain}
    (htrue : Effect.ofOp? onTrue [] = some (.push v))
    (hfalse : Effect.ofOp? onFalse [] = some (.push w)) :
    Completes rules (semanticPredicate outcome code onTrue onFalse height s).code := by
  intro fs
  obtain ⟨b, hyes⟩ : ∃ b, MayRun rules [.op onTrue []] fs (b :: fs) :=
    MayRun.exists_push htrue fs
  obtain ⟨c, hno⟩ : ∃ c, MayRun rules [.op onFalse []] fs (c :: fs) :=
    MayRun.exists_push hfalse fs
  obtain ⟨d, hd⟩ : ∃ d, MayRun rules (condition outcome .ifTrue []
      [.op .pop [], .op onTrue []] [.op .pop [], .op onFalse []]) (false :: fs) (d :: fs) :=
    MayRun.exists_condition rfl ⟨b, .op rfl rfl hyes⟩ ⟨c, .op rfl rfl hno⟩
  have hcall : MayRun rules (callOf ⟨true, s.names, code.text⟩ 0 height s :: _) ([] ++ fs) _ :=
    .callOf rfl hd
  exact ⟨d, .op rfl rfl hcall⟩

/-- Whether the code of a test may come to an end, and to a failure unless it always matches. -/
structure Tries (rules : List Rule) (outcome : Outcome) (code : List Instr) : Prop where
  completes : Completes rules code
  mayFail : outcome ≠ .always → MayFail rules code

/-- A test of the input may turn out either way. -/
theorem condition_tries {test : Opcode} {operands : List Operand} {condition : Condition}
    {accept : Instr} {expected : Expectation}
    (hcondition : Condition.ofTest? test operands = some condition)
    (hallows : ∀ fs b, condition.Allows fs b)
    (haccept : ∀ fs, MayRun rules [accept] fs (false :: fs)) :
    Tries rules outcome (PegCompiler.condition outcome test operands [accept]
      (failure outcome expected).1) := by
  have hfail (houtcome : outcome ≠ .always) : MayFail rules (PegCompiler.condition outcome test
      operands [accept] (failure outcome expected).1) := by
    intro fs
    refine .conditionNo hcondition (hallows fs false) houtcome ?_
    rw [failure, if_neg houtcome]
    exact .op rfl rfl .nil
  refine ⟨?_, hfail⟩
  by_cases houtcome : outcome = .always
  · subst houtcome
    exact fun fs => ⟨false, haccept fs⟩
  · exact (hfail houtcome).completes

theorem lowerLiteral_tries {value : String} (hvalue : value ≠ "") (ignoreCase : Bool) :
    Tries rules outcome (lowerLiteral outcome value ignoreCase s).code := by
  rw [lowerLiteral, if_neg fun hempty => hvalue (String.isEmpty_iff.mp hempty)]
  cases ignoreCase with
  | false => exact condition_tries rfl (fun _ _ => trivial) fun fs => .op rfl rfl .nil
  | true => exact condition_tries rfl (fun _ _ => trivial) fun fs => .op rfl rfl .nil

theorem lowerCharClass_tries (set : CharClass) :
    Tries rules outcome (lowerCharClass outcome set s).code :=
  condition_tries rfl (fun _ _ => trivial) fun _ => .op rfl rfl .nil

theorem lowerAny_tries : Tries rules outcome (lowerAny outcome s).code :=
  condition_tries rfl (fun _ _ => trivial) fun _ => .op rfl rfl .nil

/-- Whether the rules that are referred to are defined, and those that consume may fail. -/
structure RulesMayFail (rules : List Rule) (refs : List RuleRef) : Prop where
  refsDefined : ∀ ref ∈ refs, ref.isDefined rules
  outcome_ne : ∀ name r, findRule? rules name = some r → ruleConsumes rules name →
    r.outcome ≠ some .always

theorem lowerLeaf_runs {t : Tag} {l : Leaf} (hrules : RulesMayFail rules (Expr.leaf t l).refs)
    (houtcome : (Expr.leaf t l).consumes rules → t.outcome ≠ .always) :
    (Expr.leaf t l).Runs rules (lowerLeaf t l height s).code := by
  cases l with
  | semanticAnd code => exact ⟨semanticPredicate_completes code rfl rfl, fun hc => by cases hc⟩
  | semanticNot code => exact ⟨semanticPredicate_completes code rfl rfl, fun hc => by cases hc⟩
  | ruleRef name =>
      have hdef := hrules.refsDefined ⟨name, t.location⟩
        (by simp [Expr.refs, Expr.nodes, Expr.ref?])
      obtain ⟨r, hr⟩ := Option.isSome_iff_exists.mp hdef
      constructor
      · intro fs
        by_cases hnever : r.outcome = some .never
        · exact ⟨true, .rule hr ⟨by simp [hnever], fun _ => rfl⟩ .nil⟩
        · exact ⟨false, .rule hr ⟨fun _ => rfl, fun h => absurd h hnever⟩ .nil⟩
      · intro hc fs
        have hne := hrules.outcome_ne name r hr hc
        exact .rule hr ⟨fun h => absurd h hne, fun _ => rfl⟩ .nil
  | literal value ignoreCase =>
      by_cases hvalue : value = ""
      · subst hvalue
        exact ⟨fun fs => ⟨false, .op rfl rfl .nil⟩, fun hc => by cases hc⟩
      · have htries : Tries rules t.outcome (lowerLiteral t.outcome value ignoreCase s).code :=
          lowerLiteral_tries hvalue ignoreCase
        exact ⟨htries.completes, fun hc => htries.mayFail (houtcome hc)⟩
  | charClass set =>
      have htries : Tries rules t.outcome (lowerCharClass t.outcome set s).code :=
        lowerCharClass_tries set
      exact ⟨htries.completes, fun hc => htries.mayFail (houtcome hc)⟩
  | any =>
      have htries : Tries rules t.outcome (lowerAny t.outcome s).code := lowerAny_tries
      exact ⟨htries.completes, fun hc => htries.mayFail (houtcome hc)⟩

end Leaves

section Operators

variable {t : Tag} {e : Expr} {body : Lowered} {outcome : Outcome} {height : Nat} {s : Scope}

/-- A name is reported in place of what the body reported, and its failure stays. -/
theorem lowerNamed_mayRun (name : String) {fs gs : List Bool} {failed : Bool}
    (hbody : MayRun rules body.code fs (failed :: gs)) :
    MayRun rules (lowerNamed outcome name body).code fs (failed :: gs) := by
  refine .append (.append (.op rfl rfl hbody) (.op rfl rfl .nil)) ?_
  split
  · refine .branchOf rfl (show Condition.isFailed.Allows (failed :: gs) failed from rfl) ?_
    cases failed with
    | true => exact .op rfl rfl (.op rfl rfl .nil)
    | false => exact .nil
  · exact .nil

theorem lowerAction_completes (code : String) (hbody : Completes rules body.code) :
    Completes rules (lowerAction outcome code height body s).code := by
  intro fs
  have hstart : ∃ b, MayRun rules ([.op .pushCurrPos []] ++ body.code) fs (b :: false :: fs) :=
    MayRun.exists_op rfl rfl (hbody _)
  refine MayRun.exists_append (MayRun.exists_append hstart fun b => ?_)
    fun c => ⟨c, .nip c false fs⟩
  have hcall : MayRun rules [callOf ⟨false, body.scope.names, code⟩ 1 (height + 2) body.scope]
      ([b] ++ false :: fs) (false :: false :: fs) := .callOf rfl .nil
  exact MayRun.exists_condition rfl ⟨false, .op rfl rfl hcall⟩ ⟨b, .nil⟩

theorem lowerAction_mayFail (code : String) (houtcome : outcome ≠ .always)
    (hbody : MayFail rules body.code) :
    MayFail rules (lowerAction outcome code height body s).code := by
  intro fs
  refine .append (.append (.op rfl rfl (hbody _)) ?_) (.nip true false fs)
  exact .ifNotErrorNo houtcome .nil

theorem lowerText_completes (hbody : Completes rules body.code) :
    Completes rules (lowerText outcome body s).code := by
  intro fs
  refine MayRun.exists_append (MayRun.exists_op rfl rfl (hbody _)) fun b => ?_
  exact MayRun.exists_condition rfl ⟨false, .op rfl rfl (.op rfl rfl .nil)⟩ ⟨b, .op rfl rfl .nil⟩

theorem lowerText_mayFail (houtcome : outcome ≠ .always) (hbody : MayFail rules body.code) :
    MayFail rules (lowerText outcome body s).code := by
  intro fs
  refine .append (.op rfl rfl (hbody _)) ?_
  exact .ifNotErrorNo houtcome (.op rfl rfl .nil)

/-- What is looked ahead at leaves a value above the position where it began. -/
theorem lookahead_completes (hbody : Completes rules body.code) (fs : List Bool) :
    ∃ b, MayRun rules ([.op .pushCurrPos [], .op .silentFailsOn []] ++ body.code ++
      [.op .silentFailsOff []]) fs (b :: false :: fs) := by
  refine MayRun.exists_append ?_ fun b => ⟨b, .op rfl rfl .nil⟩
  exact MayRun.exists_op rfl rfl (MayRun.exists_op rfl rfl (hbody _))

theorem lowerSimpleAnd_completes (hbody : Completes rules body.code) :
    Completes rules (lowerSimpleAnd outcome body s).code := by
  intro fs
  refine MayRun.exists_append (lookahead_completes hbody fs) fun b => ?_
  exact MayRun.exists_condition rfl ⟨false, .op rfl rfl (.op rfl rfl (.op rfl rfl .nil))⟩
    ⟨true, .op rfl rfl (.op rfl rfl (.op rfl rfl .nil))⟩

theorem lowerSimpleNot_completes (hbody : Completes rules body.code) :
    Completes rules (lowerSimpleNot outcome body s).code := by
  intro fs
  refine MayRun.exists_append (lookahead_completes hbody fs) fun b => ?_
  exact MayRun.exists_condition rfl ⟨false, .op rfl rfl (.op rfl rfl (.op rfl rfl .nil))⟩
    ⟨true, .op rfl rfl (.op rfl rfl (.op rfl rfl .nil))⟩

theorem lowerOptional_completes (hbody : Completes rules body.code) :
    Completes rules (lowerOptional outcome body s).code := by
  intro fs
  refine MayRun.exists_append (hbody fs) fun b => ?_
  exact MayRun.exists_condition rfl ⟨false, .op rfl rfl (.op rfl rfl .nil)⟩ ⟨b, .nil⟩

theorem lowerZeroOrMore_completes (hbody : MayFail rules body.code) :
    Completes rules (lowerZeroOrMore body s).code :=
  fun _ => ⟨false, .append (.op rfl rfl (hbody _)) (.loopStop rfl (.op rfl rfl .nil))⟩

theorem lowerOneOrMore_mayFail (houtcome : outcome ≠ .always) (hbody : MayFail rules body.code) :
    MayFail rules (lowerOneOrMore outcome body s).code := by
  intro fs
  refine .append (.op rfl rfl (hbody _)) ?_
  exact .ifNotErrorNo houtcome (.op rfl rfl (.op rfl rfl (.op rfl rfl .nil)))

end Operators

section Lists

variable {es : List Expr} {e : Expr}

/-- A repetition that is accepted has a body that consumes. -/
theorem lowered_runs {t : Tag} {op : Operator} {body : Lowered} {height : Nat} {s : Scope}
    (hbody : e.Runs rules body.code) (hop : op.repetition?.isSome → e.consumes rules)
    (ht : (Expr.apply t op e).consumes rules → t.outcome ≠ .always)
    (he : e.consumes rules → e.outcome ≠ .always) :
    (Expr.apply t op e).Runs rules (op.lowered t e height s body).code := by
  cases op with
  | named name =>
      refine ⟨fun fs => (hbody.completes fs).imp fun b hb => lowerNamed_mayRun name hb, ?_⟩
      exact fun hc fs => lowerNamed_mayRun name (hbody.mayFail hc fs)
  | action code =>
      by_cases hcalls : e.callsAction
      · simp only [Operator.lowered, if_pos hcalls]
        exact ⟨hbody.completes, hbody.mayFail⟩
      · simp only [Operator.lowered, if_neg hcalls]
        exact ⟨lowerAction_completes code.text hbody.completes,
          fun hc => lowerAction_mayFail code.text (he hc) (hbody.mayFail hc)⟩
  | labeled label location pick => exact ⟨hbody.completes, hbody.mayFail⟩
  | text =>
      exact ⟨lowerText_completes hbody.completes,
        fun hc => lowerText_mayFail (ht hc) (hbody.mayFail hc)⟩
  | simpleAnd => exact ⟨lowerSimpleAnd_completes hbody.completes, fun hc => by cases hc⟩
  | simpleNot => exact ⟨lowerSimpleNot_completes hbody.completes, fun hc => by cases hc⟩
  | optional => exact ⟨lowerOptional_completes hbody.completes, fun hc => by cases hc⟩
  | zeroOrMore => exact ⟨lowerZeroOrMore_completes (hbody.mayFail (hop rfl)), fun hc => by cases hc⟩
  | oneOrMore =>
      have hfail : MayFail rules (lowerOneOrMore e.outcome body s).code :=
        lowerOneOrMore_mayFail (he (hop rfl)) (hbody.mayFail (hop rfl))
      exact ⟨hfail.completes, fun _ => hfail⟩
  | group => exact ⟨hbody.completes, hbody.mayFail⟩

theorem sequenceEnd_mayRun (action : Option String) {n height : Nat} {s : Scope}
    {vs fs : List Bool} (hvs : vs.length = n + 1) :
    ∃ b, MayRun rules (sequenceEnd action n height s).code (vs ++ fs) (b :: fs) := by
  unfold sequenceEnd
  split
  · cases action with
    | some body => exact ⟨false, .op rfl rfl (.callOf hvs .nil)⟩
    | none =>
        have hwrap : (Effect.wrap n).marks (vs ++ fs) = some (false :: (vs ++ fs).drop n) := by
          rw [Effect.marks, if_pos (by simp only [List.length_append]; omega)]
        obtain ⟨v, hv⟩ : ∃ v, vs.drop n = [v] := List.length_eq_one_iff.mp (by simp [hvs])
        have hdrop : (vs ++ fs).drop n = v :: fs := by
          rw [List.drop_append_of_le_length (by omega), hv]
          rfl
        rw [hdrop] at hwrap
        exact ⟨false, .op rfl hwrap (.nip false v fs)⟩
  · exact MayRun.pluck hvs

theorem unwind_mayRun {n : Nat} {vs fs : List Bool} (hvs : vs.length = n + 1) :
    MayRun rules (unwind n) (vs ++ fs) (true :: fs) := by
  obtain ⟨vs, v, rfl⟩ : ∃ vs' v, vs = vs' ++ [v] :=
    ⟨_, _, (List.dropLast_concat_getLast (List.ne_nil_of_length_eq_add_one hvs)).symm⟩
  rw [List.append_assoc]
  exact .dropTop (by simpa using hvs) (.op rfl rfl (.op rfl rfl .nil))

theorem lowerAlternatives_completes {height : Nat} {s : Scope} (hne : es ≠ [])
    (hes : ∀ e ∈ es, ∀ action height s, e.Runs rules (e.lower action height s).code) :
    Completes rules (Expr.lowerAlternatives es height s).code := by
  intro fs
  induction es with
  | nil => exact absurd rfl hne
  | cons e es ih =>
      obtain ⟨he, hes⟩ := List.forall_mem_cons.mp hes
      have hfirst := (he none height s.inner).completes fs
      rw [Expr.lowerAlternatives]
      dsimp only
      split
      · exact hfirst
      · next hlast =>
          obtain ⟨c, hrest⟩ := ih (by rintro rfl; simp at hlast) hes
          refine MayRun.exists_append hfirst fun failed => ?_
          cases failed with
          | true => exact ⟨c, .orElse hrest⟩
          | false => exact ⟨false, .orElseNot⟩

/-- A choice may fail where all of its alternatives do. -/
theorem lowerAlternatives_mayFail {height : Nat} {s : Scope} (hne : es ≠ [])
    (hes : ∀ e ∈ es, ∀ action height s, MayFail rules (e.lower action height s).code)
    (houtcome : ∀ e ∈ es, e.outcome ≠ .always) :
    MayFail rules (Expr.lowerAlternatives es height s).code := by
  intro fs
  induction es with
  | nil => exact absurd rfl hne
  | cons e es ih =>
      obtain ⟨he, hes⟩ := List.forall_mem_cons.mp hes
      obtain ⟨ho, houtcome⟩ := List.forall_mem_cons.mp houtcome
      have hfirst := he none height s.inner fs
      rw [Expr.lowerAlternatives]
      dsimp only
      split
      · exact hfirst
      · next hlast =>
          have hrest := ih (by rintro rfl; simp at hlast) hes houtcome
          exact hfirst.append (.orElse hrest)

theorem lowerElements_mayRun (action : Option String) {n height : Nat} {s : Scope}
    {vs fs : List Bool} (hvs : vs.length = n + 1)
    (hes : ∀ e ∈ es, ∀ action height s, e.Runs rules (e.lower action height s).code) :
    ∃ b, MayRun rules (Expr.lowerElements action n es height s).code (vs ++ fs) (b :: fs) := by
  induction es generalizing n height s vs with
  | nil => exact sequenceEnd_mayRun action hvs
  | cons e es ih =>
      obtain ⟨he, hes⟩ := List.forall_mem_cons.mp hes
      rw [Expr.lowerElements]
      refine MayRun.exists_append ((he none height s).completes _) fun b => ?_
      have hlen : (b :: vs).length = n + 1 + 1 := congrArg (· + 1) hvs
      exact MayRun.exists_condition rfl (ih hlen hes) ⟨true, unwind_mayRun hlen⟩

/-- A sequence may fail where one of its elements consumes, if it has not failed before. -/
theorem lowerElements_mayFail (action : Option String) {n height : Nat} {s : Scope}
    {vs fs : List Bool} (hvs : vs.length = n + 1)
    (hes : ∀ e ∈ es, ∀ action height s, e.Runs rules (e.lower action height s).code)
    (houtcome : ∀ e ∈ es, e.consumes rules → e.outcome ≠ .always)
    (hc : ∃ e ∈ es, e.consumes rules) :
    MayRun rules (Expr.lowerElements action n es height s).code (vs ++ fs) (true :: fs) := by
  induction es generalizing n height s vs with
  | nil => simp at hc
  | cons e es ih =>
      obtain ⟨he, hes⟩ := List.forall_mem_cons.mp hes
      obtain ⟨ho, houtcome⟩ := List.forall_mem_cons.mp houtcome
      have hlen (b : Bool) : (b :: vs).length = n + 1 + 1 := congrArg (· + 1) hvs
      rw [Expr.lowerElements]
      -- an element in front of the one that consumes may come to any end: if it fails, so does the
      -- sequence
      by_cases hfirst : e.consumes rules
      · refine ((he none height s).mayFail hfirst _).append ?_
        exact .ifNotErrorNo (ho hfirst) (unwind_mayRun (hlen true))
      · have hrest : ∃ e ∈ es, e.consumes rules := by simpa [hfirst] using hc
        obtain ⟨b, hb⟩ := (he none height s).completes (vs ++ fs)
        refine hb.append ?_
        exact .conditionOf rfl (ih (hlen b) hes houtcome hrest) (unwind_mayRun (hlen b))

end Lists

namespace Expr

/-- What is asked of the nodes of an expression and of the rules that it refers to: choices have an
alternative, and what consumes is not said to match always. -/
structure MayStop (rules : List Rule) (e : Expr) : Prop where
  choices : e.ChoicesNonempty
  guarded : e.Guarded rules
  outcome_ne : ∀ n ∈ e.nodes, n.consumes rules → n.outcome ≠ .always

theorem MayStop.of_mem_nodes {e n : Expr} (h : e.MayStop rules) (hn : n ∈ e.nodes) :
    n.MayStop rules :=
  ⟨fun t ht => h.choices t (mem_nodes_trans ht hn), h.guarded.of_mem_nodes hn,
    fun m hm => h.outcome_ne m (mem_nodes_trans hm hn)⟩

theorem MayStop.outcome_self {e : Expr} (h : e.MayStop rules) (hc : e.consumes rules) :
    e.outcome ≠ .always :=
  h.outcome_ne e e.self_mem_nodes hc

/-- The code of an expression may come to an end, and to a failure if the expression consumes. -/
theorem lower_runs {e : Expr} (h : e.MayStop rules)
    (hrules : ∀ name r, findRule? rules name = some r → ruleConsumes rules name →
      r.outcome ≠ some .always) (action : Option String) (height : Nat) (s : Scope) :
    e.Runs rules (e.lower action height s).code := by
  induction e generalizing action height s with
  | choice t es ih =>
      have hmem (e : Expr) (he : e ∈ es) : e.MayStop rules :=
        h.of_mem_nodes (mem_nodes_choice.mpr (.inr ⟨e, he, e.self_mem_nodes⟩))
      obtain ⟨hne, -⟩ := choicesNonempty_choice.mp h.choices
      refine ⟨lowerAlternatives_completes hne fun e he => ih e he (hmem e he), fun hc => ?_⟩
      rw [consumes, consumesGiven, allConsumeGiven_eq_all, List.all_eq_true] at hc
      exact lowerAlternatives_mayFail hne
        (fun e he action height s => (ih e he (hmem e he) action height s).mayFail (hc e he))
        fun e he => (hmem e he).outcome_self (hc e he)
  | sequence t es ih =>
      have hmem (e : Expr) (he : e ∈ es) : e.MayStop rules :=
        h.of_mem_nodes (mem_nodes_sequence.mpr (.inr ⟨e, he, e.self_mem_nodes⟩))
      have hposition : [false].length = 0 + 1 := rfl
      constructor
      · intro fs
        exact MayRun.exists_op rfl rfl
          (lowerElements_mayRun action hposition fun e he => ih e he (hmem e he))
      · intro hc fs
        rw [consumes, consumesGiven, anyConsumesGiven_eq_any, List.any_eq_true] at hc
        exact .op rfl rfl (lowerElements_mayFail action hposition
          (fun e he => ih e he (hmem e he)) (fun e he => (hmem e he).outcome_self) hc)
  | apply t op e ih =>
      have he : e.MayStop rules :=
        h.of_mem_nodes (mem_nodes_apply.mpr (.inr e.self_mem_nodes))
      rw [lower_apply]
      exact lowered_runs (ih he _ _ _) h.guarded.consumes_of_repetition h.outcome_self
        he.outcome_self
  | leaf t l => exact lowerLeaf_runs ⟨h.guarded.refs_defined, hrules⟩ h.outcome_self

end Expr

end PegCompiler
