import PegCompiler.Proofs.Bindings
import PegCompiler.Proofs.Simulation

/-!
# Code of leaves and operators

The code of an expression `Computes` an answer if it leaves the value of that answer and makes its
calls, wherever the labels in scope are located in their slots. Leaves do so by themselves, and
operators when their bodies do.
-/

namespace PegCompiler

open Instr

variable {α : Type} {σ : Setting} {h : Host α} {rules : List Rule}

/-- Whether the state is as an evaluation at `p` with that answer leaves it on top of `base`. -/
def Delivers (base : List (Value α)) (p : Nat) (a : Answer α) (t : Recorded α) : Prop :=
  t.calls = a.calls ∧
    match a.result with
    | some (q, v) => v ≠ .failed ∧ t.stack = v :: base ∧ t.position = q
    | none => t.stack = .failed :: base ∧ t.position = p

theorem Delivers.leaves {base : List (Value α)} {p : Nat} {a : Answer α} {t : Recorded α}
    (ht : Delivers base p a t) : Leaves base p a.position? t.toState := by
  obtain ⟨_ | ⟨q, v⟩, calls⟩ := a
  · exact ht.2
  · obtain ⟨-, hv, hstack, hq⟩ := ht
    exact ⟨⟨v, hv, hstack⟩, hq⟩

/-- Whether code on top of `height` slots does what an evaluation at `p` with that answer does, when
the labels in scope are those of `env`. -/
def Computes (σ : Setting) (h : Host α) (rules : List Rule) (code : List Instr) (height : Nat)
    (labels : List (String × Nat)) (env : Env α) (p : Nat) (calls : List (Call α))
    (a : Answer α) : Prop :=
  ∀ s : Recorded α, s.position = p → s.calls = calls → Located height s.stack labels env →
    height + listSize code ≤ UInt32.size → Achieves σ h rules code s (Delivers s.stack p a)

/-! ## Leaves -/

section Leaves

variable {s : Recorded α} {p : Nat} {calls : List (Call α)}

theorem Setting.slice_add (σ : Setting) (p n : Nat) :
    σ.slice p (p + n) = String.ofList ((σ.input.drop p).take n) := by
  rw [slice, List.drop_take, Nat.add_sub_cancel_left]

theorem Setting.slice_of_isPrefixOf {value : String}
    (hvalue : value.toList.isPrefixOf (σ.input.drop p)) :
    σ.slice p (p + value.length) = value := by
  obtain ⟨rest, hrest⟩ := List.isPrefixOf_iff_prefix.mp hvalue
  rw [Setting.slice_add, ← hrest, ← String.length_toList, List.take_left, String.ofList_toList]

theorem Achieves.fail {e : Expectation} (hp : s.position = p) (hcalls : s.calls = calls) :
    Achieves σ h rules [.op .fail [.symbol (.expectation e)]] s
      (Delivers s.stack p ⟨none, calls⟩) :=
  .op rfl rfl (.nil ⟨hcalls, rfl, hp⟩)

theorem Achieves.acceptN {n q : Nat} (hp : s.position = p) (hcalls : s.calls = calls)
    (hq : p + n = q) :
    Achieves σ h rules [.op .acceptN [.count n]] s
      (Delivers s.stack p ⟨some (q, .text (σ.slice p q)), calls⟩) := by
  refine .op rfl rfl (.nil ⟨hcalls, by simp, ?_, by rw [← hq, ← hp]⟩)
  rw [← hq, Setting.slice_add, ← hp]
  rfl

/-- What a test of the input is for: on success it accepts what was matched. -/
theorem Achieves.test {test : Opcode} {operands : List Operand} {accept : List Instr}
    {e : Expectation} {condition : Condition} {matched : Option Nat} (hp : s.position = p)
    (hcalls : s.calls = calls) (hcondition : Condition.ofTest? test operands = some condition)
    (hholds : condition.holds? σ s.toState = some matched.isSome)
    (haccept : ∀ q, matched = some q → Achieves σ h rules accept s
      (Delivers s.stack p ⟨some (q, .text (σ.slice p q)), calls⟩)) :
    Achieves σ h rules [.branch test operands accept [.op .fail [.symbol (.expectation e)]]] s
      (Delivers s.stack p ⟨matched.map fun q => (q, .text (σ.slice p q)), calls⟩) := by
  refine .branch hcondition hholds ?_
  cases matched with
  | some q => exact haccept q rfl
  | none => exact .fail hp hcalls

theorem computes_any (hp : s.position = p) (hcalls : s.calls = calls) (env : Env α)
    (scope : Scope) :
    Achieves σ h rules (lowerAny .sometimes scope).code s
      (Delivers s.stack p (Leaf.any.answer σ h env p calls)) := by
  refine .test hp hcalls rfl ?_ fun q hq => ?_
  · simp [Condition.holds?, Leaf.match?, isSome_ite_some, hp]
  · simp only [Leaf.match?, Option.ite_none_right_eq_some, Option.some.injEq] at hq
    exact .acceptN hp hcalls hq.2

theorem computes_charClass (hp : s.position = p) (hcalls : s.calls = calls) (env : Env α)
    (set : CharClass) (scope : Scope) :
    Achieves σ h rules (lowerCharClass (Leaf.charClass set).outcome set scope).code s
      (Delivers s.stack p ((Leaf.charClass set).answer σ h env p calls)) := by
  by_cases hparts : set.parts.isEmpty
  · simp only [Leaf.outcome, hparts, if_true, Leaf.answer, Leaf.match?]
    exact .fail hp hcalls
  · simp only [Leaf.outcome, hparts, Leaf.answer, Leaf.match?, Bool.not_false, Bool.true_and]
    refine .test hp hcalls rfl ?_ fun q hq => ?_
    · simp [Condition.holds?, isSome_ite_some, hp]
    · simp only [Option.ite_none_right_eq_some, Option.some.injEq] at hq
      exact .acceptN hp hcalls hq.2

theorem computes_literal (hp : s.position = p) (hcalls : s.calls = calls) (env : Env α)
    (value : String) (ignoreCase : Bool) (hstable : ignoreCase → Text.CaseStable value)
    (scope : Scope) :
    Achieves σ h rules
      (lowerLiteral (Leaf.literal value ignoreCase).outcome value ignoreCase scope).code s
      (Delivers s.stack p ((Leaf.literal value ignoreCase).answer σ h env p calls)) := by
  by_cases hempty : value.isEmpty
  · obtain rfl := String.isEmpty_iff.mp hempty
    have hmatch : (Leaf.literal "" ignoreCase).match? σ p = some p := by
      cases ignoreCase <;> simp [Leaf.match?]
    have hslice : σ.slice p p = "" := by simp [Setting.slice]
    simp only [Leaf.answer, hmatch, Option.map_some, hslice]
    exact .op rfl rfl (.nil ⟨hcalls, by simp, rfl, hp⟩)
  · simp only [Leaf.outcome, lowerLiteral, hempty]
    cases ignoreCase with
    | false =>
        refine .test hp hcalls rfl ?_ fun q hq => ?_
        · rw [Condition.holds?, Leaf.match?, isSome_ite_some, hp, Bool.decide_eq_true]
          rfl
        · simp only [Leaf.match?, Option.ite_none_right_eq_some, Option.some.injEq] at hq
          obtain ⟨hfront, rfl⟩ := hq
          refine .op rfl rfl (.nil ⟨hcalls, by simp, ?_, by rw [← hp]; rfl⟩)
          rw [Setting.slice_of_isPrefixOf hfront]
          rfl
    | true =>
        refine .test hp hcalls rfl ?_ fun q hq => ?_
        · simp [Condition.holds?, Leaf.match?, (hstable rfl).foldedLength?_eq, isSome_ite_some, hp]
        · simp only [Leaf.match?, (hstable rfl).foldedLength?_eq] at hq
          split at hq
          · exact .acceptN hp hcalls (Option.some.inj hq)
          · cases hq

end Leaves

/-! ## Calls -/

section Calls

variable {code : String} {n height : Nat} {scope : Scope} {env : Env α} {ws vs : List (Value α)}
  {rest : List Instr} {s : Recorded α} {P : Recorded α → Prop}

/-- A predicate gets the labels in scope with their values. -/
theorem Achieves.callPredicate (hlabels : Located height s.stack scope.labels env)
    (hheight : height ≤ UInt32.size)
    (hrest : Achieves σ h rules rest
      { s with
        stack := .bool ((env.call true code s.savedPosition s.position).holds h) :: s.stack
        calls := s.calls ++ [env.call true code s.savedPosition s.position] } P) :
    Achieves σ h rules (callOf ⟨true, scope.names, code⟩ 0 height scope :: rest) s P := by
  have hnames : scope.names = env.map (·.1) := hlabels.names_eq
  have hnil : s.stack = [] ++ s.stack := rfl
  rw [hnames]
  exact .call hnil rfl (hlabels.allHold.map_written hheight) hrest

/-- An action gets the labels in scope with their values. -/
theorem Achieves.callAction (hlabels : Located height s.stack scope.labels env)
    (hheight : height ≤ UInt32.size) (hs : s.stack = ws ++ vs) (hn : ws.length = n)
    (hrest : Achieves σ h rules rest
      { s with
        stack := (env.call false code s.savedPosition s.position).value h :: vs
        calls := s.calls ++ [env.call false code s.savedPosition s.position] } P) :
    Achieves σ h rules (callOf ⟨false, scope.names, code⟩ n height scope :: rest) s P := by
  have hnames : scope.names = env.map (·.1) := hlabels.names_eq
  rw [hnames]
  exact .call hs hn (hlabels.allHold.map_written hheight) hrest

end Calls

section Predicates

variable {p height : Nat} {calls : List (Call α)} {env : Env α} {scope : Scope}

theorem computes_predicate {code : Code} {onTrue onFalse : Opcode} {ifTrue ifFalse : Plain}
    (result : Bool → Option (Nat × Value α))
    (htrue : Effect.ofOp? onTrue [] = some (.push ifTrue))
    (hfalse : Effect.ofOp? onFalse [] = some (.push ifFalse))
    (hresult : ∀ b base calls' (t : Recorded α), t.calls = calls' →
      t.stack = (if b then ifTrue else ifFalse).value p :: base → t.position = p →
      Delivers base p ⟨result b, calls'⟩ t) :
    Computes σ h rules (semanticPredicate .sometimes code onTrue onFalse height scope).code height
      scope.labels env p calls
      ⟨result ((env.call true code.text p p).holds h), calls ++ [env.call true code.text p p]⟩ := by
  rintro s rfl rfl hlabels hroom
  refine .op rfl rfl (.callPredicate hlabels (by omega) (.branch rfl rfl ?_))
  dsimp only [Value.isTrue]
  cases (env.call true code.text s.position s.position).holds h with
  | true => exact .pop rfl (.push htrue (.nil (hresult true _ _ _ rfl rfl rfl)))
  | false => exact .pop rfl (.push hfalse (.nil (hresult false _ _ _ rfl rfl rfl)))

theorem computes_leaf {t : Tag} {l : Leaf} (hl : ∀ name, l ≠ .ruleRef name)
    (ht : t.outcome = l.outcome)
    (hstable : ∀ value, l = .literal value true → Text.CaseStable value) (height : Nat)
    (scope : Scope) (env : Env α) (p : Nat) (calls : List (Call α)) :
    Computes σ h rules (lowerLeaf t l height scope).code height scope.labels env p calls
      (l.answer σ h env p calls) := by
  cases l with
  | semanticAnd code =>
      simp only [lowerLeaf, ht]
      refine computes_predicate (fun b => if b then some (p, .undefined) else none) rfl rfl
        fun b base calls' t hcalls hstack hp => ?_
      cases b with
      | true => exact ⟨hcalls, by simp, hstack, hp⟩
      | false => exact ⟨hcalls, hstack, hp⟩
  | semanticNot code =>
      simp only [lowerLeaf, ht]
      refine computes_predicate (fun b => if b then none else some (p, .undefined)) rfl rfl
        fun b base calls' t hcalls hstack hp => ?_
      cases b with
      | true => exact ⟨hcalls, hstack, hp⟩
      | false => exact ⟨hcalls, by simp, hstack, hp⟩
  | ruleRef name => exact absurd rfl (hl name)
  | literal value ignoreCase =>
      simp only [lowerLeaf, ht]
      intro s hp hcalls _ _
      refine computes_literal hp hcalls env value ignoreCase (fun hi => hstable value ?_) scope
      rw [hi]
  | charClass set =>
      simp only [lowerLeaf, ht]
      exact fun s hp hcalls _ _ => computes_charClass hp hcalls env set scope
  | any =>
      simp only [lowerLeaf, ht]
      exact fun s hp hcalls _ _ => computes_any hp hcalls env scope

end Predicates

/-! ## Operators -/

section Operators

variable {s t : Recorded α} {base : List (Value α)} {p height : Nat} {a : Answer α}
  {outcome : Outcome} {P : Recorded α → Prop} {env : Env α} {calls : List (Call α)}
  {scope : Scope} {body : Lowered}

/-- A state that delivers an answer has the failure mark or another value on top. -/
theorem Delivers.cases {Q : Prop} (ht : Delivers base p a t)
    (hsome : ∀ q v calls', a = ⟨some (q, v), calls'⟩ → t.calls = calls' → v ≠ .failed →
      t.stack = v :: base → t.position = q → Q)
    (hnone : ∀ calls', a = ⟨none, calls'⟩ → t.calls = calls' → t.stack = .failed :: base →
      t.position = p → Q) : Q := by
  obtain ⟨_ | ⟨q, v⟩, calls'⟩ := a
  · exact hnone calls' rfl ht.1 ht.2.1 ht.2.2
  · exact hsome q v calls' rfl ht.1 ht.2.1 ht.2.2.1 ht.2.2.2

theorem Achieves.ifNotError {yes no : List Instr} (ht : Delivers base p a t)
    (hadmits : outcome.Admits a.position?)
    (hyes : ∀ q v calls', a = ⟨some (q, v), calls'⟩ → t.calls = calls' → v ≠ .failed →
      t.stack = v :: base → t.position = q → Achieves σ h rules yes t P)
    (hno : ∀ calls', a = ⟨none, calls'⟩ → t.calls = calls' → t.stack = .failed :: base →
      t.position = p → Achieves σ h rules no t P) :
    Achieves σ h rules (PegCompiler.condition outcome .ifNotError [] yes no) t P := by
  refine .condition rfl (holds?_isNotFailed ht.leaves) ?_ ?_ ?_
  · rintro rfl
    exact hadmits
  · rintro rfl
    rw [hadmits]
    rfl
  · refine ht.cases ?_ ?_
    · rintro q v calls' rfl
      exact hyes q v calls' rfl
    · rintro calls' rfl
      exact hno calls' rfl

theorem Achieves.ifError {yes no : List Instr} (ht : Delivers base p a t)
    (hadmits : outcome.Admits a.position?)
    (hyes : ∀ calls', a = ⟨none, calls'⟩ → t.calls = calls' → t.stack = .failed :: base →
      t.position = p → Achieves σ h rules yes t P)
    (hno : ∀ q v calls', a = ⟨some (q, v), calls'⟩ → t.calls = calls' → v ≠ .failed →
      t.stack = v :: base → t.position = q → Achieves σ h rules no t P) :
    Achieves σ h rules (PegCompiler.condition outcome.invert .ifError [] yes no) t P := by
  refine .condition rfl (holds?_isFailed ht.leaves) ?_ ?_ ?_
  · intro ho
    obtain rfl : outcome = .never := by cases outcome <;> first | rfl | cases ho
    rw [hadmits]
    rfl
  · intro ho
    obtain rfl : outcome = .always := by cases outcome <;> first | rfl | cases ho
    rw [Option.isNone_eq_false_iff]
    exact hadmits
  · refine ht.cases ?_ ?_
    · rintro q v calls' rfl
      exact hno q v calls' rfl
    · rintro calls' rfl
      exact hyes calls' rfl

/-- To remove what lies below the value changes nothing else. -/
theorem Achieves.nip_delivers {w : Value α} (ht : Delivers (w :: base) p a t) :
    Achieves σ h rules [.op .nip []] t (Delivers base p a) := by
  refine ht.cases ?_ ?_
  · rintro q v calls' rfl hcalls hv hstack hq
    exact .nip hstack (.nil ⟨hcalls, hv, rfl, hq⟩)
  · rintro calls' rfl hcalls hstack hp
    exact .nip hstack (.nil ⟨hcalls, rfl, hp⟩)

/-- The body of an operator runs on top of one more value. -/
theorem Computes.above {code : List Instr} {labels : List (String × Nat)} {size : Nat}
    (hbody : Computes σ h rules code (height + 1) labels env p calls a)
    (hp : s.position = p) (hcalls : s.calls = calls) (hlabels : Located height s.stack labels env)
    (hroom : height + size ≤ UInt32.size) (hsize : 1 + listSize code ≤ size) (v : Value α)
    (silentFails : Int) :
    Achieves σ h rules code { s with stack := v :: s.stack, silentFails }
      (Delivers (v :: s.stack) p a) :=
  hbody { s with stack := v :: s.stack, silentFails } hp hcalls (hlabels.push v) (by omega)

theorem computes_named {name : String}
    (hbody : Computes σ h rules body.code height scope.labels env p calls a) :
    Computes σ h rules (lowerNamed outcome name body).code height scope.labels env p calls a := by
  intro s hp hcalls hlabels hroom
  have hsize : listSize body.code ≤ listSize (lowerNamed outcome name body).code := by
    simp only [lowerNamed, listSize_append, listSize_op]
    omega
  have hsilent : Achieves σ h rules ([.op .silentFailsOn []] ++ body.code ++
      [.op .silentFailsOff []]) s (Delivers s.stack p a) := by
    have hbody := hbody { s with silentFails := s.silentFails + 1 } hp hcalls hlabels (by omega)
    exact .silentFailsOn (hbody.append fun t ht => .silentFailsOff (.nil ht))
  refine hsilent.append fun t ht => ?_
  split
  · refine .branch rfl (holds?_isFailed ht.leaves) (ht.cases ?_ ?_)
    · rintro q v calls' rfl - - - -
      exact .nil ht
    · rintro calls' rfl hcalls' hstack hp'
      exact .pop hstack (.fail hp' hcalls')
  · exact .nil ht

theorem computes_action {code : String}
    (hhost : ∀ f args saved p, h.action f args saved p ≠ .failed) {e : Expr}
    (hscope : body.scope = scope.mark e.label? e.isPicked (height + 1))
    (hadmits : outcome.Admits a.position?)
    (hbody : Computes σ h rules body.code (height + 1) scope.labels env p calls a)
    (location : Location) (outer : Scope) :
    Computes σ h rules (lowerAction outcome code height body outer).code height scope.labels env p
      calls ((Operator.action ⟨code, location⟩).answer σ h env p e a) := by
  intro s hp hcalls hlabels hroom
  have hsize : 2 + listSize body.code ≤
      listSize (lowerAction outcome code height body outer).code := by
    simp only [lowerAction, listSize_append, listSize_op, listSize_nil]
    omega
  simp only [lowerAction, List.append_assoc, List.cons_append, List.nil_append]
  refine .push rfl ((hbody.above hp hcalls hlabels hroom (by omega) _ _).append fun t ht => ?_)
  have hcall : Achieves σ h rules (PegCompiler.condition outcome .ifNotError []
      [.op .loadSavedPos [.count 1], callOf ⟨false, body.scope.names, code⟩ 1 (height + 2)
        body.scope] []) t (Delivers (.position s.position :: s.stack) p
          ((Operator.action ⟨code, location⟩).answer σ h env p e a)) := by
    refine .ifNotError ht hadmits ?_ ?_
    · rintro q v calls' rfl hcalls' - hstack hq
      have hsplit : t.stack = [v] ++ (.position s.position :: s.stack) := hstack
      have hsaved : t.stack[1]? = some (.position s.position) := by rw [hsplit]; rfl
      have hinside : Located (height + 2) t.stack body.scope.labels (env.behind e v) := by
        rw [hstack, hscope]
        exact (hlabels.push _).mark e v
      refine .loadSavedPos hsaved (.callAction hinside (by omega) hsplit rfl (.nil ?_))
      subst hp hq hcalls'
      exact ⟨rfl, hhost _ _ _ _, rfl, rfl⟩
    · rintro calls' rfl _ _ _
      exact .nil ht
  exact hcall.append fun u hu => .nip_delivers hu

theorem computes_text (hadmits : outcome.Admits a.position?)
    (hbody : Computes σ h rules body.code (height + 1) scope.labels env p calls a) (e : Expr) :
    Computes σ h rules (lowerText outcome body scope).code height scope.labels env p calls
      (Operator.text.answer σ h env p e a) := by
  intro s hp hcalls hlabels hroom
  have hsize := (lowerText_wraps outcome body scope).size
  simp only [lowerText, List.cons_append, List.nil_append]
  refine .push rfl ((hbody.above hp hcalls hlabels hroom hsize _ _).append fun t ht => ?_)
  refine .ifNotError ht hadmits ?_ ?_
  · rintro q v calls' rfl hcalls' - hstack hq
    subst hp hq
    exact .pop hstack (.text rfl (.nil ⟨hcalls', by simp, rfl, rfl⟩))
  · rintro calls' rfl _ _ _
    exact .nip_delivers ht

theorem computes_simpleAnd (hadmits : outcome.Admits a.position?)
    (hbody : Computes σ h rules body.code (height + 1) scope.labels env p calls a) (e : Expr) :
    Computes σ h rules (lowerSimpleAnd outcome body scope).code height scope.labels env p calls
      (Operator.simpleAnd.answer σ h env p e a) := by
  intro s hp hcalls hlabels hroom
  have hsize := (lowerSimpleAnd_wraps outcome body scope).size
  simp only [lowerSimpleAnd, List.append_assoc, List.cons_append, List.nil_append]
  refine .push rfl (.silentFailsOn ((hbody.above hp hcalls hlabels hroom hsize _ _).append
    fun t ht => .silentFailsOff (.ifNotError (by exact ht) hadmits ?_ ?_)))
  · rintro q v calls' rfl hcalls' - hstack -
    refine .pop hstack (.popCurrPos rfl (.push rfl (.nil ?_)))
    exact ⟨hcalls', by simp, rfl, hp⟩
  · rintro calls' rfl hcalls' hstack hp'
    exact .pop hstack (.pop rfl (.push rfl (.nil ⟨hcalls', rfl, hp'⟩)))

theorem computes_simpleNot (hadmits : outcome.Admits a.position?)
    (hbody : Computes σ h rules body.code (height + 1) scope.labels env p calls a) (e : Expr) :
    Computes σ h rules (lowerSimpleNot outcome body scope).code height scope.labels env p calls
      (Operator.simpleNot.answer σ h env p e a) := by
  intro s hp hcalls hlabels hroom
  have hsize := (lowerSimpleNot_wraps outcome body scope).size
  simp only [lowerSimpleNot, List.append_assoc, List.cons_append, List.nil_append]
  refine .push rfl (.silentFailsOn ((hbody.above hp hcalls hlabels hroom hsize _ _).append
    fun t ht => .silentFailsOff (.ifError (by exact ht) hadmits ?_ ?_)))
  · rintro calls' rfl hcalls' hstack hp'
    refine .pop hstack (.pop rfl (.push rfl (.nil ?_)))
    exact ⟨hcalls', by simp, rfl, hp'⟩
  · rintro q v calls' rfl hcalls' - hstack -
    exact .pop hstack (.popCurrPos rfl (.push rfl (.nil ⟨hcalls', rfl, hp⟩)))

theorem computes_optional (hadmits : outcome.Admits a.position?)
    (hbody : Computes σ h rules body.code height scope.labels env p calls a) (e : Expr) :
    Computes σ h rules (lowerOptional outcome body scope).code height scope.labels env p calls
      (Operator.optional.answer σ h env p e a) := by
  intro s hp hcalls hlabels hroom
  have hsize := (lowerOptional_wraps outcome body scope).size
  refine (hbody s hp hcalls hlabels (by omega)).append fun t ht => .ifError ht hadmits ?_ ?_
  · rintro calls' rfl hcalls' hstack hp'
    exact .pop hstack (.push rfl (.nil ⟨hcalls', by simp, rfl, hp'⟩))
  · rintro q v calls' rfl _ _ _ _
    exact .nil ht

end Operators

end PegCompiler
