import PegCompiler.Proofs.Emissions

/-!
# Emitted code

The code of an expression has the instructions that the expression emits, in the same order, each
with the constant that describes the node that it is emitted for. Reports of failures are switched
off and on again on the way: an instruction is as deep in silence as nodes around it ask for.
-/

namespace PegCompiler

/-- Whether an instruction of this kind has a constant, or a rule, as its first operand. -/
def Opcode.takesConstant : Opcode → Bool
  | matchString | matchStringIc | matchCharClass | acceptString | fail | call | rule => true
  | _ => false

/-- How much deeper in silence the machine is behind an instruction of this kind. -/
def Opcode.silence : Opcode → Int
  | silentFailsOn => 1
  | silentFailsOff => -1
  | _ => 0

/-- Whether an instruction with these operands, at `l` levels of silence, is what a node emits. -/
inductive Announces (code : Opcode) (operands : List Operand) (l : Nat) : List Emission → Prop where
  | nothing (hcode : code.takesConstant = false) : Announces code operands l []
  | one {em : Emission} {s : Symbol} {more : List Operand} (hcode : code.takesConstant)
      (hopcode : em.opcode = code) (hoperands : operands = .symbol s :: more)
      (hsymbol : em.symbol? = some s) (hlevel : em.site.silenced = l) :
      Announces code operands l [em]

/-- Code that goes from one level of silence to another and has what is emitted in it, in the same
order. Blocks come back to the level that they begin at. -/
inductive Emits : List Instr → Nat → Nat → List Emission → Prop where
  | nil {l : Nat} : Emits [] l l []
  | op {code : Opcode} {operands : List Operand} {rest : List Instr} {l k m : Nat}
      {here there : List Emission} (hsilence : (k : Int) = l + code.silence)
      (hhere : Announces code operands l here) (hrest : Emits rest k m there) :
      Emits (.op code operands :: rest) l m (here ++ there)
  | branch {test : Opcode} {operands : List Operand} {yes no rest : List Instr} {l m : Nat}
      {here inYes inNo there : List Emission} (hhere : Announces test operands l here)
      (hyes : Emits yes l l inYes) (hno : Emits no l l inNo) (hrest : Emits rest l m there) :
      Emits (.branch test operands yes no :: rest) l m (here ++ inYes ++ inNo ++ there)
  | loop {body rest : List Instr} {l m : Nat} {inBody there : List Emission}
      (hbody : Emits body l l inBody) (hrest : Emits rest l m there) :
      Emits (.loop body :: rest) l m (inBody ++ there)

namespace Emits

variable {a b yes no rest : List Instr} {l k m : Nat} {es fs : List Emission} {em : Emission}
  {code test : Opcode} {operands : List Operand} {outcome : Outcome}

theorem append (ha : Emits a l k es) (hb : Emits b k m fs) : Emits (a ++ b) l m (es ++ fs) := by
  induction ha with
  | nil => exact hb
  | op hsilence hhere _ ih =>
      rw [List.append_assoc]
      exact .op hsilence hhere (ih hb)
  | branch hhere hyes hno _ _ _ ih =>
      rw [List.append_assoc]
      exact .branch hhere hyes hno (ih hb)
  | loop hbody _ _ ih =>
      rw [List.append_assoc]
      exact .loop hbody (ih hb)

/-- Most instructions have no constant and are as silent as what stands around them. -/
theorem plain (hsilence : code.silence = 0) (hcode : code.takesConstant = false)
    (hrest : Emits rest l m es) : Emits (.op code operands :: rest) l m es :=
  .op (by rw [hsilence, Int.add_zero]) (.nothing hcode) hrest

theorem one (hsilence : code.silence = 0) (hhere : Announces code operands l es) :
    Emits [.op code operands] l l es := by
  rw [← List.append_nil es]
  exact .op (by rw [hsilence, Int.add_zero]) hhere .nil

theorem silent (hrest : Emits rest (l + 1) m es) :
    Emits (.op .silentFailsOn [] :: rest) l m es :=
  .op (Int.natCast_succ l) (.nothing rfl) hrest

theorem audible (hrest : Emits rest l m es) :
    Emits (.op .silentFailsOff [] :: rest) (l + 1) m es :=
  .op (by rw [Int.natCast_succ, Opcode.silence]; omega) (.nothing rfl) hrest

/-- Only the branch that is left emits anything. -/
theorem condition (htest : test.takesConstant = false) (hyes : Emits yes l l es)
    (hno : Emits no l l []) :
    Emits (PegCompiler.condition outcome test operands yes no) l l
      (if outcome = .never then [] else es) := by
  cases outcome with
  | always => exact hyes
  | never => exact hno
  | sometimes =>
      have hbranch : Emits [.branch test operands yes no] l l ([] ++ es ++ [] ++ []) :=
        .branch (.nothing htest) hyes hno .nil
      rwa [List.append_nil, List.append_nil, List.nil_append] at hbranch

theorem conditionMute (htest : test.takesConstant = false) (hyes : Emits yes l l [])
    (hno : Emits no l l []) :
    Emits (PegCompiler.condition outcome test operands yes no) l l [] := by
  cases outcome with
  | always => exact hyes
  | never => exact hno
  | sometimes => exact .branch (.nothing htest) hyes hno .nil

end Emits

section Leaves

variable {em : Emission} {l : Nat} (hlevel : em.site.silenced = l)

include hlevel

theorem emits_callOf {f : HostFunction} (hopcode : em.opcode = .call)
    (hsymbol : em.symbol? = some (.function f)) (n height : Nat) (s : Scope) :
    Emits [callOf f n height s] l l [em] :=
  .one rfl (.one rfl hopcode rfl hsymbol hlevel)

theorem emits_fail {e : Expectation} (hopcode : em.opcode = .fail)
    (hsymbol : em.symbol? = some (.expectation e)) :
    Emits [.op .fail [.symbol (.expectation e)]] l l [em] :=
  .one rfl (.one rfl hopcode rfl hsymbol hlevel)

theorem emits_semanticPredicate {code : Code} {s : Scope} (hopcode : em.opcode = .call)
    (hsymbol : em.symbol? = some (.function ⟨true, s.names, code.text⟩)) (outcome : Outcome)
    {onTrue onFalse : Opcode} (htrue : Emits [.op onTrue []] l l [])
    (hfalse : Emits [.op onFalse []] l l []) (height : Nat) :
    Emits (semanticPredicate outcome code onTrue onFalse height s).code l l [em] := by
  refine .plain rfl rfl (.append (emits_callOf hlevel hopcode hsymbol 0 height s) ?_)
  refine .conditionMute rfl ?_ ?_
  · exact .plain rfl rfl htrue
  · exact .plain rfl rfl hfalse

end Leaves

theorem emits_acceptN (l n : Nat) : Emits [.op .acceptN [.count n]] l l [] :=
  .plain rfl rfl .nil

/-- What a test of the input with its two blocks emits. -/
def testEmissions (outcome : Outcome) (tested accepted : List Emission) (failed : Emission) :
    List Emission :=
  match outcome with
  | .always => accepted
  | .sometimes => tested ++ accepted ++ [failed]
  | .never => [failed]

theorem emits_test {test : Opcode} {operands : List Operand} {accept : Instr} {e : Expectation}
    {l : Nat} {tested accepted : List Emission} {failed : Emission}
    (hfail : Emits [.op .fail [.symbol (.expectation e)]] l l [failed])
    (htest : Announces test operands l tested) (haccept : Emits [accept] l l accepted)
    (outcome : Outcome) :
    Emits (condition outcome test operands [accept] (failure outcome e).1) l l
      (testEmissions outcome tested accepted failed) := by
  cases outcome with
  | always => exact haccept
  | sometimes =>
      rw [testEmissions, ← List.append_nil (tested ++ accepted ++ [failed])]
      exact .branch htest haccept hfail .nil
  | never => exact hfail

/-- A leaf emits its instructions at the level of silence around it. -/
theorem emits_lowerLeaf (t : Tag) (leaf : Leaf) (around : List Expr) (height : Nat) (s : Scope)
    {l : Nat} (hl : (Site.mk (.leaf t leaf) around).silenced = l) :
    Emits (lowerLeaf t leaf height s).code l l
      ((Expr.leaf t leaf).emissions around none s.names) := by
  rw [Expr.emissions]
  let emitted (opcode : Opcode) : Emission := ⟨⟨.leaf t leaf, around⟩, opcode, s.names⟩
  have hundefined : Emits [.op .pushUndefined []] l l [] := .plain rfl rfl .nil
  have hfailed : Emits [.op .pushFailed []] l l [] := .plain rfl rfl .nil
  cases leaf with
  | semanticAnd code =>
      exact emits_semanticPredicate hl rfl rfl t.outcome hundefined hfailed height
  | semanticNot code =>
      exact emits_semanticPredicate hl rfl rfl t.outcome hfailed hundefined height
  | ruleRef name => exact .one rfl (.one rfl rfl rfl rfl hl)
  | literal value ignoreCase =>
      have hfail : Emits [.op .fail [.symbol (.expectation (.literal value ignoreCase))]] l l
          [emitted .fail] := emits_fail hl rfl rfl
      rw [lowerLeaf, lowerLiteral]
      by_cases hempty : value.isEmpty
      · rw [if_pos hempty]
        simp only [Leaf.opcodes, hempty, if_true, List.map_nil]
        exact .plain rfl rfl .nil
      rw [if_neg hempty]
      cases ignoreCase with
      | false =>
          have hopcodes : ((Leaf.literal value false).opcodes t.outcome).map emitted =
              testEmissions t.outcome [emitted .matchString] [emitted .acceptString]
                (emitted .fail) := by
            cases ht : t.outcome <;> simp [Leaf.opcodes, hempty, testEmissions]
          have htest : Announces .matchString [.symbol (.literal value)] l
              [emitted .matchString] := .one rfl rfl rfl rfl hl
          have haccept : Emits [.op .acceptString [.symbol (.literal value)]] l l
              [emitted .acceptString] := .one rfl (.one rfl rfl rfl rfl hl)
          rw [hopcodes]
          exact emits_test hfail htest haccept t.outcome
      | true =>
          have hopcodes : ((Leaf.literal value true).opcodes t.outcome).map emitted =
              testEmissions t.outcome [emitted .matchStringIc] [] (emitted .fail) := by
            cases ht : t.outcome <;> simp [Leaf.opcodes, hempty, testEmissions]
          have htest : Announces .matchStringIc [.symbol (.literal (Text.lowercase value))] l
              [emitted .matchStringIc] := .one rfl rfl rfl rfl hl
          rw [hopcodes]
          exact emits_test hfail htest (emits_acceptN l value.length) t.outcome
  | charClass set =>
      have hopcodes : ((Leaf.charClass set).opcodes t.outcome).map emitted =
          testEmissions t.outcome [emitted .matchCharClass] [] (emitted .fail) := by
        cases ht : t.outcome <;> simp [Leaf.opcodes, testEmissions]
      have hfail : Emits [.op .fail [.symbol (.expectation (.charClass set))]] l l
          [emitted .fail] := emits_fail hl rfl rfl
      have htest : Announces .matchCharClass [.symbol (.charClass set)] l
          [emitted .matchCharClass] := .one rfl rfl rfl rfl hl
      rw [hopcodes]
      exact emits_test hfail htest (emits_acceptN l 1) t.outcome
  | any =>
      have hopcodes : (Leaf.any.opcodes t.outcome).map emitted =
          testEmissions t.outcome [] [] (emitted .fail) := by
        cases ht : t.outcome <;> simp [Leaf.opcodes, testEmissions]
      have hfail : Emits [.op .fail [.symbol (.expectation .any)]] l l [emitted .fail] :=
        emits_fail hl rfl rfl
      have htest : Announces .matchAny [] l [] := .nothing rfl
      rw [hopcodes]
      exact emits_test hfail htest (emits_acceptN l 1) t.outcome

section Operators

variable {body : Lowered} {l : Nat} {es : List Emission}

theorem emits_silently (hbody : Emits body.code (l + 1) (l + 1) es) :
    Emits ([.op .silentFailsOn []] ++ body.code ++ [.op .silentFailsOff []]) l l es := by
  rw [← List.append_nil es]
  exact .silent (hbody.append (.audible .nil))

variable (outcome : Outcome) (s : Scope)

theorem emits_lowerSimpleAnd (hbody : Emits body.code (l + 1) (l + 1) es) :
    Emits (lowerSimpleAnd outcome body s).code l l es := by
  rw [← List.append_nil es]
  refine .append (.plain rfl rfl (emits_silently hbody)) (.conditionMute rfl ?_ ?_)
  · exact .plain rfl rfl (.plain rfl rfl (.plain rfl rfl .nil))
  · exact .plain rfl rfl (.plain rfl rfl (.plain rfl rfl .nil))

theorem emits_lowerSimpleNot (hbody : Emits body.code (l + 1) (l + 1) es) :
    Emits (lowerSimpleNot outcome body s).code l l es := by
  rw [← List.append_nil es]
  refine .append (.plain rfl rfl (emits_silently hbody)) (.conditionMute rfl ?_ ?_)
  · exact .plain rfl rfl (.plain rfl rfl (.plain rfl rfl .nil))
  · exact .plain rfl rfl (.plain rfl rfl (.plain rfl rfl .nil))

theorem emits_lowerNamed (em : Emission) (hlevel : em.site.silenced = l)
    (hopcode : em.opcode = .fail) {name : String}
    (hsymbol : em.symbol? = some (.expectation (.rule name)))
    (hbody : Emits body.code (l + 1) (l + 1) es) :
    Emits (lowerNamed outcome name body).code l l
      (es ++ if outcome = .sometimes then [em] else []) := by
  have hreport : Emits [.op .pop [], .op .fail [.symbol (.expectation (.rule name))]] l l [em] :=
    .plain rfl rfl (emits_fail hlevel hopcode hsymbol)
  refine .append (emits_silently hbody) ?_
  split
  · exact .branch (.nothing rfl) hreport .nil .nil
  · exact .nil

theorem emits_lowerAction (em : Emission) (hlevel : em.site.silenced = l)
    (hopcode : em.opcode = .call) {code : String}
    (hsymbol : em.symbol? = some (.function ⟨false, body.scope.names, code⟩))
    (hbody : Emits body.code l l es) (height : Nat) :
    Emits (lowerAction outcome code height body s).code l l
      (es ++ if outcome = .never then [] else [em]) := by
  have hcall : Emits [.op .loadSavedPos [.count 1],
      callOf ⟨false, body.scope.names, code⟩ 1 (height + 2) body.scope] l l [em] :=
    .plain rfl rfl (emits_callOf hlevel hopcode hsymbol 1 (height + 2) body.scope)
  have hnip : Emits [.op .nip []] l l [] := .plain rfl rfl .nil
  rw [← List.append_nil (es ++ _)]
  exact .append (.append (.plain rfl rfl hbody) (.condition rfl hcall .nil)) hnip

variable (hbody : Emits body.code l l es)

include hbody

theorem emits_lowerText : Emits (lowerText outcome body s).code l l es := by
  rw [← List.append_nil es]
  refine .append (.plain rfl rfl hbody) (.conditionMute rfl ?_ ?_)
  · exact .plain rfl rfl (.plain rfl rfl .nil)
  · exact .plain rfl rfl .nil

theorem emits_lowerOptional : Emits (lowerOptional outcome body s).code l l es := by
  rw [← List.append_nil es]
  exact hbody.append (.conditionMute rfl (.plain rfl rfl (.plain rfl rfl .nil)) .nil)

theorem emits_appendLoop : Emits [appendLoop body.code, .op .pop []] l l es := by
  rw [← List.append_nil es]
  exact .loop (.plain rfl rfl hbody) (.plain rfl rfl .nil)

theorem emits_lowerZeroOrMore : Emits (lowerZeroOrMore body s).code l l (es ++ es) :=
  .append (.plain rfl rfl hbody) (emits_appendLoop hbody)

theorem emits_lowerOneOrMore :
    Emits (lowerOneOrMore outcome body s).code l l (es ++ if outcome = .never then [] else es) := by
  refine .append (.plain rfl rfl hbody) (.condition rfl (emits_appendLoop hbody) ?_)
  exact .plain rfl rfl (.plain rfl rfl (.plain rfl rfl .nil))

end Operators

/-- Whether the call that a sequence is to make at level `l` is that of the action at `caller`. -/
inductive Requests (l : Nat) : Option Site → Option String → Prop where
  | none : Requests l none none
  | action {t : Tag} {code : Code} {e : Expr} {around : List Expr}
      (hlevel : (Site.mk (.apply t (.action code) e) around).silenced = l) :
      Requests l (some ⟨.apply t (.action code) e, around⟩) (some code.text)

/-- Whether the code of an expression has what the expression emits. -/
def Expr.EmitsAsTold (e : Expr) : Prop :=
  ∀ around caller action height s l, (Site.mk e around).silenced = l → Requests l caller action →
    Emits (e.lower action height s).code l l (e.emissions around caller s.names)

section Lists

variable {es : List Expr} {around : List Expr} {l : Nat}

theorem emits_orElse {code : List Instr} {inside : List Emission} (hcode : Emits code l l inside) :
    Emits [orElse code] l l inside := by
  have hblock : Emits (.op .pop [] :: code) l l inside := .plain rfl rfl hcode
  have hbranch : Emits [orElse code] l l ([] ++ inside ++ [] ++ []) :=
    .branch (.nothing rfl) hblock .nil .nil
  rwa [List.append_nil, List.append_nil, List.nil_append] at hbranch

theorem emits_lowerAlternatives (hes : ∀ e ∈ es, e.EmitsAsTold)
    (hl : around.countP Expr.silences = l) (height : Nat) (s : Scope) :
    Emits (Expr.lowerAlternatives es height s).code l l
      (Expr.emissionsOfChoice around s.names es) := by
  induction es with
  | nil => exact .nil
  | cons e es ih =>
      obtain ⟨he, hes⟩ := List.forall_mem_cons.mp hes
      have hfirst := he around none none height s.inner l hl .none
      rw [Expr.lowerAlternatives, Expr.emissionsOfChoice]
      dsimp only
      by_cases halways : e.outcome = .always
      · simp only [halways, if_true, decide_true, Bool.true_or, List.append_nil]
        exact hfirst
      cases es with
      | nil =>
          simp only [Expr.emissionsOfChoice, List.isEmpty_nil, Bool.or_true, if_true, ite_self,
            List.append_nil]
          exact hfirst
      | cons e' es =>
          simp only [halways, if_false, decide_false, List.isEmpty_cons, Bool.or_self,
            Bool.false_eq_true]
          exact hfirst.append (emits_orElse (ih hes))

/-- A sequence calls the action around it if nothing is picked. -/
theorem emits_sequenceEnd {caller : Option Site} {action : Option String}
    (hcaller : Requests l caller action) {s : Scope} {picked : Bool}
    (hpicked : s.picked.isEmpty = !picked) (n height : Nat) :
    Emits (sequenceEnd action n height s).code l l
      (Expr.emissionsOfElements around caller picked s.names []) := by
  unfold sequenceEnd Expr.emissionsOfElements
  rw [hpicked]
  cases picked with
  | true => exact .plain rfl rfl .nil
  | false =>
      cases hcaller with
      | none => exact .plain rfl rfl (.plain rfl rfl .nil)
      | action hlevel => exact .plain rfl rfl (emits_callOf hlevel rfl rfl (n + 1) height s)

theorem emits_unwind (n l : Nat) : Emits (unwind n) l l [] := by
  have hdrop : Emits [dropTop n] l l [] := by
    unfold dropTop
    split <;> exact .plain rfl rfl .nil
  exact hdrop.append (.plain rfl rfl (.plain rfl rfl .nil))

theorem emits_lowerElements (hes : ∀ e ∈ es, e.EmitsAsTold)
    (hl : around.countP Expr.silences = l) {caller : Option Site} {action : Option String}
    (hcaller : Requests l caller action) {s : Scope} {picked : Bool}
    (hpicked : s.picked.isEmpty = !picked) (n height : Nat) :
    Emits (Expr.lowerElements action n es height s).code l l
      (Expr.emissionsOfElements around caller picked s.names es) := by
  induction es generalizing s picked n height with
  | nil => exact emits_sequenceEnd hcaller hpicked n height
  | cons e es ih =>
      obtain ⟨he, hes⟩ := List.forall_mem_cons.mp hes
      have hfirst := he around none none height s l hl .none
      have hpicked' : (e.lower none height s).scope.picked.isEmpty = !(picked || e.picks) := by
        rw [e.isEmpty_picked_lower, hpicked, Bool.not_or]
      have hrest := ih hes hpicked' (n + 1) (height + 1)
      rw [e.names_lower] at hrest
      exact hfirst.append (.condition rfl hrest (emits_unwind (n + 1) l))

end Lists

/-- A node that does not silence failures has as much silence inside as around it. -/
theorem silenced_inside {n : Expr} {around : List Expr} (hn : n.silences = false) :
    (n :: around).countP Expr.silences = around.countP Expr.silences :=
  List.countP_cons_of_neg (by simp [hn])

theorem silenced_inside_silencing {n : Expr} {around : List Expr} (hn : n.silences) :
    (n :: around).countP Expr.silences = around.countP Expr.silences + 1 :=
  List.countP_cons_of_pos hn

/-- What is made of the code of an operand that emits what it is to emit. -/
theorem Operator.emits_lowered (op : Operator) {t : Tag} {e : Expr} (he : e.EmitsAsTold)
    {around : List Expr} (height : Nat) (s : Scope) {l : Nat}
    (hl : around.countP Expr.silences = l) :
    Emits (op.lowered t e height s
        (e.lower (op.called? e) (op.heightInside e height) (op.scopeInside s))).code l l
      (op.emissions t e ⟨.apply t op e, around⟩ s.names
        (e.emissions (.apply t op e :: around) (op.caller? e ⟨.apply t op e, around⟩)
          s.names)) := by
  have hsilent (h : (Expr.apply t op e).silences) (height : Nat) (s : Scope) :
      Emits (e.lower none height s).code (l + 1) (l + 1)
        (e.emissions (.apply t op e :: around) none s.names) :=
    he _ none none height s (l + 1) ((silenced_inside_silencing h).trans (by rw [hl])) .none
  have haudible (h : (Expr.apply t op e).silences = false) {caller : Option Site}
      {action : Option String} (hcaller : Requests l caller action) (height : Nat) (s : Scope) :
      Emits (e.lower action height s).code l l
        (e.emissions (.apply t op e :: around) caller s.names) :=
    he _ caller action height s l ((silenced_inside h).trans hl) hcaller
  cases op with
  | named name =>
      let report : Emission := ⟨⟨.apply t (.named name) e, around⟩, .fail, s.names⟩
      exact emits_lowerNamed t.outcome report hl rfl rfl (hsilent rfl height s)
  | action code =>
      simp only [lowered, emissions, called?, caller?, heightInside, scopeInside]
      by_cases hcalls : e.callsAction
      · simp only [hcalls, if_true]
        exact haudible rfl (.action hl) height s.inner
      · simp only [hcalls, if_false, Bool.false_eq_true]
        let call : Emission :=
          ⟨⟨.apply t (.action code) e, around⟩, .call, e.labelsBehind s.names⟩
        have hsymbol : call.symbol? = some (.function
            ⟨false, (e.lower none (height + 1) s.inner).scope.names, code.text⟩) := by
          rw [e.names_lower]
          rfl
        exact emits_lowerAction e.outcome s call hl rfl hsymbol
          (haudible rfl .none (height + 1) s.inner) height
  | labeled label location pick => exact haudible rfl .none height s.inner
  | text => exact emits_lowerText t.outcome s (haudible rfl .none (height + 1) s.inner)
  | simpleAnd => exact emits_lowerSimpleAnd e.outcome s (hsilent rfl (height + 1) s.inner)
  | simpleNot => exact emits_lowerSimpleNot e.outcome s (hsilent rfl (height + 1) s.inner)
  | optional => exact emits_lowerOptional e.outcome s (haudible rfl .none height s.inner)
  | zeroOrMore => exact emits_lowerZeroOrMore s (haudible rfl .none (height + 1) s.inner)
  | oneOrMore => exact emits_lowerOneOrMore e.outcome s (haudible rfl .none (height + 1) s.inner)
  | group => exact haudible rfl .none height s.inner

theorem Expr.emitsAsTold (e : Expr) : e.EmitsAsTold := by
  induction e with
  | choice t es ih =>
      intro around caller action height s l hl _
      have hinside : (choice t es :: around).countP silences = l := hl
      exact emits_lowerAlternatives ih hinside height s
  | sequence t es ih =>
      intro around caller action height s l hl hcaller
      have hinside : (sequence t es :: around).countP silences = l := hl
      have hpicked : s.inner.picked.isEmpty = !false := rfl
      exact .plain rfl rfl (emits_lowerElements ih hinside hcaller hpicked 0 (height + 1))
  | apply t op e ih =>
      intro around caller action height s l hl _
      rw [lower_apply, emissions]
      exact op.emits_lowered ih height s hl
  | leaf t l =>
      intro around caller action height s k hl _
      exact emits_lowerLeaf t l around height s hl

/-- The code of a rule has what its body emits, and is as silent at its end as it was. -/
theorem Rule.emits (r : Rule) : Emits r.lower.code 0 0 r.emissions :=
  r.body.emitsAsTold [] none none 0 .empty 0 rfl .none

end PegCompiler
