import PegCompiler.Proofs.Preservation
import PegCompiler.Proofs.Valuation

/-!
# Generated code keeps values

Inference and generation together keep the values of a grammar and what its host functions get, as
long as the literals whose case is ignored have a stable one. As for matching, a single literal
without is enough to go wrong.
-/

namespace PegCompiler

open Inference

/-! ## Arranged grammars -/

/-- Whether the checks accept a grammar that is ready for inference, and its labels belong to one
sequence each: named expressions are whole bodies of rules, and no sequence stands for itself as an
element of another. -/
structure Grammar.Arranged (o : Options) (g : Grammar) : Prop where
  accepted : ∀ pass ∈ Passes.standard.check, pass.Accepts o g
  choices : ∀ r ∈ g.rules, r.body.ChoicesNonempty
  unsettled : ∀ r ∈ g.rules, r.outcome = none
  named : ∀ n ∈ g.nodes, ∀ e ∈ n.children, e.isNamed = false
  nested : ∀ n ∈ g.nodes, n.isSequence → ∀ e ∈ n.children, e.isSequence = false

theorem Pass.accepts_reportIncorrectPlucking {o : Options} {g : Grammar} :
    reportIncorrectPlucking.Accepts o g ↔ g.pluckInAction? = none :=
  check_eq_ok_iff

namespace Expr

theorem pluckInActionList?_eq_none_iff {action : Option Location} {es : List Expr} :
    pluckInActionList? action es = none ↔ ∀ e ∈ es, pluckInAction? action e = none := by
  induction es with
  | nil => simp [pluckInActionList?]
  | cons e es ih =>
      rw [pluckInActionList?, List.forall_mem_cons]
      cases pluckInAction? action e with
      | some defect => simp
      | none => simpa using ih

theorem exists_pluckInAction?_body {t : Tag} {op : Operator} {e : Expr}
    {action : Option Location} (h : (apply t op e).pluckInAction? action = none) :
    ∃ action, e.pluckInAction? action = none := by
  cases op with
  | labeled label location pick =>
      cases pick with
      | false => exact ⟨none, h⟩
      | true =>
          cases action with
          | none => exact ⟨none, h⟩
          | some action => cases h
  | action code => exact ⟨some code.location, h⟩
  | _ => exact ⟨action, h⟩

/-- What is accepted as a whole is accepted in all its parts, each below some action or none. -/
theorem exists_pluckInAction?_eq_none {e n : Expr} {action : Option Location}
    (he : e.pluckInAction? action = none) (hn : n ∈ e.nodes) :
    ∃ action, n.pluckInAction? action = none := by
  induction e generalizing action with
  | choice t es ih =>
      obtain rfl | ⟨e, hmem, hn⟩ := mem_nodes_choice.mp hn
      · exact ⟨action, he⟩
      · exact ih e hmem (pluckInActionList?_eq_none_iff.mp he e hmem) hn
  | sequence t es ih =>
      obtain rfl | ⟨e, hmem, hn⟩ := mem_nodes_sequence.mp hn
      · exact ⟨action, he⟩
      · exact ih e hmem (pluckInActionList?_eq_none_iff.mp he e hmem) hn
  | apply t op e ih =>
      obtain rfl | hn := mem_nodes_apply.mp hn
      · exact ⟨action, he⟩
      · obtain ⟨action, he⟩ := exists_pluckInAction?_body he
        exact ih he hn
  | leaf t l =>
      obtain rfl := mem_nodes_leaf.mp hn
      exact ⟨action, he⟩

theorem isPicked_eq_false {e : Expr} {action : Location}
    (h : e.pluckInAction? (some action) = none) : e.isPicked = false := by
  cases e with
  | apply t op e =>
      cases op with
      | labeled label location pick =>
          cases pick with
          | false => rfl
          | true => cases h
      | _ => rfl
  | _ => rfl

end Expr

theorem Grammar.Arranged.orderly {o : Options} {g : Grammar} (hg : g.Arranged o) {r : Rule}
    (hr : r ∈ g.rules) {n : Expr} (hn : n ∈ r.body.nodes) : n.Orderly := by
  have hmem : n ∈ g.nodes := List.mem_flatMap.mpr ⟨r, hr, hn⟩
  refine ⟨hg.named n hmem, ?_, ?_⟩
  · rintro t es rfl
    exact hg.nested _ hmem rfl
  · rintro t code t' es rfl
    have hplucked : g.pluckInAction? = none := Pass.accepts_reportIncorrectPlucking.mp
      (hg.accepted _ (by simp [Passes.standard]))
    obtain ⟨action, hbelow⟩ := Expr.exists_pluckInAction?_eq_none
      (List.findSome?_eq_none_iff.mp hplucked r hr) hn
    exact fun e he => Expr.isPicked_eq_false (Expr.pluckInActionList?_eq_none_iff.mp hbelow e he)

namespace Expr

variable {k : String → Outcome}

@[simp] theorem children_annotate (e : Expr) :
    (e.annotate k).children = e.children.map (annotate k) := by
  cases e with
  | choice t es => rw [annotate_choice]; rfl
  | sequence t es => rw [annotate_sequence]; rfl
  | _ => rfl

@[simp] theorem isNamed_annotate (e : Expr) : (e.annotate k).isNamed = e.isNamed := by
  cases e with
  | apply t op e => cases op <;> rfl
  | _ => simp [annotate, isNamed]

@[simp] theorem isSequence_annotate (e : Expr) : (e.annotate k).isSequence = e.isSequence := by
  cases e <;> simp [annotate, isSequence]

theorem Orderly.annotate {n : Expr} (h : n.Orderly) : (n.annotate k).Orderly := by
  refine ⟨?_, ?_, ?_⟩
  · simpa using h.named
  · intro t es hn
    obtain ⟨t', es, rfl, rfl⟩ := exists_sequence_of_annotate hn
    simpa using h.nested t' es rfl
  · intro t code t' es hn
    cases n with
    | apply t op e =>
        obtain ⟨-, rfl, he⟩ := Expr.apply.inj hn
        obtain ⟨t', es, rfl, rfl⟩ := exists_sequence_of_annotate he
        simpa using h.picked t code t' es rfl
    | _ => simp [Expr.annotate] at hn

end Expr

section Inferred

variable {α : Type} {σ : Setting} {h : Host α} {rules rules' : List Rule}

/-- Outcomes are sound for evaluation with values, too. -/
theorem admits_answer_of_progress (hprog : Progress rules rules')
    (hnone : ∀ r ∈ rules, r.outcome = none) (hsome : ∀ r ∈ rules', r.outcome.isSome)
    (hchoices : ∀ r ∈ rules, r.body.ChoicesNonempty) {r' : Rule} (hr' : r' ∈ rules') {n : Expr}
    (hn : n ∈ r'.body.nodes) {fuel p : Nat} {env : Env α} {calls : List (Call α)} {a : Answer α}
    (ha : (Task.expr n env).eval rules' σ h fuel p calls = some a) :
    n.outcome.Admits a.position? := by
  have hchoices' := choicesNonempty_of_progress hprog hnone hsome hchoices
  have hnode : n.ChoicesNonempty := fun t ht => hchoices' r' hr' t (Expr.mem_nodes_trans ht hn)
  have hadmits : (n.outcomeGiven (known rules')).Admits a.position? :=
    Task.admits_of_eval (consistent_known hprog hnone hsome) hchoices' ha hnode
  exact (outcome_below_known hprog hnone hsome hr' hn).admits hadmits

theorem Grammar.Arranged.dependable {o : Options} {g : Grammar} (hg : g.Arranged o)
    (hprog : Progress g.rules rules') (hsome : ∀ r ∈ rules', r.outcome.isSome)
    (hstable : ∀ v ∈ g.foldedLiterals, Text.CaseStable v) (σ : Setting) (h : Host α) {r' : Rule}
    (hr' : r' ∈ rules') : ∀ n ∈ r'.body.nodes, n.Dependable rules' σ h := by
  intro n hn
  refine ⟨?_, ?_, fun fuel env p calls a ha =>
    admits_answer_of_progress hprog hg.unsettled hsome hg.choices hr' hn ha⟩
  · obtain ⟨r, hr, k, -, rfl⟩ := hprog.exists_settled hg.unsettled hsome hr'
    obtain ⟨m, hm, rfl⟩ := List.mem_map.mp (Expr.nodes_annotate r.body ▸ hn)
    exact (hg.orderly hr hm).annotate
  · exact reliable_of_progress hprog hg.unsettled hsome hg.choices
      (Grammar.stable_of_foldedLiterals hstable) σ hr' n hn

theorem eval_task_body_of_progress (hprog : Progress rules rules') {i fuel p : Nat} {r r' : Rule}
    (hr : rules[i]? = some r) (hr' : rules'[i]? = some r') (env : Env α) (calls : List (Call α)) :
    (Task.expr r'.body env).eval rules' σ h fuel p calls =
      (Task.expr r.body env).eval rules σ h fuel p calls := by
  rw [Task.eval_of_progress hprog]
  obtain ⟨s, hs, hstep⟩ := hprog.step i r hr
  obtain rfl := Option.some.inj (hr'.symm.trans hs)
  rcases hstep with rfl | ⟨-, k, -, rfl⟩
  · rfl
  · exact Task.eval_annotate k fuel (.expr r.body env) p calls

end Inferred

/-! ## Values -/

namespace Grammar

variable {α : Type} {o : Options} {g : Grammar}

/-- Whether `code` does in `g'` what the evaluation of `e` with values does in `g`: wherever that
comes to an end the code does, with the value on top of the old stack and behind what was consumed,
or with the failure mark there and nothing consumed, and with the same calls of host functions. -/
def Yields (g g' : Grammar) (σ : Setting) (h : Host α) (e : Expr) (code : List UInt32) : Prop :=
  ∀ fuel p a, (Task.expr e []).eval g.rules σ h fuel p [] = some a →
    ∀ s : Recorded α, s.position = p → s.calls = [] →
      ∃ fuel t, g'.recordCode σ h fuel code s = some t ∧ Delivers s.stack p a t

/-- Whether inference and generation succeed with code for every rule that does what the evaluation
of the rule with values does, on every input and with every host whose actions do not fail. -/
def PreservesValues (o : Options) (g : Grammar) : Prop :=
  ∃ g', runPasses o g [.inferMatchResults, .generateBytecode] = .ok g' ∧
    g'.ruleNames = g.ruleNames ∧
    (g'.FitsWords → ∀ (i : Nat) (r r' : Rule), g.rules[i]? = some r → g'.rules[i]? = some r' →
      ∃ code, r'.bytecode = some code ∧ ∀ (α : Type) (σ : Setting) (h : Host α),
        (∀ f args saved p, h.action f args saved p ≠ .failed) → g.Yields g' σ h r.body code)

theorem recordCode_of_performs (hrefs : RefsDefined g.rules) (hfits : g.assembled.FitsWords)
    {σ : Setting} {h : Host α} {r : Rule} (hr : r ∈ g.rules) {s t : Recorded α}
    (hperforms : Performs σ h g.rules r.lower.code s t) :
    ∃ fuel, g.assembled.recordCode σ h fuel (r.assemble (ruleConstants g.rules) g.ruleNames) s =
      some t :=
  hperforms.recordWords (fun _ hr => readable_of_fitsWords hrefs hfits hr)
    (readable_of_fitsWords hrefs hfits hr)

/-- Words are no more than the code is written in, so its heights fit into words as well. -/
theorem listSize_le_of_fitsWords (hrefs : RefsDefined g.rules) (hfits : g.assembled.FitsWords)
    {r : Rule} (hr : r ∈ g.rules) : Instr.listSize r.lower.code ≤ UInt32.size := by
  have hlength := (readable_of_fitsWords hrefs hfits hr).length_lt
  rw [Instr.length_listWords] at hlength
  exact Nat.le_of_lt hlength

theorem Arranged.refs (hg : g.Arranged o) : RefsDefined g.rules :=
  undefinedRule?_eq_none_iff.mp
    (Pass.accepts_reportUndefinedRules.mp (hg.accepted _ (by simp [Passes.standard])))

theorem preservesValues_of_stable (hg : g.Arranged o)
    (hstable : ∀ v ∈ g.foldedLiterals, Text.CaseStable v) : g.PreservesValues o := by
  obtain ⟨rules', hprog, hsome, hrun⟩ := exists_inferred hg.refs
  have hrefs : RefsDefined rules' := hprog.refsDefined hg.refs
  refine ⟨_, hrun o, ruleNames_assembled.trans hprog.names, fun hfits i r s hr hs => ?_⟩
  have hs : (assembled { g with rules := rules' }).rules[i]? = some s := hs
  rw [assembled, PegCompiler.assembled, List.getElem?_map] at hs
  obtain ⟨r', hr', rfl⟩ := Option.map_eq_some_iff.mp hs
  refine ⟨_, rfl, fun α σ h hhost fuel p a ha s hp hcalls => ?_⟩
  have hmem : r' ∈ rules' := List.mem_of_getElem? hr'
  have hnodes : ∀ r ∈ rules', ∀ n ∈ r.body.nodes, n.Dependable rules' σ h := fun r hr =>
    hg.dependable hprog hsome hstable σ h hr
  have hsizes : ∀ r ∈ rules', Instr.listSize r.lower.code ≤ UInt32.size := fun r hr =>
    listSize_le_of_fitsWords (g := { g with rules := rules' }) hrefs hfits hr
  rw [← eval_task_body_of_progress hprog hr hr'] at ha
  have hcomputed := Task.computed_of_eval hhost hnodes hsizes ha
  obtain ⟨t, hperforms, ht⟩ := hcomputed (hnodes r' hmem) 0 .empty s hp hcalls .nil
    (by rw [Nat.zero_add]; exact hsizes r' hmem)
  obtain ⟨fuel, hcode⟩ := recordCode_of_performs (g := { g with rules := rules' }) hrefs hfits hmem
    hperforms
  exact ⟨fuel, t, hcode, ht⟩

/-- What keeps the values keeps what is matched. -/
theorem PreservesValues.preservesMatching (hg : g.PreservesValues o) : g.PreservesMatching o := by
  obtain ⟨g', hrun, hnames, hvalues⟩ := hg
  refine ⟨g', hrun, hnames, fun hfits i r r' hr hr' => ?_⟩
  obtain ⟨code, hcode, hyields⟩ := hvalues hfits i r r' hr hr'
  refine ⟨code, hcode, fun α σ h hhost p result heval s hp => ?_⟩
  obtain ⟨fuel, heval⟩ := heval
  obtain ⟨a, ha, hresult⟩ := Task.exists_eval hhost.predicate (.expr r.body []) heval
    (Nat.le_refl fuel) []
  obtain ⟨fuel, t, hrun, ht⟩ := hyields α σ h hhost.action fuel p a ha ⟨s, []⟩ hp rfl
  have hstate := map_recordCode g' σ h fuel code ⟨s, []⟩
  rw [hrun] at hstate
  exact ⟨fuel, t.toState, hstate.symm, hresult ▸ ht.leaves⟩

end Grammar

theorem foldedLiteral_accepted (o : Options) (v : String) :
    ∀ pass ∈ Passes.standard.check, pass.Accepts o (foldedLiteral v) := by
  have hrecursion : Pass.reportInfiniteRecursion.Accepts o (foldedLiteral v) := by
    have hleaf : ∀ rules path steps, leftRecursionFrom? rules path steps [] = none := by
      intro rules path steps
      rw [leftRecursionFrom?]
      rfl
    rw [Pass.accepts_reportInfiniteRecursion]
    simp [Grammar.leftRecursion?, hleaf, foldedLiteral, Build.grammar, Build.rule,
      Build.literalIgnoringCase, Build.leaf, Expr.leftRefs]
  simp only [Passes.standard, List.forall_mem_cons, List.not_mem_nil, false_imp_iff, implies_true,
    and_true]
  exact ⟨rfl, rfl, rfl, rfl, hrecursion, rfl, rfl⟩

theorem foldedLiteral_arranged (o : Options) (v : String) : (foldedLiteral v).Arranged o where
  accepted := foldedLiteral_accepted o v
  choices := (foldedLiteral_wellFormed v).choices
  unsettled := (foldedLiteral_wellFormed v).unsettled
  named := by
    simp [foldedLiteral, Build.grammar, Build.rule, Build.literalIgnoringCase, Build.leaf,
      Grammar.nodes, Expr.nodes, Expr.children]
  nested := by
    simp [foldedLiteral, Build.grammar, Build.rule, Build.literalIgnoringCase, Build.leaf,
      Grammar.nodes, Expr.nodes, Expr.children]

/-- Code leaves the values and makes the calls of evaluation when every literal whose case is
ignored has a stable one, and a literal without a stable case is enough for it not to. -/
theorem values_preserved_for_stable_literals (o : Options) :
    (∀ g : Grammar, g.Arranged o → (∀ v ∈ g.foldedLiterals, Text.CaseStable v) →
      g.PreservesValues o) ∧
    ∀ v : String, v.length < UInt32.size → ¬Text.CaseStable v →
      (foldedLiteral v).Arranged o ∧ (foldedLiteral v).foldedLiterals = [v] ∧
        ¬(foldedLiteral v).PreservesValues o := by
  constructor
  · intro g hg hstable
    exact Grammar.preservesValues_of_stable hg hstable
  · intro v hlen hv
    refine ⟨foldedLiteral_arranged o v, foldedLiterals_foldedLiteral v, fun hvalues => ?_⟩
    exact not_preserves_of_not_caseStable o hlen hv hvalues.preservesMatching

open Build in
/-- Assignments of numbers to names that are free, as pairs. -/
def assignments : Grammar :=
  grammar
    [rule "start" (zeroOrMore (ruleRef "pair")),
      rule "pair" (action (sequence [literalIgnoringCase "let",
        labeled "name" (charClass [.range 'a' 'z'] false false), semanticAnd "isFree(name)",
        literal "=", labeled "value" (ruleRef "number")]) "return [name, value];"),
      rule "number" (named "number" (sequence [optional (literal "-"),
        pluck (text (oneOrMore (charClass [.range '0' '9'] false false)))]))]

theorem assignments_keep_values :
    assignments.Arranged .standard ∧ (∀ v ∈ assignments.foldedLiterals, Text.CaseStable v) ∧
      assignments.PreservesValues .standard := by
  have harranged : assignments.Arranged .standard := by
    refine ⟨by decide +kernel, ?_, ?_, by decide +kernel, by decide +kernel⟩
    · simp [assignments, Build.grammar, Build.rule, Build.zeroOrMore, Build.action,
        Build.sequence, Build.labeled, Build.apply, Build.semanticAnd, Build.literal,
        Build.literalIgnoringCase, Build.charClass, Build.ruleRef, Build.named, Build.optional,
        Build.pluck, Build.text, Build.oneOrMore, Build.leaf]
    · simp [assignments, Build.grammar, Build.rule]
  have hstable : ∀ v ∈ assignments.foldedLiterals, Text.CaseStable v := by
    intro v hv
    obtain rfl : v = "let" := List.mem_singleton.mp hv
    exact Text.caseStable_of_not_dotted (by decide)
  exact ⟨harranged, hstable,
    (values_preserved_for_stable_literals .standard).1 assignments harranged hstable⟩

/-- Behind a dotted `i` in two characters the value is these two, and the code leaves the first. -/
theorem dotted_literal_leaves_less :
    (foldedLiteral "İ").Arranged .standard ∧ ¬(foldedLiteral "İ").PreservesValues .standard ∧
    (Task.expr (Build.literalIgnoringCase "İ") []).eval (foldedLiteral "İ").rules
      ⟨"i\u0307".toList, fun _ _ => true, fun _ _ => true⟩
      (⟨fun _ _ _ _ => .undefined, fun _ _ _ => true⟩ : Host Unit) 1 0 [] =
        some ⟨some (2, .text "i\u0307"), []⟩ ∧
    (runPasses .standard (foldedLiteral "İ") [.inferMatchResults, .generateBytecode]).map
      (fun g => (g.rules.map (·.bytecode),
        (g.recordCode ⟨"i\u0307".toList, fun _ _ => true, fun _ _ => true⟩
          (⟨fun _ _ _ _ => .undefined, fun _ _ _ => true⟩ : Host Unit) 3
          [19, 0, 2, 2, 21, 1, 23, 0] ⟨⟨0, 0, 0, [], []⟩, []⟩).map fun t =>
            (t.position, t.stack.map fun | .text s => some s | _ => none))) =
      .ok ([some [19, 0, 2, 2, 21, 1, 23, 0]], some (1, [some "i"])) := by
  have hunstable : ¬Text.CaseStable "İ" := by
    intro h
    have hlength := h.length_eq
    revert hlength
    decide
  refine ⟨foldedLiteral_arranged .standard "İ", fun hvalues => ?_, rfl,
    eq_ok_of_toOption (by decide +kernel)⟩
  exact not_preserves_of_not_caseStable .standard (by decide) hunstable hvalues.preservesMatching

end PegCompiler
