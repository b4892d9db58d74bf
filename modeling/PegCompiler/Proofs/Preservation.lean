import PegCompiler.Grammar.Build
import PegCompiler.Proofs.Checks
import PegCompiler.Proofs.Recording
import PegCompiler.Proofs.Simulation

/-!
# Generated code follows evaluation

Inference and generation together keep what a grammar matches, as long as the literals whose case is
ignored have a stable one. A single literal without is enough to go wrong: the text that the code
compares is then longer than the one it accepts.
-/

namespace PegCompiler

open Inference

/-- Whether a grammar is ready for inference. -/
structure Grammar.WellFormed (g : Grammar) : Prop where
  names : g.ruleNames.Nodup
  refs : RefsDefined g.rules
  choices : ∀ r ∈ g.rules, r.body.ChoicesNonempty
  unsettled : ∀ r ∈ g.rules, r.outcome = none

/-- The literals whose case is ignored. -/
def Grammar.foldedLiterals (g : Grammar) : List String :=
  g.nodes.filterMap fun
    | .leaf _ (.literal value true) => some value
    | _ => none

/-- Whether the words of the code can hold all numbers that are written into them. -/
def Grammar.FitsWords (g : Grammar) : Prop :=
  ∀ c, g.constants = some c → ∀ r ∈ g.rules,
    (r.assemble c g.ruleNames).length < UInt32.size ∧
      ∀ o ∈ Instr.listOperands r.lower.code, o.Fits c g.ruleNames

instance decidableFitsWords (g : Grammar) : Decidable g.FitsWords :=
  match h : g.constants with
  | none => .isTrue (by simp [Grammar.FitsWords, h])
  | some c =>
      decidable_of_iff (∀ r ∈ g.rules, (r.assemble c g.ruleNames).length < UInt32.size ∧
          ∀ o ∈ Instr.listOperands r.lower.code, o.Fits c g.ruleNames)
        (by simp [Grammar.FitsWords, h])

/-- Whether `code` does in `g'` what the evaluation of `e` does in `g`: wherever that comes to an
end the code does, with a value other than the failure mark on top of the old stack and behind what
was consumed, or with the failure mark there and nothing consumed. -/
def Grammar.Follows {α : Type} (g g' : Grammar) (σ : Setting) (h : Host α) (e : Expr)
    (code : List UInt32) : Prop :=
  ∀ p result, (∃ fuel, Goal.eval g.rules σ fuel (.expr e) p = some result) →
    ∀ s : State α, s.position = p →
      ∃ fuel t, g'.runCode σ h fuel code s = some t ∧ Leaves s.stack p result t

/-- Whether inference and generation succeed with code for every rule that does what the evaluation
of the rule does, on every input and with every host. -/
def Grammar.PreservesMatching (o : Options) (g : Grammar) : Prop :=
  ∃ g', runPasses o g [.inferMatchResults, .generateBytecode] = .ok g' ∧
    g'.ruleNames = g.ruleNames ∧
    (g'.FitsWords → ∀ (i : Nat) (r r' : Rule), g.rules[i]? = some r → g'.rules[i]? = some r' →
      ∃ code, r'.bytecode = some code ∧ ∀ (α : Type) (σ : Setting) (h : Host α), h.Obeys σ →
        g.Follows g' σ h r.body code)

/-! ## Inferred rules -/

section Inferred

variable {rules rules' : List Rule}

theorem leaf_outcome_of_annotate {k : String → Outcome} {m : Expr} {t : Tag} {l : Leaf}
    (h : m.annotate k = .leaf t l) (hl : ∀ name, l ≠ .ruleRef name) : t.outcome = l.outcome := by
  cases m with
  | leaf t' l' =>
      simp only [Expr.annotate, Expr.leaf.injEq] at h
      obtain ⟨rfl, rfl⟩ := h
      cases l' with
      | ruleRef name => exact absurd rfl (hl name)
      | _ => rfl
  | _ => simp [Expr.annotate] at h

theorem exists_leaf_of_annotate {k : String → Outcome} {m : Expr} {t : Tag} {l : Leaf}
    (h : m.annotate k = .leaf t l) : ∃ t', m = .leaf t' l := by
  cases m with
  | leaf t' l' =>
      simp only [Expr.annotate, Expr.leaf.injEq] at h
      exact ⟨t', by rw [h.2]⟩
  | _ => simp [Expr.annotate] at h

theorem reliable_of_progress (h : Progress rules rules')
    (hnone : ∀ r ∈ rules, r.outcome = none) (hsome : ∀ r ∈ rules', r.outcome.isSome)
    (hchoices : ∀ r ∈ rules, r.body.ChoicesNonempty)
    (hstable : ∀ r ∈ rules, ∀ t value, .leaf t (.literal value true) ∈ r.body.nodes →
      Text.CaseStable value) (σ : Setting) {r' : Rule} (hr' : r' ∈ rules') :
    ∀ n ∈ r'.body.nodes, n.Reliable rules' σ := by
  intro n hn
  have hadmits : ∀ p result, Parses rules' σ (.expr n) p result → n.outcome.Admits result :=
    fun p result hresult => admits_of_progress h hnone hsome hchoices hr' hn hresult
  obtain ⟨r, hr, k, -, rfl⟩ := h.exists_settled hnone hsome hr'
  have hbody : (r.body.annotate k).ChoicesNonempty :=
    Expr.choicesNonempty_annotate.mpr (hchoices r hr)
  obtain ⟨m, hm, hmn⟩ := List.mem_map.mp (Expr.nodes_annotate r.body ▸ hn)
  refine ⟨hadmits, ?_, ?_, ?_⟩
  · rintro t l rfl hl
    exact leaf_outcome_of_annotate hmn hl
  · rintro t rfl
    exact hbody t hn
  · rintro t value rfl
    obtain ⟨t', rfl⟩ := exists_leaf_of_annotate hmn
    exact hstable r hr t' value hm

theorem eval_body_of_progress (h : Progress rules rules') {σ : Setting} {i fuel p : Nat}
    {r r' : Rule} (hr : rules[i]? = some r) (hr' : rules'[i]? = some r') :
    Goal.eval rules' σ fuel (.expr r'.body) p = Goal.eval rules σ fuel (.expr r.body) p := by
  rw [Goal.eval_of_progress h]
  obtain ⟨s, hs, hstep⟩ := h.step i r hr
  obtain rfl := Option.some.inj (hr'.symm.trans hs)
  rcases hstep with rfl | ⟨-, k, -, rfl⟩
  · rfl
  · exact Goal.eval_annotate k fuel (.expr r.body) p

theorem Inference.Progress.refsDefined (h : Progress rules rules') (hrefs : RefsDefined rules) :
    RefsDefined rules' := by
  intro r' hr' ref href
  rw [isDefined_congr h.names]
  obtain ⟨r, hr, rfl | ⟨-, k, -, rfl⟩⟩ := h.exists_source hr'
  · exact hrefs r' hr ref href
  · rw [settled, Expr.refs_annotate] at href
    exact hrefs r hr ref href

end Inferred

/-! ## Generation -/

def ruleConstants (rules : List Rule) : Constants :=
  Constants.ofSymbols (ruleSymbols rules)

/-- The grammar with the code of its rules. -/
def Grammar.assembled (g : Grammar) : Grammar :=
  { g with
    rules := PegCompiler.assembled (ruleConstants g.rules) g.rules
    constants := some (ruleConstants g.rules) }

theorem names_assembled {c : Constants} {rules : List Rule} :
    (assembled c rules).map (·.name) = rules.map (·.name) := by
  rw [assembled, List.map_map]
  rfl

namespace Grammar

variable {g : Grammar}

@[simp] theorem ruleNames_assembled : g.assembled.ruleNames = g.ruleNames :=
  names_assembled

theorem generate_of_refsDefined (h : RefsDefined g.rules) : g.generate = .ok g.assembled := by
  have hnone : (ruleSymbols g.rules).findSome? (Symbol.defect? g.rules) = none := by
    rw [List.findSome?_eq_none_iff]
    intro s hs
    obtain ⟨r, hr, hs⟩ := List.mem_flatMap.mp hs
    cases s with
    | rule ref => exact RuleRef.defect?_eq_none_iff.mpr (h r hr ref (Expr.mem_refs_of_lower hs))
    | _ => rfl
  rw [generate, hnone]
  rfl

/-- The tables of all rules together have what the code of each of them names. -/
theorem known_of_mem_operands (hrefs : RefsDefined g.rules) {r : Rule} (hr : r ∈ g.rules)
    {s : Symbol} (h : .symbol s ∈ Instr.listOperands r.lower.code) :
    s.Known (ruleConstants g.rules) g.ruleNames := by
  have hs : s ∈ r.lower.symbols := Expr.lower_covers r.body none 0 .empty s h
  refine known_ofSymbols (List.mem_flatMap.mpr ⟨r, hr, hs⟩) ?_
  rintro ref rfl
  exact isDefined_iff_mem.mp (hrefs r hr ref (Expr.mem_refs_of_lower hs))

/-- The code of every rule is read back as it is when its numbers fit. -/
theorem readable_of_fitsWords (hrefs : RefsDefined g.rules) (hfits : g.assembled.FitsWords)
    {r : Rule} (hr : r ∈ g.rules) :
    Instr.Readable (ruleConstants g.rules) g.ruleNames r.lower.code := by
  obtain ⟨hlength, hoperands⟩ := hfits _ rfl _ (List.mem_map_of_mem hr)
  rw [ruleNames_assembled] at hlength hoperands
  refine ⟨hlength, fun o ho => ⟨hoperands o ho, ?_⟩⟩
  rintro s rfl
  exact known_of_mem_operands hrefs hr ho

theorem runCode_of_exec (hrefs : RefsDefined g.rules) (hfits : g.assembled.FitsWords)
    {α : Type} {σ : Setting} {h : Host α} {r : Rule} (hr : r ∈ g.rules) {s t : State α}
    (hexec : Exec σ h g.rules r.lower.code s t) :
    ∃ fuel, g.assembled.runCode σ h fuel (r.assemble (ruleConstants g.rules) g.ruleNames) s =
      some t :=
  hexec.runWords (fun _ hr => readable_of_fitsWords hrefs hfits hr)
    (readable_of_fitsWords hrefs hfits hr)

theorem exists_inferred (hrefs : RefsDefined g.rules) :
    ∃ rules', Progress g.rules rules' ∧ (∀ r ∈ rules', r.outcome.isSome) ∧
      ∀ o, runPasses o g [.inferMatchResults, .generateBytecode] =
        .ok { g with rules := rules' }.assembled := by
  obtain ⟨rules', hinfer, hprog, hsome⟩ := inferOutcomes_of_refsDefined hrefs
  refine ⟨rules', hprog, hsome, fun o => ?_⟩
  have hgenerate : { g with rules := rules' }.generate = .ok { g with rules := rules' }.assembled :=
    generate_of_refsDefined (hprog.refsDefined hrefs)
  simp only [runPasses, Pass.run, hinfer, hgenerate]

/-! ## Matching -/

theorem stable_of_foldedLiterals (hstable : ∀ v ∈ g.foldedLiterals, Text.CaseStable v) :
    ∀ r ∈ g.rules, ∀ t value, .leaf t (.literal value true) ∈ r.body.nodes →
      Text.CaseStable value := by
  intro r hr t value hn
  exact hstable value (List.mem_filterMap.mpr ⟨_, List.mem_flatMap.mpr ⟨r, hr, hn⟩, rfl⟩)

theorem preserves_of_stable (o : Options) (hg : g.WellFormed)
    (hstable : ∀ v ∈ g.foldedLiterals, Text.CaseStable v) : g.PreservesMatching o := by
  obtain ⟨rules', hprog, hsome, hrun⟩ := exists_inferred hg.refs
  have hrefs : RefsDefined rules' := hprog.refsDefined hg.refs
  have hliterals := stable_of_foldedLiterals hstable
  refine ⟨_, hrun o, ruleNames_assembled.trans hprog.names, fun hfits i r s hr hs => ?_⟩
  have hs : (assembled { g with rules := rules' }).rules[i]? = some s := hs
  rw [assembled, PegCompiler.assembled, List.getElem?_map] at hs
  obtain ⟨r', hr', rfl⟩ := Option.map_eq_some_iff.mp hs
  refine ⟨_, rfl, fun α σ h hhost p result heval s hp => ?_⟩
  have hmem : r' ∈ rules' := List.mem_of_getElem? hr'
  have hnodes : ∀ r ∈ rules', ∀ n ∈ r.body.nodes, n.Reliable rules' σ := fun r hr =>
    reliable_of_progress hprog hg.unsettled hsome hg.choices hliterals σ hr
  obtain ⟨fuel, heval⟩ := heval
  rw [← eval_body_of_progress hprog hr hr'] at heval
  have hsim := (Parses.of_eval heval).simulated hhost hnodes
  obtain ⟨t, hexec, ht⟩ := hsim (hnodes r' hmem) none 0 .empty s hp
  obtain ⟨fuel, hcode⟩ := runCode_of_exec (g := { g with rules := rules' }) hrefs hfits hmem hexec
  exact ⟨fuel, t, hcode, ht⟩

end Grammar

/-! ## Unstable literals -/

section Unstable

variable {v : String}

open Build in
/-- A grammar of nothing but a literal whose case is ignored. -/
def foldedLiteral (v : String) : Grammar :=
  grammar [rule "start" (literalIgnoringCase v)]

theorem foldedLiteral_wellFormed (v : String) : (foldedLiteral v).WellFormed where
  names := by simp [foldedLiteral, Build.grammar, Build.rule, Grammar.ruleNames]
  refs := by
    simp [RefsDefined, foldedLiteral, Build.grammar, Build.rule, Build.literalIgnoringCase,
      Build.leaf, Expr.refs, Expr.nodes, Expr.ref?]
  choices := by
    simp [foldedLiteral, Build.grammar, Build.rule, Build.literalIgnoringCase, Build.leaf]
  unsettled := by simp [foldedLiteral, Build.grammar, Build.rule]

theorem exists_rule_of_foldedLiteral (hv : v ≠ "") {rules' : List Rule}
    (hprog : Progress (foldedLiteral v).rules rules')
    (hsome : ∀ r ∈ rules', r.outcome.isSome) :
    ∃ r', rules' = [r'] ∧ r'.lower = lowerLiteral .sometimes v true .empty := by
  obtain ⟨r', rfl⟩ := List.length_eq_one_iff.mp hprog.length_eq
  obtain ⟨r, hr, k, -, rfl⟩ := hprog.exists_settled (foldedLiteral_wellFormed v).unsettled hsome
    (List.mem_singleton_self r')
  obtain rfl := List.mem_singleton.mp hr
  refine ⟨_, rfl, ?_⟩
  simp [settled, Rule.lower, Build.rule, Build.literalIgnoringCase, Build.leaf, Expr.annotate,
    Expr.lower, lowerLeaf, Expr.outcomeGiven, Leaf.outcome, hv]

theorem assembled_fitsWords_of_foldedLiteral (hv : v ≠ "") (hlen : v.length < UInt32.size)
    {g : Grammar} {r : Rule} (hg : g.rules = [r])
    (hr : r.lower = lowerLiteral .sometimes v true .empty) : g.assembled.FitsWords := by
  have hempty : v.isEmpty = false := by simpa using hv
  have hcode : r.lower.code = [.branch .matchStringIc [.symbol (.literal (Text.lowercase v))]
      [.op .acceptN [.count v.length]]
      [.op .fail [.symbol (.expectation (.literal v true))]]] := by
    simp [hr, lowerLiteral, hempty, condition, failure]
  have hliterals : (ruleConstants g.rules).literals.values = [Text.lowercase v] := by
    simp [ruleConstants, ruleSymbols, hg, hr, lowerLiteral, hempty, failure, Constants.ofSymbols,
      Constants.add, Constants.empty, Pool.values_add]
  have hexpectations : (ruleConstants g.rules).expectations.values = [.literal v true] := by
    simp [ruleConstants, ruleSymbols, hg, hr, lowerLiteral, hempty, failure, Constants.ofSymbols,
      Constants.add, Constants.empty, Pool.values_add]
  rintro c hc s hs
  obtain rfl := Option.some.inj hc
  have hs : s ∈ PegCompiler.assembled (ruleConstants g.rules) g.rules := hs
  rw [hg] at hs
  obtain rfl := List.mem_singleton.mp hs
  have hlower : ∀ b, Rule.lower { r with bytecode := b } = r.lower := fun _ => rfl
  simp only [Rule.assemble, hlower, hcode]
  constructor
  · simp [Instr.listWords, Instr.words, UInt32.size]
  · simp [Operand.Fits, Symbol.index, Pool.index_eq_idxOf, hliterals, hexpectations, hlen,
      UInt32.size]

/-- A text that differs from the literal in case only and is shorter than its lower case form. -/
theorem exists_shorter_of_not_caseStable (hv : ¬Text.CaseStable v) :
    ∃ s, Text.lowercase s = Text.lowercase v ∧ s.length < (Text.lowercase v).length := by
  obtain ⟨s, hv⟩ := Classical.not_forall.mp hv
  obtain ⟨hs, hne⟩ := Classical.not_imp.mp hv
  have hlen := Text.length_lowercase s
  rw [hs] at hlen
  exact ⟨s, hs, by omega⟩

/-- The code of the literal looks at one character too many when something follows that text. -/
theorem fails_behind_shorter {α : Type} {σ : Setting} {h : Host α} {rules : List Rule} {s : String}
    (hs : Text.lowercase s = Text.lowercase v) (hlen : s.length < (Text.lowercase v).length)
    (hσ : σ.input = s.toList ++ ['x']) (hv : v ≠ "") (scope : Scope) (t : State α)
    (ht : t.position = 0) :
    Reaches σ h rules (lowerLiteral .sometimes v true scope).code t (Leaves t.stack 0 none) := by
  have hempty : v.isEmpty = false := by simpa using hv
  have hinput : σ.input.length = s.length + 1 := by simp [hσ, String.length_toList]
  have hfront : String.ofList (σ.input.take s.length) = s := by
    simp [hσ, ← String.length_toList]
  have hne : Text.lowercase (String.ofList (σ.input.take (Text.lowercase v).length)) ≠
      Text.lowercase v := by
    intro heq
    rw [List.take_of_length_le (by omega), ← List.take_of_length_le (Nat.le_of_eq hinput), ← hs]
      at heq
    have hinj : s.length + 1 = s.length :=
      Text.lowercase_take_inj (by omega) (by omega) (heq.trans (by rw [hfront]))
    omega
  simp only [lowerLiteral, hempty]
  refine .test ht rfl ?_ (by simp)
  simp [Condition.holds?, ht, hne]

theorem not_preserves_of_not_caseStable (o : Options) (hlen : v.length < UInt32.size)
    (hv : ¬Text.CaseStable v) : ¬(foldedLiteral v).PreservesMatching o := by
  rintro ⟨g', hrun, -, hfollows⟩
  have hne : v ≠ "" := by
    rintro rfl
    exact hv (Text.caseStable_of_not_dotted (by decide))
  obtain ⟨rules', hprog, hsome, hrun'⟩ := Grammar.exists_inferred (foldedLiteral_wellFormed v).refs
  obtain rfl := Except.ok.inj (hrun.symm.trans (hrun' o))
  obtain ⟨r', rfl, hlower⟩ := exists_rule_of_foldedLiteral hne hprog hsome
  have hrefs := hprog.refsDefined (foldedLiteral_wellFormed v).refs
  have hfits : { foldedLiteral v with rules := [r'] }.assembled.FitsWords :=
    assembled_fitsWords_of_foldedLiteral hne hlen rfl hlower
  obtain ⟨code, hcode, hfollows⟩ := hfollows hfits 0 _ _ rfl rfl
  obtain rfl := Option.some.inj hcode
  obtain ⟨s, hs, hshort⟩ := exists_shorter_of_not_caseStable hv
  let σ : Setting := ⟨s.toList ++ ['x'], fun _ _ => true, fun _ _ => true⟩
  let h : Host Unit := ⟨fun _ _ _ _ => .undefined, fun _ _ _ => true⟩
  let start : State Unit := ⟨0, 0, 0, [], []⟩
  have hhost : h.Obeys σ := ⟨by simp [h], by simp [h, σ]⟩
  have heval : Goal.eval (foldedLiteral v).rules σ 1
      (.expr (Build.rule "start" (Build.literalIgnoringCase v)).body) 0 = some (some s.length) := by
    have hfolded : Text.foldedLength? v σ.input = some s.length := by
      refine Text.foldedLength?_eq_some_iff.mpr ⟨by simp [σ, String.length_toList], ?_⟩
      rw [← hs]
      simp [σ, ← String.length_toList]
    simp [Build.rule, Build.literalIgnoringCase, Build.leaf, Goal.eval, Leaf.match?, hfolded]
  obtain ⟨fuel, t, hrun, ht⟩ := hfollows Unit σ h hhost 0 _ ⟨1, heval⟩ start rfl
  have hfails : Reaches σ h [r'] r'.lower.code start (Leaves [] 0 none) :=
    hlower ▸ fails_behind_shorter hs hshort rfl hne .empty start rfl
  obtain ⟨t', hexec, ht'⟩ := hfails
  obtain ⟨fuel', hrun'⟩ := Grammar.runCode_of_exec (g := { foldedLiteral v with rules := [r'] })
    hrefs hfits (List.mem_singleton_self r') hexec
  obtain rfl := runWords_unique hrun hrun'
  obtain ⟨⟨value, hvalue, hstack⟩, -⟩ := ht
  rw [ht'.1] at hstack
  exact hvalue (List.cons.inj hstack).1.symm

theorem foldedLiterals_foldedLiteral (v : String) : (foldedLiteral v).foldedLiterals = [v] := by
  rfl

end Unstable

/-- Code follows evaluation when every literal whose case is ignored has a stable one, and a literal
without a stable case is enough for it not to. -/
theorem matching_preserved_for_stable_literals (o : Options) :
    (∀ g : Grammar, g.WellFormed → (∀ v ∈ g.foldedLiterals, Text.CaseStable v) →
      g.PreservesMatching o) ∧
    ∀ v : String, v.length < UInt32.size → ¬Text.CaseStable v →
      (foldedLiteral v).WellFormed ∧ (foldedLiteral v).foldedLiterals = [v] ∧
        ¬(foldedLiteral v).PreservesMatching o := by
  constructor
  · intro g hg hstable
    exact Grammar.preserves_of_stable o hg hstable
  · intro v hlen hv
    exact ⟨foldedLiteral_wellFormed v, foldedLiterals_foldedLiteral v,
      not_preserves_of_not_caseStable o hlen hv⟩

open Build in
/-- Statements that may hold others, with names for which the host is asked. -/
def conditionals : Grammar :=
  grammar
    [rule "start" (zeroOrMore (ruleRef "statement")),
      rule "statement"
        (choice
          [sequence [literalIgnoringCase "if", ruleRef "name", ruleRef "statement",
            optional (sequence [literalIgnoringCase "else", ruleRef "statement"])],
          action (sequence [labeled "callee" (ruleRef "name"), semanticAnd "isKnown(callee)",
            simpleNot (literal "="), literal ";"]) "return call(callee);"]),
      rule "name" (named "name" (text (oneOrMore (charClass [.range 'a' 'z'] false true))))]

/-- All numbers in the code of the conditionals fit, so the code follows evaluation. -/
theorem conditionals_preserved :
    conditionals.WellFormed ∧ (∀ v ∈ conditionals.foldedLiterals, Text.CaseStable v) ∧
    ∃ g', runPasses .standard conditionals [.inferMatchResults, .generateBytecode] = .ok g' ∧
      g'.FitsWords ∧
      ∀ (i : Nat) (r r' : Rule), conditionals.rules[i]? = some r → g'.rules[i]? = some r' →
        ∃ code, r'.bytecode = some code ∧ ∀ (α : Type) (σ : Setting) (h : Host α), h.Obeys σ →
          conditionals.Follows g' σ h r.body code := by
  have hwell : conditionals.WellFormed := by
    refine ⟨by decide, ?_, ?_, by decide⟩
    · rw [← Grammar.undefinedRule?_eq_none_iff]
      decide +kernel
    · simp [conditionals, Build.grammar, Build.rule, Build.zeroOrMore, Build.choice,
        Build.sequence, Build.action, Build.labeled, Build.apply, Build.semanticAnd,
        Build.simpleNot, Build.optional, Build.literal, Build.literalIgnoringCase,
        Build.charClass, Build.ruleRef, Build.named, Build.text, Build.oneOrMore, Build.leaf]
  have hstable : ∀ v ∈ conditionals.foldedLiterals, Text.CaseStable v := by
    intro v hv
    obtain rfl | rfl : v = "if" ∨ v = "else" := by simpa using (show v ∈ ["if", "else"] from hv)
    · exact Text.caseStable_of_not_dotted (by decide)
    · exact Text.caseStable_of_not_dotted (by decide)
  obtain ⟨g', hrun, -, hfollows⟩ :=
    (matching_preserved_for_stable_literals .standard).1 conditionals hwell hstable
  have hfits : g'.FitsWords := by
    have hall : (runPasses .standard conditionals
        [.inferMatchResults, .generateBytecode]).toOption.all (fun g => decide g.FitsWords) := by
      decide +kernel
    rw [hrun] at hall
    exact of_decide_eq_true hall
  exact ⟨hwell, hstable, g', hrun, hfits, hfollows hfits⟩

/-- Behind a dotted `i` in two characters evaluation is at 2 and the code at 1. -/
theorem dotted_literal_not_preserved :
    (foldedLiteral "İ").WellFormed ∧ ¬(foldedLiteral "İ").PreservesMatching .standard ∧
    Goal.eval (foldedLiteral "İ").rules ⟨"i\u0307".toList, fun _ _ => true, fun _ _ => true⟩ 1
      (.expr (Build.literalIgnoringCase "İ")) 0 = some (some 2) ∧
    (runPasses .standard (foldedLiteral "İ") [.inferMatchResults, .generateBytecode]).map
      (fun g => (g.rules.map (·.bytecode),
        (g.runCode ⟨"i\u0307".toList, fun _ _ => true, fun _ _ => true⟩
          (⟨fun _ _ _ _ => .undefined, fun _ _ _ => true⟩ : Host Unit) 3
          [19, 0, 2, 2, 21, 1, 23, 0] ⟨0, 0, 0, [], []⟩).map (·.position))) =
      .ok ([some [19, 0, 2, 2, 21, 1, 23, 0]], some 1) := by
  have hunstable : ¬Text.CaseStable "İ" := by
    intro h
    have hlength := h.length_eq
    revert hlength
    decide
  refine ⟨foldedLiteral_wellFormed "İ",
    not_preserves_of_not_caseStable .standard (by decide) hunstable, rfl,
    eq_ok_of_toOption (by decide +kernel)⟩

end PegCompiler
