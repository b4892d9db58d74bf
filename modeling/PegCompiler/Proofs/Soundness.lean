import PegCompiler.Grammar.Build
import PegCompiler.Proofs.Evaluation
import PegCompiler.Proofs.Settling

/-!
# Inferred outcomes are sound

What always succeeds does not fail, and what never does not succeed. It is enough that what is known
of each rule follows from its body when all else is known: an evaluation that comes to an end is a
finite derivation, and the induction goes over that.
-/

namespace PegCompiler

/-- Whether a result agrees with the outcome. -/
def Outcome.Admits : Outcome → Option Nat → Prop
  | always, result => result.isSome
  | sometimes, _ => True
  | never, result => result = none

theorem Outcome.admits_iff {o : Outcome} {result : Option Nat} :
    o.Admits result ↔ (o = always → result ≠ none) ∧ (o = never → result = none) := by
  cases o <;> simp [Admits, Option.isSome_iff_ne_none]

theorem Outcome.Admits.ne_never {o : Outcome} {p : Nat} (h : o.Admits (some p)) : o ≠ never := by
  rintro rfl
  cases h

theorem Outcome.Admits.ne_always {o : Outcome} (h : o.Admits none) : o ≠ always := by
  rintro rfl
  cases h

theorem Outcome.Below.admits {o o' : Outcome} {result : Option Nat} (h : o.Below o')
    (h' : o'.Admits result) : o.Admits result := by
  rcases h with rfl | rfl
  · trivial
  · exact h'

theorem Leaf.admits_match? (σ : Setting) (p : Nat) (l : Leaf) :
    l.outcome.Admits (l.match? σ p) := by
  cases l with
  | literal value ignoreCase =>
      by_cases hv : value = ""
      · subst hv
        cases ignoreCase <;> simp [outcome, match?, Outcome.Admits]
      · simp [outcome, hv, Outcome.Admits]
  | charClass set =>
      by_cases hs : set.parts = []
      · simp [outcome, match?, hs, Outcome.Admits]
      · simp [outcome, hs, Outcome.Admits]
  | _ => trivial

theorem Operator.admits_result {op : Operator} {o : Outcome} {p : Nat} {body : Option Nat}
    (hop : op.repetition? = none) (h : o.Admits body) :
    (op.outcome o).Admits (op.result p body) := by
  cases op with
  | zeroOrMore | oneOrMore => cases hop
  | simpleAnd => cases o <;> simp_all [outcome, result, Outcome.Admits]
  | simpleNot => cases o <;> simp_all [outcome, result, Outcome.invert, Outcome.Admits]
  | optional => rfl
  | _ => exact h

/-- Whether a result agrees with the outcomes of what there is to evaluate. One alternative that
always succeeds is enough. -/
def Goal.Admits (known : String → Outcome) (result : Option Nat) : Goal → Prop
  | expr e => (e.outcomeGiven known).Admits result
  | first es => ((∃ e ∈ es, e.outcomeGiven known = .always) → result.isSome) ∧
      ((∀ e ∈ es, e.outcomeGiven known = .never) → result = none)
  | all es => ((∀ e ∈ es, e.outcomeGiven known = .always) → result.isSome) ∧
      ((∃ e ∈ es, e.outcomeGiven known = .never) → result = none)
  | many _ => result.isSome

/-- Whether what is known of each rule follows from its body when all else is known. -/
def Consistent (rules : List Rule) (known : String → Outcome) : Prop :=
  ∀ name r, findRule? rules name = some r → (known name).Below (r.body.outcomeGiven known)

def Goal.ChoicesNonempty : Goal → Prop
  | expr e => e.ChoicesNonempty
  | first es => ∀ e ∈ es, e.ChoicesNonempty
  | all es => ∀ e ∈ es, e.ChoicesNonempty
  | many e => e.ChoicesNonempty

namespace Goal.Admits

variable {known : String → Outcome} {t : Tag} {e : Expr} {es : List Expr} {q : Nat}
  {o : Option Nat}

theorem choice (hne : es ≠ []) (h : (first es).Admits known o) :
    (expr (.choice t es)).Admits known o := by
  obtain ⟨halways, hnever⟩ := h
  simp only [Goal.Admits, Expr.outcomeGiven_choice]
  cases ho : Outcome.ofChoice (es.map (Expr.outcomeGiven known)) with
  | always =>
      obtain ⟨e, he⟩ := List.exists_mem_of_ne_nil es hne
      refine halways ⟨e, he, ?_⟩
      exact Outcome.ofChoice_eq_always.mp ho _ (List.mem_map_of_mem he)
  | sometimes => trivial
  | never =>
      refine hnever fun e he => ?_
      exact (Outcome.ofChoice_eq_never.mp ho).2 _ (List.mem_map_of_mem he)

theorem sequence (h : (all es).Admits known o) : (expr (.sequence t es)).Admits known o := by
  obtain ⟨halways, hnever⟩ := h
  simp only [Goal.Admits, Expr.outcomeGiven_sequence]
  cases ho : Outcome.ofSequence (es.map (Expr.outcomeGiven known)) with
  | always =>
      refine halways fun e he => ?_
      exact Outcome.ofSequence_eq_always.mp ho _ (List.mem_map_of_mem he)
  | sometimes => trivial
  | never => exact hnever (List.mem_map.mp (Outcome.ofSequence_eq_never.mp ho))

theorem oneOrMore (h : (expr e).Admits known (some q)) (hmany : (many e).Admits known o) :
    (expr (.apply t .oneOrMore e)).Admits known o := by
  simp only [Goal.Admits, Expr.outcomeGiven, Operator.outcome]
  cases ho : e.outcomeGiven known with
  | always => exact hmany
  | sometimes => trivial
  | never => exact absurd ho h.ne_never

theorem firstHere (h : (expr e).Admits known (some q)) :
    (first (e :: es)).Admits known (some q) := by
  constructor
  · intro _
    rfl
  · intro hnever
    exact absurd (hnever e (List.mem_cons_self ..)) h.ne_never

theorem firstLater (h : (expr e).Admits known none) (hrest : (first es).Admits known o) :
    (first (e :: es)).Admits known o := by
  obtain ⟨halways, hnever⟩ := hrest
  constructor
  · rintro ⟨e', he', ho⟩
    rcases List.mem_cons.mp he' with rfl | he'
    · exact absurd ho h.ne_always
    · exact halways ⟨e', he', ho⟩
  · intro hn
    exact hnever fun e' he' => hn e' (List.mem_cons_of_mem e he')

theorem allStop (h : (expr e).Admits known none) : (all (e :: es)).Admits known none := by
  constructor
  · intro halways
    exact absurd (halways e (List.mem_cons_self ..)) h.ne_always
  · intro _
    rfl

theorem allGo (h : (expr e).Admits known (some q)) (hrest : (all es).Admits known o) :
    (all (e :: es)).Admits known o := by
  obtain ⟨halways, hnever⟩ := hrest
  constructor
  · intro ha
    exact halways fun e' he' => ha e' (List.mem_cons_of_mem e he')
  · rintro ⟨e', he', ho⟩
    rcases List.mem_cons.mp he' with rfl | he'
    · exact absurd ho h.ne_never
    · exact hnever ⟨e', he', ho⟩

end Goal.Admits

theorem Parses.admits {rules : List Rule} {known : String → Outcome} {σ : Setting}
    (hknown : Consistent rules known) (hrules : ∀ r ∈ rules, r.body.ChoicesNonempty) {g : Goal}
    {p : Nat} {o : Option Nat} (h : Parses rules σ g p o) (hg : g.ChoicesNonempty) :
    g.Admits known o := by
  induction h with
  | @leaf t l p o hl ho =>
      have hadmits := Leaf.admits_match? σ p l
      rw [ho] at hadmits
      cases l with
      | ruleRef name => exact absurd rfl (hl name)
      | _ => exact hadmits
  | @ref t name r p o hr _ ih =>
      have hbody := ih (hrules r (mem_of_findRule? hr))
      exact (hknown name r hr).admits hbody
  | choice _ ih =>
      obtain ⟨hne, hes⟩ := Expr.choicesNonempty_choice.mp hg
      exact .choice hne (ih hes)
  | sequence _ ih => exact .sequence (ih (Expr.choicesNonempty_sequence.mp hg))
  | @apply t op e p body o hop _ ho ih =>
      have hbody : (e.outcomeGiven known).Admits body := ih (Expr.choicesNonempty_apply.mp hg)
      subst ho
      exact Operator.admits_result hop hbody
  | zeroOrMore _ ih => exact ih (Expr.choicesNonempty_apply.mp hg)
  | noneOfMany _ ih => exact ih (Expr.choicesNonempty_apply.mp hg)
  | oneOrMore _ _ ih ihmany =>
      have he := Expr.choicesNonempty_apply.mp hg
      exact .oneOrMore (ih he) (ihmany he)
  | firstNil => exact ⟨by simp, fun _ => rfl⟩
  | firstHere _ ih =>
      obtain ⟨he, -⟩ := List.forall_mem_cons.mp hg
      exact .firstHere (ih he)
  | firstLater _ _ ih ihrest =>
      obtain ⟨he, hes⟩ := List.forall_mem_cons.mp hg
      exact .firstLater (ih he) (ihrest hes)
  | allNil => exact ⟨fun _ => rfl, by simp⟩
  | allStop _ ih =>
      obtain ⟨he, -⟩ := List.forall_mem_cons.mp hg
      exact .allStop (ih he)
  | allGo _ _ ih ihrest =>
      obtain ⟨he, hes⟩ := List.forall_mem_cons.mp hg
      exact .allGo (ih he) (ihrest hes)
  | manyStop => rfl
  | manyGo _ _ _ ihmany => exact ihmany hg

/-! ## Evaluation after inference -/

open Inference

/-- What there is to evaluate, with an outcome at every node. -/
def Goal.annotate (k : String → Outcome) : Goal → Goal
  | expr e => expr (e.annotate k)
  | first es => first (es.map (Expr.annotate k))
  | all es => all (es.map (Expr.annotate k))
  | many e => many (e.annotate k)

theorem Goal.eval_annotate {rules : List Rule} {σ : Setting} (k : String → Outcome) (fuel : Nat)
    (g : Goal) (p : Nat) : (g.annotate k).eval rules σ fuel p = g.eval rules σ fuel p := by
  fun_induction Goal.eval rules σ fuel g p with
  | case1 => rfl
  | case2 fuel t es p ih => rw [annotate, Expr.annotate_choice, eval]; exact ih
  | case3 fuel t es p ih => rw [annotate, Expr.annotate_sequence, eval]; exact ih
  | case4 fuel t name p ih => rfl
  | case5 fuel t p l hl => rw [annotate, Expr.annotate, eval]; exact hl
  | case6 fuel t e p ih => exact ih
  | case7 fuel t e p ih ihmany =>
      simp only [annotate] at ih ihmany
      simp only [annotate, Expr.annotate, eval, ih, ihmany]
  | case8 fuel t op e p hz ho ih =>
      simp only [annotate] at ih
      rw [annotate, Expr.annotate, eval, ih] <;> assumption
  | case9 => rfl
  | case10 fuel e es p ih ihrest =>
      simp only [annotate] at ih ihrest
      simp only [annotate, List.map_cons, eval, ih, ihrest]
  | case11 => rfl
  | case12 fuel e es p ih ihrest =>
      simp only [annotate] at ih ihrest
      simp only [annotate, List.map_cons, eval, ih, ihrest]
  | case13 fuel e p ih ihmany =>
      simp only [annotate] at ih ihmany
      simp only [annotate, eval, ih, ihmany]

theorem Inference.Progress.findRule? {rules rules' : List Rule} (h : Progress rules rules')
    (name : String) : (PegCompiler.findRule? rules name = none ∧
      PegCompiler.findRule? rules' name = none) ∨
    ∃ r r', PegCompiler.findRule? rules name = some r ∧
      PegCompiler.findRule? rules' name = some r' ∧
      (r' = r ∨ ∃ k, r' = settled k r) := by
  rw [findRule?_eq_getElem?, findRule?_eq_getElem?, ruleIndex?_congr h.names]
  cases hi : ruleIndex? rules name with
  | none => exact .inl ⟨rfl, rfl⟩
  | some i =>
      have hr := List.getElem?_eq_getElem (ruleIndex?_lt hi)
      obtain ⟨r', hr', hstep⟩ := h.step i _ hr
      exact .inr ⟨_, r', hr, hr', hstep.imp_right fun ⟨_, k, _, h⟩ => ⟨k, h⟩⟩

/-- Inference does not change what a grammar matches. -/
theorem Goal.eval_of_progress {rules rules' : List Rule} (h : Progress rules rules') (σ : Setting)
    (fuel : Nat) (g : Goal) (p : Nat) : g.eval rules' σ fuel p = g.eval rules σ fuel p := by
  fun_induction Goal.eval rules' σ fuel g p with
  | case1 => rfl
  | case2 fuel t es p ih => exact ih
  | case3 fuel t es p ih => exact ih
  | case4 fuel t name p ih =>
      rcases h.findRule? name with ⟨hr, hr'⟩ | ⟨r, r', hr, hr', hstep⟩
      · rw [eval, hr, hr']
        rfl
      · rw [eval, hr, hr', Option.bind_some, Option.bind_some, ih]
        rcases hstep with rfl | ⟨k, rfl⟩
        · rfl
        · exact eval_annotate k fuel (expr r.body) p
  | case5 fuel t p l hl => rw [eval]; exact hl
  | case6 fuel t e p ih => exact ih
  | case7 fuel t e p ih ihmany => simp only [eval, ih, ihmany]
  | case8 fuel t op e p hz ho ih => rw [eval, ih] <;> assumption
  | case9 => rfl
  | case10 fuel e es p ih ihrest => simp only [eval, ih, ihrest]
  | case11 => rfl
  | case12 fuel e es p ih ihrest => simp only [eval, ih, ihrest]
  | case13 fuel e p ih ihmany => simp only [eval, ih, ihmany]

/-! ## Soundness -/

/-- Every rule was settled when none had an outcome before. -/
theorem Inference.Progress.exists_settled {rules rules' : List Rule} (h : Progress rules rules')
    (hnone : ∀ r ∈ rules, r.outcome = none) (hsome : ∀ r ∈ rules', r.outcome.isSome) {r' : Rule}
    (hr' : r' ∈ rules') : ∃ r ∈ rules, ∃ k, Under k rules' ∧ r' = settled k r := by
  obtain ⟨r, hr, rfl | ⟨-, k, hk, rfl⟩⟩ := h.exists_source hr'
  · have hnot := hsome r' hr'
    rw [hnone r' hr] at hnot
    cases hnot
  · exact ⟨r, hr, k, hk, rfl⟩

section Sound

variable {rules rules' : List Rule} {σ : Setting}

theorem consistent_known (h : Progress rules rules') (hnone : ∀ r ∈ rules, r.outcome = none)
    (hsome : ∀ r ∈ rules', r.outcome.isSome) : Consistent rules' (known rules') := by
  intro name r' hr'
  obtain ⟨r, -, k, hk, rfl⟩ := h.exists_settled hnone hsome (mem_of_findRule? hr')
  have hlookup : lookup rules' name = some (r.body.outcomeGiven k) := by
    rw [lookup_eq_findRule?, hr']
    rfl
  rw [known_of_lookup hlookup, settled, Expr.outcomeGiven_annotate]
  exact Expr.outcomeGiven_below hk r.body

theorem choicesNonempty_of_progress (h : Progress rules rules')
    (hnone : ∀ r ∈ rules, r.outcome = none) (hsome : ∀ r ∈ rules', r.outcome.isSome)
    (hchoices : ∀ r ∈ rules, r.body.ChoicesNonempty) : ∀ r ∈ rules', r.body.ChoicesNonempty := by
  intro r' hr'
  obtain ⟨r, hr, k, -, rfl⟩ := h.exists_settled hnone hsome hr'
  exact Expr.choicesNonempty_annotate.mpr (hchoices r hr)

/-- The outcome of a node says no more than what follows from those of the rules. -/
theorem outcome_below_known (h : Progress rules rules') (hnone : ∀ r ∈ rules, r.outcome = none)
    (hsome : ∀ r ∈ rules', r.outcome.isSome) {r' : Rule} (hr' : r' ∈ rules') {n : Expr}
    (hn : n ∈ r'.body.nodes) : n.outcome.Below (n.outcomeGiven (known rules')) := by
  obtain ⟨r, -, k, hk, rfl⟩ := h.exists_settled hnone hsome hr'
  obtain ⟨m, -, rfl⟩ := List.mem_map.mp (Expr.nodes_annotate r.body ▸ hn)
  rw [Expr.outcome_annotate, Expr.outcomeGiven_annotate]
  exact Expr.outcomeGiven_below hk m

theorem admits_of_progress (h : Progress rules rules') (hnone : ∀ r ∈ rules, r.outcome = none)
    (hsome : ∀ r ∈ rules', r.outcome.isSome) (hchoices : ∀ r ∈ rules, r.body.ChoicesNonempty)
    {r' : Rule} (hr' : r' ∈ rules') {n : Expr} (hn : n ∈ r'.body.nodes) {p : Nat}
    {result : Option Nat} (hresult : Parses rules' σ (.expr n) p result) :
    n.outcome.Admits result := by
  have hchoices' := choicesNonempty_of_progress h hnone hsome hchoices
  have hnode : n.ChoicesNonempty := fun t ht => hchoices' r' hr' t (Expr.mem_nodes_trans ht hn)
  exact (outcome_below_known h hnone hsome hr' hn).admits
    (hresult.admits (consistent_known h hnone hsome) hchoices' hnode)

end Sound

/-- After inference, a node that is said to match always does not fail and one that is said to match
never does not succeed, and the same holds of what is said of the rules. -/
theorem inferred_outcomes_sound {o : Options} {g g' : Grammar}
    (hnone : ∀ r ∈ g.rules, r.outcome = none) (hchoices : ∀ r ∈ g.rules, r.body.ChoicesNonempty)
    (h : Pass.inferMatchResults.run o g = (g', .ok ())) (σ : Setting) (r : Rule)
    (hr : r ∈ g'.rules) (p : Nat) :
    (∀ n ∈ r.body.nodes, ∀ fuel result, Goal.eval g.rules σ fuel (.expr n) p = some result →
      (n.outcome = .always → result ≠ none) ∧ (n.outcome = .never → result = none)) ∧
    ∀ fuel result, Goal.eval g.rules σ fuel (.expr r.body) p = some result →
      (r.outcome = some .always → result ≠ none) ∧ (r.outcome = some .never → result = none) := by
  have hinfer : inferOutcomes g.rules = (g'.rules, .ok ()) := by
    simp only [Pass.run, Prod.mk.injEq] at h
    exact Prod.ext (congrArg Grammar.rules h.1) h.2
  rcases inferOutcomes_spec g.rules with ⟨rules', hok, hprog, hsome⟩ | ⟨rules', defect, herror, -⟩
  · obtain rfl : rules' = g'.rules := (Prod.mk.inj (hok.symm.trans hinfer)).1
    have hadmits : ∀ n ∈ r.body.nodes, ∀ fuel result,
        Goal.eval g.rules σ fuel (.expr n) p = some result → n.outcome.Admits result := by
      intro n hn fuel result heval
      rw [← Goal.eval_of_progress hprog] at heval
      exact admits_of_progress hprog hnone hsome hchoices hr hn (.of_eval heval)
    refine ⟨fun n hn fuel result heval => Outcome.admits_iff.mp (hadmits n hn fuel result heval),
      fun fuel result heval => ?_⟩
    have hbody := hadmits r.body r.body.self_mem_nodes fuel result heval
    obtain ⟨s, -, k, -, rfl⟩ := hprog.exists_settled hnone hsome hr
    rw [settled, Expr.outcome_annotate, Outcome.admits_iff] at hbody
    simpa [settled] using hbody
  · cases herror.symm.trans hinfer

open Build in
/-- Parentheses that nothing closes: what follows them is always there, and must not be. -/
def neverClosed : Grammar :=
  grammar
    [rule "start" (sequence [literal "(", ruleRef "tail", simpleNot (ruleRef "tail")]),
      rule "tail" (choice [optional (ruleRef "start"), literal ""])]

theorem neverClosed_never_matches :
    (∀ r ∈ neverClosed.rules, r.outcome = none) ∧
    (∀ r ∈ neverClosed.rules, r.body.ChoicesNonempty) ∧
    (Pass.inferMatchResults.run .standard neverClosed).2 = .ok () ∧
    ∃ r ∈ (Pass.inferMatchResults.run .standard neverClosed).1.rules, r.outcome = some .never ∧
      ∀ fuel result, Goal.eval neverClosed.rules ⟨"((".toList, fun _ _ => true, fun _ _ => true⟩
        fuel (.expr r.body) 0 = some result → result = none := by
  have hnone : ∀ r ∈ neverClosed.rules, r.outcome = none := by
    simp [neverClosed, Build.grammar, Build.rule]
  have hchoices : ∀ r ∈ neverClosed.rules, r.body.ChoicesNonempty := by
    simp [neverClosed, Build.grammar, Build.rule, Build.sequence, Build.choice, Build.optional,
      Build.simpleNot, Build.apply, Build.literal, Build.ruleRef, Build.leaf]
  have hok : Pass.inferMatchResults.Accepts .standard neverClosed := by decide +kernel
  have hrun : Pass.inferMatchResults.run .standard neverClosed =
      ((Pass.inferMatchResults.run .standard neverClosed).1, .ok ()) := Prod.ext rfl hok
  have hfirst : (Pass.inferMatchResults.run .standard neverClosed).1.rules.head?.map (·.outcome) =
      some (some .never) := by decide +kernel
  obtain ⟨r, hr, ho⟩ := Option.map_eq_some_iff.mp hfirst
  refine ⟨hnone, hchoices, hok, r, List.mem_of_head? hr, ho, fun fuel result heval => ?_⟩
  exact ((inferred_outcomes_sound hnone hchoices hrun _ r (List.mem_of_head? hr) 0).2 fuel result
    heval).2 ho

end PegCompiler
