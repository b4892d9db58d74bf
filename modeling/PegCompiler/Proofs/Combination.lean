import Mathlib.Logic.Basic
import PegCompiler.Proofs.Estimates

/-!
# Outcomes that agree within the tree

After inference the outcome of a node is the one that follows from those that stand at its children,
and the outcome of a rule is the one that stands at its body. Only a reference may say less than the
rule that it names: it says `sometimes` if that rule was still open when the body with the reference
was gone over for the last time. A rule is not open to itself then, so what it says of itself is
what it comes to.
-/

namespace PegCompiler

open Inference

namespace Expr

/-- Whether the outcome of the node is the one that follows from those that stand at its children.
A reference has no children that it could follow from. -/
def Combines : Expr → Prop
  | choice t es =>
      (t.outcome = .always ↔ ∀ e ∈ es, e.outcome = .always) ∧
        (t.outcome = .never ↔ es ≠ [] ∧ ∀ e ∈ es, e.outcome = .never)
  | sequence t es =>
      (t.outcome = .always ↔ ∀ e ∈ es, e.outcome = .always) ∧
        (t.outcome = .never ↔ ∃ e ∈ es, e.outcome = .never)
  | apply t .simpleNot e => t.outcome = e.outcome.invert
  | apply t .optional _ | apply t .zeroOrMore _ => t.outcome = .always
  | apply t _ e => t.outcome = e.outcome
  | leaf _ (.ruleRef _) => True
  | leaf t (.literal value _) => t.outcome = if value = "" then .always else .sometimes
  | leaf t (.charClass set) => t.outcome = if set.parts = [] then .never else .sometimes
  | leaf t _ => t.outcome = .sometimes

variable {known : String → Outcome}

theorem combines_annotate (e : Expr) : (e.annotate known).Combines := by
  cases e with
  | choice t es =>
      rw [annotate_choice, outcomeGiven_choice, Combines, Outcome.ofChoice_eq_always,
        Outcome.ofChoice_eq_never]
      simp
  | sequence t es =>
      rw [annotate_sequence, outcomeGiven_sequence, Combines, Outcome.ofSequence_eq_always,
        Outcome.ofSequence_eq_never]
      simp
  | apply t op e =>
      rw [annotate]
      cases op <;> simp [Combines, Operator.outcome]
  | leaf t l =>
      rw [annotate]
      cases l <;> simp [Combines, outcomeGiven, Leaf.outcome]

theorem ref?_annotate (e : Expr) : (e.annotate known).ref? = e.ref? := by
  cases e with
  | leaf t l => cases l <;> rfl
  | _ => rfl

theorem outcomeGiven_of_ref? {e : Expr} {ref : RuleRef} (h : e.ref? = some ref) :
    e.outcomeGiven known = known ref.name := by
  cases e with
  | leaf t l =>
      cases l with
      | ruleRef name =>
          obtain rfl := Option.some.inj h
          rfl
      | _ => cases h
  | _ => cases h

end Expr

/-- What stands at a reference once its body has been gone over: the outcome of the rule that it
names, or `sometimes` if that rule was pending. -/
theorem Inference.Estimates.outcome_of_ref? {pending : Nat → Prop} {rules rules' : List Rule}
    {body : Expr} {k : String → Outcome} (h : Estimates pending rules rules' body k) {n : Expr}
    (hn : n ∈ (body.annotate k).nodes) {ref : RuleRef} (href : n.ref? = some ref) :
    ∃ m s, ruleIndex? rules ref.name = some m ∧ rules'[m]? = some s ∧
      (s.outcome = some n.outcome ∨ n.outcome = .sometimes ∧ pending m) := by
  obtain ⟨e, he, rfl⟩ := List.mem_map.mp (Expr.nodes_annotate body ▸ hn)
  rw [Expr.ref?_annotate] at href
  obtain ⟨m, o, hm, ho, hcase⟩ := h.ref ref (List.mem_filterMap.mpr ⟨e, he, href⟩)
  obtain ⟨s, hs, hso⟩ := Option.bind_eq_some_iff.mp ho
  rw [Expr.outcome_annotate, Expr.outcomeGiven_of_ref? href]
  exact ⟨m, s, hm, hs, hcase.imp_left fun (hright : k ref.name = o) => hright ▸ hso⟩

/-- What inference makes of a rule without an outcome agrees within its tree. A reference says what
the rule that it names comes to, or else `sometimes`, and that only if the one that it names is
another rule that may have been open. -/
theorem inferred_tree_agrees {o : Options} {g g' : Grammar}
    (hrun : Pass.inferMatchResults.run o g = (g', .ok ())) {j : Nat} {r : Rule}
    (hr : g'.rules[j]? = some r) (hnone : outcomeAt? g.rules j = none) :
    r.outcome = some r.body.outcome ∧
      (∀ n ∈ r.body.nodes, n.Combines) ∧
      ∀ n ∈ r.body.nodes, ∀ ref, n.ref? = some ref →
        ∃ m s, ruleIndex? g'.rules ref.name = some m ∧ g'.rules[m]? = some s ∧
          (s.outcome = some n.outcome ∨ n.outcome = .sometimes ∧ MayBeOpen g.rules m j) ∧
          (m = j → s.outcome = some n.outcome) := by
  have hinfer := Pass.inferOutcomes_of_run hrun
  have hprog := progress_of_inferRules (fun i hi => List.mem_range.mp hi) hinfer
  obtain ⟨s, hs, -⟩ := hprog.exists_source_at hr
  rw [outcomeAt?, hs, Option.bind_some] at hnone
  obtain ⟨k, hk, hsettled⟩ := estimates_of_inferOutcomes hinfer hs hnone
  obtain rfl : settled k s = r := Option.some.inj (hsettled.symm.trans hr)
  have houtcome : (s.body.annotate k).outcome = s.body.outcomeGiven k :=
    Expr.outcome_annotate s.body
  refine ⟨congrArg some houtcome.symm, fun n hn => ?_, fun n hn ref href => ?_⟩
  · obtain ⟨e, -, rfl⟩ := List.mem_map.mp (Expr.nodes_annotate s.body ▸ hn)
    exact Expr.combines_annotate e
  · obtain ⟨m, s', hm, hs', hcase⟩ := hk.outcome_of_ref? hn href
    refine ⟨m, s', (ruleIndex?_congr hprog.names _).trans hm, hs', hcase, ?_⟩
    rintro rfl
    -- a rule is never open to itself when its body has been gone over for the last time
    exact hcase.resolve_right fun hopen => hopen.2.ne rfl

open Build in
/-- Statements, among them blocks of statements. -/
def nestedStatements : Grammar :=
  grammar
    [rule "statements" (optional (sequence [ruleRef "statement", ruleRef "statements"])),
      rule "statement"
        (choice [literal ";", sequence [literal "begin", ruleRef "statements", literal "end"]])]

/-- A statement is settled while the statements are open, so the reference in a block says
`sometimes` though they are always there. -/
theorem nestedStatements_agrees :
    ∃ g' r, Pass.inferMatchResults.run .standard nestedStatements = (g', .ok ()) ∧
      g'.rules[1]? = some r ∧ outcomeAt? nestedStatements.rules 1 = none ∧
      r.outcome = some r.body.outcome ∧ (∀ n ∈ r.body.nodes, n.Combines) ∧
      outcomeAt? g'.rules 0 = some .always ∧
      ∃ n ∈ r.body.nodes, n.ref? = some ⟨"statements", .unknown⟩ ∧ n.outcome = .sometimes ∧
        MayBeOpen nestedStatements.rules 0 1 := by
  have hrun : Pass.inferMatchResults.Accepts .standard nestedStatements := by decide +kernel
  have hstale : (Pass.inferMatchResults.run .standard nestedStatements).1.rules[1]?.any (fun r =>
      r.body.nodes.any fun n =>
        n.ref? = some ⟨"statements", .unknown⟩ ∧ n.outcome = .sometimes) := by
    decide +kernel
  have halways : outcomeAt? (Pass.inferMatchResults.run .standard nestedStatements).1.rules 0 =
      some .always := by
    decide +kernel
  have hfirst : ruleIndex? (Pass.inferMatchResults.run .standard nestedStatements).1.rules
      "statements" = some 0 := by
    decide +kernel
  obtain ⟨r, hr, hstale⟩ := (Option.any_eq_true _ _).mp hstale
  obtain ⟨n, hn, hstale⟩ := List.any_eq_true.mp hstale
  obtain ⟨href, hsometimes⟩ := of_decide_eq_true hstale
  obtain ⟨houtcome, hcombines, hrefs⟩ := inferred_tree_agrees (Prod.ext rfl hrun) hr rfl
  refine ⟨_, r, Prod.ext rfl hrun, hr, rfl, houtcome, hcombines, halways, n, hn, href,
    hsometimes, ?_⟩
  obtain ⟨m, s, hm, hs, hright | ⟨-, hopen⟩, -⟩ := hrefs n hn _ href
  · obtain rfl : m = 0 := Option.some.inj (hm.symm.trans hfirst)
    rw [outcomeAt?, hs, Option.bind_some, hright, hsometimes] at halways
    cases halways
  · exact Option.some.inj (hm.symm.trans hfirst) ▸ hopen

end PegCompiler
