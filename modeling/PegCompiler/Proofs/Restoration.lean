import PegCompiler.Proofs.Revision
import PegCompiler.Proofs.Rounds

/-!
# Inference annotates and changes nothing else

The body of a rule is missing from the rules while it is gone over. However that ends, what is put
back is the expression that was taken out, but for the outcomes of its nodes. Rules that have an
outcome are left alone, and as a rule is open with one, its missing body is never met.
-/

namespace PegCompiler

open Inference

/-- The expression without what is known of its nodes. -/
def Expr.bare (e : Expr) : Expr :=
  e.revise (fun _ => .sometimes) id

def Rule.bare (r : Rule) : Rule :=
  { r with body := r.body.bare, outcome := none }

def Grammar.bare (g : Grammar) : Grammar :=
  { g with rules := g.rules.map Rule.bare }

namespace Expr

variable {t : Tag} {es es' : List Expr} {op : Operator} {e e' : Expr}

@[simp] theorem bare_withOutcome (o : Outcome) (e : Expr) : (e.withOutcome o).bare = e.bare := by
  cases e <;> simp [withOutcome, withTag, tag, bare, revise]

theorem bare_choice (h : es'.map bare = es.map bare) :
    (choice t es').bare = (choice t es).bare := by
  rw [bare, bare, revise_choice, revise_choice]
  exact congrArg _ h

theorem bare_sequence (h : es'.map bare = es.map bare) :
    (sequence t es').bare = (sequence t es).bare := by
  rw [bare, bare, revise_sequence, revise_sequence]
  exact congrArg _ h

theorem bare_apply (h : e'.bare = e.bare) : (apply t op e').bare = (apply t op e).bare := by
  rw [bare, bare, revise, revise]
  exact congrArg _ h

end Expr

namespace Visit

variable {α β : Type} {v : Visit α β} {build : α → Expr} {outcome : β → Outcome}

theorem rules_node : (v.node build outcome).rules = v.rules := by
  rw [node]
  cases v.found <;> rfl

theorem bare_node : (v.node build outcome).tree.bare = (build v.tree).bare := by
  rw [node]
  cases v.found with
  | ok b => exact Expr.bare_withOutcome _ _
  | error defect => rfl

end Visit

namespace Inference

/-- Whether rules are the same but for what is known of them, and those with an outcome are the same
altogether. -/
structure Kept (rules rules' : List Rule) : Prop where
  bare : ∀ i : Nat, rules'[i]?.map Rule.bare = rules[i]?.map Rule.bare
  same : ∀ (i : Nat) (r : Rule), rules[i]? = some r → r.outcome.isSome → rules'[i]? = some r

namespace Kept

variable {rules rules' rules'' : List Rule} {i : Nat} {r : Rule}

theorem refl (rules : List Rule) : Kept rules rules :=
  ⟨fun _ => rfl, fun _ _ hr _ => hr⟩

theorem trans (h : Kept rules rules') (h' : Kept rules' rules'') : Kept rules rules'' :=
  ⟨fun i => (h'.bare i).trans (h.bare i),
    fun i r hr hsome => h'.same i r (h.same i r hr hsome) hsome⟩

theorem setOutcome (h : Kept rules rules') (hr : rules[i]? = some r) (hsome : r.outcome.isSome)
    (o : Outcome) : Kept (setOutcome i o rules) (setOutcome i o rules') := by
  have hself := getElem?_setOutcome_self (o := o) hr
  have hself' := getElem?_setOutcome_self (o := o) (h.same i r hr hsome)
  refine ⟨fun j => ?_, fun j s hs hsome => ?_⟩
  · by_cases hij : i = j
    · subst hij
      rw [hself, hself']
    · rw [getElem?_setOutcome_ne hij, getElem?_setOutcome_ne hij, h.bare j]
  · by_cases hij : i = j
    · subst hij
      rw [hself', ← hself, hs]
    · rw [getElem?_setOutcome_ne hij] at hs ⊢
      exact h.same j s hs hsome

/-- The body that was taken out of an open rule comes back. -/
theorem of_opened (hr : rules[i]? = some r) (hnone : r.outcome = none) {o : Outcome} {body : Expr}
    (h : Kept (Inference.setOutcome i o (opened i rules)) rules')
    (hbody : body.bare = r.body.bare) : Kept rules (setBody i body rules') := by
  have hself := h.same i _ (getElem?_setOutcome_self (getElem?_opened_self hr)) rfl
  have hother : ∀ j, i ≠ j →
      (Inference.setOutcome i o (opened i rules))[j]? = rules[j]? := fun j hij =>
    (getElem?_setOutcome_ne hij).trans (getElem?_opened_ne hij)
  refine ⟨fun j => ?_, fun j s hs hsome => ?_⟩
  · by_cases hij : i = j
    · subst hij
      rw [getElem?_setBody_self hself, hr, Option.map_some, Option.map_some, Rule.bare, hbody]
      rfl
    · rw [getElem?_setBody_ne hij, h.bare j, hother j hij]
  · have hij : i ≠ j := by
      rintro rfl
      obtain rfl := Option.some.inj (hr.symm.trans hs)
      simp [hnone] at hsome
    rw [getElem?_setBody_ne hij]
    exact h.same j s ((hother j hij).trans hs) hsome

end Kept

section Kept

variable {resolve : Resolver}

theorem inferList_kept {es : List Expr}
    (hes : ∀ e ∈ es, ∀ rules, Kept rules (e.infer resolve rules).rules ∧
      (e.infer resolve rules).tree.bare = e.bare) (rules : List Rule) :
    Kept rules (Expr.inferList resolve es rules).rules ∧
      (Expr.inferList resolve es rules).tree.map Expr.bare = es.map Expr.bare := by
  induction es generalizing rules with
  | nil => exact ⟨.refl rules, rfl⟩
  | cons e es ih =>
      obtain ⟨he, hes⟩ := List.forall_mem_cons.mp hes
      obtain ⟨hkept, htree⟩ := he rules
      rw [Expr.inferList, Visit.cons]
      split
      · obtain ⟨hkept', htree'⟩ := ih hes (e.infer resolve rules).rules
        exact ⟨hkept.trans hkept', by rw [List.map_cons, htree, htree', List.map_cons]⟩
      · exact ⟨hkept, by rw [List.map_cons, htree, List.map_cons]⟩

variable (h : ∀ ref rules, Kept rules (resolve ref rules).1)

include h

/-- A visit changes what is known of the nodes, also when it ends halfway. -/
theorem infer_kept (e : Expr) (rules : List Rule) :
    Kept rules (e.infer resolve rules).rules ∧ (e.infer resolve rules).tree.bare = e.bare := by
  induction e generalizing rules with
  | choice t es ih =>
      obtain ⟨hkept, htree⟩ := inferList_kept ih rules
      rw [Expr.infer, Visit.rules_node, Visit.bare_node]
      exact ⟨hkept, Expr.bare_choice htree⟩
  | sequence t es ih =>
      obtain ⟨hkept, htree⟩ := inferList_kept ih rules
      rw [Expr.infer, Visit.rules_node, Visit.bare_node]
      exact ⟨hkept, Expr.bare_sequence htree⟩
  | apply t op e ih =>
      obtain ⟨hkept, htree⟩ := ih rules
      rw [Expr.infer, Visit.rules_node, Visit.bare_node]
      exact ⟨hkept, Expr.bare_apply htree⟩
  | leaf t l =>
      cases l with
      | ruleRef name =>
          simp only [Expr.infer]
          rw [Visit.rules_node, Visit.bare_node]
          exact ⟨h _ rules, rfl⟩
      | _ =>
          rw [Expr.infer.eq_def]
          simp only
          rw [Visit.rules_node, Visit.bare_node]
          exact ⟨.refl rules, rfl⟩

/-- Going over the body of the `i`th rule changes its outcome and what is known of the others. -/
theorem settle_kept (repeats : Nat) (body : Expr) {i : Nat} {rules : List Rule} {r : Rule}
    {o : Outcome} (hr : rules[i]? = some r) (ho : r.outcome = some o) :
    (∃ o', Kept (setOutcome i o' rules) (settle resolve i repeats body rules).rules) ∧
      (settle resolve i repeats body rules).tree.bare = body.bare := by
  induction repeats generalizing body rules r o with
  | zero =>
      obtain ⟨hkept, htree⟩ := infer_kept h body rules
      rw [settle.eq_def]
      cases hv : (body.infer resolve rules).found with
      | error defect =>
          simp only [hv]
          exact ⟨⟨o, (setOutcome_eq_self hr ho).symm ▸ hkept⟩, htree⟩
      | ok o' =>
          simp only [hv]
          exact ⟨⟨o', hkept.setOutcome hr (Option.isSome_of_eq_some ho) o'⟩, htree⟩
  | succ repeats ih =>
      obtain ⟨hkept, htree⟩ := infer_kept h body rules
      cases hv : (body.infer resolve rules).found with
      | error defect =>
          rw [settle.eq_def]
          simp only [hv]
          exact ⟨⟨o, (setOutcome_eq_self hr ho).symm ▸ hkept⟩, htree⟩
      | ok o' =>
          have hsome := Option.isSome_of_eq_some ho
          rw [settle_of_ok repeats hv]
          split
          · exact ⟨⟨o', hkept.setOutcome hr hsome o'⟩, htree⟩
          · have hself := getElem?_setOutcome_self (o := o') (hkept.same i r hr hsome)
            obtain ⟨⟨o'', hlater⟩, hbare⟩ := ih (body.infer resolve rules).tree hself rfl
            rw [setOutcome_setOutcome] at hlater
            exact ⟨⟨o'', (hkept.setOutcome hr hsome o'').trans hlater⟩, hbare.trans htree⟩

/-- All rounds meet one expression, but for what is known of its nodes. -/
theorem bare_of_mem_rounds {i repeats : Nat} {body body' : Expr} {rules rules' : List Rule}
    (hmem : (body', rules') ∈ rounds resolve i repeats body rules) : body'.bare = body.bare := by
  induction repeats generalizing body rules with
  | zero =>
      rw [rounds.eq_def] at hmem
      cases hv : (body.infer resolve rules).found <;>
        · simp only [hv, List.mem_singleton] at hmem
          exact congrArg Expr.bare (Prod.mk.inj hmem).1
  | succ repeats ih =>
      cases hv : (body.infer resolve rules).found with
      | error defect =>
          rw [rounds_of_error hv, List.mem_singleton] at hmem
          exact congrArg Expr.bare (Prod.mk.inj hmem).1
      | ok o =>
          rw [rounds_of_ok _ hv] at hmem
          rcases List.mem_cons.mp hmem with hmem | hmem
          · exact congrArg Expr.bare (Prod.mk.inj hmem).1
          · split at hmem
            · cases hmem
            · exact (ih hmem).trans (infer_kept h body rules).2

end Kept

theorem resolver_kept {unknown : Nat} (h : ∀ i rules, Kept rules (inferRule unknown i rules).1)
    (ref : RuleRef) (rules : List Rule) : Kept rules (resolver unknown ref rules).1 := by
  rw [resolver]
  split
  · exact h _ rules
  · exact .refl rules

theorem inferRule_kept (unknown i : Nat) (rules : List Rule) :
    Kept rules (inferRule unknown i rules).1 := by
  induction unknown generalizing i rules with
  | zero =>
      rw [inferRule.eq_def]
      cases ho : outcomeAt? rules i <;>
        · simp only [ho]
          exact .refl rules
  | succ unknown ih =>
      cases ho : outcomeAt? rules i with
      | some o => exact inferRule_of_some ho ▸ .refl rules
      | none =>
          cases hr : rules[i]? with
          | none =>
              rw [inferRule.eq_def]
              simp only [ho, hr]
              exact .refl rules
          | some r =>
              rw [outcomeAt?, hr, Option.bind_some] at ho
              obtain ⟨⟨o, hkept⟩, htree⟩ := settle_kept (resolver_kept ih) maxRepeats r.body
                (getElem?_opened_self hr) rfl
              rw [inferRule_of_none hr ho]
              exact hkept.of_opened hr ho htree

theorem inferRules_kept (is : List Nat) (rules : List Rule) :
    Kept rules (inferRules is rules).1 := by
  induction is generalizing rules with
  | nil => exact .refl rules
  | cons i is ih =>
      have hfirst := inferRule_kept rules.length i rules
      rw [inferRules]
      split
      · next rules' o h =>
          rw [h] at hfirst
          exact hfirst.trans (ih rules')
      · next rules' defect h =>
          rw [h] at hfirst
          exact hfirst

end Inference

/-- Inference leaves the grammar as it was but for what is known of nodes and rules, and rules whose
outcome came with it altogether, also when it fails. What it goes over is always the body of a rule
as it stood in the grammar. -/
theorem inference_keeps_grammar (o : Options) (g : Grammar) :
    (Pass.inferMatchResults.run o g).1.bare = g.bare ∧
    (∀ (i : Nat) (r : Rule), g.rules[i]? = some r → r.outcome ≠ none →
      (Pass.inferMatchResults.run o g).1.rules[i]? = some r) ∧
    ∀ below i rules r, Entered g.rules (below + 1) i rules → rules[i]? = some r →
      r.outcome = none → g.rules[i]? = some r ∧
        ∀ round ∈ rounds (resolver below) i maxRepeats r.body (opened i rules),
          round.1.bare = r.body.bare := by
  have hkept : Kept g.rules (inferOutcomes g.rules).1 :=
    inferRules_kept (List.range g.rules.length) g.rules
  refine ⟨?_, fun i r hr hne => ?_, fun below i rules r h hr hnone => ⟨?_, fun round hround => ?_⟩⟩
  · have hrules : (inferOutcomes g.rules).1.map Rule.bare = g.rules.map Rule.bare := by
      refine List.ext_getElem? fun i => ?_
      rw [List.getElem?_map, List.getElem?_map, hkept.bare i]
    rw [Grammar.bare, Grammar.bare, ← hrules]
    rfl
  · exact hkept.same i r hr (Option.isSome_iff_ne_none.mpr hne)
  · exact h.spec.2.2 i r hr hnone
  · exact bare_of_mem_rounds (resolver_kept (inferRule_kept below)) hround

end PegCompiler
