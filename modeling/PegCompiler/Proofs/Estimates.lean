import PegCompiler.Proofs.Settling

/-!
# Outcomes that rest on estimates

A rule that is settled while others are open takes these as `sometimes`, and keeps the outcome that
it gets this way. So the outcome of a rule may say less than its body does in the end, but never
something else; and it says the same unless the body refers to a rule that may have been open then
and turned out to be definite.
-/

namespace PegCompiler

open Relation Inference

namespace Inference

/-- Whether the `m`th rule may be open when the `j`th one is settled, if the rules are inferred in
their order: one that stands before the `j`th leads to the `m`th, and the `m`th to the `j`th. -/
structure MayBeOpen (rules : List Rule) (m j : Nat) : Prop extends Pending rules m j where
  reached : ∃ t < j, ReflTransGen (Refers rules) t m

section Estimates

variable {rules rules' : List Rule} {i j : Nat} {o : Outcome} {s : Rule}

theorem Progress.mayBeOpen (h : Progress rules rules') {m : Nat} (hm : MayBeOpen rules' m j) :
    MayBeOpen rules m j := by
  obtain ⟨hpending, t, ht, hreached⟩ := hm
  exact ⟨h.pending hpending, t, ht, ReflTransGen.mono h.refers_le _ _ hreached⟩

/-- What a rule rests on that gets its outcome while the `i`th one is inferred. The `i`th one itself
knows all rules that it refers to in the end. -/
theorem Infers.estimates (h : Infers rules rules' i o) (hij : i ≤ j) (hs : rules[j]? = some s)
    (hnone : s.outcome = none) (hsome : (outcomeAt? rules' j).isSome) :
    ∃ k, Estimates (MayBeOpen rules · j) rules rules' s.body k ∧
      rules'[j]? = some (settled k s) := by
  obtain ⟨k, hk, hsettled⟩ := h.progress.settled_of_isSome hs hnone hsome
  rcases Nat.eq_or_lt_of_le hij with rfl | hlt
  · refine ⟨known rules', estimates_known _ h.progress.names fun ref href => ?_,
      h.follows s hs hnone⟩
    obtain ⟨m, o', hm, ho', -⟩ := hk.ref ref href
    rw [lookup, ruleIndex?_congr h.progress.names, hm, Option.bind_some, ho']
    rfl
  · refine ⟨k, hk.imp fun m hm hpending => ?_, hsettled⟩
    exact ⟨hpending, i, hlt, h.leads m hpending.unknown hm⟩

/-- What all rules rest on once inference has gone over those from the `a`th one on. -/
theorem estimates_of_inferRules {a n : Nat} (hlen : a + n ≤ rules.length)
    (hbefore : ∀ t < a, (outcomeAt? rules t).isSome)
    (hrun : inferRules (List.range' a n) rules = (rules', .ok ())) (hs : rules[j]? = some s)
    (hnone : s.outcome = none) (hj : j < a + n) :
    ∃ k, Estimates (MayBeOpen rules · j) rules rules' s.body k ∧
      rules'[j]? = some (settled k s) := by
  have hunknown : outcomeAt? rules j = none := by rw [outcomeAt?, hs, Option.bind_some, hnone]
  have haj : a ≤ j := Nat.le_of_not_lt fun hlt => by
    have hsome := hbefore j hlt
    simp [hunknown] at hsome
  induction n generalizing a rules with
  | zero => omega
  | succ n ih =>
      have hcount : unknowns rules ≤ rules.length := List.countP_le_length
      rw [List.range'_succ, inferRules] at hrun
      rcases inferRule_settles rules.length (i := a) (by omega) hcount with
        ⟨rules₁, o, hinfer, hspec⟩ | ⟨rules₁, defect, hinfer, -⟩
      · have hprog := hspec.progress
        have hlen₁ := hprog.length_eq
        simp only [hinfer] at hrun
        cases ho : outcomeAt? rules₁ j with
        | some o' =>
            have his : ∀ i ∈ List.range' (a + 1) n, i < rules₁.length := fun i hi => by
              have hlt := (List.mem_range'_1.mp hi).2
              omega
            have hrest := progress_of_inferRules his hrun
            obtain ⟨k, hk, hsettled⟩ := hspec.estimates haj hs hnone (Option.isSome_of_eq_some ho)
            exact ⟨k, hrest.estimates_later hk, hrest.getElem?_of_known hsettled rfl⟩
        | none =>
            have hs₁ : rules₁[j]? = some s := by
              obtain ⟨s', hs', rfl | ⟨-, k, -, rfl⟩⟩ := hprog.step j s hs
              · exact hs'
              · simp [outcomeAt?, hs', settled] at ho
            have hne : a ≠ j := by
              rintro rfl
              simp [hspec.outcome] at ho
            have hbefore₁ : ∀ t < a + 1, (outcomeAt? rules₁ t).isSome := fun t ht => by
              rcases Nat.lt_succ_iff_lt_or_eq.mp ht with hlt | rfl
              · obtain ⟨o', ho'⟩ := Option.isSome_iff_exists.mp (hbefore t hlt)
                exact Option.isSome_of_eq_some (hprog.outcomeAt? ho')
              · exact Option.isSome_of_eq_some hspec.outcome
            obtain ⟨k, hk, hsettled⟩ :=
              ih (by omega) hbefore₁ hrun hs₁ (by omega) ho (by omega)
            exact ⟨k, hprog.estimates_earlier (fun _ => hprog.mayBeOpen) hk, hsettled⟩
      · simp [hinfer] at hrun

theorem estimates_of_inferOutcomes (hrun : inferOutcomes rules = (rules', .ok ()))
    (hs : rules[j]? = some s) (hnone : s.outcome = none) :
    ∃ k, Estimates (MayBeOpen rules · j) rules rules' s.body k ∧
      rules'[j]? = some (settled k s) := by
  have hj := (List.getElem?_eq_some_iff.mp hs).1
  rw [inferOutcomes, List.range_eq_range'] at hrun
  exact estimates_of_inferRules (by omega) (by omega) hrun hs hnone (by omega)

/-- What was an estimate only and right nevertheless does no harm. -/
theorem Estimates.known_eq {pending : Nat → Prop} {body : Expr} {k : String → Outcome}
    (h : Estimates pending rules rules' body k)
    (hnames : rules'.map (·.name) = rules.map (·.name))
    (hright : ∀ ref ∈ body.refs, ∀ m, ruleIndex? rules ref.name = some m → pending m →
      outcomeAt? rules' m = some .sometimes) {ref : RuleRef} (href : ref ∈ body.refs) :
    k ref.name = known rules' ref.name := by
  obtain ⟨m, o, hm, ho, hk⟩ := h.ref ref href
  have hlookup : lookup rules' ref.name = some o := by
    rw [lookup, ruleIndex?_congr hnames, hm, Option.bind_some, ho]
  rw [known_of_lookup hlookup]
  rcases hk with hk | ⟨hk, hpending⟩
  · exact hk
  · exact hk.trans (Option.some.inj ((hright ref href m hm hpending).symm.trans ho))

end Estimates

end Inference

/-- Evaluating the body of a rule again, with the outcomes of all rules at the end, gives the
outcome of the rule unless that is `sometimes`. It gives it in any case if no rule that may have
been open when the rule was settled, and that its body refers to, has become definite. -/
theorem outcome_follows_from_body {o : Options} {g g' : Grammar}
    (hrun : Pass.inferMatchResults.run o g = (g', .ok ())) {j : Nat} {s : Rule}
    (hs : g.rules[j]? = some s) (hnone : s.outcome = none) :
    ∃ r, g'.rules[j]? = some r ∧
      (r.outcome = some .sometimes ∨ r.outcome = some (r.body.outcomeGiven (known g'.rules))) ∧
      ((∀ m, Refers g.rules j m → MayBeOpen g.rules m j →
          outcomeAt? g'.rules m = some .sometimes) →
        r.outcome = some (r.body.outcomeGiven (known g'.rules))) := by
  obtain ⟨rules', hinfer, rfl⟩ : ∃ rules', inferOutcomes g.rules = (rules', .ok ()) ∧
      g' = { g with rules := rules' } := by
    obtain ⟨hg, hok⟩ := Prod.mk.inj hrun
    exact ⟨_, Prod.ext rfl hok, hg.symm⟩
  obtain ⟨k, hk, hsettled⟩ := estimates_of_inferOutcomes hinfer hs hnone
  refine ⟨settled k s, hsettled, ?_, fun hright => ?_⟩
  · simp only [settled, Expr.outcomeGiven_annotate]
    exact (Expr.outcomeGiven_below hk.under s.body).imp (congrArg some) (congrArg some)
  · have hnames := (progress_of_inferRules (fun i hi => List.mem_range.mp hi) hinfer).names
    simp only [settled, Expr.outcomeGiven_annotate]
    refine congrArg some (Expr.outcomeGiven_congr fun ref href => hk.known_eq hnames ?_ href)
    exact fun ref href m hm hopen => hright m ⟨s, hs, ref, href, hm⟩ hopen

open Build in
/-- The items of a list, which may be lists again. -/
def nestedList : Grammar :=
  grammar
    [rule "list" (sequence [literal "[", ruleRef "items", literal "]"]),
      rule "items" (optional (ruleRef "list"))]

/-- The items are settled while the list is open, and know it all the same. -/
theorem nestedList_follows :
    ∃ g', Pass.inferMatchResults.run .standard nestedList = (g', .ok ()) ∧
      MayBeOpen nestedList.rules 0 1 ∧
      ∃ r, g'.rules[1]? = some r ∧ r.outcome = some (r.body.outcomeGiven (known g'.rules)) := by
  have hrun : Pass.inferMatchResults.Accepts .standard nestedList := by decide +kernel
  have hitems : Refers nestedList.rules 0 1 := ⟨_, rfl, ⟨"items", .unknown⟩, by decide, by decide⟩
  obtain ⟨r, hr, -, hfollows⟩ :=
    outcome_follows_from_body (o := .standard) (Prod.ext rfl hrun) (j := 1) rfl rfl
  refine ⟨_, Prod.ext rfl hrun, ⟨⟨rfl, by decide, .single hitems⟩, 0, by decide, .refl⟩, r, hr, ?_⟩
  refine hfollows fun m ⟨s, hs, ref, href, hm⟩ _ => ?_
  obtain rfl := Option.some.inj hs
  obtain rfl : ref = ⟨"list", .unknown⟩ := List.mem_singleton.mp href
  obtain rfl : 0 = m := Option.some.inj hm
  decide +kernel

/-- Whether every rule has the outcome that its body gives with those of all rules. -/
def Inference.FixedPoint (rules : List Rule) : Prop :=
  ∀ r ∈ rules, r.outcome = some (r.body.outcomeGiven (known rules))

instance decidableFixedPoint (rules : List Rule) : Decidable (FixedPoint rules) :=
  inferInstanceAs (Decidable (∀ r ∈ rules, _))

open Build in
/-- A list that may be missing, with a list as its tail. -/
def openList : Grammar :=
  grammar
    [rule "list" (optional (sequence [literal "x", ruleRef "tail"])),
      rule "tail" (text (ruleRef "list"))]

/-- The tail is settled while the list is open, and keeps `sometimes` though the list turns out to
succeed always. -/
theorem openList_not_fixedPoint :
    (∀ pass ∈ Passes.standard.check, pass.Accepts .standard openList) ∧
      (∀ r ∈ openList.rules, r.outcome = none) ∧
      Pass.inferMatchResults.Accepts .standard openList ∧
      ¬FixedPoint (Pass.inferMatchResults.run .standard openList).1.rules := by
  decide +kernel

end PegCompiler
