import PegCompiler.Proofs.Settling

/-!
# Rounds of inference

All rules that a body refers to have their outcome once it has been gone over, so going over it
again enters no further rule, and only the own outcome of the rule can be new. A definite outcome
stays when more is known. So each rule that is entered takes one round, or two if it turns out to be
definite.

A log holds the rounds. Settling a rule looks up nothing that they do not, and leaves what the last
of them does.
-/

namespace PegCompiler

open Inference

namespace Expr

mutual
/-- The references that a visit resolves, each with the rules as they are then. -/
def lookups (resolve : Resolver) : Expr → List Rule → List (RuleRef × List Rule)
  | choice _ es, rules => lookupsList resolve es rules
  | sequence _ es, rules => lookupsList resolve es rules
  | apply _ _ e, rules => lookups resolve e rules
  | leaf t (.ruleRef name), rules => [(⟨name, t.location⟩, rules)]
  | leaf _ _, _ => []

def lookupsList (resolve : Resolver) : List Expr → List Rule → List (RuleRef × List Rule)
  | [], _ => []
  | e :: es, rules =>
      lookups resolve e rules ++
        match (infer resolve e rules).found with
        | .ok _ => lookupsList resolve es (infer resolve e rules).rules
        | .error _ => []
end

end Expr

namespace Inference

/-- The bodies that `settle` goes over one after another, each with the rules as they are then. -/
def rounds (resolve : Resolver) (i : Nat) (repeats : Nat) (body : Expr) (rules : List Rule) :
    List (Expr × List Rule) :=
  let before := (outcomeAt? rules i).getD .sometimes
  let v := body.infer resolve rules
  (body, rules) ::
    match v.found with
    | .error _ => []
    | .ok o =>
        match repeats with
        | 0 => []
        | repeats + 1 =>
            if o = before then []
            else rounds resolve i repeats v.tree (setOutcome i o v.rules)

/-- What a round leaves when it is the last one. -/
def concluded (i : Nat) (v : Visit Expr Outcome) : Visit Expr Outcome :=
  match v.found with
  | .ok o => ⟨v.tree, setOutcome i o v.rules, .ok o⟩
  | .error defect => ⟨v.tree, v.rules, .error defect⟩

/-- Whether `log` is what `settle` goes over from `body` on. It depends on the resolver through the
look-ups of these rounds only, needs no more repeats than there are rounds, and leaves what the last
of them does. -/
structure Traces (resolve : Resolver) (i : Nat) (body : Expr) (rules : List Rule)
    (log : List (Expr × List Rule)) : Prop where
  lookups : ∀ resolve' : Resolver,
    (∀ round ∈ log, ∀ call ∈ round.1.lookups resolve round.2,
      resolve' call.1 call.2 = resolve call.1 call.2) →
    settle resolve' i maxRepeats body rules = settle resolve i maxRepeats body rules
  repeats : settle resolve i log.length body rules = settle resolve i maxRepeats body rules
  last : ∃ before body' rules', log = before ++ [(body', rules')] ∧
    settle resolve i maxRepeats body rules = concluded i (body'.infer resolve rules')

/-- Whether inference of the rules `base` comes to infer the `i`th rule at a time when they have
become `rules`, at most `unknown` of them without an outcome. -/
inductive Entered (base : List Rule) : Nat → Nat → List Rule → Prop
  | start {i rules} (hi : i < base.length)
      (h : inferRules (List.range i) base = (rules, .ok ())) : Entered base rules.length i rules
  | nested {below i rules r body rules' ref rules'' j} (h : Entered base (below + 1) i rules)
      (hr : rules[i]? = some r) (hnone : r.outcome = none)
      (hround : (body, rules') ∈ rounds (resolver below) i maxRepeats r.body (opened i rules))
      (hlookup : (ref, rules'') ∈ body.lookups (resolver below) rules')
      (hj : ruleIndex? rules'' ref.name = some j) : Entered base below j rules''

section Rounds

variable {n i repeats : Nat} {resolve : Resolver} {rules : List Rule} {body : Expr} {r : Rule}
  {o : Outcome} {ref : RuleRef} {later : List Rule}

theorem rounds_of_error {defect : Defect} (h : (body.infer resolve rules).found = .error defect) :
    rounds resolve i repeats body rules = [(body, rules)] := by
  rw [rounds.eq_def]
  simp only [h]

theorem rounds_of_ok (repeats : Nat) (h : (body.infer resolve rules).found = .ok o) :
    rounds resolve i (repeats + 1) body rules = (body, rules) ::
      if o = (outcomeAt? rules i).getD .sometimes then []
      else rounds resolve i repeats (body.infer resolve rules).tree
        (setOutcome i o (body.infer resolve rules).rules) := by
  rw [rounds.eq_def]
  simp only [h]

section Congr

variable {resolve' : Resolver}

theorem inferList_congr {es : List Expr}
    (hes : ∀ e ∈ es, ∀ rules,
      (∀ call ∈ e.lookups resolve rules, resolve' call.1 call.2 = resolve call.1 call.2) →
        e.infer resolve' rules = e.infer resolve rules)
    (h : ∀ call ∈ Expr.lookupsList resolve es rules,
      resolve' call.1 call.2 = resolve call.1 call.2) :
    Expr.inferList resolve' es rules = Expr.inferList resolve es rules := by
  induction es generalizing rules with
  | nil => rfl
  | cons e es ih =>
      obtain ⟨he, hes⟩ := List.forall_mem_cons.mp hes
      rw [Expr.lookupsList, List.forall_mem_append] at h
      obtain ⟨hfirst, hrest⟩ := h
      rw [Expr.inferList, Expr.inferList, he rules hfirst]
      cases hv : (e.infer resolve rules).found with
      | error defect => simp only [Visit.cons, hv]
      | ok o =>
          rw [hv] at hrest
          simp only [Visit.cons, hv, ih hes hrest]

/-- A visit depends on the resolver through its look-ups only. -/
theorem infer_congr (h : ∀ call ∈ body.lookups resolve rules,
    resolve' call.1 call.2 = resolve call.1 call.2) :
    body.infer resolve' rules = body.infer resolve rules := by
  induction body generalizing rules with
  | choice t es ih => rw [Expr.infer, Expr.infer, inferList_congr (fun e he _ h => ih e he h) h]
  | sequence t es ih => rw [Expr.infer, Expr.infer, inferList_congr (fun e he _ h => ih e he h) h]
  | apply t op e ih => rw [Expr.infer, Expr.infer, ih h]
  | leaf t l =>
      cases l with
      | ruleRef name => rw [Expr.infer, Expr.infer, h _ (List.mem_singleton_self _)]
      | _ => rfl

/-- Going over a body again and again depends on the resolver through the look-ups of the rounds
only. -/
theorem settle_congr (h : ∀ round ∈ rounds resolve i repeats body rules,
    ∀ call ∈ round.1.lookups resolve round.2, resolve' call.1 call.2 = resolve call.1 call.2) :
    settle resolve' i repeats body rules = settle resolve i repeats body rules := by
  induction repeats generalizing body rules with
  | zero =>
      rw [rounds.eq_def] at h
      have hvisit := infer_congr (List.forall_mem_cons.mp h).1
      rw [settle.eq_def, settle.eq_def, hvisit]
  | succ repeats ih =>
      cases hv : (body.infer resolve rules).found with
      | error defect =>
          rw [rounds_of_error hv] at h
          have hvisit := infer_congr (List.forall_mem_cons.mp h).1
          rw [settle.eq_def, settle.eq_def, hvisit]
          simp only [hv]
      | ok o =>
          rw [rounds_of_ok repeats hv] at h
          obtain ⟨hfirst, hrest⟩ := List.forall_mem_cons.mp h
          have hvisit := infer_congr hfirst
          rw [settle_of_ok repeats hv, settle_of_ok repeats (hvisit ▸ hv), hvisit]
          split
          · rfl
          · next hne =>
              rw [if_neg hne] at hrest
              exact ih hrest

end Congr

theorem rounds_ne_nil : rounds resolve i repeats body rules ≠ [] := by
  rw [rounds.eq_def]
  exact List.cons_ne_nil _ _

/-- When the limit is not reached `settle` leaves what its last round does. -/
theorem exists_last_round (hlen : (rounds resolve i repeats body rules).length ≤ repeats) :
    ∃ before body' rules', rounds resolve i repeats body rules = before ++ [(body', rules')] ∧
      settle resolve i repeats body rules = concluded i (body'.infer resolve rules') := by
  induction repeats generalizing body rules with
  | zero => exact absurd (List.length_eq_zero_iff.mp (Nat.le_zero.mp hlen)) rounds_ne_nil
  | succ repeats ih =>
      cases h : (body.infer resolve rules).found with
      | error defect =>
          refine ⟨[], body, rules, rounds_of_error h, ?_⟩
          rw [settle.eq_def, concluded]
          simp only [h]
      | ok o =>
          rw [rounds_of_ok repeats h] at hlen ⊢
          rw [settle_of_ok repeats h]
          split
          · exact ⟨[], body, rules, rfl, by rw [concluded]; simp only [h]⟩
          · next hne =>
              rw [if_neg hne, List.length_cons] at hlen
              obtain ⟨before, body', rules', hrounds, hlast⟩ := ih (Nat.le_of_succ_le_succ hlen)
              exact ⟨(body, rules) :: before, body', rules', by rw [hrounds]; rfl, hlast⟩

/-- A limit that is not reached might as well be lower. -/
theorem settle_of_rounds_le {limit : Nat}
    (hlen : (rounds resolve i repeats body rules).length ≤ limit) (hlimit : limit ≤ repeats) :
    settle resolve i limit body rules = settle resolve i repeats body rules := by
  induction repeats generalizing limit body rules with
  | zero => rw [Nat.le_zero.mp hlimit]
  | succ repeats ih =>
      cases limit with
      | zero => exact absurd (List.length_eq_zero_iff.mp (Nat.le_zero.mp hlen)) rounds_ne_nil
      | succ limit =>
          cases h : (body.infer resolve rules).found with
          | error defect =>
              rw [settle.eq_def, settle.eq_def]
              simp only [h]
          | ok o =>
              rw [rounds_of_ok repeats h] at hlen
              rw [settle_of_ok limit h, settle_of_ok repeats h]
              split
              · rfl
              · next hne =>
                  rw [if_neg hne, List.length_cons] at hlen
                  exact ih (Nat.le_of_succ_le_succ hlen) (Nat.le_of_succ_le_succ hlimit)

theorem rounds_trace (h : (rounds resolve i maxRepeats body rules).length ≤ 2) :
    Traces resolve i body rules (rounds resolve i maxRepeats body rules) where
  lookups _ hlookups := settle_congr hlookups
  repeats := settle_of_rounds_le (Nat.le_refl _) (Nat.le_trans h (by decide))
  last := exists_last_round (Nat.le_trans h (by decide))

/-- The first round meets the body as it was, and a second one the body that the first one left. -/
theorem rounds_spec (h : Lawful n resolve) (hr : rules[i]? = some r)
    (hn : unknowns (opened i rules) ≤ n) :
    rounds resolve i maxRepeats r.body (opened i rules) = [(r.body, opened i rules)] ∨
    ∃ visited o, Progress (opened i rules) visited ∧
      rounds resolve i maxRepeats r.body (opened i rules) =
        [(r.body, opened i rules), (r.body.annotate (known visited), setOutcome i o visited)] := by
  rcases infer_cases h r.body hn with ⟨defect, hfound, -⟩ | ⟨visited, hprog, -, hrefs, hvisit⟩
  · exact .inl (rounds_of_error hfound)
  · have hvi := hprog.getElem?_of_opened hr
    have hfirst := rounds_of_ok (i := i) 5 (congrArg Visit.found hvisit)
    rw [outcomeAt?, getElem?_opened_self hr, Option.bind_some, Option.getD_some, hvisit] at hfirst
    by_cases hsometimes : r.body.outcomeGiven (known visited) = .sometimes
    · rw [if_pos hsometimes] at hfirst
      exact .inl hfirst
    · obtain ⟨-, hagain⟩ := infer_again h hvi rfl hrefs hsometimes rfl
      have hsecond := rounds_of_ok (i := i) 4 (congrArg Visit.found hagain)
      rw [outcomeAt?_setOutcome_self hvi, Option.getD_some, if_pos rfl] at hsecond
      rw [if_neg hsometimes, hsecond] at hfirst
      exact .inr ⟨visited, _, hprog, hfirst⟩

theorem progress_of_mem_lookupsList (h : Lawful n resolve) {es : List Expr}
    (hes : ∀ e ∈ es, ∀ rules, unknowns rules ≤ n → (ref, later) ∈ e.lookups resolve rules →
      Progress rules later) (hn : unknowns rules ≤ n)
    (hmem : (ref, later) ∈ Expr.lookupsList resolve es rules) : Progress rules later := by
  induction es generalizing rules with
  | nil => cases hmem
  | cons e es ih =>
      obtain ⟨he, hes⟩ := List.forall_mem_cons.mp hes
      rw [Expr.lookupsList] at hmem
      rcases List.mem_append.mp hmem with hmem | hmem
      · exact he rules hn hmem
      · split at hmem
        · next o ho =>
            have hprog := ((infer_finds h e hn).ok o ho).1
            exact hprog.trans (ih hes (Nat.le_trans hprog.unknowns_le hn) hmem)
        · cases hmem

theorem progress_of_mem_lookups (h : Lawful n resolve) (hn : unknowns rules ≤ n)
    (hmem : (ref, later) ∈ body.lookups resolve rules) : Progress rules later := by
  induction body generalizing rules with
  | choice t es ih =>
      exact progress_of_mem_lookupsList h (fun e he _ hn hmem => ih e he hn hmem) hn hmem
  | sequence t es ih =>
      exact progress_of_mem_lookupsList h (fun e he _ hn hmem => ih e he hn hmem) hn hmem
  | apply t op e ih => exact ih hn hmem
  | leaf t l =>
      cases l with
      | ruleRef name =>
          obtain ⟨-, rfl⟩ := Prod.mk.inj (List.mem_singleton.mp hmem)
          exact .refl _
      | _ => cases hmem

end Rounds

/-! ## All rules that are entered -/

/-- Whether all rules without an outcome are those of `base`. -/
def Untouched (base rules : List Rule) : Prop :=
  ∀ (j : Nat) (r : Rule), rules[j]? = some r → r.outcome = none → base[j]? = some r

section Entered

variable {base rules : List Rule} {unknown i : Nat} {r : Rule}

theorem Untouched.of_progress {rules' : List Rule} (h : Untouched base rules)
    (hprog : Progress rules rules') : Untouched base rules' :=
  fun j s hs hnone => h j s (hprog.getElem?_of_unknown hs hnone) hnone

theorem Untouched.opened (h : Untouched base rules) : Untouched base (opened i rules) :=
  fun j s hs hnone => h j s (getElem?_of_opened hs hnone).2 hnone

theorem Untouched.setOutcome {o : Outcome} (h : Untouched base rules) (hr : rules[i]? = some r) :
    Untouched base (setOutcome i o rules) := by
  intro j s hs hnone
  by_cases hij : i = j
  · subst hij
    obtain rfl := Option.some.inj ((getElem?_setOutcome_self hr).symm.trans hs)
    cases hnone
  · exact h j s ((getElem?_setOutcome_ne hij).symm.trans hs) hnone

theorem unknowns_setOutcome_le {o : Outcome} (hr : rules[i]? = some r) :
    unknowns (setOutcome i o rules) ≤ unknowns rules := by
  refine unknowns_le (by simp [setOutcome]) fun j s s' hs hs' hnone => ?_
  by_cases hij : i = j
  · subst hij
    obtain rfl := Option.some.inj ((getElem?_setOutcome_self hr).symm.trans hs')
    cases hnone
  · rw [getElem?_setOutcome_ne hij] at hs'
    exact Option.some.inj (hs.symm.trans hs') ▸ hnone

theorem lawful_inferRule (unknown : Nat) : Lawful unknown (resolver unknown) :=
  lawful_resolver unknown fun _ _ hi hn => inferRule_settles unknown hi hn

/-- When a rule is entered, what is not known yet is as it was in the beginning. -/
theorem Entered.spec (h : Entered base unknown i rules) :
    i < rules.length ∧ unknowns rules ≤ unknown ∧ Untouched base rules := by
  induction h with
  | @start i rules hi h =>
      have his : ∀ j ∈ List.range i, j < base.length := fun j hj =>
        Nat.lt_trans (List.mem_range.mp hj) hi
      have hprog := progress_of_inferRules his h
      refine ⟨hprog.length_eq ▸ hi, List.countP_le_length, ?_⟩
      exact Untouched.of_progress (fun j s hs _ => hs) hprog
  | @nested below i rules r body rules' ref rules'' j h hr hnone hround hlookup hj ih =>
      obtain ⟨-, hn, huntouched⟩ := ih
      have hopened : unknowns (opened i rules) ≤ below := by
        have hlt := unknowns_opened_lt hr hnone
        omega
      have hround' : unknowns rules' ≤ below ∧ Untouched base rules' := by
        rcases rounds_spec (lawful_inferRule below) hr hopened with
          hone | ⟨visited, o, hprog, htwo⟩
        · obtain ⟨-, rfl⟩ := Prod.mk.inj (List.mem_singleton.mp (hone ▸ hround))
          exact ⟨hopened, huntouched.opened⟩
        · rw [htwo] at hround
          rcases List.mem_cons.mp hround with hround | hround
          · obtain ⟨-, rfl⟩ := Prod.mk.inj hround
            exact ⟨hopened, huntouched.opened⟩
          · obtain ⟨-, rfl⟩ := Prod.mk.inj (List.mem_singleton.mp hround)
            have hvi := hprog.getElem?_of_opened hr
            refine ⟨?_, (huntouched.opened.of_progress hprog).setOutcome hvi⟩
            exact Nat.le_trans (unknowns_setOutcome_le hvi) (Nat.le_trans hprog.unknowns_le hopened)
      have hprog := progress_of_mem_lookups (lawful_inferRule below) hround'.1 hlookup
      exact ⟨ruleIndex?_lt hj, Nat.le_trans hprog.unknowns_le hround'.1,
        hround'.2.of_progress hprog⟩

theorem Entered.converges (h : Entered base unknown i rules) (hr : rules[i]? = some r)
    (hnone : r.outcome = none) : ∃ below, unknown = below + 1 ∧
      inferRule unknown i rules =
        (setBody i (settle (resolver below) i maxRepeats r.body (opened i rules)).tree
            (settle (resolver below) i maxRepeats r.body (opened i rules)).rules,
          (settle (resolver below) i maxRepeats r.body (opened i rules)).found) ∧
      Traces (resolver below) i r.body (opened i rules)
        (rounds (resolver below) i maxRepeats r.body (opened i rules)) ∧
      (rounds (resolver below) i maxRepeats r.body (opened i rules)).length ≤ 2 := by
  obtain ⟨-, hn, -⟩ := h.spec
  have hpos := unknowns_pos hr hnone
  obtain ⟨below, rfl⟩ : ∃ below, unknown = below + 1 := ⟨unknown - 1, by omega⟩
  have hlt := unknowns_opened_lt hr hnone
  have hlen : (rounds (resolver below) i maxRepeats r.body (opened i rules)).length ≤ 2 := by
    rcases rounds_spec (lawful_inferRule below) hr (by omega) with hone | ⟨visited, o, -, htwo⟩
    · simp [hone]
    · simp [htwo]
  exact ⟨below, rfl, inferRule_of_none hr hnone, rounds_trace hlen, hlen⟩

end Entered

end Inference

/-- Once inference has succeeded, all references of the rules that it was to find out are
defined. -/
theorem Inference.Progress.isDefined {rules rules' : List Rule} (h : Progress rules rules')
    (hsome : ∀ r ∈ rules', r.outcome.isSome) {r : Rule} (hr : r ∈ rules) (hnone : r.outcome = none)
    {ref : RuleRef} (href : ref ∈ r.body.refs) : ref.isDefined rules := by
  obtain ⟨i, hi⟩ := List.mem_iff_getElem?.mp hr
  obtain ⟨r', hr', rfl | ⟨-, k, hk, -⟩⟩ := h.step i r hi
  · have hnot := hsome r' (List.mem_of_getElem? hr')
    rw [hnone] at hnot
    cases hnot
  · obtain ⟨m, -, hm, -⟩ := hk.ref ref href
    rw [isDefined_iff_mem, ← ruleIndex?_isSome_iff, hm]
    rfl

/-- Every rule that inference enters is settled in the rounds of its log, which are two at most, so
none is given up. Inference fails just when a rule whose outcome it was to find refers to no
rule. -/
theorem inference_converges (o : Options) (g : Grammar) :
    (∀ unknown i rules r, Entered g.rules unknown i rules → rules[i]? = some r → r.outcome = none →
      ∃ below, unknown = below + 1 ∧
        inferRule unknown i rules =
          (setBody i (settle (resolver below) i maxRepeats r.body (opened i rules)).tree
              (settle (resolver below) i maxRepeats r.body (opened i rules)).rules,
            (settle (resolver below) i maxRepeats r.body (opened i rules)).found) ∧
        Traces (resolver below) i r.body (opened i rules)
          (rounds (resolver below) i maxRepeats r.body (opened i rules)) ∧
        (rounds (resolver below) i maxRepeats r.body (opened i rules)).length ≤ 2) ∧
    (∀ location, (Pass.inferMatchResults.run o g).2 ≠ .error (.unsettled location)) ∧
    ((∃ defect, (Pass.inferMatchResults.run o g).2 = .error defect) ↔
      ∃ r ∈ g.rules, r.outcome = none ∧ ∃ ref ∈ r.body.refs, ¬ref.isDefined g.rules) := by
  refine ⟨fun unknown i rules r h hr hnone => h.converges hr hnone, ?_⟩
  simp only [Pass.run]
  rcases inferOutcomes_spec g.rules with ⟨rules', hok, hprog, hsome⟩ | ⟨rules', defect, herror, hd⟩
  · refine ⟨by simp [hok], ⟨by simp [hok], fun ⟨r, hr, hnone, ref, href, hundef⟩ => ?_⟩⟩
    exact absurd (hprog.isDefined hsome hr hnone href) hundef
  · obtain ⟨ref, rfl, hundef, hmem⟩ := hd
    refine ⟨by simp [herror], ⟨fun _ => ?_, fun _ => ⟨_, congrArg Prod.snd herror⟩⟩⟩
    rcases hmem with hmem | ⟨r, hr, hnone, hmem⟩
    · cases hmem
    · exact ⟨r, hr, hnone, ref, hmem, hundef⟩

open Build in
/-- The second round is needed: a list that may be missing turns out to succeed always. -/
example :
    let body := optional (sequence [literal "x", ruleRef "list"])
    (rounds (resolver 1) 0 maxRepeats body (opened 0 [rule "list" body])).length = 2 := by
  decide +kernel

end PegCompiler
