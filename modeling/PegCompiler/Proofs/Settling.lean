import PegCompiler.Proofs.Checks
import PegCompiler.Proofs.Progress

/-!
# Inference settles

When a body has been gone over, all rules that it refers to have an outcome. So if it is gone over
a second time, its outcome cannot change again, and the only defect that inference finds is a
reference to no rule.
-/

namespace PegCompiler

open Relation

namespace Inference

/-- What a visit comes to when it starts with `rules` and meets `refs`: the tree and the answer that
follow from what is known at its end, or a reference to no rule. -/
structure Finds (rules : List Rule) (refs : List RuleRef) (v : Visit α β)
    (tree : (String → Outcome) → α) (answer : (String → Outcome) → β) : Prop where
  ok : ∀ b, v.found = .ok b → Progress rules v.rules ∧ Within rules v.rules refs ∧
    (∀ ref ∈ refs, (lookup v.rules ref.name).isSome) ∧
      v.tree = tree (known v.rules) ∧ b = answer (known v.rules)
  error : ∀ defect, v.found = .error defect → Dangles rules refs defect

/-- Whether the tree and the answer depend on the rules that `refs` name only. -/
def Depends (refs : List RuleRef) (f : (String → Outcome) → α) : Prop :=
  ∀ k k', (∀ ref ∈ refs, k ref.name = k' ref.name) → f k = f k'

namespace Finds

variable {rules : List Rule} {refs refs' : List RuleRef}

theorem of_ok {v : Visit α β} {tree : (String → Outcome) → α} {answer : (String → Outcome) → β}
    {b : β} (hv : v.found = .ok b) (hprog : Progress rules v.rules)
    (hwithin : Within rules v.rules refs) (hrefs : ∀ ref ∈ refs, (lookup v.rules ref.name).isSome)
    (htree : v.tree = tree (known v.rules)) (hb : b = answer (known v.rules)) :
    Finds rules refs v tree answer := by
  constructor
  · intro b' hb'
    obtain rfl := Except.ok.inj (hv.symm.trans hb')
    exact ⟨hprog, hwithin, hrefs, htree, hb⟩
  · intro defect hd
    cases hv.symm.trans hd

theorem of_error {v : Visit α β} {tree : (String → Outcome) → α} {answer : (String → Outcome) → β}
    {defect : Defect} (hv : v.found = .error defect) (hd : Dangles rules refs defect) :
    Finds rules refs v tree answer := by
  constructor
  · intro b hb
    cases hv.symm.trans hb
  · intro defect' hd'
    obtain rfl := Except.error.inj (hv.symm.trans hd')
    exact hd

theorem node {v : Visit α β} {tree : (String → Outcome) → α} {answer : (String → Outcome) → β}
    (h : Finds rules refs v tree answer) (build : α → Expr) (outcome : β → Outcome) :
    Finds rules refs (v.node build outcome)
      (fun k => (build (tree k)).withOutcome (outcome (answer k)))
      (fun k => outcome (answer k)) := by
  cases hv : v.found with
  | ok b =>
      obtain ⟨hprog, hwithin, hrefs, htree, rfl⟩ := h.ok b hv
      simp only [Visit.node, hv]
      exact of_ok rfl hprog hwithin hrefs (by rw [htree]) rfl
  | error defect =>
      have hd := h.error defect hv
      simp only [Visit.node, hv]
      exact of_error rfl hd

theorem cons {v : Visit Expr Outcome} {tree : (String → Outcome) → Expr}
    {answer : (String → Outcome) → Outcome} {es : List Expr}
    {next : List Rule → Visit (List Expr) (List Outcome)}
    {trees : (String → Outcome) → List Expr} {answers : (String → Outcome) → List Outcome}
    (h : Finds rules refs v tree answer) (htree : Depends refs tree) (hanswer : Depends refs answer)
    (hnext : ∀ rules', Progress rules rules' →
      Finds rules' refs' (next rules') trees answers) :
    Finds rules (refs ++ refs') (v.cons es next) (fun k => tree k :: trees k)
      (fun k => answer k :: answers k) := by
  cases hv : v.found with
  | error defect =>
      have hd := h.error defect hv
      simp only [Visit.cons, hv]
      exact of_error rfl (hd.mono fun ref href => .inl (List.mem_append_left _ href))
  | ok o =>
      obtain ⟨hprog, hwithin, hrefs, ht, rfl⟩ := h.ok o hv
      have hn := hnext v.rules hprog
      cases hw : (next v.rules).found with
      | error defect =>
          have hd := (hn.error defect hw).of_progress hprog
          simp only [Visit.cons, hv, hw, Except.map]
          exact of_error rfl (hd.mono fun ref href => .inl (List.mem_append_right _ href))
      | ok os =>
          obtain ⟨hprog', hwithin', hrefs', hts, rfl⟩ := hn.ok os hw
          -- what the first element refers to is not settled a second time
          have hagree : ∀ ref ∈ refs,
              known v.rules ref.name = known (next v.rules).rules ref.name := by
            intro ref href
            obtain ⟨o, ho⟩ := Option.isSome_iff_exists.mp (hrefs ref href)
            rw [known_of_lookup ho, known_of_lookup (hprog'.lookup ho)]
          simp only [Visit.cons, hv, hw, Except.map]
          refine of_ok rfl (hprog.trans hprog') (hwithin.append hprog hwithin')
            (fun ref href => ?_) ?_ ?_
          · rcases List.mem_append.mp href with href | href
            · obtain ⟨o, ho⟩ := Option.isSome_iff_exists.mp (hrefs ref href)
              rw [hprog'.lookup ho]
              rfl
            · exact hrefs' ref href
          · rw [ht, hts, htree _ _ hagree]
          · rw [hanswer _ _ hagree]

theorem pure (rules : List Rule) (a : α) (b : β) :
    Finds rules [] ⟨a, rules, .ok b⟩ (fun _ => a) (fun _ => b) :=
  of_ok rfl (.refl rules) (.refl rules []) (by simp) rfl rfl

end Finds

/-- What a visit needs of a resolver while at most `n` rules are unknown. -/
structure Lawful (n : Nat) (resolve : Resolver) : Prop where
  memo : ∀ ref rules o, lookup rules ref.name = some o → resolve ref rules = (rules, .ok o)
  ok : ∀ ref rules, unknowns rules ≤ n → ∀ o, (resolve ref rules).2 = .ok o →
    Progress rules (resolve ref rules).1 ∧ Within rules (resolve ref rules).1 [ref] ∧
      lookup (resolve ref rules).1 ref.name = some o
  error : ∀ ref rules, unknowns rules ≤ n → ∀ defect, (resolve ref rules).2 = .error defect →
    Dangles rules [ref] defect

section Visits

variable {n : Nat} {resolve : Resolver} {rules : List Rule}

theorem inferList_finds {es : List Expr}
    (hes : ∀ e ∈ es, ∀ rules, unknowns rules ≤ n →
      Finds rules e.refs (e.infer resolve rules) (fun k => e.annotate k)
        (fun k => e.outcomeGiven k))
    (hn : unknowns rules ≤ n) :
    Finds rules (es.flatMap Expr.refs) (Expr.inferList resolve es rules)
      (fun k => es.map (Expr.annotate k)) (fun k => es.map (Expr.outcomeGiven k)) := by
  induction es generalizing rules with
  | nil => exact .pure rules [] []
  | cons e es ih =>
      have hhead := hes e (List.mem_cons_self ..) rules hn
      have htail := fun e' he' => hes e' (List.mem_cons_of_mem e he')
      refine hhead.cons (fun k k' h => Expr.annotate_congr h)
        (fun k k' h => Expr.outcomeGiven_congr h) fun rules' hprog => ?_
      exact ih htail (Nat.le_trans hprog.unknowns_le hn)

theorem infer_finds (h : Lawful n resolve) (e : Expr) (hn : unknowns rules ≤ n) :
    Finds rules e.refs (e.infer resolve rules) (fun k => e.annotate k)
      (fun k => e.outcomeGiven k) := by
  induction e generalizing rules with
  | choice t es ih =>
      have hes := (inferList_finds (fun e he _ hn => ih e he hn) hn).node (.choice t) .ofChoice
      simp only [Expr.annotate_choice, Expr.outcomeGiven_choice, Expr.refs_choice]
      exact hes
  | sequence t es ih =>
      have hes := (inferList_finds (fun e he _ hn => ih e he hn) hn).node (.sequence t) .ofSequence
      simp only [Expr.annotate_sequence, Expr.outcomeGiven_sequence, Expr.refs_sequence]
      exact hes
  | apply t op e ih => exact (ih hn).node (.apply t op) op.outcome
  | leaf t l =>
      cases l with
      | ruleRef name =>
          have hfound : Finds rules [⟨name, t.location⟩]
              ⟨(), (resolve ⟨name, t.location⟩ rules).1, (resolve ⟨name, t.location⟩ rules).2⟩
              (fun _ => ()) (fun k => k name) := by
            refine ⟨fun o ho => ?_, h.error ⟨name, t.location⟩ rules hn⟩
            obtain ⟨hprog, hwithin, hlookup⟩ := h.ok ⟨name, t.location⟩ rules hn o ho
            refine ⟨hprog, hwithin, fun ref href => ?_, rfl, (known_of_lookup hlookup).symm⟩
            obtain rfl := List.mem_singleton.mp href
            exact Option.isSome_of_eq_some hlookup
          exact hfound.node (fun _ => .leaf t (.ruleRef name)) id
      | _ => exact (Finds.pure rules () _).node _ id

/-- A visit either meets a reference to no rule, or all rules that it referred to are known then. -/
theorem infer_cases (h : Lawful n resolve) (e : Expr) (hn : unknowns rules ≤ n) :
    (∃ defect, (e.infer resolve rules).found = .error defect ∧ Dangles rules e.refs defect) ∨
    ∃ visited, Progress rules visited ∧ Within rules visited e.refs ∧
      (∀ ref ∈ e.refs, (lookup visited ref.name).isSome) ∧
      e.infer resolve rules =
        ⟨e.annotate (known visited), visited, .ok (e.outcomeGiven (known visited))⟩ := by
  have hfinds := infer_finds h e hn
  cases hv : (e.infer resolve rules).found with
  | error defect => exact .inl ⟨defect, rfl, hfinds.error defect hv⟩
  | ok o =>
      obtain ⟨hprog, hwithin, hrefs, htree, ho⟩ := hfinds.ok o hv
      refine .inr ⟨_, hprog, hwithin, hrefs, ?_⟩
      rw [← htree, ← ho, ← hv]

theorem infer_of_known (h : Lawful n resolve) (e : Expr)
    (hrefs : ∀ ref ∈ e.refs, (lookup rules ref.name).isSome) :
    e.infer resolve rules =
      ⟨e.annotate (known rules), rules, .ok (e.outcomeGiven (known rules))⟩ := by
  have hlist : ∀ es : List Expr, (∀ e ∈ es, e.infer resolve rules =
      ⟨e.annotate (known rules), rules, .ok (e.outcomeGiven (known rules))⟩) →
      Expr.inferList resolve es rules = ⟨es.map (Expr.annotate (known rules)), rules,
        .ok (es.map (Expr.outcomeGiven (known rules)))⟩ := by
    intro es hes
    induction es with
    | nil => rfl
    | cons e es ih =>
        rw [Expr.inferList, hes e (List.mem_cons_self ..)]
        simp only [Visit.cons, ih fun e' he' => hes e' (List.mem_cons_of_mem e he'), Except.map,
          List.map_cons]
  induction e with
  | choice t es ih =>
      rw [Expr.infer, hlist es fun e he => ih e he fun ref href => hrefs ref ?_,
        Expr.annotate_choice, Expr.outcomeGiven_choice]
      · rfl
      · exact Expr.refs_choice t es ▸ List.mem_flatMap.mpr ⟨e, he, href⟩
  | sequence t es ih =>
      rw [Expr.infer, hlist es fun e he => ih e he fun ref href => hrefs ref ?_,
        Expr.annotate_sequence, Expr.outcomeGiven_sequence]
      · rfl
      · exact Expr.refs_sequence t es ▸ List.mem_flatMap.mpr ⟨e, he, href⟩
  | apply t op e ih =>
      rw [Expr.infer, ih hrefs]
      rfl
  | leaf t l =>
      cases l with
      | ruleRef name =>
          obtain ⟨o, ho⟩ := Option.isSome_iff_exists.mp
            (hrefs ⟨name, t.location⟩ (by simp [Expr.refs, Expr.nodes, Expr.ref?]))
          rw [Expr.infer, h.memo ⟨name, t.location⟩ rules o ho, Expr.annotate, Expr.outcomeGiven,
            known_of_lookup ho]
          rfl
      | _ => rfl

end Visits

section Settle

variable {rules : List Rule} {i j : Nat} {r : Rule} {o : Outcome}

/-- What going over the body of the `i`th rule comes to: the others are as in `visited` then, and
the outcome `o` follows from all that is known with it. -/
structure Converges (rules : List Rule) (i : Nat) (r : Rule) (visited : List Rule) (o : Outcome) :
    Prop where
  progress : Progress (opened i rules) visited
  within : Within (opened i rules) visited r.body.refs
  refs : ∀ ref ∈ r.body.refs, (lookup visited ref.name).isSome
  outcome : r.body.outcomeGiven (known (setOutcome i o visited)) = o

namespace Converges

variable {visited : List Rule} {body : Expr}

theorem leads (h : Converges rules i r visited o) (hr : rules[i]? = some r)
    (hnone : outcomeAt? (opened i rules) j = none) (hsome : (outcomeAt? visited j).isSome) :
    TransGen (Refers rules) i j := by
  obtain ⟨ref, href, m, hm, hlead⟩ := h.within j hnone hsome
  rw [ruleIndex?_congr names_opened] at hm
  exact .head' ⟨r, hr, ref, href, hm⟩ (ReflTransGen.mono refers_opened_le _ _ hlead)

/-- What a rule knew that was settled while the `i`th one was open. -/
theorem estimates (h : Converges rules i r visited o) (hr : rules[i]? = some r)
    (hnone : r.outcome = none) (hij : i ≠ j) (hleads : TransGen (Refers rules) i j) {inner : Expr}
    {k : String → Outcome}
    (hk : Estimates (Pending (opened i rules) · j) (opened i rules) visited inner k) :
    Estimates (Pending rules · j) rules (setBody i body (setOutcome i o visited)) inner k := by
  have hvi := h.progress.getElem?_of_opened hr
  refine ⟨fun name => ?_, fun ref href => ?_⟩
  · rw [known_setBody]
    exact (hk.under name).trans (under_setOutcome hvi rfl name)
  · obtain ⟨m, o', hm, ho', hcase⟩ := hk.ref ref href
    rw [ruleIndex?_congr names_opened] at hm
    by_cases him : i = m
    · subst him
      -- the open rule counted as `sometimes`, whatever its outcome is now
      have hsometimes : o' = .sometimes := by
        simpa [outcomeAt?, hvi] using ho'.symm
      refine ⟨i, o, hm, ?_, .inr ⟨?_, ?_, hij, hleads⟩⟩
      · rw [outcomeAt?_setBody, outcomeAt?_setOutcome_self hvi]
      · rcases hcase with hcase | ⟨hcase, -⟩
        · exact hcase.trans hsometimes
        · exact hcase
      · rw [outcomeAt?, hr, Option.bind_some, hnone]
    · refine ⟨m, o', hm, ?_, hcase.imp_right (And.imp_right (Pending.of_opened hr))⟩
      rw [outcomeAt?_setBody, outcomeAt?_setOutcome_ne him, ho']

/-- The rules once the `i`th one is settled, after others were on the way. -/
theorem progress_closed (h : Converges rules i r visited o) (hr : rules[i]? = some r)
    (hnone : r.outcome = none) :
    Progress rules (setBody i (r.body.annotate (known (setOutcome i o visited)))
      (setOutcome i o visited)) := by
  have hnames : (setBody i (r.body.annotate (known (setOutcome i o visited)))
      (setOutcome i o visited)).map (·.name) = rules.map (·.name) :=
    names_setBody.trans (names_setOutcome.trans (h.progress.names.trans names_opened))
  refine ⟨hnames, fun j s hs => ?_⟩
  by_cases hij : i = j
  · subst hij
    obtain rfl : r = s := Option.some.inj (hr.symm.trans hs)
    have hvi := h.progress.getElem?_of_opened hr
    refine ⟨settled (known (setOutcome i o visited)) r, ?_,
      .inr ⟨hnone, known (setOutcome i o visited), ?_, rfl⟩⟩
    · rw [getElem?_setBody_self (getElem?_setOutcome_self hvi), settled, h.outcome]
    · have hknown := estimates_known (Pending rules · i) hnames fun ref href => by
        rw [lookup_setBody]
        exact lookup_isSome_setOutcome (h.refs ref href)
      rwa [known_setBody] at hknown
  · obtain ⟨s', hs', hstep⟩ := h.progress.step j s ((getElem?_opened_ne hij).trans hs)
    refine ⟨s', (getElem?_setBody_ne hij).trans ((getElem?_setOutcome_ne hij).trans hs'), ?_⟩
    rcases hstep with hsame | ⟨hsnone, k, hk, hsettled⟩
    · exact .inl hsame
    · refine .inr ⟨hsnone, k, h.estimates hr hnone hij (h.leads hr ?_ ?_) hk, hsettled⟩
      · rw [outcomeAt?, getElem?_opened_ne hij, hs, Option.bind_some, hsnone]
      · rw [outcomeAt?, hs', hsettled]
        rfl

end Converges

/-! ### Settling -/

variable {n : Nat} {resolve : Resolver}

theorem settle_of_error {repeats : Nat} {body : Expr} {defect : Defect}
    (h : (body.infer resolve rules).found = .error defect) :
    (settle resolve i repeats body rules).found = .error defect := by
  rw [settle.eq_def]
  simp only [h]

theorem settle_of_ok (repeats : Nat) {body : Expr}
    (h : (body.infer resolve rules).found = .ok o) :
    settle resolve i (repeats + 1) body rules =
      if o = (outcomeAt? rules i).getD .sometimes then
        ⟨(body.infer resolve rules).tree, setOutcome i o (body.infer resolve rules).rules, .ok o⟩
      else settle resolve i repeats (body.infer resolve rules).tree
        (setOutcome i o (body.infer resolve rules).rules) := by
  rw [settle.eq_def]
  simp only [h]

/-- A body that is gone over once more keeps its outcome when that is definite: all rules that it
refers to have been settled, and the own outcome can only add to what was known. -/
theorem infer_again (h : Lawful n resolve) {visited : List Rule} {body : Expr}
    (hr : visited[i]? = some r) (hopen : r.outcome = some .sometimes)
    (hrefs : ∀ ref ∈ body.refs, (lookup visited ref.name).isSome)
    (hne : body.outcomeGiven (known visited) ≠ .sometimes)
    (ho : body.outcomeGiven (known visited) = o) :
    body.outcomeGiven (known (setOutcome i o visited)) = o ∧
      (body.annotate (known visited)).infer resolve (setOutcome i o visited) =
        ⟨body.annotate (known (setOutcome i o visited)), setOutcome i o visited, .ok o⟩ := by
  have hsame : body.outcomeGiven (known (setOutcome i o visited)) = o :=
    ((Expr.outcomeGiven_below (under_setOutcome hr hopen) body).eq_of_ne hne).trans ho
  refine ⟨hsame, ?_⟩
  rw [infer_of_known h _ fun ref href => lookup_isSome_setOutcome
      (hrefs ref (Expr.refs_annotate body ▸ href)),
    Expr.annotate_annotate, Expr.outcomeGiven_annotate, hsame]

/-- A rule settles, since its outcome stays when its body is gone over for the second time. -/
theorem settle_spec (h : Lawful n resolve) (hr : rules[i]? = some r) (hnone : r.outcome = none)
    (hn : unknowns (opened i rules) ≤ n) :
    (∃ visited o, Converges rules i r visited o ∧
      settle resolve i maxRepeats r.body (opened i rules) =
        ⟨r.body.annotate (known (setOutcome i o visited)), setOutcome i o visited, .ok o⟩) ∨
    ∃ defect, (settle resolve i maxRepeats r.body (opened i rules)).found = .error defect ∧
      Dangles rules [] defect := by
  rcases infer_cases h r.body hn with
    ⟨defect, hfound, hdangles⟩ | ⟨visited, hprog, hwithin, hrefs, hvisit⟩
  · refine .inr ⟨defect, settle_of_error hfound, ?_⟩
    refine hdangles.of_opened.mono fun ref href => .inr ?_
    exact ⟨r, List.mem_of_getElem? hr, hnone, href⟩
  · have hvi := hprog.getElem?_of_opened hr
    have hstep := settle_of_ok (i := i) 5 (congrArg Visit.found hvisit)
    rw [outcomeAt?, getElem?_opened_self hr, Option.bind_some, Option.getD_some, hvisit] at hstep
    refine .inl ⟨visited, r.body.outcomeGiven (known visited), ?_⟩
    by_cases hsometimes : r.body.outcomeGiven (known visited) = .sometimes
    · rw [if_pos hsometimes] at hstep
      rw [hsometimes] at hstep ⊢
      have hsame := setOutcome_eq_self hvi rfl
      refine ⟨⟨hprog, hwithin, hrefs, ?_⟩, ?_⟩
      · rw [hsame, hsometimes]
      · rw [hsame] at hstep ⊢
        exact hstep
    · rw [if_neg hsometimes] at hstep
      obtain ⟨hsame, hagain⟩ := infer_again h hvi rfl hrefs hsometimes rfl
      have hstop := settle_of_ok (i := i) 4 (congrArg Visit.found hagain)
      rw [outcomeAt?_setOutcome_self hvi, Option.getD_some, if_pos rfl, hagain,
        setOutcome_setOutcome] at hstop
      exact ⟨⟨hprog, hwithin, hrefs, hsame⟩, hstep.trans hstop⟩

/-- What inference of the `i`th rule comes to when it finds the outcome `o`. -/
structure Infers (rules rules' : List Rule) (i : Nat) (o : Outcome) : Prop where
  progress : Progress rules rules'
  outcome : outcomeAt? rules' i = some o
  leads : ∀ j, outcomeAt? rules j = none → (outcomeAt? rules' j).isSome →
    ReflTransGen (Refers rules) i j
  follows : ∀ r, rules[i]? = some r → r.outcome = none →
    rules'[i]? = some (settled (known rules') r)

theorem Infers.of_known (ho : outcomeAt? rules i = some o) : Infers rules rules i o := by
  refine ⟨.refl rules, ho, fun j hnone hsome => ?_, fun r hr hnone => ?_⟩
  · simp [hnone] at hsome
  · simp [outcomeAt?, hr, hnone] at ho

theorem Converges.infers {visited : List Rule} (h : Converges rules i r visited o)
    (hr : rules[i]? = some r) (hnone : r.outcome = none) :
    Infers rules (setBody i (r.body.annotate (known (setOutcome i o visited)))
      (setOutcome i o visited)) i o := by
  have hvi := h.progress.getElem?_of_opened hr
  refine ⟨h.progress_closed hr hnone, ?_, fun j hj hsome => ?_, fun s hs _ => ?_⟩
  · rw [outcomeAt?_setBody, outcomeAt?_setOutcome_self hvi]
  · by_cases hij : i = j
    · subst hij
      exact .refl
    · rw [outcomeAt?_setBody, outcomeAt?_setOutcome_ne hij] at hsome
      rw [outcomeAt?, ← getElem?_opened_ne hij] at hj
      exact (h.leads hr hj hsome).to_reflTransGen
  · obtain rfl : r = s := Option.some.inj (hr.symm.trans hs)
    rw [known_setBody, getElem?_setBody_self (getElem?_setOutcome_self hvi), settled, h.outcome]

/-- What inference comes to for the `i`th rule: it has an outcome then, or there is a reference to
no rule. -/
def Settles (rules : List Rule) (i : Nat) (found : List Rule × Except Defect Outcome) : Prop :=
  (∃ rules' o, found = (rules', .ok o) ∧ Infers rules rules' i o) ∨
    ∃ rules' defect, found = (rules', .error defect) ∧ Dangles rules [] defect

/-- How references are resolved when at most `unknown` rules have no outcome. -/
def resolver (unknown : Nat) : Resolver := fun ref rules =>
  match ruleIndex? rules ref.name with
  | some j => inferRule unknown j rules
  | none => (rules, .error (.undefinedRule ref))

theorem inferRule_of_some {unknown : Nat} (h : outcomeAt? rules i = some o) :
    inferRule unknown i rules = (rules, .ok o) := by
  rw [inferRule.eq_def]
  simp only [h]

theorem inferRule_of_none {unknown : Nat} (hr : rules[i]? = some r) (hnone : r.outcome = none) :
    inferRule (unknown + 1) i rules =
      (setBody i (settle (resolver unknown) i maxRepeats r.body (opened i rules)).tree
          (settle (resolver unknown) i maxRepeats r.body (opened i rules)).rules,
        (settle (resolver unknown) i maxRepeats r.body (opened i rules)).found) := by
  have h : outcomeAt? rules i = none := by rw [outcomeAt?, hr, Option.bind_some, hnone]
  rw [inferRule.eq_def]
  simp only [h, hr]
  rfl

theorem ruleIndex?_lt {name : String} (h : ruleIndex? rules name = some j) : j < rules.length :=
  (List.findIdx?_eq_some_iff_getElem.mp h).1

theorem lawful_resolver (unknown : Nat)
    (h : ∀ i rules, i < rules.length → unknowns rules ≤ unknown →
      Settles rules i (inferRule unknown i rules)) : Lawful unknown (resolver unknown) := by
  refine ⟨fun ref rules o ho => ?_, fun ref rules hn o ho => ?_, fun ref rules hn defect hd => ?_⟩
  · obtain ⟨j, hj, hjo⟩ := Option.bind_eq_some_iff.mp ho
    simp only [resolver, hj, inferRule_of_some hjo]
  · cases hj : ruleIndex? rules ref.name with
    | none => simp [resolver, hj] at ho
    | some j =>
        simp only [resolver, hj] at ho ⊢
        rcases h j rules (ruleIndex?_lt hj) hn with
          ⟨rules', o', hinfer, hspec⟩ | ⟨rules', defect, hinfer, -⟩
        · rw [hinfer] at ho ⊢
          obtain rfl := Except.ok.inj ho
          refine ⟨hspec.progress, fun m hnone hsome => ?_, ?_⟩
          · exact ⟨ref, List.mem_singleton_self ref, j, hj, hspec.leads m hnone hsome⟩
          · rw [lookup, ruleIndex?_congr hspec.progress.names, hj]
            exact hspec.outcome
        · rw [hinfer] at ho
          cases ho
  · cases hj : ruleIndex? rules ref.name with
    | none =>
        simp only [resolver, hj, Except.error.injEq] at hd
        refine ⟨ref, hd.symm, ?_, .inl (List.mem_singleton.mpr rfl)⟩
        rw [isDefined_iff_mem, ← ruleIndex?_isSome_iff, hj]
        simp
    | some j =>
        simp only [resolver, hj] at hd
        rcases h j rules (ruleIndex?_lt hj) hn with
          ⟨rules', o', hinfer, -⟩ | ⟨rules', defect', hinfer, hdangles⟩
        · rw [hinfer] at hd
          cases hd
        · rw [hinfer] at hd
          obtain rfl := Except.error.inj hd
          exact hdangles.mono (by simp)

theorem inferRule_settles (unknown : Nat) (hi : i < rules.length)
    (hn : unknowns rules ≤ unknown) : Settles rules i (inferRule unknown i rules) := by
  induction unknown generalizing i rules with
  | zero =>
      cases ho : outcomeAt? rules i with
      | some o => exact .inl ⟨rules, o, inferRule_of_some ho, .of_known ho⟩
      | none =>
          have hr := List.getElem?_eq_getElem hi
          rw [outcomeAt?, hr, Option.bind_some] at ho
          exact absurd hn (Nat.not_le.mpr (unknowns_pos hr ho))
  | succ unknown ih =>
      cases ho : outcomeAt? rules i with
      | some o => exact .inl ⟨rules, o, inferRule_of_some ho, .of_known ho⟩
      | none =>
          have hr := List.getElem?_eq_getElem hi
          rw [outcomeAt?, hr, Option.bind_some] at ho
          have hlt := unknowns_opened_lt hr ho
          have hlawful := lawful_resolver unknown fun i rules hi hn => ih hi hn
          rw [inferRule_of_none hr ho]
          rcases settle_spec hlawful hr ho (by omega) with
            ⟨visited, o, hconverges, hsettle⟩ | ⟨defect, hfound, hdangles⟩
          · rw [hsettle]
            exact .inl ⟨_, _, rfl, hconverges.infers hr ho⟩
          · exact .inr ⟨_, defect, by rw [hfound], hdangles⟩

end Settle

/-- What inference does to the rules at `is`: they have an outcome then, or there is a reference to
no rule. -/
theorem inferRules_spec {rules : List Rule} {is : List Nat} (his : ∀ i ∈ is, i < rules.length) :
    (∃ rules', inferRules is rules = (rules', .ok ()) ∧ Progress rules rules' ∧
      ∀ i ∈ is, (outcomeAt? rules' i).isSome) ∨
    ∃ rules' defect, inferRules is rules = (rules', .error defect) ∧
      Dangles rules [] defect := by
  induction is generalizing rules with
  | nil => exact .inl ⟨rules, rfl, .refl rules, by simp⟩
  | cons i is ih =>
      have hcount : unknowns rules ≤ rules.length := List.countP_le_length
      rw [inferRules]
      rcases inferRule_settles rules.length (his i (List.mem_cons_self ..)) hcount with
        ⟨rules', o, hinfer, hspec⟩ | ⟨rules', defect, hinfer, hdangles⟩
      · have hprog := hspec.progress
        simp only [hinfer]
        have his' : ∀ j ∈ is, j < rules'.length := fun j hj =>
          hprog.length_eq ▸ his j (List.mem_cons_of_mem i hj)
        rcases ih his' with ⟨rules'', hrest, hprog', hsome⟩ | ⟨rules'', defect, hrest, hdangles⟩
        · refine .inl ⟨rules'', hrest, hprog.trans hprog', fun j hj => ?_⟩
          rcases List.mem_cons.mp hj with rfl | hj
          · exact Option.isSome_of_eq_some (hprog'.outcomeAt? hspec.outcome)
          · exact hsome j hj
        · exact .inr ⟨rules'', defect, hrest, hdangles.of_progress hprog⟩
      · simp only [hinfer]
        exact .inr ⟨rules', defect, rfl, hdangles⟩

theorem progress_of_inferRules {rules rules' : List Rule} {is : List Nat}
    (his : ∀ i ∈ is, i < rules.length) (hrun : inferRules is rules = (rules', .ok ())) :
    Progress rules rules' := by
  rcases inferRules_spec his with ⟨_, hok, hprog, -⟩ | ⟨_, _, herror, -⟩
  · exact (Prod.mk.inj (hok.symm.trans hrun)).1 ▸ hprog
  · cases herror.symm.trans hrun

end Inference

open Inference

/-- Inference gives every rule an outcome, unless there is a reference to no rule. -/
theorem inferOutcomes_spec (rules : List Rule) :
    (∃ rules', inferOutcomes rules = (rules', .ok ()) ∧ Progress rules rules' ∧
      ∀ r ∈ rules', r.outcome.isSome) ∨
    ∃ rules' defect, inferOutcomes rules = (rules', .error defect) ∧
      Dangles rules [] defect := by
  have his : ∀ i ∈ List.range rules.length, i < rules.length := fun i hi => List.mem_range.mp hi
  rcases inferRules_spec his with ⟨rules', hinfer, hprog, hsome⟩ | herror
  · refine .inl ⟨rules', hinfer, hprog, fun r hr => ?_⟩
    obtain ⟨i, hi⟩ := List.mem_iff_getElem?.mp hr
    have hlt : i < rules.length := hprog.length_eq ▸ (List.getElem?_eq_some_iff.mp hi).1
    have h := hsome i (List.mem_range.mpr hlt)
    rwa [outcomeAt?, hi, Option.bind_some] at h
  · exact .inr herror

theorem inferOutcomes_of_refsDefined {rules : List Rule} (h : RefsDefined rules) :
    ∃ rules', inferOutcomes rules = (rules', .ok ()) ∧ Progress rules rules' ∧
      ∀ r ∈ rules', r.outcome.isSome := by
  rcases inferOutcomes_spec rules with hok | ⟨rules', defect, -, ref, -, hundef, hmem⟩
  · exact hok
  · rcases hmem with hmem | ⟨r, hr, -, hmem⟩
    · cases hmem
    · exact absurd (h r hr ref hmem) hundef

theorem Pass.inferOutcomes_of_run {o : Options} {g g' : Grammar}
    (h : Pass.inferMatchResults.run o g = (g', .ok ())) :
    inferOutcomes g.rules = (g'.rules, .ok ()) := by
  obtain ⟨hg, hok⟩ := Prod.mk.inj h
  exact Prod.ext (congrArg Grammar.rules hg) hok

end PegCompiler
