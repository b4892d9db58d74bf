import Mathlib.Logic.Relation
import PegCompiler.Proofs.Outcomes

/-!
# Progress of inference

While the outcome of a rule is inferred, other rules get theirs once and keep it. What a body was
annotated with is below what is known in the end: a reference to a rule that was not settled yet
counted as `sometimes`. The rules that are settled on the way to another one are those that it leads
to, and what one of them was not told is the outcome of a rule that has led to it.
-/

namespace PegCompiler

open Relation

namespace Inference

/-- The outcome of the rule that `name` refers to, as far as it is known. -/
def lookup (rules : List Rule) (name : String) : Option Outcome :=
  (ruleIndex? rules name).bind (outcomeAt? rules)

/-- The outcome that a reference to `name` gets. -/
def known (rules : List Rule) (name : String) : Outcome :=
  (lookup rules name).getD .sometimes

/-- The rule with the outcomes that follow from those of the rules. -/
def settled (known : String → Outcome) (r : Rule) : Rule :=
  { r with body := r.body.annotate known, outcome := some (r.body.outcomeGiven known) }

/-- Whether `k` knows nothing else than the rules do. -/
def Under (k : String → Outcome) (rules : List Rule) : Prop :=
  ∀ name, (k name).Below (known rules name)

/-- Whether the body of the `i`th rule refers to the `j`th one. -/
def Refers (rules : List Rule) (i j : Nat) : Prop :=
  ∃ r, rules[i]? = some r ∧ ∃ ref ∈ r.body.refs, ruleIndex? rules ref.name = some j

/-- Whether the `m`th rule may have been open still when the `j`th one was settled: it was not known
before, and leads there. -/
structure Pending (rules : List Rule) (m j : Nat) : Prop where
  unknown : outcomeAt? rules m = none
  ne : m ≠ j
  leads : TransGen (Refers rules) m j

/-- Whether `k` is what was known when a body was gone over on the way from `rules` to `rules'`. All
rules that it refers to have an outcome in the end, and only of `pending` ones nothing was known. -/
structure Estimates (pending : Nat → Prop) (rules rules' : List Rule) (body : Expr)
    (k : String → Outcome) : Prop where
  under : Under k rules'
  ref : ∀ ref ∈ body.refs, ∃ m o, ruleIndex? rules ref.name = some m ∧
    outcomeAt? rules' m = some o ∧ (k ref.name = o ∨ k ref.name = .sometimes ∧ pending m)

theorem Estimates.imp {pending pending' : Nat → Prop} {rules rules' : List Rule} {body : Expr}
    {k : String → Outcome} (hk : Estimates pending rules rules' body k)
    (h : ∀ m, (outcomeAt? rules' m).isSome → pending m → pending' m) :
    Estimates pending' rules rules' body k := by
  refine ⟨hk.under, fun ref href => ?_⟩
  obtain ⟨m, o, hm, ho, hcase⟩ := hk.ref ref href
  exact ⟨m, o, hm, ho, hcase.imp_right fun ⟨hsometimes, hp⟩ =>
    ⟨hsometimes, h m (Option.isSome_of_eq_some ho) hp⟩⟩

/-- Rules that have an outcome stay as they are, others do or are settled. -/
structure Progress (rules rules' : List Rule) : Prop where
  names : rules'.map (·.name) = rules.map (·.name)
  step : ∀ (i : Nat) (r : Rule), rules[i]? = some r → ∃ r', rules'[i]? = some r' ∧
    (r' = r ∨ r.outcome = none ∧
      ∃ k, Estimates (Pending rules · i) rules rules' r.body k ∧ r' = settled k r)

section Lookup

variable {rules rules' : List Rule} {name : String}

theorem ruleIndex?_congr (h : rules'.map (·.name) = rules.map (·.name)) (name : String) :
    ruleIndex? rules' name = ruleIndex? rules name := by
  have hmap : ∀ rs : List Rule,
      ruleIndex? rs name = (rs.map (·.name)).findIdx? (· = name) := by
    intro rs
    rw [List.findIdx?_map]
    rfl
  rw [hmap, hmap, h]

theorem isDefined_iff_mem {ref : RuleRef} :
    ref.isDefined rules ↔ ref.name ∈ rules.map (·.name) := by
  simp [RuleRef.isDefined, findRule?]

theorem isDefined_congr (h : rules'.map (·.name) = rules.map (·.name)) {ref : RuleRef} :
    ref.isDefined rules' ↔ ref.isDefined rules := by
  rw [isDefined_iff_mem, isDefined_iff_mem, h]

theorem ruleIndex?_isSome_iff : (ruleIndex? rules name).isSome ↔ name ∈ rules.map (·.name) := by
  simp [ruleIndex?]

theorem findRule?_eq_getElem? :
    findRule? rules name = (ruleIndex? rules name).bind (rules[·]?) := by
  induction rules with
  | nil => rfl
  | cons r rs ih =>
      by_cases hr : r.name = name
      · simp [findRule?, ruleIndex?, List.findIdx?_cons, hr]
      · have hfind : findRule? (r :: rs) name = findRule? rs name := by simp [findRule?, hr]
        have hidx : ruleIndex? (r :: rs) name = (ruleIndex? rs name).map (· + 1) := by
          simp [ruleIndex?, List.findIdx?_cons, hr]
        rw [hfind, hidx, ih]
        cases ruleIndex? rs name <;> simp

theorem lookup_eq_findRule? :
    lookup rules name = (findRule? rules name).bind (·.outcome) := by
  rw [findRule?_eq_getElem?, lookup, Option.bind_assoc]
  rfl

theorem known_of_lookup {o : Outcome} (h : lookup rules name = some o) : known rules name = o := by
  rw [known, h, Option.getD_some]

end Lookup

namespace Progress

variable {rules rules' rules'' : List Rule}

theorem refl (rules : List Rule) : Progress rules rules :=
  ⟨rfl, fun _ r hr => ⟨r, hr, .inl rfl⟩⟩

theorem getElem?_of_known (h : Progress rules rules') {i : Nat} {r : Rule} (hr : rules[i]? = some r)
    (hsome : r.outcome.isSome) : rules'[i]? = some r := by
  obtain ⟨r', hr', rfl | ⟨hnone, -⟩⟩ := h.step i r hr
  · exact hr'
  · simp [hnone] at hsome

theorem outcomeAt? (h : Progress rules rules') {i : Nat} {o : Outcome}
    (ho : Inference.outcomeAt? rules i = some o) : Inference.outcomeAt? rules' i = some o := by
  obtain ⟨r, hr, hro⟩ := Option.bind_eq_some_iff.mp ho
  rw [Inference.outcomeAt?, h.getElem?_of_known hr (Option.isSome_of_eq_some hro),
    Option.bind_some, hro]

theorem lookup (h : Progress rules rules') {name : String} {o : Outcome}
    (ho : Inference.lookup rules name = some o) : Inference.lookup rules' name = some o := by
  obtain ⟨i, hi, hio⟩ := Option.bind_eq_some_iff.mp ho
  rw [Inference.lookup, ruleIndex?_congr h.names, hi]
  exact h.outcomeAt? hio

theorem under (h : Progress rules rules') {k : String → Outcome} (hk : Under k rules) :
    Under k rules' := by
  intro name
  cases ho : Inference.lookup rules name with
  | none =>
      have hk := hk name
      rw [known, ho] at hk
      exact hk.trans (Outcome.sometimes_below _)
  | some o =>
      have hk := hk name
      rw [known_of_lookup ho] at hk
      rw [known_of_lookup (h.lookup ho)]
      exact hk

theorem length_eq (h : Progress rules rules') : rules'.length = rules.length := by
  simpa using congrArg List.length h.names

theorem refs (h : Progress rules rules') {i : Nat} {r r' : Rule} (hr : rules[i]? = some r)
    (hr' : rules'[i]? = some r') : r'.body.refs = r.body.refs := by
  obtain ⟨s, hs, hstep⟩ := h.step i r hr
  obtain rfl := Option.some.inj (hs.symm.trans hr')
  rcases hstep with rfl | ⟨-, k, -, rfl⟩
  · rfl
  · exact Expr.refs_annotate r.body

theorem outcomeAt?_eq_none (h : Progress rules rules') {i : Nat}
    (hnone : Inference.outcomeAt? rules' i = none) : Inference.outcomeAt? rules i = none := by
  cases ho : Inference.outcomeAt? rules i with
  | none => rfl
  | some o => simp [h.outcomeAt? ho] at hnone

theorem exists_source_at (h : Progress rules rules') {i : Nat} {r' : Rule}
    (hr' : rules'[i]? = some r') : ∃ r, rules[i]? = some r ∧ (r' = r ∨ r.outcome = none ∧
      ∃ k, Estimates (Pending rules · i) rules rules' r.body k ∧ r' = settled k r) := by
  have hlt : i < rules.length := h.length_eq ▸ (List.getElem?_eq_some_iff.mp hr').1
  have hr := List.getElem?_eq_getElem hlt
  obtain ⟨s, hs, hstep⟩ := h.step i _ hr
  obtain rfl := Option.some.inj (hr'.symm.trans hs)
  exact ⟨_, hr, hstep⟩

/-- A rule that is not known was not known before, and is still the same. -/
theorem getElem?_of_unknown (h : Progress rules rules') {i : Nat} {r' : Rule}
    (hr' : rules'[i]? = some r') (hnone : r'.outcome = none) : rules[i]? = some r' := by
  obtain ⟨r, hr, rfl | ⟨-, k, -, rfl⟩⟩ := h.exists_source_at hr'
  · exact hr
  · simp [settled] at hnone

theorem settled_of_isSome (h : Progress rules rules') {i : Nat} {r : Rule} (hr : rules[i]? = some r)
    (hnone : r.outcome = none) (hsome : (Inference.outcomeAt? rules' i).isSome) :
    ∃ k, Estimates (Pending rules · i) rules rules' r.body k ∧ rules'[i]? = some (settled k r) := by
  obtain ⟨r', hr', hsame | ⟨-, k, hk, rfl⟩⟩ := h.step i r hr
  · simp [Inference.outcomeAt?, hr', hsame, hnone] at hsome
  · exact ⟨k, hk, hr'⟩

theorem refers_le (h : Progress rules rules') : Refers rules' ≤ Refers rules := by
  rintro i j ⟨r', hr', ref, href, hj⟩
  obtain ⟨r, hr, -⟩ := h.exists_source_at hr'
  exact ⟨r, hr, ref, h.refs hr hr' ▸ href, (ruleIndex?_congr h.names _).symm.trans hj⟩

theorem pending (h : Progress rules rules') {m j : Nat} (hp : Pending rules' m j) :
    Pending rules m j :=
  ⟨h.outcomeAt?_eq_none hp.unknown, hp.ne, TransGen.mono h.refers_le _ _ hp.leads⟩

theorem estimates_later (h : Progress rules' rules'') {pending : Nat → Prop} {body : Expr}
    {k : String → Outcome} (hk : Estimates pending rules rules' body k) :
    Estimates pending rules rules'' body k := by
  refine ⟨h.under hk.under, fun ref href => ?_⟩
  obtain ⟨m, o, hm, ho, hcase⟩ := hk.ref ref href
  exact ⟨m, o, hm, h.outcomeAt? ho, hcase⟩

theorem estimates_earlier (h : Progress rules rules') {pending pending' : Nat → Prop} {body : Expr}
    {k : String → Outcome} (hpending : ∀ m, pending' m → pending m)
    (hk : Estimates pending' rules' rules'' body k) : Estimates pending rules rules'' body k := by
  refine ⟨hk.under, fun ref href => ?_⟩
  obtain ⟨m, o, hm, ho, hcase⟩ := hk.ref ref href
  exact ⟨m, o, (ruleIndex?_congr h.names _).symm.trans hm, ho,
    hcase.imp_right fun ⟨hsometimes, hp⟩ => ⟨hsometimes, hpending m hp⟩⟩

theorem trans (h : Progress rules rules') (h' : Progress rules' rules'') :
    Progress rules rules'' := by
  refine ⟨h'.names.trans h.names, fun i r hr => ?_⟩
  obtain ⟨r', hr', hstep⟩ := h.step i r hr
  obtain ⟨r'', hr'', hstep'⟩ := h'.step i r' hr'
  refine ⟨r'', hr'', ?_⟩
  rcases hstep with rfl | ⟨hnone, k, hk, rfl⟩
  · exact hstep'.imp_right fun ⟨hnone, k, hk, hs⟩ =>
      ⟨hnone, k, h.estimates_earlier (fun _ => h.pending) hk, hs⟩
  · rcases hstep' with rfl | ⟨hnone', -⟩
    · exact .inr ⟨hnone, k, h'.estimates_later hk, rfl⟩
    · simp [settled] at hnone'

/-- Every rule is one from before, and settled unless it is still the same. -/
theorem exists_source (h : Progress rules rules') {r' : Rule} (hr' : r' ∈ rules') :
    ∃ r ∈ rules, r' = r ∨ r.outcome = none ∧ ∃ k, Under k rules' ∧ r' = settled k r := by
  obtain ⟨i, hi⟩ := List.mem_iff_getElem?.mp hr'
  obtain ⟨r, hr, hstep⟩ := h.exists_source_at hi
  exact ⟨r, List.mem_of_getElem? hr,
    hstep.imp_right fun ⟨hnone, k, hk, hs⟩ => ⟨hnone, k, hk.under, hs⟩⟩

end Progress

/-- Whether `refs` lead to all rules that are found out on the way from `rules` to `rules'`. -/
def Within (rules rules' : List Rule) (refs : List RuleRef) : Prop :=
  ∀ j, outcomeAt? rules j = none → (outcomeAt? rules' j).isSome →
    ∃ ref ∈ refs, ∃ m, ruleIndex? rules ref.name = some m ∧ ReflTransGen (Refers rules) m j

theorem Within.refl (rules : List Rule) (refs : List RuleRef) : Within rules rules refs := by
  intro j hnone hsome
  simp [hnone] at hsome

theorem Within.append {rules rules' rules'' : List Rule} {refs refs' : List RuleRef}
    (h : Within rules rules' refs) (hprog : Progress rules rules')
    (h' : Within rules' rules'' refs') : Within rules rules'' (refs ++ refs') := by
  intro j hnone hsome
  cases hj : outcomeAt? rules' j with
  | some o =>
      obtain ⟨ref, href, hlead⟩ := h j hnone (Option.isSome_of_eq_some hj)
      exact ⟨ref, List.mem_append_left _ href, hlead⟩
  | none =>
      obtain ⟨ref, href, m, hm, hlead⟩ := h' j hj hsome
      exact ⟨ref, List.mem_append_right _ href, m,
        (ruleIndex?_congr hprog.names _).symm.trans hm, ReflTransGen.mono hprog.refers_le _ _ hlead⟩

/-- The number of rules without an outcome. -/
def unknowns (rules : List Rule) : Nat :=
  rules.countP (·.outcome.isNone)

theorem unknowns_pos {rules : List Rule} {i : Nat} {r : Rule} (hr : rules[i]? = some r)
    (hnone : r.outcome = none) : 0 < unknowns rules :=
  List.countP_pos_iff.mpr ⟨r, List.mem_of_getElem? hr, by simp [hnone]⟩

/-- Rules that agree on names, and are known wherever the others are, leave no more unknown. -/
theorem unknowns_le {rules rules' : List Rule} (hlen : rules'.length = rules.length)
    (h : ∀ (i : Nat) (r r' : Rule), rules[i]? = some r → rules'[i]? = some r' →
      r'.outcome = none → r.outcome = none) : unknowns rules' ≤ unknowns rules := by
  induction rules generalizing rules' with
  | nil =>
      obtain rfl := List.length_eq_zero_iff.mp hlen
      exact Nat.le_refl _
  | cons r rs ih =>
      obtain ⟨r', rs', rfl⟩ := List.exists_cons_of_length_eq_add_one hlen
      have htail := ih (Nat.succ.inj hlen) fun i s s' hs hs' =>
        h (i + 1) s s' (by simpa using hs) (by simpa using hs')
      have hhead := h 0 r r' rfl rfl
      simp only [unknowns, List.countP_cons, Option.isNone_iff_eq_none] at htail ⊢
      split <;> split <;> first | omega | simp_all

theorem Progress.unknowns_le {rules rules' : List Rule} (h : Progress rules rules') :
    unknowns rules' ≤ unknowns rules := by
  refine Inference.unknowns_le h.length_eq fun i r r' hr hr' hnone => ?_
  obtain ⟨s, hs, rfl | ⟨hr, -⟩⟩ := h.step i r hr
  · obtain rfl := Option.some.inj (hs.symm.trans hr')
    exact hnone
  · exact hr

/-- Whether the defect is a reference to no rule, one of `refs` or one inside of a rule without an
outcome. -/
def Dangles (rules : List Rule) (refs : List RuleRef) (defect : Defect) : Prop :=
  ∃ ref, defect = .undefinedRule ref ∧ ¬ref.isDefined rules ∧
    (ref ∈ refs ∨ ∃ r ∈ rules, r.outcome = none ∧ ref ∈ r.body.refs)

theorem Dangles.of_progress {rules rules' : List Rule} {refs : List RuleRef} {defect : Defect}
    (h : Progress rules rules') (hd : Dangles rules' refs defect) : Dangles rules refs defect := by
  obtain ⟨ref, rfl, hundef, hmem⟩ := hd
  refine ⟨ref, rfl, fun hdef => hundef ((isDefined_congr h.names).mpr hdef), ?_⟩
  refine hmem.imp_right fun ⟨r, hr, hnone, hmem⟩ => ?_
  obtain ⟨i, hi⟩ := List.mem_iff_getElem?.mp hr
  exact ⟨r, List.mem_of_getElem? (h.getElem?_of_unknown hi hnone), hnone, hmem⟩

theorem Dangles.mono {rules : List Rule} {refs refs' : List RuleRef} {defect : Defect}
    (h : ∀ ref ∈ refs, ref ∈ refs' ∨ ∃ r ∈ rules, r.outcome = none ∧ ref ∈ r.body.refs)
    (hd : Dangles rules refs defect) : Dangles rules refs' defect := by
  obtain ⟨ref, rfl, hundef, hmem⟩ := hd
  exact ⟨ref, rfl, hundef, hmem.elim (h ref) .inr⟩

section Opened

variable {rules : List Rule} {i j : Nat} {r : Rule} {o : Outcome}

theorem names_setOutcome : (setOutcome i o rules).map (·.name) = rules.map (·.name) := by
  refine List.ext_getElem? fun j => ?_
  simp only [setOutcome, List.getElem?_map, List.getElem?_modify]
  cases rules[j]? <;> simp [apply_ite]

theorem names_setBody {body : Expr} :
    (setBody i body rules).map (·.name) = rules.map (·.name) := by
  refine List.ext_getElem? fun j => ?_
  simp only [setBody, List.getElem?_map, List.getElem?_modify]
  cases rules[j]? <;> simp [apply_ite]

theorem getElem?_setOutcome_self (hr : rules[i]? = some r) :
    (setOutcome i o rules)[i]? = some { r with outcome := some o } := by
  simp [setOutcome, hr]

theorem getElem?_setOutcome_ne (h : i ≠ j) : (setOutcome i o rules)[j]? = rules[j]? := by
  simp [setOutcome, h]

theorem getElem?_setBody_self {body : Expr} (hr : rules[i]? = some r) :
    (setBody i body rules)[i]? = some { r with body } := by
  simp [setBody, hr]

theorem getElem?_setBody_ne {body : Expr} (h : i ≠ j) : (setBody i body rules)[j]? = rules[j]? := by
  simp [setBody, h]

theorem outcomeAt?_setOutcome_self (hr : rules[i]? = some r) :
    outcomeAt? (setOutcome i o rules) i = some o := by
  simp [outcomeAt?, getElem?_setOutcome_self hr]

theorem outcomeAt?_setOutcome_ne (h : i ≠ j) :
    outcomeAt? (setOutcome i o rules) j = outcomeAt? rules j := by
  simp [outcomeAt?, getElem?_setOutcome_ne h]

theorem outcomeAt?_setBody {body : Expr} :
    outcomeAt? (setBody i body rules) j = outcomeAt? rules j := by
  by_cases h : i = j
  · subst h
    simp only [outcomeAt?, setBody, List.getElem?_modify]
    cases rules[i]? <;> simp
  · rw [outcomeAt?, getElem?_setBody_ne h, outcomeAt?]

theorem lookup_setBody {body : Expr} : lookup (setBody i body rules) = lookup rules := by
  funext name
  rw [lookup, lookup, ruleIndex?_congr names_setBody]
  congr 1
  funext j
  exact outcomeAt?_setBody

theorem known_setBody {body : Expr} : known (setBody i body rules) = known rules := by
  funext name
  rw [known, known, lookup_setBody]

/-- A rule that counted as `sometimes` may get any outcome. -/
theorem under_setOutcome (hr : rules[i]? = some r) (h : r.outcome = some .sometimes) :
    Under (known rules) (setOutcome i o rules) := by
  intro name
  rw [known, known, lookup, lookup, ruleIndex?_congr names_setOutcome]
  cases ruleIndex? rules name with
  | none => exact .refl _
  | some j =>
      by_cases hij : i = j
      · subst hij
        refine .inl ?_
        simp [outcomeAt?, hr, h]
      · rw [Option.bind_some, Option.bind_some, outcomeAt?_setOutcome_ne hij]
        exact .refl _

theorem unknowns_setOutcome_lt (hr : rules[i]? = some r) (hnone : r.outcome = none) :
    unknowns (setOutcome i o rules) < unknowns rules := by
  induction rules generalizing i with
  | nil => cases hr
  | cons s rs ih =>
      cases i with
      | zero =>
          obtain rfl : s = r := Option.some.inj hr
          simp [unknowns, setOutcome, hnone]
      | succ i =>
          have htail := ih (i := i) (by simpa using hr)
          simp only [unknowns, setOutcome, List.modify_succ_cons, List.countP_cons] at htail ⊢
          omega

theorem setOutcome_setOutcome {o' : Outcome} :
    setOutcome i o (setOutcome i o' rules) = setOutcome i o rules := by
  refine List.ext_getElem? fun j => ?_
  simp only [setOutcome, List.getElem?_modify]
  cases rules[j]? <;> by_cases hij : i = j <;> simp [hij]

theorem lookup_isSome_setOutcome {name : String} (h : (lookup rules name).isSome) :
    (lookup (setOutcome i o rules) name).isSome := by
  obtain ⟨o', ho'⟩ := Option.isSome_iff_exists.mp h
  obtain ⟨j, hj, hj'⟩ := Option.bind_eq_some_iff.mp ho'
  rw [lookup, ruleIndex?_congr names_setOutcome, hj, Option.bind_some]
  by_cases hij : i = j
  · subst hij
    obtain ⟨r, hr, -⟩ := Option.bind_eq_some_iff.mp hj'
    rw [outcomeAt?_setOutcome_self hr]
    rfl
  · rw [outcomeAt?_setOutcome_ne hij, hj']
    rfl

theorem setOutcome_eq_self (hr : rules[i]? = some r) (h : r.outcome = some o) :
    setOutcome i o rules = rules := by
  refine List.ext_getElem? fun j => ?_
  by_cases hij : i = j
  · subst hij
    rw [getElem?_setOutcome_self hr, hr, ← h]
  · exact getElem?_setOutcome_ne hij

theorem unknowns_setBody {body : Expr} : unknowns (setBody i body rules) = unknowns rules := by
  have hmap : ∀ rs : List Rule, unknowns rs = (rs.map (·.outcome)).countP (·.isNone) := by
    intro rs
    rw [List.countP_map]
    rfl
  rw [hmap, hmap]
  congr 1
  refine List.ext_getElem? fun j => ?_
  simp only [setBody, List.getElem?_map, List.getElem?_modify]
  cases rules[j]? <;> simp [apply_ite]

/-! ### Open rules -/

theorem names_opened : (opened i rules).map (·.name) = rules.map (·.name) :=
  names_setBody.trans names_setOutcome

theorem getElem?_opened_self (hr : rules[i]? = some r) :
    (opened i rules)[i]? = some { r with outcome := some .sometimes, body := Build.empty } :=
  getElem?_setBody_self (getElem?_setOutcome_self hr)

theorem getElem?_opened_ne (h : i ≠ j) : (opened i rules)[j]? = rules[j]? :=
  (getElem?_setBody_ne h).trans (getElem?_setOutcome_ne h)

theorem getElem?_of_opened (hj : (opened i rules)[j]? = some r) (hnone : r.outcome = none) :
    i ≠ j ∧ rules[j]? = some r := by
  by_cases hij : i = j
  · subst hij
    cases hi : rules[i]? with
    | none => simp [opened, setBody, setOutcome, hi] at hj
    | some s =>
        obtain rfl := Option.some.inj ((getElem?_opened_self hi).symm.trans hj)
        cases hnone
  · exact ⟨hij, (getElem?_opened_ne hij).symm.trans hj⟩

theorem unknown_of_opened (hr : rules[i]? = some r)
    (h : outcomeAt? (opened i rules) j = none) : i ≠ j ∧ outcomeAt? rules j = none := by
  have hij : i ≠ j := by
    rintro rfl
    simp [outcomeAt?, getElem?_opened_self hr] at h
  rw [outcomeAt?, getElem?_opened_ne hij] at h
  exact ⟨hij, h⟩

/-- What is taken out of the rules refers to none. -/
theorem refers_opened_le : Refers (opened i rules) ≤ Refers rules := by
  rintro j m ⟨s, hs, ref, href, hm⟩
  rw [ruleIndex?_congr names_opened] at hm
  by_cases hij : i = j
  · subst hij
    cases hi : rules[i]? with
    | none => simp [opened, setBody, setOutcome, hi] at hs
    | some r =>
        obtain rfl := Option.some.inj ((getElem?_opened_self hi).symm.trans hs)
        simp [Build.empty, Build.sequence, Expr.refs_sequence] at href
  · exact ⟨s, (getElem?_opened_ne hij).symm.trans hs, ref, href, hm⟩

theorem unknowns_opened_lt (hr : rules[i]? = some r) (hnone : r.outcome = none) :
    unknowns (opened i rules) < unknowns rules := by
  rw [opened, unknowns_setBody]
  exact unknowns_setOutcome_lt hr hnone

theorem Pending.of_opened (hr : rules[i]? = some r) {m : Nat} (h : Pending (opened i rules) m j) :
    Pending rules m j :=
  ⟨(unknown_of_opened hr h.unknown).2, h.ne, TransGen.mono refers_opened_le _ _ h.leads⟩

theorem Dangles.of_opened {refs : List RuleRef} {defect : Defect}
    (h : Dangles (opened i rules) refs defect) : Dangles rules refs defect := by
  obtain ⟨ref, rfl, hundef, hmem⟩ := h
  refine ⟨ref, rfl, fun hdef => hundef ((isDefined_congr names_opened).mpr hdef), ?_⟩
  refine hmem.imp_right fun ⟨s, hs, hnone, hmem⟩ => ?_
  obtain ⟨j, hj⟩ := List.mem_iff_getElem?.mp hs
  exact ⟨s, List.mem_of_getElem? (getElem?_of_opened hj hnone).2, hnone, hmem⟩

/-- An open rule is left alone. -/
theorem Progress.getElem?_of_opened {visited : List Rule} (h : Progress (opened i rules) visited)
    (hr : rules[i]? = some r) :
    visited[i]? = some { r with outcome := some .sometimes, body := Build.empty } :=
  h.getElem?_of_known (getElem?_opened_self hr) rfl

/-- A rule knows the outcomes of all rules that it refers to once these have one. -/
theorem estimates_known {rules' : List Rule} (pending : Nat → Prop) {body : Expr}
    (hnames : rules'.map (·.name) = rules.map (·.name))
    (hrefs : ∀ ref ∈ body.refs, (lookup rules' ref.name).isSome) :
    Estimates pending rules rules' body (known rules') := by
  refine ⟨fun name => .refl _, fun ref href => ?_⟩
  obtain ⟨o, ho⟩ := Option.isSome_iff_exists.mp (hrefs ref href)
  obtain ⟨m, hm, hmo⟩ := Option.bind_eq_some_iff.mp ho
  exact ⟨m, o, (ruleIndex?_congr hnames _).symm.trans hm, hmo, .inl (known_of_lookup ho)⟩

end Opened

end Inference

end PegCompiler
