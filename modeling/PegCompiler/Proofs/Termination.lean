import PegCompiler.Grammar.Build
import PegCompiler.Proofs.Advance
import PegCompiler.Proofs.Checks

/-!
# Evaluation comes to an end

In a grammar without left recursion the calls at left positions form a well-founded relation. With
it, and with repetitions that consume, every evaluation comes to an end: the induction is on the
input that is left, then on left calls, then on the expression.
-/

namespace PegCompiler

/-- Whether the first rule named `a` refers to `b` at a left position. -/
def LeftCalls (rules : List Rule) (a b : String) : Prop :=
  ∃ r, findRule? rules a = some r ∧ ∃ ref ∈ r.body.leftRefs rules, ref.name = b

section LeftCalls

variable {rules : List Rule}

theorem acc_leftCalls_of_refs {name : String}
    (h : ∀ r, findRule? rules name = some r → ∀ ref ∈ r.body.leftRefs rules,
      Acc (fun b a => LeftCalls rules a b) ref.name) :
    Acc (fun b a => LeftCalls rules a b) name := by
  refine .intro name ?_
  rintro b ⟨r, hr, ref, href, rfl⟩
  exact h r hr ref href

theorem acc_of_leftRecursionFrom?_eq_none {path : List String} {steps refs : List RuleRef}
    (h : leftRecursionFrom? rules path steps refs = none) {ref : RuleRef} (href : ref ∈ refs) :
    Acc (fun b a => LeftCalls rules a b) ref.name := by
  fun_induction leftRecursionFrom? rules path steps refs generalizing ref with
  | case1 path steps refs ih =>
      refine acc_leftCalls_of_refs fun r hr next hnext => ?_
      have hfound := List.findSome?_eq_none_iff.mp h ref href
      split at hfound
      · next hnone => simp [hnone] at hr
      · next s hs =>
          obtain rfl : s = r := Option.some.inj (hs.symm.trans hr)
          split at hfound
          · cases hfound
          · next hpath => exact ih ref s hs hpath hfound hnext

theorem wellFounded_leftCalls {g : Grammar} (h : g.leftRecursion? = none) :
    WellFounded fun b a => LeftCalls g.rules a b := by
  refine ⟨fun name => acc_leftCalls_of_refs fun r hr ref href => ?_⟩
  have hrule := List.findSome?_eq_none_iff.mp h r (mem_of_findRule? hr)
  exact acc_of_leftRecursionFrom?_eq_none hrule href

end LeftCalls

/-- Whether every reference in the expression is defined and everything that it repeats consumes. -/
structure Expr.Guarded (rules : List Rule) (e : Expr) : Prop where
  refs_defined : ∀ ref ∈ e.refs, ref.isDefined rules
  repeats_consume : ∀ n ∈ e.nodes, n.endlessRepetition? rules = none

namespace Expr.Guarded

variable {rules : List Rule} {e n : Expr} {es : List Expr} {t : Tag} {op : Operator}

theorem of_mem_nodes (h : e.Guarded rules) (hn : n ∈ e.nodes) : n.Guarded rules :=
  ⟨fun ref href => h.refs_defined ref (mem_refs_of_mem_nodes hn href),
    fun m hm => h.repeats_consume m (mem_nodes_trans hm hn)⟩

theorem of_choice (h : (choice t es).Guarded rules) (he : e ∈ es) : e.Guarded rules :=
  h.of_mem_nodes (mem_nodes_choice.mpr (.inr ⟨e, he, e.self_mem_nodes⟩))

theorem of_sequence (h : (sequence t es).Guarded rules) (he : e ∈ es) : e.Guarded rules :=
  h.of_mem_nodes (mem_nodes_sequence.mpr (.inr ⟨e, he, e.self_mem_nodes⟩))

theorem of_apply (h : (apply t op e).Guarded rules) : e.Guarded rules :=
  h.of_mem_nodes (mem_nodes_apply.mpr (.inr e.self_mem_nodes))

theorem consumes_of_repetition (h : (apply t op e).Guarded rules) (hop : op.repetition?.isSome) :
    e.consumes rules := by
  obtain ⟨rep, hrep⟩ := Option.isSome_iff_exists.mp hop
  have hn := h.repeats_consume _ (self_mem_nodes _)
  simp only [endlessRepetition?, hrep] at hn
  split at hn
  · next hc => exact hc
  · cases hn

end Expr.Guarded

/-- Whether evaluation at a position has a result. -/
def Halts (rules : List Rule) (σ : Setting) (g : Goal) (p : Nat) : Prop :=
  ∃ o, Parses rules σ g p o

namespace Halts

variable {rules : List Rule} {σ : Setting}

theorem remaining_lt {p q : Nat} (hpq : p < q) (hq : σ.Reaches p q) :
    σ.input.length - q < σ.input.length - p := by
  obtain ⟨-, hq | rfl⟩ := hq
  · omega
  · exact absurd hpq (Nat.lt_irrefl q)

theorem all_of_later {es : List Expr} {p : Nat}
    (h : ∀ e ∈ es, ∀ q, σ.Reaches p q → Halts rules σ (.expr e) q) :
    Halts rules σ (.all es) p := by
  induction es generalizing p with
  | nil => exact ⟨some p, .allNil⟩
  | cons e es ih =>
      obtain ⟨_ | q, he⟩ := h e (List.mem_cons_self ..) p (.refl σ p)
      · exact ⟨none, .allStop he⟩
      · obtain ⟨o, ho⟩ := ih fun e' he' q' hq' =>
          h e' (List.mem_cons_of_mem e he') q' (he.reaches.trans hq')
        exact ⟨o, .allGo he ho⟩

/-- A repetition comes to an end when its body consumes and always comes to an end itself. -/
theorem many {e : Expr} {p : Nat} (hc : e.consumes rules)
    (h : ∀ q, σ.Reaches p q → Halts rules σ (.expr e) q) : Halts rules σ (.many e) p := by
  induction hn : σ.input.length - p using Nat.strongRecOn generalizing p with
  | _ n ih =>
      obtain ⟨_ | q, he⟩ := h p (.refl σ p)
      · exact ⟨some p, .manyStop he⟩
      · have hlt := remaining_lt (he.lt_of_consumes hc) he.reaches
        obtain ⟨o, ho⟩ := ih _ (hn ▸ hlt) (fun r hr => h r (he.reaches.trans hr)) rfl
        exact ⟨o, .manyGo he ho⟩

theorem apply_of_body {t : Tag} {op : Operator} {e : Expr} {p : Nat}
    (hc : op.repetition?.isSome → e.consumes rules)
    (hbody : ∀ q, σ.Reaches p q → Halts rules σ (.expr e) q) :
    Halts rules σ (.expr (.apply t op e)) p := by
  obtain ⟨body, hp⟩ := hbody p (.refl σ p)
  cases hop : op.repetition? with
  | none => exact ⟨_, .apply hop hp rfl⟩
  | some rep =>
      have hmany : ∀ q, σ.Reaches p q → Halts rules σ (.many e) q := fun q hq =>
        many (hc (by rw [hop]; rfl)) fun r hr => hbody r (hq.trans hr)
      cases op <;> simp only [Operator.repetition?, reduceCtorEq] at hop
      · obtain ⟨o, ho⟩ := hmany p (.refl σ p)
        exact ⟨o, .zeroOrMore ho⟩
      · rcases body with _ | q
        · exact ⟨none, .noneOfMany hp⟩
        · obtain ⟨o, ho⟩ := hmany q hp.reaches
          exact ⟨o, .oneOrMore hp ho⟩

section Lists

variable {es : List Expr} {p : Nat} {P : RuleRef → Prop}

theorem first_of_leftRefs
    (hes : ∀ e ∈ es, (∀ ref ∈ e.leftRefs rules, P ref) → Halts rules σ (.expr e) p)
    (hrefs : ∀ ref ∈ Expr.leftRefsChoice rules es, P ref) : Halts rules σ (.first es) p := by
  induction es with
  | nil => exact ⟨none, .firstNil⟩
  | cons e es ih =>
      obtain ⟨he, hes⟩ := List.forall_mem_cons.mp hes
      simp only [Expr.leftRefsChoice, List.mem_append] at hrefs
      obtain ⟨_ | q, hp⟩ := he fun ref href => hrefs ref (.inl href)
      · obtain ⟨o, ho⟩ := ih hes fun ref href => hrefs ref (.inr href)
        exact ⟨o, .firstLater hp ho⟩
      · exact ⟨some q, .firstHere hp⟩

theorem all_of_leftRefs
    (hlater : ∀ e ∈ es, ∀ q, p < q → σ.Reaches p q → Halts rules σ (.expr e) q)
    (hes : ∀ e ∈ es, (∀ ref ∈ e.leftRefs rules, P ref) → Halts rules σ (.expr e) p)
    (hrefs : ∀ ref ∈ Expr.leftRefsSequence rules es, P ref) : Halts rules σ (.all es) p := by
  induction es with
  | nil => exact ⟨some p, .allNil⟩
  | cons e es ih =>
      obtain ⟨he, hes⟩ := List.forall_mem_cons.mp hes
      obtain ⟨-, hlater⟩ := List.forall_mem_cons.mp hlater
      simp only [Expr.leftRefsSequence, List.mem_append] at hrefs
      obtain ⟨_ | q, hp⟩ := he fun ref href => hrefs ref (.inl href)
      · exact ⟨none, .allStop hp⟩
      · rcases Nat.lt_or_eq_of_le hp.reaches.1 with hlt | rfl
        · obtain ⟨o, ho⟩ := all_of_later fun e' he' q' hq' =>
            hlater e' he' q' (Nat.lt_of_lt_of_le hlt hq'.1) (hp.reaches.trans hq')
          exact ⟨o, .allGo hp ho⟩
        · -- nothing was consumed, so the rest is at a left position as well
          have hc : ¬e.consumes rules := fun hc => Nat.lt_irrefl _ (hp.lt_of_consumes hc)
          obtain ⟨o, ho⟩ := ih hlater hes fun ref href =>
            hrefs ref (.inr (by simpa [hc] using href))
          exact ⟨o, .allGo hp ho⟩

end Lists

/-- An expression comes to an end at `p` when all do further on, and the rules that it calls at left
positions do at `p`. -/
theorem expr_of_leftRefs {p : Nat}
    (hlater : ∀ q, p < q → σ.Reaches p q → ∀ e : Expr, e.Guarded rules →
      Halts rules σ (.expr e) q)
    {e : Expr} (he : e.Guarded rules)
    (hleft : ∀ ref ∈ e.leftRefs rules, ∀ r, findRule? rules ref.name = some r →
      Halts rules σ (.expr r.body) p) : Halts rules σ (.expr e) p := by
  induction e with
  | choice t es ih =>
      have hes : ∀ e ∈ es, e.Guarded rules := fun e hmem => he.of_choice hmem
      obtain ⟨o, ho⟩ := first_of_leftRefs (fun e hmem => ih e hmem (hes e hmem)) hleft
      exact ⟨o, .choice ho⟩
  | sequence t es ih =>
      have hes : ∀ e ∈ es, e.Guarded rules := fun e hmem => he.of_sequence hmem
      obtain ⟨o, ho⟩ := all_of_leftRefs (fun e hmem q hpq hq => hlater q hpq hq e (hes e hmem))
        (fun e hmem => ih e hmem (hes e hmem)) hleft
      exact ⟨o, .sequence ho⟩
  | apply t op e ih =>
      have hbody := ih he.of_apply hleft
      refine apply_of_body he.consumes_of_repetition fun q hq => ?_
      rcases Nat.lt_or_eq_of_le hq.1 with hlt | rfl
      · exact hlater q hlt hq e he.of_apply
      · exact hbody
  | leaf t l =>
      cases l with
      | ruleRef name =>
          have hdef := he.refs_defined ⟨name, t.location⟩
            (by simp [Expr.refs, Expr.nodes, Expr.ref?])
          obtain ⟨r, hr⟩ := Option.isSome_iff_exists.mp hdef
          obtain ⟨o, ho⟩ := hleft ⟨name, t.location⟩ (by simp [Expr.leftRefs]) r hr
          exact ⟨o, .ref hr ho⟩
      | _ => exact ⟨_, .leaf (by simp) rfl⟩

/-- Every guarded expression comes to an end when the rules are guarded and left calls are
well-founded. -/
theorem of_guarded (hrules : ∀ r ∈ rules, r.body.Guarded rules)
    (hwf : WellFounded fun b a => LeftCalls rules a b) (e : Expr) (he : e.Guarded rules)
    (p : Nat) : Halts rules σ (.expr e) p := by
  induction hn : σ.input.length - p using Nat.strongRecOn generalizing p e with
  | _ n ih =>
      have hlater : ∀ q, p < q → σ.Reaches p q → ∀ e : Expr, e.Guarded rules →
          Halts rules σ (.expr e) q :=
        fun q hpq hq e he => ih _ (hn ▸ remaining_lt hpq hq) e he q rfl
      have hrule : ∀ name r, findRule? rules name = some r → Halts rules σ (.expr r.body) p := by
        intro name
        induction name using hwf.induction with
        | _ name ihname =>
            intro r hr
            refine expr_of_leftRefs hlater (hrules r (mem_of_findRule? hr)) ?_
            exact fun ref href => ihname ref.name ⟨r, hr, ref, href, rfl⟩
      exact expr_of_leftRefs hlater he fun ref _ => hrule ref.name

end Halts

/-- Every rule of a grammar that passes the checks can be evaluated to an end, on every input, from
every position and whatever the predicates say. -/
theorem exists_eval_of_accepted {o : Options} {g : Grammar}
    (h : ∀ pass ∈ [Pass.reportUndefinedRules, .reportDuplicateRules, .reportInfiniteRecursion,
      .reportInfiniteRepetition], pass.Accepts o g)
    (σ : Setting) (r : Rule) (hr : r ∈ g.rules) (p : Nat) :
    ∃ fuel result, Goal.eval g.rules σ fuel (.expr r.body) p = some result := by
  have hdef := Grammar.undefinedRule?_eq_none_iff.mp
    (Pass.accepts_reportUndefinedRules.mp (h _ (by simp)))
  have hrec := wellFounded_leftCalls (Pass.accepts_reportInfiniteRecursion.mp (h _ (by simp)))
  have hrep := Grammar.endlessRepetition?_eq_none_iff.mp
    (Pass.accepts_reportInfiniteRepetition.mp (h _ (by simp)))
  have hrules : ∀ r ∈ g.rules, r.body.Guarded g.rules := fun r hr => ⟨hdef r hr, hrep r hr⟩
  obtain ⟨result, hresult⟩ := Halts.of_guarded (σ := σ) hrules hrec r.body (hrules r hr) p
  obtain ⟨fuel, hfuel⟩ := hresult.exists_eval
  exact ⟨fuel, result, hfuel⟩

open Build in
/-- Lists of words and of lists in parentheses. -/
def nestedLists : Grammar :=
  grammar
    [rule "list" (sequence [ruleRef "item", zeroOrMore (sequence [literal ",", ruleRef "list"])]),
      rule "item" (choice [oneOrMore (charClass [.range 'a' 'z'] false false),
        sequence [literal "(", ruleRef "list", literal ")"]])]

theorem nestedLists_halts :
    (∀ pass ∈ [Pass.reportUndefinedRules, .reportDuplicateRules, .reportInfiniteRecursion,
      .reportInfiniteRepetition], pass.Accepts .standard nestedLists) ∧
    ∃ r ∈ nestedLists.rules, ∃ fuel result,
      Goal.eval nestedLists.rules ⟨"(a,b".toList, fun _ _ => true, fun _ c => c.isLower⟩ fuel
        (.expr r.body) 0 = some result := by
  have h : ∀ pass ∈ [Pass.reportUndefinedRules, .reportDuplicateRules, .reportInfiniteRecursion,
      .reportInfiniteRepetition], pass.Accepts .standard nestedLists := by
    decide +kernel
  refine ⟨h, _, List.mem_cons_self .., ?_⟩
  exact exists_eval_of_accepted h _ _ (List.mem_cons_self ..) 0

end PegCompiler
