import PegCompiler.Proofs.Evaluation

/-!
# Expressions that consume

An expression that `consumes` advances whenever it succeeds. The rules that were entered on the way
are left out of those still looked at, so what a rule consumes is known from a part of the rules
only; the induction is on that part.
-/

namespace PegCompiler

namespace Expr

theorem allConsumeGiven_eq_all (known : String → Bool) (es : List Expr) :
    allConsumeGiven known es = es.all (consumesGiven known) := by
  induction es with
  | nil => rfl
  | cons e es ih => rw [allConsumeGiven, ih, List.all_cons]

theorem anyConsumesGiven_eq_any (known : String → Bool) (es : List Expr) :
    anyConsumesGiven known es = es.any (consumesGiven known) := by
  induction es with
  | nil => rfl
  | cons e es ih => rw [anyConsumesGiven, ih, List.any_cons]

end Expr

theorem Leaf.lt_of_match? {σ : Setting} {known : String → Bool} {l : Leaf} {p q : Nat}
    (hl : ∀ name, l ≠ .ruleRef name) (hc : l.consumesGiven known) (h : l.match? σ p = some q) :
    p < q := by
  cases l with
  | semanticAnd code => cases hc
  | semanticNot code => cases hc
  | ruleRef name => exact absurd rfl (hl name)
  | literal value ignoreCase =>
      have hv : value ≠ "" := by rintro rfl; simp [consumesGiven] at hc
      cases ignoreCase with
      | false =>
          simp only [match?, Option.ite_none_right_eq_some, Option.some.injEq] at h
          have hlen : value.length ≠ 0 := fun h0 => hv (String.length_eq_zero_iff.mp h0)
          omega
      | true =>
          obtain ⟨k, hk, rfl⟩ := Option.map_eq_some_iff.mp h
          exact Nat.lt_add_of_pos_right (Text.foldedLength?_pos hv hk)
  | charClass set =>
      simp only [match?, Option.ite_none_right_eq_some, Option.some.injEq] at h
      omega
  | any =>
      simp only [match?, Option.ite_none_right_eq_some, Option.some.injEq] at h
      omega

/-- Whether what is to be evaluated consumes, given that of the rules. -/
def Goal.ConsumesGiven (known : String → Bool) : Goal → Prop
  | expr e => e.consumesGiven known
  | first es => ∀ e ∈ es, e.consumesGiven known
  | all es => ∃ e ∈ es, e.consumesGiven known
  | many _ => False

namespace Parses

variable {rules : List Rule} {σ : Setting}

theorem lt_of_consumesGiven {known : String → Bool}
    (hknown : ∀ name r, known name → findRule? rules name = some r →
      ∀ p q, Parses rules σ (.expr r.body) p (some q) → p < q)
    {g : Goal} {p q : Nat} (h : Parses rules σ g p (some q)) (hg : g.ConsumesGiven known) :
    p < q := by
  generalize ho : some q = o at h
  induction h generalizing q with
  | leaf hl h => exact Leaf.lt_of_match? hl hg (h.trans ho.symm)
  | ref hr h _ => exact hknown _ _ hg hr _ _ (ho ▸ h)
  | choice _ ih =>
      refine ih ?_ ho
      simpa [Goal.ConsumesGiven, Expr.consumesGiven, Expr.allConsumeGiven_eq_all] using hg
  | sequence _ ih =>
      refine ih ?_ ho
      simpa [Goal.ConsumesGiven, Expr.consumesGiven, Expr.anyConsumesGiven_eq_any] using hg
  | @apply t op e p body o hop _ h ih =>
      simp only [Goal.ConsumesGiven, Expr.consumesGiven, Bool.and_eq_true] at hg
      -- an operator that forgets its body does not consume, the others keep the result
      cases op <;> first | exact absurd hg.1 (by decide) | exact ih hg.2 (ho.trans h.symm)
  | zeroOrMore => simp [Goal.ConsumesGiven, Expr.consumesGiven, Operator.forgetsBody] at hg
  | noneOfMany | firstNil | allStop => cases ho
  | oneOrMore _ hmany ih _ =>
      simp only [Goal.ConsumesGiven, Expr.consumesGiven, Bool.and_eq_true] at hg
      exact Nat.lt_of_lt_of_le (ih hg.2 rfl) (ho ▸ hmany).reaches.1
  | firstHere _ ih => exact ih (hg _ (List.mem_cons_self ..)) ho
  | firstLater _ _ _ ihrest => exact ihrest (fun e he => hg e (List.mem_cons_of_mem _ he)) ho
  | allNil => obtain ⟨e, he, -⟩ := hg; cases he
  | allGo h hrest ih ihrest =>
      obtain ⟨e, he, hc⟩ := hg
      rcases List.mem_cons.mp he with rfl | he
      · exact Nat.lt_of_lt_of_le (ih hc rfl) (ho ▸ hrest).reaches.1
      · exact Nat.lt_of_le_of_lt h.reaches.1 (ihrest ⟨e, he, hc⟩ ho)
  | manyStop | manyGo => exact hg.elim

end Parses

theorem findRule?_of_dropRule {name other : String} {rules : List Rule} {r : Rule}
    (h : findRule? (dropRule name rules) other = some r) : findRule? rules other = some r := by
  have hne : other ≠ name := by
    have hr := mem_of_findRule? h
    rw [dropRule, List.mem_filter] at hr
    rw [← name_of_findRule? h]
    simpa using hr.2
  rw [← h, findRule?, findRule?, dropRule, List.find?_filter]
  congr 1
  funext r'
  by_cases h' : r'.name = other
  · simp [h', hne]
  · simp [h']

variable {rules : List Rule} {σ : Setting}

theorem lt_of_ruleConsumes {known : List Rule} {name : String} {r : Rule}
    (hknown : ∀ name r, findRule? known name = some r → findRule? rules name = some r)
    (hc : ruleConsumes known name) (hr : findRule? rules name = some r) {p q : Nat}
    (h : Parses rules σ (.expr r.body) p (some q)) : p < q := by
  fun_induction ruleConsumes known name generalizing r p q with
  | case1 => cases hc
  | case2 known name r' hr' ih =>
      obtain rfl : r' = r := Option.some.inj ((hknown name r' hr').symm.trans hr)
      exact h.lt_of_consumesGiven
        (fun next s hs hfind p q h => ih next
          (fun n s hs => hknown n s (findRule?_of_dropRule hs)) hs hfind h) hc

/-- What `consumes` advances whenever it succeeds. -/
theorem Parses.lt_of_consumes {e : Expr} (hc : e.consumes rules) {p q : Nat}
    (h : Parses rules σ (.expr e) p (some q)) : p < q :=
  h.lt_of_consumesGiven
    (fun _ _ hs hr _ _ h => lt_of_ruleConsumes (fun _ _ h => h) hs hr h) hc

end PegCompiler
