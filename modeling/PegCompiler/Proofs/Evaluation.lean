import PegCompiler.Check.Repetition
import PegCompiler.Proofs.Folding
import PegCompiler.Proofs.Trees

/-!
# Evaluation of parsing expressions

An expression is evaluated at a position of an input: it succeeds at a later position or fails.
Alternatives are tried in order, a repetition goes on until its body fails, a reference stands for
the body of the first rule of its name. Outcomes that the nodes carry play no role.

`Parses` is evaluation as a relation, `Goal.eval` as a function that gives up after a number of
steps. `Parses.iff_eval` says that they agree, so evaluation has at most one result.
-/

namespace PegCompiler

/-- What evaluation depends on besides the rules. -/
structure Setting where
  input : List Char
  /-- The truth of host code at a position. -/
  holds : String → Nat → Bool
  /-- Whether a character belongs to a class. -/
  inClass : CharClass → Char → Bool

/-- Where a leaf that is no reference succeeds at position `p`. A class without parts has no
characters. -/
def Leaf.match? (σ : Setting) (p : Nat) : Leaf → Option Nat
  | semanticAnd code => if σ.holds code.text p then some p else none
  | semanticNot code => if σ.holds code.text p then none else some p
  | ruleRef _ => none
  | literal value false =>
      if value.toList.isPrefixOf (σ.input.drop p) then some (p + value.length) else none
  | literal value true => (Text.foldedLength? value (σ.input.drop p)).map (p + ·)
  | charClass set =>
      if !set.parts.isEmpty && σ.input[p]?.any (σ.inClass set) then some (p + 1) else none
  | any => if p < σ.input.length then some (p + 1) else none

/-- The result of an operator that repeats nothing at position `p`, given that of its body. -/
def Operator.result (p : Nat) (body : Option Nat) : Operator → Option Nat
  | simpleAnd => body.map fun _ => p
  | simpleNot => if body.isSome then none else some p
  | optional => some (body.getD p)
  | _ => body

/-- What there is to evaluate. -/
inductive Goal where
  | expr (e : Expr)
  /-- The first of the expressions that succeeds. -/
  | first (es : List Expr)
  /-- One expression after the other. -/
  | all (es : List Expr)
  /-- An expression as often as it succeeds. -/
  | many (e : Expr)

/-- Evaluation at a position: `some` position behind what was consumed, or `none` on failure. -/
inductive Parses (rules : List Rule) (σ : Setting) : Goal → Nat → Option Nat → Prop where
  | leaf {t : Tag} {l : Leaf} {p : Nat} {o : Option Nat} (hl : ∀ name, l ≠ .ruleRef name)
      (ho : l.match? σ p = o) : Parses rules σ (.expr (.leaf t l)) p o
  | ref {t : Tag} {name : String} {r : Rule} {p : Nat} {o : Option Nat}
      (hr : findRule? rules name = some r) (h : Parses rules σ (.expr r.body) p o) :
      Parses rules σ (.expr (.leaf t (.ruleRef name))) p o
  | choice {t : Tag} {es : List Expr} {p : Nat} {o : Option Nat}
      (h : Parses rules σ (.first es) p o) : Parses rules σ (.expr (.choice t es)) p o
  | sequence {t : Tag} {es : List Expr} {p : Nat} {o : Option Nat}
      (h : Parses rules σ (.all es) p o) : Parses rules σ (.expr (.sequence t es)) p o
  | apply {t : Tag} {op : Operator} {e : Expr} {p : Nat} {body o : Option Nat}
      (hop : op.repetition? = none) (h : Parses rules σ (.expr e) p body)
      (ho : op.result p body = o) : Parses rules σ (.expr (.apply t op e)) p o
  | zeroOrMore {t : Tag} {e : Expr} {p : Nat} {o : Option Nat}
      (h : Parses rules σ (.many e) p o) : Parses rules σ (.expr (.apply t .zeroOrMore e)) p o
  | noneOfMany {t : Tag} {e : Expr} {p : Nat} (h : Parses rules σ (.expr e) p none) :
      Parses rules σ (.expr (.apply t .oneOrMore e)) p none
  | oneOrMore {t : Tag} {e : Expr} {p q : Nat} {o : Option Nat}
      (h : Parses rules σ (.expr e) p (some q)) (hmany : Parses rules σ (.many e) q o) :
      Parses rules σ (.expr (.apply t .oneOrMore e)) p o
  | firstNil {p : Nat} : Parses rules σ (.first []) p none
  | firstHere {e : Expr} {es : List Expr} {p q : Nat}
      (h : Parses rules σ (.expr e) p (some q)) : Parses rules σ (.first (e :: es)) p (some q)
  | firstLater {e : Expr} {es : List Expr} {p : Nat} {o : Option Nat}
      (h : Parses rules σ (.expr e) p none) (hrest : Parses rules σ (.first es) p o) :
      Parses rules σ (.first (e :: es)) p o
  | allNil {p : Nat} : Parses rules σ (.all []) p (some p)
  | allStop {e : Expr} {es : List Expr} {p : Nat} (h : Parses rules σ (.expr e) p none) :
      Parses rules σ (.all (e :: es)) p none
  | allGo {e : Expr} {es : List Expr} {p q : Nat} {o : Option Nat}
      (h : Parses rules σ (.expr e) p (some q)) (hrest : Parses rules σ (.all es) q o) :
      Parses rules σ (.all (e :: es)) p o
  | manyStop {e : Expr} {p : Nat} (h : Parses rules σ (.expr e) p none) :
      Parses rules σ (.many e) p (some p)
  | manyGo {e : Expr} {p q : Nat} {o : Option Nat} (h : Parses rules σ (.expr e) p (some q))
      (hmany : Parses rules σ (.many e) q o) : Parses rules σ (.many e) p o

namespace Goal

/-- Evaluation that gives up when it runs out of `fuel`. -/
def eval (rules : List Rule) (σ : Setting) : Nat → Goal → Nat → Option (Option Nat)
  | 0, _, _ => none
  | fuel + 1, expr (.choice _ es), p => eval rules σ fuel (first es) p
  | fuel + 1, expr (.sequence _ es), p => eval rules σ fuel (all es) p
  | fuel + 1, expr (.leaf _ (.ruleRef name)), p =>
      (findRule? rules name).bind fun r => eval rules σ fuel (expr r.body) p
  | _ + 1, expr (.leaf _ l), p => some (l.match? σ p)
  | fuel + 1, expr (.apply _ .zeroOrMore e), p => eval rules σ fuel (many e) p
  | fuel + 1, expr (.apply _ .oneOrMore e), p =>
      (eval rules σ fuel (expr e) p).bind fun
        | none => some none
        | some q => eval rules σ fuel (many e) q
  | fuel + 1, expr (.apply _ op e), p => (eval rules σ fuel (expr e) p).map (op.result p)
  | _ + 1, first [], _ => some none
  | fuel + 1, first (e :: es), p =>
      (eval rules σ fuel (expr e) p).bind fun
        | none => eval rules σ fuel (first es) p
        | some q => some (some q)
  | _ + 1, all [], p => some (some p)
  | fuel + 1, all (e :: es), p =>
      (eval rules σ fuel (expr e) p).bind fun
        | none => some none
        | some q => eval rules σ fuel (all es) q
  | fuel + 1, many e, p =>
      (eval rules σ fuel (expr e) p).bind fun
        | none => some (some p)
        | some q => eval rules σ fuel (many e) q

variable {rules : List Rule} {σ : Setting}

theorem eval_succ {fuel : Nat} {g : Goal} {p : Nat} {o : Option Nat}
    (h : g.eval rules σ fuel p = some o) : g.eval rules σ (fuel + 1) p = some o := by
  fun_induction eval rules σ fuel g p generalizing o with
  | case1 => simp at h
  | case2 fuel t es p ih => exact ih h
  | case3 fuel t es p ih => exact ih h
  | case4 fuel t name p ih =>
      obtain ⟨r, hr, h⟩ := Option.bind_eq_some_iff.mp h
      rw [eval, hr]
      exact ih r h
  | case5 fuel t p l hl => rw [eval, h]; exact hl
  | case6 fuel t e p ih => exact ih h
  | case7 fuel t e p ih ihmany =>
      obtain ⟨_ | q, he, h⟩ := Option.bind_eq_some_iff.mp h <;> rw [eval, ih he]
      · exact h
      · exact ihmany q h
  | case8 fuel t op e p hz ho ih =>
      obtain ⟨body, he, h⟩ := Option.map_eq_some_iff.mp h
      rw [eval, ih he, Option.map_some, h] <;> assumption
  | case9 => exact h
  | case10 fuel e es p ih ihrest =>
      obtain ⟨_ | q, he, h⟩ := Option.bind_eq_some_iff.mp h <;> rw [eval, ih he]
      · exact ihrest h
      · exact h
  | case11 => exact h
  | case12 fuel e es p ih ihrest =>
      obtain ⟨_ | q, he, h⟩ := Option.bind_eq_some_iff.mp h <;> rw [eval, ih he]
      · exact h
      · exact ihrest q h
  | case13 fuel e p ih ihmany =>
      obtain ⟨_ | q, he, h⟩ := Option.bind_eq_some_iff.mp h <;> rw [eval, ih he]
      · exact h
      · exact ihmany q h

theorem eval_of_le {m n : Nat} {g : Goal} {p : Nat} {o : Option Nat} (hmn : m ≤ n)
    (h : g.eval rules σ m p = some o) : g.eval rules σ n p = some o := by
  induction hmn with
  | refl => exact h
  | step _ ih => exact eval_succ ih

/-- Two evaluations, with the fuel of the longer. -/
theorem exists_eval_both {g g' : Goal} {p p' : Nat} {o o' : Option Nat}
    (h : ∃ n, g.eval rules σ n p = some o) (h' : ∃ n, g'.eval rules σ n p' = some o') :
    ∃ n, g.eval rules σ n p = some o ∧ g'.eval rules σ n p' = some o' := by
  obtain ⟨m, hm⟩ := h
  obtain ⟨n, hn⟩ := h'
  exact ⟨max m n, eval_of_le (Nat.le_max_left m n) hm, eval_of_le (Nat.le_max_right m n) hn⟩

end Goal

namespace Parses

variable {rules : List Rule} {σ : Setting}

theorem of_eval {fuel : Nat} {g : Goal} {p : Nat} {o : Option Nat}
    (h : g.eval rules σ fuel p = some o) : Parses rules σ g p o := by
  fun_induction Goal.eval rules σ fuel g p generalizing o with
  | case1 => simp at h
  | case2 fuel t es p ih => exact .choice (ih h)
  | case3 fuel t es p ih => exact .sequence (ih h)
  | case4 fuel t name p ih =>
      obtain ⟨r, hr, h⟩ := Option.bind_eq_some_iff.mp h
      exact .ref hr (ih r h)
  | case5 fuel t p l hl => exact .leaf hl (Option.some.inj h)
  | case6 fuel t e p ih => exact .zeroOrMore (ih h)
  | case7 fuel t e p ih ihmany =>
      obtain ⟨_ | q, he, h⟩ := Option.bind_eq_some_iff.mp h
      · obtain rfl := Option.some.inj h
        exact .noneOfMany (ih he)
      · exact .oneOrMore (ih he) (ihmany q h)
  | case8 fuel t op e p hz ho ih =>
      obtain ⟨body, he, h⟩ := Option.map_eq_some_iff.mp h
      exact .apply (by cases op <;> simp_all [Operator.repetition?]) (ih he) h
  | case9 =>
      obtain rfl := Option.some.inj h
      exact .firstNil
  | case10 fuel e es p ih ihrest =>
      obtain ⟨_ | q, he, h⟩ := Option.bind_eq_some_iff.mp h
      · exact .firstLater (ih he) (ihrest h)
      · obtain rfl := Option.some.inj h
        exact .firstHere (ih he)
  | case11 =>
      obtain rfl := Option.some.inj h
      exact .allNil
  | case12 fuel e es p ih ihrest =>
      obtain ⟨_ | q, he, h⟩ := Option.bind_eq_some_iff.mp h
      · obtain rfl := Option.some.inj h
        exact .allStop (ih he)
      · exact .allGo (ih he) (ihrest q h)
  | case13 fuel e p ih ihmany =>
      obtain ⟨_ | q, he, h⟩ := Option.bind_eq_some_iff.mp h
      · obtain rfl := Option.some.inj h
        exact .manyStop (ih he)
      · exact .manyGo (ih he) (ihmany q h)

theorem exists_eval {g : Goal} {p : Nat} {o : Option Nat} (h : Parses rules σ g p o) :
    ∃ fuel, g.eval rules σ fuel p = some o := by
  induction h with
  | @leaf t l p o hl ho =>
      refine ⟨1, ?_⟩
      rw [Goal.eval, ho]
      exact hl
  | ref hr _ ih =>
      obtain ⟨n, hn⟩ := ih
      exact ⟨n + 1, by rw [Goal.eval, hr, Option.bind_some, hn]⟩
  | choice _ ih =>
      obtain ⟨n, hn⟩ := ih
      exact ⟨n + 1, hn⟩
  | sequence _ ih =>
      obtain ⟨n, hn⟩ := ih
      exact ⟨n + 1, hn⟩
  | @apply t op e p body o hop _ ho ih =>
      obtain ⟨n, hn⟩ := ih
      refine ⟨n + 1, ?_⟩
      rw [Goal.eval, hn, Option.map_some, ho] <;> rintro rfl <;> cases hop
  | zeroOrMore _ ih =>
      obtain ⟨n, hn⟩ := ih
      exact ⟨n + 1, hn⟩
  | noneOfMany _ ih =>
      obtain ⟨n, hn⟩ := ih
      exact ⟨n + 1, by rw [Goal.eval, hn, Option.bind_some]⟩
  | oneOrMore _ _ ih ihmany =>
      obtain ⟨n, hn, hmany⟩ := Goal.exists_eval_both ih ihmany
      exact ⟨n + 1, by rw [Goal.eval, hn]; exact hmany⟩
  | firstNil => exact ⟨1, rfl⟩
  | firstHere _ ih =>
      obtain ⟨n, hn⟩ := ih
      exact ⟨n + 1, by rw [Goal.eval, hn, Option.bind_some]⟩
  | firstLater _ _ ih ihrest =>
      obtain ⟨n, hn, hrest⟩ := Goal.exists_eval_both ih ihrest
      exact ⟨n + 1, by rw [Goal.eval, hn]; exact hrest⟩
  | allNil => exact ⟨1, rfl⟩
  | allStop _ ih =>
      obtain ⟨n, hn⟩ := ih
      exact ⟨n + 1, by rw [Goal.eval, hn, Option.bind_some]⟩
  | allGo _ _ ih ihrest =>
      obtain ⟨n, hn, hrest⟩ := Goal.exists_eval_both ih ihrest
      exact ⟨n + 1, by rw [Goal.eval, hn]; exact hrest⟩
  | manyStop _ ih =>
      obtain ⟨n, hn⟩ := ih
      exact ⟨n + 1, by rw [Goal.eval, hn, Option.bind_some]⟩
  | manyGo _ _ ih ihmany =>
      obtain ⟨n, hn, hmany⟩ := Goal.exists_eval_both ih ihmany
      exact ⟨n + 1, by rw [Goal.eval, hn]; exact hmany⟩

/-- Evaluation as a relation is evaluation as a function with enough fuel. -/
theorem iff_eval {g : Goal} {p : Nat} {o : Option Nat} :
    Parses rules σ g p o ↔ ∃ fuel, g.eval rules σ fuel p = some o :=
  ⟨exists_eval, fun ⟨_, h⟩ => of_eval h⟩

theorem unique {g : Goal} {p : Nat} {o o' : Option Nat} (h : Parses rules σ g p o)
    (h' : Parses rules σ g p o') : o = o' := by
  obtain ⟨n, hn, hn'⟩ := Goal.exists_eval_both h.exists_eval h'.exists_eval
  exact Option.some.inj (hn.symm.trans hn')

end Parses

/-! ## Positions -/

/-- Whether `q` lies behind `p`, inside of the input unless nothing was consumed. -/
def Setting.Reaches (σ : Setting) (p q : Nat) : Prop :=
  p ≤ q ∧ (q ≤ σ.input.length ∨ q = p)

theorem Setting.Reaches.refl (σ : Setting) (p : Nat) : σ.Reaches p p :=
  ⟨Nat.le_refl p, .inr rfl⟩

theorem Setting.Reaches.trans {σ : Setting} {p q r : Nat} (h : σ.Reaches p q)
    (h' : σ.Reaches q r) : σ.Reaches p r := by
  obtain ⟨hpq, hq⟩ := h
  obtain ⟨hqr, hr⟩ := h'
  exact ⟨Nat.le_trans hpq hqr, by omega⟩

theorem Leaf.reaches_of_match? {σ : Setting} {l : Leaf} {p q : Nat}
    (h : l.match? σ p = some q) : σ.Reaches p q := by
  cases l with
  | semanticAnd code => simp only [match?] at h; split at h <;> cases h; exact .refl σ p
  | semanticNot code => simp only [match?] at h; split at h <;> cases h; exact .refl σ p
  | ruleRef name => cases h
  | literal value ignoreCase =>
      cases ignoreCase with
      | false =>
          simp only [match?, Option.ite_none_right_eq_some, List.isPrefixOf_iff_prefix] at h
          obtain ⟨hfront, hq⟩ := h
          obtain rfl := Option.some.inj hq
          have hlen := hfront.length_le
          rw [List.length_drop, String.length_toList] at hlen
          exact ⟨Nat.le_add_right _ _, by omega⟩
      | true =>
          obtain ⟨k, hk, rfl⟩ := Option.map_eq_some_iff.mp h
          have hlen := (Text.foldedLength?_eq_some_iff.mp hk).1
          rw [List.length_drop] at hlen
          exact ⟨Nat.le_add_right _ _, by omega⟩
  | charClass set =>
      simp only [match?, Option.ite_none_right_eq_some, Bool.and_eq_true, Option.any_eq_true] at h
      obtain ⟨⟨-, c, hc, -⟩, hq⟩ := h
      obtain rfl := Option.some.inj hq
      obtain ⟨hp, -⟩ := List.getElem?_eq_some_iff.mp hc
      exact ⟨Nat.le_succ p, .inl hp⟩
  | any =>
      simp only [match?, Option.ite_none_right_eq_some, Option.some.injEq] at h
      obtain ⟨hp, rfl⟩ := h
      exact ⟨Nat.le_succ p, .inl hp⟩

theorem Operator.reaches_of_result {σ : Setting} {op : Operator} {p q : Nat} {body : Option Nat}
    (hbody : ∀ r, body = some r → σ.Reaches p r) (h : op.result p body = some q) :
    σ.Reaches p q := by
  cases op with
  | simpleAnd =>
      obtain ⟨r, -, rfl⟩ := Option.map_eq_some_iff.mp h
      exact .refl σ p
  | simpleNot => simp only [result] at h; split at h <;> cases h; exact .refl σ p
  | optional =>
      obtain rfl := Option.some.inj h
      cases body with
      | none => exact .refl σ p
      | some r => exact hbody r rfl
  | _ => exact hbody q h

namespace Parses

variable {rules : List Rule} {σ : Setting}

/-- No evaluation goes back, and none goes beyond the end of the input. -/
theorem reaches {g : Goal} {p q : Nat} (h : Parses rules σ g p (some q)) : σ.Reaches p q := by
  generalize ho : some q = o at h
  induction h generalizing q with
  | leaf _ h => exact Leaf.reaches_of_match? (h.trans ho.symm)
  | ref _ _ ih | choice _ ih | sequence _ ih | zeroOrMore _ ih => exact ih ho
  | apply _ _ h ih => exact Operator.reaches_of_result (fun r hr => ih hr.symm) (h.trans ho.symm)
  | noneOfMany | firstNil | allStop => cases ho
  | oneOrMore _ _ ih ihrest | allGo _ _ ih ihrest | manyGo _ _ ih ihrest =>
      exact (ih rfl).trans (ihrest ho)
  | firstHere _ ih => exact ih ho
  | firstLater _ _ _ ihrest => exact ihrest ho
  | allNil | manyStop =>
      obtain rfl := Option.some.inj ho
      exact .refl σ _

end Parses

end PegCompiler
