import Mathlib.Order.Bounds.Basic
import PegCompiler.Proofs.Advance

/-!
# The least solution of consumption

What consumes is told by one equation for each kind of expression: a choice consumes if all of its
alternatives do, a reference if the rule does that it names. Rules that lead back to themselves
leave several solutions, and `consumes` is the least of them. The search passes over the rules that
it has entered, which loses nothing: in a shortest derivation no rule is used to derive itself.
-/

namespace PegCompiler

/-- The value of the body of the first rule of that name, `false` when there is none. -/
def ruleValue (rules : List Rule) (v : Expr → Bool) (name : String) : Bool :=
  match findRule? rules name with
  | some r => v r.body
  | none => false

/-- Whether truth values of all expressions solve the equations of consumption. -/
structure SolvesConsumption (rules : List Rule) (v : Expr → Bool) : Prop where
  literal : ∀ t value ignoreCase, v (.leaf t (.literal value ignoreCase)) = decide (value ≠ "")
  charClass : ∀ t set, v (.leaf t (.charClass set)) = true
  any : ∀ t, v (.leaf t .any) = true
  choice : ∀ t es, v (.choice t es) = es.all v
  sequence : ∀ t es, v (.sequence t es) = es.any v
  optional : ∀ t e, v (.apply t .optional e) = false
  zeroOrMore : ∀ t e, v (.apply t .zeroOrMore e) = false
  simpleAnd : ∀ t e, v (.apply t .simpleAnd e) = false
  simpleNot : ∀ t e, v (.apply t .simpleNot e) = false
  semanticAnd : ∀ t code, v (.leaf t (.semanticAnd code)) = false
  semanticNot : ∀ t code, v (.leaf t (.semanticNot code)) = false
  named : ∀ t name e, v (.apply t (.named name) e) = v e
  action : ∀ t code e, v (.apply t (.action code) e) = v e
  labeled : ∀ t label location pick e, v (.apply t (.labeled label location pick) e) = v e
  text : ∀ t e, v (.apply t .text e) = v e
  oneOrMore : ∀ t e, v (.apply t .oneOrMore e) = v e
  group : ∀ t e, v (.apply t .group e) = v e
  ruleRef : ∀ t name, v (.leaf t (.ruleRef name)) = ruleValue rules v name

namespace Expr

variable {k k' : String → Bool}

theorem consumesGiven_mono {e : Expr} (hk : ∀ ref ∈ e.refs, k ref.name → k' ref.name)
    (he : e.consumesGiven k) : e.consumesGiven k' := by
  induction e with
  | choice t es ih =>
      simp only [consumesGiven, allConsumeGiven_eq_all, List.all_eq_true] at he ⊢
      simp only [refs_choice, List.mem_flatMap] at hk
      exact fun e hmem => ih e hmem (fun ref href => hk ref ⟨e, hmem, href⟩) (he e hmem)
  | sequence t es ih =>
      simp only [consumesGiven, anyConsumesGiven_eq_any, List.any_eq_true] at he ⊢
      simp only [refs_sequence, List.mem_flatMap] at hk
      obtain ⟨e, hmem, he⟩ := he
      exact ⟨e, hmem, ih e hmem (fun ref href => hk ref ⟨e, hmem, href⟩) he⟩
  | apply t op e ih =>
      simp only [consumesGiven, Bool.and_eq_true] at he ⊢
      exact ⟨he.1, ih hk he.2⟩
  | leaf t l =>
      cases l with
      | ruleRef name => exact hk ⟨name, t.location⟩ (by simp [refs, nodes, ref?]) he
      | _ => exact he

end Expr

/-! ## The search -/

section Search

variable {rules known : List Rule} {name : String}

theorem ruleConsumes_of_findRule? {r : Rule} (hr : findRule? rules name = some r) :
    ruleConsumes rules name = r.body.consumesGiven (ruleConsumes (dropRule name rules)) := by
  rw [ruleConsumes]
  split
  · next hnone => simp [hnone] at hr
  · next s hs =>
      obtain rfl := Option.some.inj (hs.symm.trans hr)
      rfl

theorem findRule?_dropRule_of_ne {other : String} (h : other ≠ name) :
    findRule? (dropRule name rules) other = findRule? rules other := by
  rw [findRule?, findRule?, dropRule, List.find?_filter]
  congr 1
  funext r
  by_cases hr : r.name = other
  · simp [hr, h]
  · simp [hr]

/-- What the search finds to consume does so for any `k` that follows the bodies of the rules. The
rules that were entered are missing from `known`. -/
theorem of_ruleConsumes {k : String → Bool}
    (hk : ∀ name r, findRule? rules name = some r → r.body.consumesGiven k → k name)
    (hknown : ∀ name r, findRule? known name = some r → findRule? rules name = some r)
    (hc : ruleConsumes known name) : k name := by
  fun_induction ruleConsumes known name with
  | case1 => cases hc
  | case2 known name r hr ih =>
      refine hk name r (hknown name r hr) (Expr.consumesGiven_mono (fun ref _ href => ?_) hc)
      exact ih ref.name (fun n s hs => hknown n s (findRule?_of_dropRule hs)) href

/-- Whether it takes at most `n` rules, one inside of another, to see that the rule consumes. -/
def consumesWithin (rules : List Rule) : Nat → String → Bool
  | 0, _ => false
  | n + 1, name => ruleValue rules (Expr.consumesGiven (consumesWithin rules n)) name

theorem consumesWithin_succ_iff {n : Nat} :
    consumesWithin rules (n + 1) name ↔
      ∃ r, findRule? rules name = some r ∧ r.body.consumesGiven (consumesWithin rules n) := by
  rw [consumesWithin, ruleValue]
  cases findRule? rules name <;> simp

theorem consumesWithin_of_le {m n : Nat} (hle : m ≤ n) (h : consumesWithin rules m name) :
    consumesWithin rules n name := by
  induction m generalizing n name with
  | zero => cases h
  | succ m ih =>
      obtain ⟨n, rfl⟩ : ∃ k, n = k + 1 := ⟨n - 1, by omega⟩
      obtain ⟨r, hr, hbody⟩ := consumesWithin_succ_iff.mp h
      refine consumesWithin_succ_iff.mpr ⟨r, hr, ?_⟩
      exact Expr.consumesGiven_mono (fun ref _ href => ih (by omega) href) hbody

/-- Every rule that is entered is missing behind it, so there are no more steps than rules. -/
theorem consumesWithin_of_ruleConsumes
    (hknown : ∀ name r, findRule? known name = some r → findRule? rules name = some r)
    (hc : ruleConsumes known name) : consumesWithin rules known.length name := by
  fun_induction ruleConsumes known name with
  | case1 => cases hc
  | case2 known name r hr ih =>
      have hlt := length_dropRule_lt hr
      obtain ⟨n, hn⟩ : ∃ n, known.length = n + 1 := ⟨known.length - 1, by omega⟩
      rw [hn, consumesWithin_succ_iff]
      refine ⟨r, hknown name r hr, Expr.consumesGiven_mono (fun ref _ href => ?_) hc⟩
      refine consumesWithin_of_le (by omega) (ih ref.name (fun n s hs => ?_) href)
      exact hknown n s (findRule?_of_dropRule hs)

/-- The search finds what consumes within `n` rules, even when only those are looked at. The
induction is on the least such `n`: what consumes within fewer rules has another name, so it is
still there when the rule itself is left out. -/
theorem ruleConsumes_of_consumesWithin {n : Nat}
    (hknown : ∀ other, consumesWithin rules n other → findRule? known other = findRule? rules other)
    (h : consumesWithin rules n name) : ruleConsumes known name := by
  induction n generalizing known name with
  | zero => cases h
  | succ n ih =>
      have hfewer : ∀ other, consumesWithin rules n other →
          findRule? known other = findRule? rules other :=
        fun other hother => hknown other (consumesWithin_of_le (Nat.le_succ n) hother)
      by_cases hn : consumesWithin rules n name
      · exact ih hfewer hn
      · obtain ⟨r, hr, hbody⟩ := consumesWithin_succ_iff.mp h
        rw [ruleConsumes_of_findRule? ((hknown name h).trans hr)]
        refine Expr.consumesGiven_mono (fun ref _ href => ih (fun other hother => ?_) href) hbody
        have hne : other ≠ name := by
          rintro rfl
          exact hn hother
        rw [findRule?_dropRule_of_ne hne]
        exact hfewer other hother

theorem ruleConsumes_iff : ruleConsumes rules name ↔ consumesWithin rules rules.length name :=
  ⟨consumesWithin_of_ruleConsumes fun _ _ h => h, ruleConsumes_of_consumesWithin fun _ _ => rfl⟩

/-- A rule consumes just when its body does. -/
theorem ruleConsumes_eq (rules : List Rule) (name : String) :
    ruleConsumes rules name = ruleValue rules (Expr.consumes rules) name := by
  cases hr : findRule? rules name with
  | none =>
      rw [ruleConsumes, ruleValue]
      split
      · rw [hr]
      · next hsome => rw [hr] at hsome; cases hsome
  | some r =>
      rw [Bool.eq_iff_iff, ruleValue, hr]
      constructor
      · intro hc
        rw [ruleConsumes_iff] at hc
        have hsucc := consumesWithin_of_le (Nat.le_succ _) hc
        obtain ⟨s, hs, hbody⟩ := consumesWithin_succ_iff.mp hsucc
        obtain rfl := Option.some.inj (hs.symm.trans hr)
        exact Expr.consumesGiven_mono (fun ref _ href => ruleConsumes_iff.mpr href) hbody
      · intro hbody
        have hsucc : consumesWithin rules (rules.length + 1) name := by
          refine consumesWithin_succ_iff.mpr ⟨r, hr, ?_⟩
          exact Expr.consumesGiven_mono (fun ref _ href => ruleConsumes_iff.mp href) hbody
        exact ruleConsumes_of_consumesWithin (fun _ _ => rfl) hsucc

end Search

/-! ## Solutions -/

section Solutions

variable {rules : List Rule} {v : Expr → Bool}

theorem consumesGiven_literal {k : String → Bool} {t : Tag} (value : String) (ignoreCase : Bool) :
    (Expr.leaf t (.literal value ignoreCase)).consumesGiven k = decide (value ≠ "") := by
  have hempty : value.isEmpty = decide (value = "") := by
    rw [Bool.eq_iff_iff, String.isEmpty_iff, decide_eq_true_iff]
  rw [Expr.consumesGiven, Leaf.consumesGiven, hempty, ← decide_not]

/-- A solution is known from its values on rules. -/
theorem SolvesConsumption.eq_consumesGiven (hv : SolvesConsumption rules v) (e : Expr) :
    v e = e.consumesGiven (ruleValue rules v) := by
  induction e with
  | choice t es ih =>
      rw [hv.choice, Expr.consumesGiven, Expr.allConsumeGiven_eq_all, Bool.eq_iff_iff,
        List.all_eq_true, List.all_eq_true]
      exact forall₂_congr fun e he => by rw [ih e he]
  | sequence t es ih =>
      rw [hv.sequence, Expr.consumesGiven, Expr.anyConsumesGiven_eq_any, Bool.eq_iff_iff,
        List.any_eq_true, List.any_eq_true]
      exact exists_congr fun e => and_congr_right fun he => by rw [ih e he]
  | apply t op e ih =>
      rw [Expr.consumesGiven, ← ih]
      cases op with
      | named name => exact hv.named t name e
      | action code => exact hv.action t code e
      | labeled label location pick => exact hv.labeled t label location pick e
      | text => exact hv.text t e
      | simpleAnd => exact hv.simpleAnd t e
      | simpleNot => exact hv.simpleNot t e
      | optional => exact hv.optional t e
      | zeroOrMore => exact hv.zeroOrMore t e
      | oneOrMore => exact hv.oneOrMore t e
      | group => exact hv.group t e
  | leaf t l =>
      cases l with
      | semanticAnd code => exact hv.semanticAnd t code
      | semanticNot code => exact hv.semanticNot t code
      | ruleRef name => exact hv.ruleRef t name
      | literal value ignoreCase => rw [hv.literal, consumesGiven_literal]
      | charClass set => exact hv.charClass t set
      | any => exact hv.any t

/-- The search solves the equations. -/
theorem consumes_solves (rules : List Rule) : SolvesConsumption rules (Expr.consumes rules) where
  literal _ value ignoreCase := consumesGiven_literal value ignoreCase
  charClass _ _ := rfl
  any _ := rfl
  choice _ es := Expr.allConsumeGiven_eq_all _ es
  sequence _ es := Expr.anyConsumesGiven_eq_any _ es
  optional _ _ := rfl
  zeroOrMore _ _ := rfl
  simpleAnd _ _ := rfl
  simpleNot _ _ := rfl
  semanticAnd _ _ := rfl
  semanticNot _ _ := rfl
  named _ _ _ := rfl
  action _ _ _ := rfl
  labeled _ _ _ _ _ := rfl
  text _ _ := rfl
  oneOrMore _ _ := rfl
  group _ _ := rfl
  ruleRef _ name := ruleConsumes_eq rules name

/-- Of all truth values of expressions that solve the equations of consumption, `consumes` gives the
least, whatever rules are missing and however they lead back to themselves. -/
theorem consumes_isLeast (rules : List Rule) :
    IsLeast {v | SolvesConsumption rules v} (Expr.consumes rules) := by
  refine ⟨consumes_solves rules, fun v hv e => Bool.le_iff_imp.mpr fun he => ?_⟩
  rw [hv.eq_consumesGiven]
  refine Expr.consumesGiven_mono (fun ref _ href => ?_) he
  refine of_ruleConsumes (fun name r hr hbody => ?_) (fun _ _ h => h) href
  rw [ruleValue, hr]
  exact (hv.eq_consumesGiven r.body).trans hbody

end Solutions

end PegCompiler
