import PegCompiler.Bytecode.Assembly
import PegCompiler.Proofs.Trees

/-!
# Symbols in code

What the operands of lowered code name is among its symbols. So the tables of a generated grammar
have every constant that the code asks for, and every rule that is called is there.
-/

namespace PegCompiler

namespace Instr

mutual
/-- The operands in the instruction and its blocks. -/
def operands : Instr → List Operand
  | op _ os => os
  | branch _ os yes no => os ++ listOperands yes ++ listOperands no
  | loop body => listOperands body

def listOperands : List Instr → List Operand
  | [] => []
  | i :: is => operands i ++ listOperands is
end

@[simp] theorem listOperands_nil : listOperands [] = [] := rfl

@[simp] theorem listOperands_op (code : Opcode) (os : List Operand) (is : List Instr) :
    listOperands (.op code os :: is) = os ++ listOperands is := rfl

@[simp] theorem listOperands_branch (test : Opcode) (os : List Operand) (yes no is : List Instr) :
    listOperands (.branch test os yes no :: is) =
      os ++ listOperands yes ++ listOperands no ++ listOperands is := rfl

@[simp] theorem listOperands_loop (body is : List Instr) :
    listOperands (.loop body :: is) = listOperands body ++ listOperands is := rfl

@[simp] theorem listOperands_append (a b : List Instr) :
    listOperands (a ++ b) = listOperands a ++ listOperands b := by
  induction a with
  | nil => rfl
  | cons i a ih => simp only [List.cons_append, listOperands, ih, List.append_assoc]

mutual
/-- The number of words of the instruction. -/
def size : Instr → Nat
  | op _ os => 1 + os.length
  | branch _ os yes no => 3 + os.length + listSize yes + listSize no
  | loop body => 2 + listSize body

def listSize : List Instr → Nat
  | [] => 0
  | i :: is => size i + listSize is
end

@[simp] theorem listSize_nil : listSize [] = 0 := rfl

@[simp] theorem listSize_op (code : Opcode) (os : List Operand) (is : List Instr) :
    listSize (.op code os :: is) = 1 + os.length + listSize is := rfl

@[simp] theorem listSize_branch (test : Opcode) (os : List Operand) (yes no is : List Instr) :
    listSize (.branch test os yes no :: is) =
      3 + os.length + listSize yes + listSize no + listSize is := rfl

@[simp] theorem listSize_loop (body is : List Instr) :
    listSize (.loop body :: is) = 2 + listSize body + listSize is := rfl

@[simp] theorem listSize_append (a b : List Instr) :
    listSize (a ++ b) = listSize a + listSize b := by
  induction a with
  | nil => simp
  | cons i a ih => simp only [List.cons_append, listSize, ih, Nat.add_assoc]

mutual
theorem length_words (c : Constants) (names : List String) (i : Instr) :
    (words c names i).length = size i := by
  cases i with
  | op code os => simp [words, size, Nat.add_comm]
  | branch test os yes no =>
      simp only [words, size, List.length_append, List.length_cons, List.length_map,
        List.length_nil, length_listWords c names yes, length_listWords c names no]
      omega
  | loop body =>
      simp only [words, size, List.length_append, List.length_cons, List.length_nil,
        length_listWords c names body]

theorem length_listWords (c : Constants) (names : List String) (code : List Instr) :
    (listWords c names code).length = listSize code := by
  cases code with
  | nil => rfl
  | cons i is =>
      rw [listWords, List.length_append, length_words c names i, length_listWords c names is,
        listSize]
end

theorem listOperands_condition_subset (outcome : Outcome) (test : Opcode) (os : List Operand)
    (yes no : List Instr) :
    listOperands (condition outcome test os yes no) ⊆
      os ++ listOperands yes ++ listOperands no := by
  intro o ho
  cases outcome <;> simp_all [condition]

end Instr

open Instr

/-! ## Lowered code -/

/-- Whether all that the code names is among the symbols. -/
def Lowered.Covers (l : Lowered) : Prop :=
  ∀ s, .symbol s ∈ listOperands l.code → s ∈ l.symbols

theorem symbol_mem_condition {outcome : Outcome} {test : Opcode} {yes no : List Instr}
    {s : Symbol} (h : .symbol s ∈ listOperands (condition outcome test [] yes no)) :
    .symbol s ∈ listOperands yes ∨ .symbol s ∈ listOperands no := by
  simpa using listOperands_condition_subset outcome test [] yes no h

@[simp] theorem symbol_mem_unwind {n : Nat} {s : Symbol} :
    .symbol s ∉ listOperands (unwind n) := by
  unfold unwind dropTop
  split <;> simp

theorem sequenceEnd_covers (action : Option String) (n height : Nat) (scope : Scope) :
    (sequenceEnd action n height scope).Covers := by
  intro s hs
  unfold sequenceEnd at hs ⊢
  split
  · next hpicked =>
      rw [if_pos hpicked] at hs
      cases action with
      | none => simp at hs
      | some body => simpa [callOf, offsetFrom] using hs
  · next hpicked =>
      rw [if_neg hpicked] at hs
      simp [offsetFrom] at hs

theorem semanticPredicate_covers (outcome : Outcome) (code : Code) (onTrue onFalse : Opcode)
    (height : Nat) (scope : Scope) :
    (semanticPredicate outcome code onTrue onFalse height scope).Covers := by
  intro s hs
  simp only [semanticPredicate, listOperands_append, List.mem_append] at hs
  rcases hs with hs | hs
  · simpa [semanticPredicate, callOf, offsetFrom] using hs
  · simpa using symbol_mem_condition hs

/-- A test asks for a symbol only when there is something to decide. -/
theorem symbol_mem_test (asked : List Symbol) {outcome : Outcome} {test : Opcode}
    {accept : Instr} {e : Expectation} {s : Symbol}
    (h : .symbol s ∈ listOperands (condition outcome test (asked.map .symbol) [accept]
      (failure outcome e).1)) :
    (outcome = .sometimes ∧ s ∈ asked) ∨ (outcome ≠ .never ∧ .symbol s ∈ listOperands [accept]) ∨
      s ∈ (failure outcome e).2 := by
  cases outcome with
  | always => exact .inr (.inl ⟨by simp, h⟩)
  | never => exact .inr (.inr (by simpa [condition, failure] using h))
  | sometimes => simpa [condition, failure] using h

theorem lowerLiteral_covers (outcome : Outcome) (value : String) (ignoreCase : Bool)
    (scope : Scope) : (lowerLiteral outcome value ignoreCase scope).Covers := by
  intro s hs
  unfold lowerLiteral at hs ⊢
  split at hs
  · simp at hs
  · next hempty =>
      rw [if_neg hempty]
      have hasked := symbol_mem_test [_] hs
      cases outcome <;> cases ignoreCase <;> simp_all

theorem lowerCharClass_covers (outcome : Outcome) (set : CharClass) (scope : Scope) :
    (lowerCharClass outcome set scope).Covers := by
  intro s hs
  have hasked := symbol_mem_test [_] hs
  cases outcome <;> simp_all [lowerCharClass]

theorem lowerAny_covers (outcome : Outcome) (scope : Scope) : (lowerAny outcome scope).Covers := by
  intro s hs
  have hasked := symbol_mem_test [] hs
  cases outcome <;> simp_all [lowerAny]

theorem lowerLeaf_covers (t : Tag) (l : Leaf) (height : Nat) (scope : Scope) :
    (lowerLeaf t l height scope).Covers := by
  cases l with
  | semanticAnd code => exact semanticPredicate_covers _ _ _ _ _ _
  | semanticNot code => exact semanticPredicate_covers _ _ _ _ _ _
  | ruleRef name =>
      intro s hs
      simpa [lowerLeaf] using hs
  | literal value ignoreCase => exact lowerLiteral_covers _ _ _ _
  | charClass set => exact lowerCharClass_covers _ _ _
  | any => exact lowerAny_covers _ _

/-- Whether the code of an operator adds at least `k` words to that of its body and no operands. -/
structure Lowered.Wraps (l body : Lowered) (k : Nat) : Prop where
  operands : listOperands l.code ⊆ listOperands body.code
  symbols : l.symbols = body.symbols
  size : k + listSize body.code ≤ listSize l.code

theorem Lowered.Wraps.covers {l body : Lowered} {k : Nat} (h : l.Wraps body k)
    (hbody : body.Covers) : l.Covers := by
  intro s hs
  rw [h.symbols]
  exact hbody s (h.operands hs)

section Wraps

variable (outcome : Outcome) (body : Lowered) (scope : Scope)

theorem lowerText_wraps : (lowerText outcome body scope).Wraps body 1 := by
  refine ⟨fun o ho => ?_, rfl, ?_⟩
  · cases outcome <;> simpa [lowerText, condition] using ho
  · cases outcome <;> simp [lowerText, condition]

theorem lowerSimpleAnd_wraps : (lowerSimpleAnd outcome body scope).Wraps body 1 := by
  refine ⟨fun o ho => ?_, rfl, ?_⟩
  · cases outcome <;> simpa [lowerSimpleAnd, condition] using ho
  · cases outcome <;> simp [lowerSimpleAnd, condition] <;> omega

theorem lowerSimpleNot_wraps : (lowerSimpleNot outcome body scope).Wraps body 1 := by
  refine ⟨fun o ho => ?_, rfl, ?_⟩
  · cases outcome <;> simpa [lowerSimpleNot, condition, Outcome.invert] using ho
  · cases outcome <;> simp [lowerSimpleNot, condition, Outcome.invert] <;> omega

theorem lowerOptional_wraps : (lowerOptional outcome body scope).Wraps body 0 := by
  refine ⟨fun o ho => ?_, rfl, ?_⟩
  · cases outcome <;> simpa [lowerOptional, condition, Outcome.invert] using ho
  · simp [lowerOptional]

theorem lowerZeroOrMore_wraps : (lowerZeroOrMore body scope).Wraps body 1 := by
  refine ⟨fun o ho => ?_, rfl, ?_⟩
  · simpa [lowerZeroOrMore, appendLoop] using ho
  · simp [lowerZeroOrMore, appendLoop]

theorem lowerOneOrMore_wraps : (lowerOneOrMore outcome body scope).Wraps body 1 := by
  refine ⟨fun o ho => ?_, rfl, ?_⟩
  · cases outcome <;> simpa [lowerOneOrMore, condition, appendLoop] using ho
  · simp [lowerOneOrMore]

end Wraps

section Operators

variable {body : Lowered} (hbody : body.Covers) (outcome : Outcome) (scope : Scope)

include hbody

theorem lowerNamed_covers (name : String) : (lowerNamed outcome name body).Covers := by
  intro s hs
  have hs : .symbol s ∈ listOperands body.code ∨
      outcome = .sometimes ∧ s = .expectation (.rule name) := by
    by_cases ho : outcome = .sometimes <;> simpa [lowerNamed, ho, or_comm] using hs
  rcases hs with hs | ⟨rfl, rfl⟩
  · exact List.mem_append_right _ (hbody s hs)
  · simp [lowerNamed]

theorem lowerAction_covers (code : String) (height : Nat) :
    (lowerAction outcome code height body scope).Covers := by
  intro s hs
  simp only [lowerAction, listOperands_append, List.mem_append] at hs
  rcases hs with ((hs | hs) | hs) | hs
  · simp at hs
  · exact List.mem_append_left _ (hbody s hs)
  · refine List.mem_append_right _ ?_
    cases outcome <;> simp_all [condition, callOf, offsetFrom]
  · simp at hs

end Operators

theorem lowerAlternatives_covers {es : List Expr}
    (hes : ∀ e ∈ es, ∀ action height scope, (e.lower action height scope).Covers) (height : Nat)
    (scope : Scope) : (Expr.lowerAlternatives es height scope).Covers := by
  induction es with
  | nil =>
      intro s hs
      simp [Expr.lowerAlternatives] at hs
  | cons e es ih =>
      obtain ⟨he, hes⟩ := List.forall_mem_cons.mp hes
      intro s hs
      rw [Expr.lowerAlternatives] at hs ⊢
      split at hs
      · next hlast =>
          rw [if_pos hlast]
          exact he _ _ _ s hs
      · next hlast =>
          rw [if_neg hlast]
          simp only [orElse, listOperands_append, listOperands_branch, listOperands_op,
            listOperands_nil, List.nil_append, List.append_nil, List.mem_append] at hs
          exact List.mem_append.mpr (hs.imp (he _ _ _ s) (ih hes s))

theorem lowerElements_covers {es : List Expr}
    (hes : ∀ e ∈ es, ∀ action height scope, (e.lower action height scope).Covers)
    (action : Option String) (n height : Nat) (scope : Scope) :
    (Expr.lowerElements action n es height scope).Covers := by
  induction es generalizing n height scope with
  | nil => exact sequenceEnd_covers action n height scope
  | cons e es ih =>
      obtain ⟨he, hes⟩ := List.forall_mem_cons.mp hes
      intro s hs
      simp only [Expr.lowerElements, listOperands_append, List.mem_append] at hs
      refine List.mem_append.mpr (hs.imp (he _ _ _ s) fun hs => ?_)
      rcases symbol_mem_condition hs with hs | hs
      · exact ih hes _ _ _ s hs
      · exact absurd hs symbol_mem_unwind

namespace Expr

theorem lower_covers (e : Expr) (action : Option String) (height : Nat) (scope : Scope) :
    (e.lower action height scope).Covers := by
  induction e generalizing action height scope with
  | choice t es ih => exact lowerAlternatives_covers ih height scope
  | sequence t es ih => exact lowerElements_covers ih action 0 (height + 1) scope.inner
  | apply t op e ih =>
      cases op with
      | named name => exact lowerNamed_covers (ih _ _ _) _ _
      | action code =>
          rw [lower]
          split
          · exact ih _ _ _
          · exact lowerAction_covers (ih _ _ _) _ _ _ _
      | labeled label location pick => exact ih _ _ _
      | text => exact (lowerText_wraps _ _ _).covers (ih _ _ _)
      | simpleAnd => exact (lowerSimpleAnd_wraps _ _ _).covers (ih _ _ _)
      | simpleNot => exact (lowerSimpleNot_wraps _ _ _).covers (ih _ _ _)
      | optional => exact (lowerOptional_wraps _ _ _).covers (ih _ _ _)
      | zeroOrMore => exact (lowerZeroOrMore_wraps _ _).covers (ih _ _ _)
      | oneOrMore => exact (lowerOneOrMore_wraps _ _ _).covers (ih _ _ _)
      | group => exact ih _ _ _
  | leaf t l => exact lowerLeaf_covers t l height scope

end Expr

/-! ## Scopes -/

namespace Expr

theorem scope_lowerAlternatives (es : List Expr) (height : Nat) (scope : Scope) :
    (lowerAlternatives es height scope).scope = scope := by
  cases es with
  | nil => rfl
  | cons e es =>
      rw [lowerAlternatives]
      dsimp only
      split <;> rfl

theorem scope_lowerLeaf (t : Tag) (l : Leaf) (height : Nat) (scope : Scope) :
    (lowerLeaf t l height scope).scope = scope := by
  cases l with
  | literal value ignoreCase =>
      rw [lowerLeaf, lowerLiteral]
      split <;> rfl
  | _ => rfl

/-- An expression picks at most the slot of its own value. -/
theorem picked_of_lower {action : Option String} {e : Expr} {height slot : Nat} {scope : Scope}
    (hslot : slot ∈ (e.lower action height scope).scope.picked) :
    slot ∈ scope.picked ∨ slot = height := by
  induction e generalizing action with
  | choice t es _ =>
      rw [lower, scope_lowerAlternatives] at hslot
      exact .inl hslot
  | sequence t es _ => exact .inl hslot
  | apply t op e ih =>
      cases op with
      | named name => exact ih hslot
      | action code =>
          rw [lower] at hslot
          dsimp only at hslot
          split at hslot <;> exact .inl hslot
      | labeled label location pick =>
          cases pick with
          | false => exact .inl hslot
          | true =>
              rcases List.mem_append.mp hslot with hslot | hslot
              · exact .inl hslot
              · exact .inr (List.mem_singleton.mp hslot)
      | _ => exact .inl hslot
  | leaf t l =>
      rw [lower, scope_lowerLeaf] at hslot
      exact .inl hslot

end Expr

/-! ## References -/

section Refs

variable {ref : RuleRef} {es : List Expr}

theorem not_rule_mem_failure {outcome : Outcome} {e : Expectation} :
    .rule ref ∉ (failure outcome e).2 := by
  cases outcome <;> simp [failure]

theorem rule_mem_lowerLeaf {t : Tag} {l : Leaf} {height : Nat} {scope : Scope}
    (h : .rule ref ∈ (lowerLeaf t l height scope).symbols) : ref ∈ (Expr.leaf t l).refs := by
  cases l with
  | semanticAnd code | semanticNot code => simp [lowerLeaf, semanticPredicate] at h
  | ruleRef name => simpa [lowerLeaf, Expr.refs, Expr.nodes, Expr.ref?] using h
  | literal value ignoreCase =>
      simp only [lowerLeaf, lowerLiteral] at h
      split at h
      · simp at h
      · rcases List.mem_append.mp h with h | h
        · cases ht : t.outcome <;> cases ignoreCase <;> simp [ht] at h
        · exact absurd h not_rule_mem_failure
  | charClass set =>
      simp only [lowerLeaf, lowerCharClass, List.mem_append] at h
      rcases h with h | h
      · split at h <;> simp at h
      · exact absurd h not_rule_mem_failure
  | any => exact absurd h not_rule_mem_failure

theorem rule_mem_sequenceEnd {action : Option String} {n height : Nat} {scope : Scope} :
    .rule ref ∉ (sequenceEnd action n height scope).symbols := by
  unfold sequenceEnd
  cases action <;> split <;> simp

theorem rule_mem_lowerAlternatives
    (hes : ∀ e ∈ es, ∀ action height scope,
      .rule ref ∈ (e.lower action height scope).symbols → ref ∈ e.refs) {height : Nat}
    {scope : Scope} (h : .rule ref ∈ (Expr.lowerAlternatives es height scope).symbols) :
    ∃ e ∈ es, ref ∈ e.refs := by
  induction es with
  | nil => simp [Expr.lowerAlternatives] at h
  | cons e es ih =>
      obtain ⟨he, hes⟩ := List.forall_mem_cons.mp hes
      rw [Expr.lowerAlternatives] at h
      split at h
      · exact ⟨e, List.mem_cons_self .., he _ _ _ h⟩
      · rcases List.mem_append.mp h with h | h
        · exact ⟨e, List.mem_cons_self .., he _ _ _ h⟩
        · obtain ⟨e', he', href⟩ := ih hes h
          exact ⟨e', List.mem_cons_of_mem e he', href⟩

theorem rule_mem_lowerElements
    (hes : ∀ e ∈ es, ∀ action height scope,
      .rule ref ∈ (e.lower action height scope).symbols → ref ∈ e.refs) {action : Option String}
    {n height : Nat} {scope : Scope}
    (h : .rule ref ∈ (Expr.lowerElements action n es height scope).symbols) :
    ∃ e ∈ es, ref ∈ e.refs := by
  induction es generalizing n height scope with
  | nil => exact absurd h rule_mem_sequenceEnd
  | cons e es ih =>
      obtain ⟨he, hes⟩ := List.forall_mem_cons.mp hes
      rcases List.mem_append.mp h with h | h
      · exact ⟨e, List.mem_cons_self .., he _ _ _ h⟩
      · obtain ⟨e', he', href⟩ := ih hes h
        exact ⟨e', List.mem_cons_of_mem e he', href⟩

/-- Code calls no rules but those that the expression refers to. -/
theorem Expr.mem_refs_of_lower {e : Expr} {action : Option String} {height : Nat} {scope : Scope}
    (h : .rule ref ∈ (e.lower action height scope).symbols) : ref ∈ e.refs := by
  induction e generalizing action height scope with
  | choice t es ih =>
      rw [refs_choice, List.mem_flatMap]
      exact rule_mem_lowerAlternatives (fun e he _ _ _ h => ih e he h) h
  | sequence t es ih =>
      rw [refs_sequence, List.mem_flatMap]
      exact rule_mem_lowerElements (fun e he _ _ _ h => ih e he h) h
  | apply t op e ih =>
      rw [refs_apply]
      cases op with
      | named name =>
          have hbody : .rule ref ∈ (e.lower none height scope).symbols := by
            by_cases ho : t.outcome = .sometimes <;> simpa [lower, lowerNamed, ho] using h
          exact ih hbody
      | action code =>
          rw [lower] at h
          dsimp only at h
          split at h
          · exact ih h
          · rcases List.mem_append.mp h with h | h
            · exact ih h
            · split at h <;> simp at h
      | _ => exact ih h
  | leaf t l => exact rule_mem_lowerLeaf h

end Refs

/-! ## Tables -/

/-- Whether the tables have what the symbol names. -/
def Symbol.Known (c : Constants) (names : List String) : Symbol → Prop
  | literal value => value ∈ c.literals.values
  | charClass set => set ∈ c.classes.values
  | expectation e => e ∈ c.expectations.values
  | function f => f ∈ c.functions.values
  | rule ref => ref.name ∈ names

theorem Symbol.Known.add {c : Constants} {names : List String} {s : Symbol}
    (h : s.Known c names) (t : Symbol) : s.Known (c.add t) names := by
  cases t <;> cases s <;> simp_all [Known, Constants.add, Pool.mem_add]

theorem Symbol.known_add_self {c : Constants} {names : List String} {s : Symbol}
    (h : ∀ ref, s = .rule ref → ref.name ∈ names) : s.Known (c.add s) names := by
  cases s <;> simp_all [Known, Constants.add, Pool.mem_add]

theorem known_foldl {names : List String} {symbols : List Symbol} {c : Constants} {s : Symbol}
    (h : ∀ ref, s = .rule ref → ref.name ∈ names) (hs : s.Known c names ∨ s ∈ symbols) :
    s.Known (symbols.foldl Constants.add c) names := by
  induction symbols generalizing c with
  | nil => simpa using hs
  | cons t ts ih =>
      refine ih ?_
      rcases hs with hs | hs
      · exact .inl (hs.add t)
      · rcases List.mem_cons.mp hs with rfl | hs
        · exact .inl (Symbol.known_add_self h)
        · exact .inr hs

theorem known_ofSymbols {names : List String} {symbols : List Symbol} {s : Symbol}
    (hs : s ∈ symbols) (h : ∀ ref, s = .rule ref → ref.name ∈ names) :
    s.Known (Constants.ofSymbols symbols) names :=
  known_foldl h (.inr hs)

end PegCompiler
