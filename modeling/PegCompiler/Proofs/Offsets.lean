import PegCompiler.Proofs.Balance
import PegCompiler.Proofs.Outcomes

/-!
# Offsets of labels

A label keeps its slot behind the expression that it is in, so an offset may point above the top.
How far depends on the slots that were ever in use: there are fewer of them than words of code, as
long as code that is left away is followed by nothing that could use its labels.
-/

namespace PegCompiler

open Instr

/-- Whether the slots of all labels lie below `bound`. -/
def Scope.Below (s : Scope) (bound : Nat) : Prop :=
  ∀ slot ∈ s.slots, slot < bound

namespace Scope

variable {bound : Nat} {s : Scope}

theorem below_empty : empty.Below bound := by
  simp [Below, empty, slots]

theorem Below.inner (h : s.Below bound) : s.inner.Below bound :=
  h

theorem mem_bind {labels : List (String × Nat)} {label : String} {slot n : Nat}
    (h : n ∈ (bind labels label slot).map (·.2)) : n ∈ labels.map (·.2) ∨ n = slot := by
  induction labels with
  | nil => simpa [bind] using h
  | cons l ls ih =>
      rw [bind] at h
      split at h
      · simp only [List.map_cons, List.mem_cons] at h ⊢
        rcases h with h | h
        · exact .inr h
        · exact .inl (.inr h)
      · simp only [List.map_cons, List.mem_cons] at h ⊢
        rcases h with h | h
        · exact .inl (.inl h)
        · exact (ih h).imp_left .inr

theorem Below.mark (h : s.Below bound) {slot : Nat} (hslot : slot < bound) (label : Option String)
    (pick : Bool) : (s.mark label pick slot).Below bound := by
  intro n hn
  cases label with
  | none => exact h n hn
  | some label =>
      rcases mem_bind hn with hn | rfl
      · exact h n hn
      · exact hslot

end Scope

namespace Expr

/-- Whether a sequence or a named expression has no part that never matches unless it never does. -/
def CoherentNode : Expr → Prop
  | sequence t es => t.outcome ≠ .never → ∀ e ∈ es, e.outcome ≠ .never
  | apply t (.named _) e => t.outcome ≠ .never → e.outcome ≠ .never
  | _ => True

def Coherent (e : Expr) : Prop :=
  ∀ n ∈ e.nodes, n.CoherentNode

theorem coherentNode_annotate (k : String → Outcome) (e : Expr) : (e.annotate k).CoherentNode := by
  cases e with
  | choice t es => trivial
  | sequence t es =>
      rw [annotate_sequence]
      intro hne e he hnever
      obtain ⟨e', he', rfl⟩ := List.mem_map.mp he
      rw [outcome_annotate] at hnever
      rw [outcomeGiven_sequence] at hne
      exact hne (Outcome.ofSequence_eq_never.mpr (List.mem_map.mpr ⟨e', he', hnever⟩))
  | apply t op e =>
      cases op with
      | named name =>
          intro hne hnever
          rw [outcome_annotate] at hnever
          exact hne hnever
      | _ => trivial
  | leaf t l => trivial

theorem coherent_annotate (k : String → Outcome) (e : Expr) : (e.annotate k).Coherent := by
  intro n hn
  rw [nodes_annotate] at hn
  obtain ⟨m, -, rfl⟩ := List.mem_map.mp hn
  exact coherentNode_annotate k m

theorem Coherent.of_choice {t : Tag} {es : List Expr} (h : (choice t es).Coherent) :
    ∀ e ∈ es, e.Coherent :=
  forall_nodes_choice h

theorem Coherent.of_sequence {t : Tag} {es : List Expr} (h : (sequence t es).Coherent) :
    ∀ e ∈ es, e.Coherent :=
  forall_nodes_sequence h

theorem Coherent.of_apply {t : Tag} {op : Operator} {e : Expr} (h : (apply t op e).Coherent) :
    e.Coherent :=
  forall_nodes_apply h

/-- Whether there is room below `bound` for the slots of code with `size` words, or for one slot for
each node. -/
def Room (e : Expr) (bound height size : Nat) : Prop :=
  height + e.nodes.length ≤ bound ∨ e.Coherent ∧ height + size ≤ bound

def ListRoom (es : List Expr) (bound height size : Nat) : Prop :=
  height + (listNodes es).length ≤ bound ∨ (∀ e ∈ es, e.Coherent) ∧ height + size ≤ bound

/-- Without room for all nodes a node that may match is coherent. -/
theorem Room.live {n : Expr} {bound height size : Nat} (hroom : n.Room bound height size)
    (h : height + n.nodes.length ≤ bound ∨ n.outcome ≠ .never) :
    height + n.nodes.length ≤ bound ∨ n.CoherentNode ∧ n.outcome ≠ .never := by
  rcases hroom with hroom | ⟨hcoherent, -⟩
  · exact .inl hroom
  · exact h.imp_right fun hne => ⟨hcoherent n n.self_mem_nodes, hne⟩

theorem Room.body {t : Tag} {op : Operator} {e : Expr} {bound height size k n : Nat}
    (h : (apply t op e).Room bound height size) (hk : k ≤ 1) (hn : k + n ≤ size) :
    e.Room bound (height + k) n := by
  refine h.imp (fun h => ?_) (fun h => ⟨h.1.of_apply, by omega⟩)
  rw [nodes, List.length_cons] at h
  omega

end Expr

/-- Whether offsets in the code reach no further than `bound`, and the slots of labels lie below it
when what is lowered has an outcome as `live` says. -/
structure Lowered.Bounded (l : Lowered) (bound : Nat) (live : Prop) : Prop where
  reach : OffsetsReach bound (listOperands l.code)
  below : live → l.scope.Below bound

section Parts

variable {bound height : Nat} {scope : Scope} {a b : List Operand}

theorem OffsetsReach.mono (hb : OffsetsReach bound b) (hab : a ⊆ b) : OffsetsReach bound a :=
  fun d hd => hb d (hab hd)

theorem OffsetsReach.append (ha : OffsetsReach bound a) (hb : OffsetsReach bound b) :
    OffsetsReach bound (a ++ b) := by
  intro d hd
  rcases List.mem_append.mp hd with hd | hd
  · exact ha d hd
  · exact hb d hd

theorem offsetsReach_callOf (f : HostFunction) (n : Nat) (hscope : scope.Below bound) :
    OffsetsReach bound (listOperands [callOf f n height scope]) := by
  intro d hd
  simp only [callOf, listOperands_op, listOperands_nil, List.append_nil, List.mem_append,
    List.mem_cons, List.mem_map, offsetFrom, Operand.offset.injEq, reduceCtorEq, false_or,
    List.not_mem_nil] at hd
  obtain ⟨slot, hslot, rfl⟩ := hd
  have hlt := hscope slot hslot
  omega

theorem offsetsReach_of_no_offset (h : ∀ d, .offset d ∉ a) : OffsetsReach bound a :=
  fun d hd => absurd hd (h d)

theorem offsetsReach_condition {outcome : Outcome} {test : Opcode} {yes no : List Instr}
    (hyes : OffsetsReach bound (listOperands yes)) (hno : OffsetsReach bound (listOperands no)) :
    OffsetsReach bound (listOperands (condition outcome test [] yes no)) :=
  (hyes.append hno).mono (listOperands_condition_subset outcome test [] yes no)

theorem offsetsReach_unwind (n : Nat) : OffsetsReach bound (listOperands (unwind n)) := by
  refine offsetsReach_of_no_offset fun d => ?_
  unfold unwind dropTop
  split <;> simp

/-- Picked slots are in use, and labels are bounded. -/
theorem offsetsReach_sequenceEnd (action : Option String) (n : Nat) (hscope : scope.Below bound)
    (hpicked : ∀ slot ∈ scope.picked, slot < height) :
    OffsetsReach bound (listOperands (sequenceEnd action n height scope).code) := by
  unfold sequenceEnd
  split
  · cases action with
    | none => exact offsetsReach_of_no_offset (by simp)
    | some body =>
        have hload : OffsetsReach bound [.count n] := offsetsReach_of_no_offset (by simp)
        exact hload.append (offsetsReach_callOf _ _ hscope)
  · intro d hd
    simp only [listOperands_op, listOperands_nil, List.append_nil, List.mem_append,
      List.mem_cons, List.mem_map, offsetFrom, Operand.offset.injEq, reduceCtorEq, false_or,
      List.not_mem_nil] at hd
    obtain ⟨slot, hslot, rfl⟩ := hd
    have hlt := hpicked slot hslot
    omega

theorem offsetsReach_semanticPredicate (outcome : Outcome) (code : Code) (onTrue onFalse : Opcode)
    (hscope : scope.Below bound) :
    OffsetsReach bound
      (listOperands (semanticPredicate outcome code onTrue onFalse height scope).code) := by
  rw [semanticPredicate, listOperands_append]
  refine .append (offsetsReach_callOf _ 0 hscope) (offsetsReach_condition ?_ ?_)
  · exact offsetsReach_of_no_offset (by simp)
  · exact offsetsReach_of_no_offset (by simp)

theorem offset_not_mem_test (asked : List Symbol) {outcome : Outcome} {test : Opcode}
    {accept : Instr} {e : Expectation} (haccept : ∀ d, .offset d ∉ listOperands [accept])
    (d : Int) : .offset d ∉ listOperands (condition outcome test (asked.map .symbol) [accept]
      (failure outcome e).1) := by
  cases outcome with
  | always => exact haccept d
  | never => simp [condition, failure]
  | sometimes => simpa [condition, failure] using haccept d

theorem offsetsReach_lowerLeaf (t : Tag) (l : Leaf) (hscope : scope.Below bound) :
    OffsetsReach bound (listOperands (lowerLeaf t l height scope).code) := by
  cases l with
  | semanticAnd code => exact offsetsReach_semanticPredicate _ _ _ _ hscope
  | semanticNot code => exact offsetsReach_semanticPredicate _ _ _ _ hscope
  | ruleRef name => exact offsetsReach_of_no_offset (by simp [lowerLeaf])
  | literal value ignoreCase =>
      refine offsetsReach_of_no_offset fun d hd => ?_
      simp only [lowerLeaf, lowerLiteral] at hd
      split at hd
      · simp at hd
      · exact offset_not_mem_test [_] (by cases ignoreCase <;> simp) d hd
  | charClass set =>
      exact offsetsReach_of_no_offset (offset_not_mem_test [_] (by simp))
  | any => exact offsetsReach_of_no_offset (offset_not_mem_test [] (by simp))

end Parts

section Lists

variable {bound : Nat} {es : List Expr}

/-- What is to be shown of an expression that has room. -/
def Expr.Bounded (bound : Nat) (e : Expr) : Prop :=
  ∀ action height (scope : Scope), scope.Below bound →
    e.Room bound height (listSize (e.lower action height scope).code) →
    (e.lower action height scope).Bounded bound
      (height + e.nodes.length ≤ bound ∨ e.outcome ≠ .never)

theorem listRoom_cons {e : Expr} {height size : Nat}
    (h : Expr.ListRoom (e :: es) bound height size) :
    height + e.nodes.length + (Expr.listNodes es).length ≤ bound ∨
      (e.Coherent ∧ ∀ e ∈ es, e.Coherent) ∧ height + size ≤ bound := by
  refine h.imp (fun h => ?_) (fun h => ⟨List.forall_mem_cons.mp h.1, h.2⟩)
  rw [Expr.listNodes, List.length_append] at h
  omega

theorem lowerAlternatives_reach (hes : ∀ e ∈ es, e.Bounded bound) {height : Nat} {scope : Scope}
    (hscope : scope.Below bound)
    (hroom : Expr.ListRoom es bound height
      (listSize (Expr.lowerAlternatives es height scope).code)) :
    OffsetsReach bound (listOperands (Expr.lowerAlternatives es height scope).code) := by
  induction es with
  | nil => exact offsetsReach_of_no_offset (by simp [Expr.lowerAlternatives])
  | cons e es ih =>
      obtain ⟨he, hes⟩ := List.forall_mem_cons.mp hes
      have hroom := listRoom_cons hroom
      rw [Expr.lowerAlternatives] at hroom ⊢
      dsimp only at hroom ⊢
      split at hroom
      · next hlast =>
          rw [if_pos hlast]
          refine (he none height scope.inner hscope.inner ?_).reach
          exact hroom.imp (fun h => by omega) (fun h => ⟨h.1.1, h.2⟩)
      · next hlast =>
          rw [if_neg hlast]
          simp only [orElse, listSize_append, listSize_branch, listSize_op, listSize_nil,
            List.length_nil] at hroom
          have hfirst := he none height scope.inner hscope.inner
            (hroom.imp (fun h => by omega) (fun h => ⟨h.1.1, by omega⟩))
          have hrest := ih hes (hroom.imp (fun h => by omega) (fun h => ⟨h.1.2, by omega⟩))
          simp only [orElse, listOperands_append, listOperands_branch, listOperands_op,
            listOperands_nil, List.nil_append, List.append_nil]
          exact hfirst.reach.append hrest

theorem scope_sequenceEnd (action : Option String) (n height : Nat) (scope : Scope) :
    (sequenceEnd action n height scope).scope = scope := by
  unfold sequenceEnd
  cases action <;> split <;> rfl

theorem size_le_condition {outcome : Outcome} (hne : outcome ≠ .never) (test : Opcode)
    (operands : List Operand) (yes no : List Instr) :
    listSize yes ≤ listSize (condition outcome test operands yes no) := by
  cases outcome with
  | always => exact Nat.le_refl _
  | sometimes =>
      simp only [condition, listSize_branch, listSize_nil]
      omega
  | never => exact absurd rfl hne

/-- An element that never matches is the last one to have code, but labels of those behind it are
still in the scope. -/
theorem lowerElements_bounded (hes : ∀ e ∈ es, e.Bounded bound)
    (hchoices : ∀ e ∈ es, e.ChoicesNonempty) (action : Option String) (n : Nat) {height : Nat}
    {scope : Scope} (hscope : scope.Below bound) (hpicked : ∀ slot ∈ scope.picked, slot < height)
    (hroom : Expr.ListRoom es bound height
      (listSize (Expr.lowerElements action n es height scope).code)) :
    (Expr.lowerElements action n es height scope).Bounded bound
      (height + (Expr.listNodes es).length ≤ bound ∨ ∀ e ∈ es, e.outcome ≠ .never) := by
  induction es generalizing n height scope with
  | nil =>
      refine ⟨offsetsReach_sequenceEnd action n hscope hpicked, fun _ => ?_⟩
      rw [Expr.lowerElements, scope_sequenceEnd]
      exact hscope
  | cons e es ih =>
      obtain ⟨he, hes⟩ := List.forall_mem_cons.mp hes
      obtain ⟨hchoice, hchoices⟩ := List.forall_mem_cons.mp hchoices
      have hroom := listRoom_cons hroom
      have hsize := (Expr.lower_balanced hchoice none height scope).le_size
      have hnodes := List.length_pos_of_mem e.self_mem_nodes
      simp only [Expr.lowerElements, listSize_append] at hroom
      have hfirst := he none height scope hscope
        (hroom.imp (fun h => by omega) (fun h => ⟨h.1.1, by omega⟩))
      have hreach := hfirst.reach
      rw [Expr.listNodes, List.length_append]
      by_cases hlive : height + e.nodes.length + (Expr.listNodes es).length ≤ bound ∨
          e.outcome ≠ .never
      · have hbelow := hfirst.below (hlive.imp_left fun h => by omega)
        have hpicked : ∀ slot ∈ (e.lower none height scope).scope.picked, slot < height + 1 := by
          intro slot hslot
          rcases Expr.picked_of_lower hslot with hslot | rfl
          · exact Nat.lt_succ_of_lt (hpicked slot hslot)
          · exact Nat.lt_succ_self _
        have hrest := ih hes hchoices (n + 1) hbelow hpicked ?_
        · refine ⟨?_, fun h => hrest.below (h.imp (fun h => by omega) fun h => ?_)⟩
          · rw [Expr.lowerElements, listOperands_append]
            exact hreach.append (offsetsReach_condition hrest.reach (offsetsReach_unwind _))
          · exact (List.forall_mem_cons.mp h).2
        · rcases hroom with hroom | ⟨⟨-, hcoherent⟩, hroom⟩
          · exact .inl (by omega)
          · rcases hlive with hlive | hlive
            · exact .inl (by omega)
            · have hle := size_le_condition hlive .ifNotError [] (Expr.lowerElements action (n + 1)
                es (height + 1) (e.lower none height scope).scope).code (unwind (n + 1))
              exact .inr ⟨hcoherent, by omega⟩
      · obtain ⟨hnot, hnever⟩ := not_or.mp hlive
        have hnever : e.outcome = .never := Classical.not_not.mp hnever
        constructor
        · rw [Expr.lowerElements, listOperands_append, hnever]
          exact hreach.append (offsetsReach_unwind (n + 1))
        · rintro (h | h)
          · omega
          · exact absurd hnever (h e (List.mem_cons_self ..))

end Lists

namespace Expr

theorem bounded_of_wraps {bound height k : Nat} {action : Option String} {scope : Scope} {t : Tag}
    {op : Operator} {e : Expr} {l : Lowered} {live : Prop} (he : e.Bounded bound) (hk : k ≤ 1)
    (hl : l.Wraps (e.lower action (height + k) scope.inner) k) (hscope : scope.Below bound)
    (hbelow : l.scope.Below bound) (hroom : (apply t op e).Room bound height (listSize l.code)) :
    l.Bounded bound live := by
  have hbody := he action (height + k) scope.inner hscope.inner (hroom.body hk hl.size)
  exact ⟨hbody.reach.mono hl.operands, fun _ => hbelow⟩

theorem bounded_named {t : Tag} {name : String} {e : Expr} {bound : Nat} (he : e.Bounded bound) :
    (apply t (.named name) e).Bounded bound := by
  intro action height scope hscope hroom
  have hsize : listSize (e.lower none height scope).code ≤
      listSize ((apply t (.named name) e).lower action height scope).code := by
    simp only [lower, lowerNamed, listSize_append, listSize_op]
    omega
  have hbody := he none height scope hscope (hroom.body (Nat.zero_le 1) (by omega))
  refine ⟨fun d hd => hbody.reach d ?_, fun h => hbody.below ?_⟩
  · by_cases ho : t.outcome = .sometimes <;> simpa [lower, lowerNamed, ho] using hd
  · rcases hroom.live h with h | ⟨hnode, hne⟩
    · rw [nodes, List.length_cons] at h
      exact .inl (by omega)
    · exact .inr (hnode hne)

/-- An action is only called when its body may match, and then with bounded labels. -/
theorem bounded_action {t : Tag} {code : Code} {e : Expr} {bound : Nat} (he : e.Bounded bound) :
    (apply t (.action code) e).Bounded bound := by
  intro action height scope hscope hroom
  rw [lower] at hroom ⊢
  dsimp only at hroom ⊢
  split at hroom
  · next hcalls =>
      rw [if_pos hcalls]
      refine bounded_of_wraps (k := 0) he (Nat.zero_le 1) ⟨fun _ ho => ho, rfl, ?_⟩ hscope hscope
        hroom
      exact Nat.le_of_eq (Nat.zero_add _)
  · next hcalls =>
      rw [if_neg hcalls]
      have hbody := he none (height + 1) scope.inner hscope.inner
        (hroom.body (Nat.le_refl 1) (by simp [lowerAction]))
      refine ⟨?_, fun _ => hscope⟩
      simp only [lowerAction, listOperands_append]
      refine .append (.append (.append ?_ hbody.reach) ?_) ?_
      · exact offsetsReach_of_no_offset (by simp)
      · by_cases hnever : e.outcome = .never
        · rw [hnever]
          exact offsetsReach_of_no_offset (by simp [condition])
        · refine offsetsReach_condition ?_ (offsetsReach_of_no_offset (by simp))
          have hload : OffsetsReach bound [.count 1] := offsetsReach_of_no_offset (by simp)
          exact hload.append (offsetsReach_callOf _ 1 (hbody.below (.inr hnever)))
      · exact offsetsReach_of_no_offset (by simp)

theorem bounded_labeled {t : Tag} {label : Option String} {location : Location} {pick : Bool}
    {e : Expr} {bound : Nat} (he : e.Bounded bound) (hchoices : e.ChoicesNonempty) :
    (apply t (.labeled label location pick) e).Bounded bound := by
  intro action height scope hscope hroom
  have hslot : height < bound := by
    have hsize := (lower_balanced hchoices none height scope.inner).le_size
    have hcode : listSize ((apply t (.labeled label location pick) e).lower action height
      scope).code = listSize (e.lower none height scope.inner).code := rfl
    rcases hroom with hroom | ⟨-, hroom⟩
    · rw [nodes, List.length_cons] at hroom
      omega
    · omega
  refine bounded_of_wraps (k := 0) he (Nat.zero_le 1) ⟨fun _ ho => ho, rfl, ?_⟩ hscope
    (hscope.mark hslot label pick) hroom
  exact Nat.le_of_eq (Nat.zero_add _)

theorem bounded_apply {t : Tag} {op : Operator} {e : Expr} {bound : Nat} (he : e.Bounded bound)
    (hchoices : e.ChoicesNonempty) : (apply t op e).Bounded bound := by
  intro action height scope hscope hroom
  have hone := Nat.le_refl 1
  cases op with
  | named name => exact bounded_named he action height scope hscope hroom
  | action code => exact bounded_action he action height scope hscope hroom
  | labeled label location pick =>
      exact bounded_labeled he hchoices action height scope hscope hroom
  | text => exact bounded_of_wraps he hone (lowerText_wraps _ _ _) hscope hscope hroom
  | simpleAnd => exact bounded_of_wraps he hone (lowerSimpleAnd_wraps _ _ _) hscope hscope hroom
  | simpleNot => exact bounded_of_wraps he hone (lowerSimpleNot_wraps _ _ _) hscope hscope hroom
  | optional =>
      exact bounded_of_wraps he (Nat.zero_le 1) (lowerOptional_wraps _ _ _) hscope hscope hroom
  | zeroOrMore => exact bounded_of_wraps he hone (lowerZeroOrMore_wraps _ _) hscope hscope hroom
  | oneOrMore => exact bounded_of_wraps he hone (lowerOneOrMore_wraps _ _ _) hscope hscope hroom
  | group =>
      refine bounded_of_wraps (k := 0) he (Nat.zero_le 1) ⟨fun _ ho => ho, rfl, ?_⟩ hscope hscope
        hroom
      exact Nat.le_of_eq (Nat.zero_add _)

/-- Offsets of labels reach no further than there is room. -/
theorem bounded_of_choicesNonempty {e : Expr} (hchoices : e.ChoicesNonempty) (bound : Nat) :
    e.Bounded bound := by
  induction e with
  | choice t es ih =>
      intro action height scope hscope hroom
      have hes := (choicesNonempty_choice.mp hchoices).2
      refine ⟨lowerAlternatives_reach (fun e he => ih e he (hes e he)) hscope ?_, fun _ => ?_⟩
      · refine hroom.imp (fun h => ?_) (fun h => ⟨h.1.of_choice, h.2⟩)
        rw [nodes, List.length_cons] at h
        omega
      · rw [lower, scope_lowerAlternatives]
        exact hscope
  | sequence t es ih =>
      intro action height scope hscope hroom
      have hes := choicesNonempty_sequence.mp hchoices
      have hsize : listSize ((sequence t es).lower action height scope).code =
          1 + listSize (lowerElements action 0 es (height + 1) scope.inner).code := rfl
      have hpicked : ∀ slot ∈ scope.inner.picked, slot < height + 1 := by simp [Scope.inner]
      have hinside := lowerElements_bounded (fun e he => ih e he (hes e he)) hes action 0
        hscope.inner hpicked ?_
      · refine ⟨hinside.reach, fun h => hinside.below ?_⟩
        rcases hroom.live h with h | ⟨hnode, hne⟩
        · rw [nodes, List.length_cons] at h
          exact .inl (by omega)
        · exact .inr (hnode hne)
      · refine hroom.imp (fun h => ?_) (fun h => ⟨h.1.of_sequence, by omega⟩)
        rw [nodes, List.length_cons] at h
        omega
  | apply t op e ih =>
      have hbody := choicesNonempty_apply.mp hchoices
      exact bounded_apply (ih hbody) hbody
  | leaf t l =>
      intro action height scope hscope hroom
      refine ⟨offsetsReach_lowerLeaf t l hscope, fun _ => ?_⟩
      rw [lower, scope_lowerLeaf]
      exact hscope

end Expr

end PegCompiler
