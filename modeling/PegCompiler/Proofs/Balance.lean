import PegCompiler.Proofs.Symbols

/-!
# Code is balanced

Every instruction moves the top of the stack by a known number of slots, the two blocks of a branch
by the same one, and the body of a loop not at all. The code of an expression adds one slot,
whatever outcomes its nodes carry.
-/

namespace PegCompiler

/-- Whether all operands are offsets of slots on top of `height` slots or below. -/
def OffsetsBelow (height : Nat) (operands : List Operand) : Prop :=
  ∀ o ∈ operands, ∃ d : Int, o = .offset d ∧ d < height

/-- Whether no offset reaches further above the top than `bound` slots. -/
def OffsetsReach (bound : Nat) (operands : List Operand) : Prop :=
  ∀ d : Int, .offset d ∈ operands → -bound ≤ d

theorem offsetsBelow_map (height : Nat) (slots : List Nat) :
    OffsetsBelow height (slots.map (offsetFrom height)) := by
  intro o ho
  obtain ⟨slot, -, rfl⟩ := List.mem_map.mp ho
  exact ⟨_, rfl, by omega⟩

/-- Whether an instruction without blocks takes a stack of height `h` to one of height `k`. -/
def Moves : Opcode → List Operand → Nat → Nat → Prop
  | .pushEmptyString, [], h, k => k = h + 1
  | .pushUndefined, [], h, k => k = h + 1
  | .pushNull, [], h, k => k = h + 1
  | .pushFailed, [], h, k => k = h + 1
  | .pushEmptyArray, [], h, k => k = h + 1
  | .pushCurrPos, [], h, k => k = h + 1
  | .pop, [], h, k => k + 1 = h
  | .popCurrPos, [], h, k => k + 1 = h
  | .popN, [.count n], h, k => k + n = h
  | .nip, [], h, k => k + 1 = h ∧ 0 < k
  | .append, [], h, k => k + 1 = h ∧ 0 < k
  | .wrap, [.count n], h, k => k + n = h + 1 ∧ 0 < k
  | .text, [], h, k => k = h ∧ 0 < h
  | .pluck, .count n :: .count m :: offsets, h, k =>
      m = offsets.length ∧ OffsetsBelow h offsets ∧ k + n = h + 1 ∧ 0 < k
  | .acceptN, [.count _], h, k => k = h + 1
  | .acceptString, [.symbol _], h, k => k = h + 1
  | .fail, [.symbol _], h, k => k = h + 1
  | .loadSavedPos, [.count n], h, k => k = h ∧ n < h
  | .updateSavedPos, [], h, k => k = h
  | .call, .symbol _ :: .count n :: .count m :: offsets, h, k =>
      m = offsets.length ∧ OffsetsBelow h offsets ∧ k + n = h + 1 ∧ 0 < k
  | .rule, [.symbol (.rule _)], h, k => k = h + 1
  | .silentFailsOn, [], h, k => k = h
  | .silentFailsOff, [], h, k => k = h
  | _, _, _, _ => False

/-- Whether a test can be made on top of `height` slots. -/
def Testable : Opcode → List Operand → Nat → Prop
  | .ifTrue, [], height => 0 < height
  | .ifError, [], height => 0 < height
  | .ifNotError, [], height => 0 < height
  | .matchAny, [], _ => True
  | .matchString, [.symbol _], _ => True
  | .matchStringIc, [.symbol _], _ => True
  | .matchCharClass, [.symbol _], _ => True
  | _, _, _ => False

/-- Code that takes a stack of one height to one of another. -/
inductive Balanced : List Instr → Nat → Nat → Prop where
  | nil {h : Nat} : Balanced [] h h
  | op {code : Opcode} {operands : List Operand} {rest : List Instr} {h k l : Nat}
      (hmoves : Moves code operands h k) (hrest : Balanced rest k l) :
      Balanced (.op code operands :: rest) h l
  | branch {test : Opcode} {operands : List Operand} {yes no rest : List Instr} {h k l : Nat}
      (htest : Testable test operands h) (hyes : Balanced yes h k) (hno : Balanced no h k)
      (hrest : Balanced rest k l) : Balanced (.branch test operands yes no :: rest) h l
  | loop {body rest : List Instr} {h l : Nat} (hpos : 0 < h) (hbody : Balanced body h h)
      (hrest : Balanced rest h l) : Balanced (.loop body :: rest) h l

namespace Balanced

variable {a b yes no : List Instr} {h k l : Nat}

theorem append (ha : Balanced a h k) (hb : Balanced b k l) : Balanced (a ++ b) h l := by
  induction ha with
  | nil => exact hb
  | op hmoves _ ih => exact .op hmoves (ih hb)
  | branch htest hyes hno _ _ _ ih => exact .branch htest hyes hno (ih hb)
  | loop hpos hbody _ _ ih => exact .loop hpos hbody (ih hb)

theorem one {code : Opcode} {operands : List Operand} (hmoves : Moves code operands h k) :
    Balanced [.op code operands] h k :=
  .op hmoves .nil

theorem le_of_moves {code : Opcode} {operands : List Operand} (hmoves : Moves code operands h k) :
    k ≤ h + 1 := by
  unfold Moves at hmoves
  split at hmoves
  case h_14 | h_20 =>
    obtain ⟨-, -, hk, -⟩ := hmoves
    omega
  case h_24 => cases hmoves
  all_goals omega

/-- No code adds more slots than it has words. -/
theorem le_size {code : List Instr} (hcode : Balanced code h k) :
    k ≤ h + Instr.listSize code := by
  induction hcode with
  | nil => exact Nat.le_add_right _ _
  | op hmoves _ ih =>
      have hk := le_of_moves hmoves
      rw [Instr.listSize_op]
      omega
  | branch _ _ _ _ ihyes _ ih =>
      rw [Instr.listSize_branch]
      omega
  | loop _ _ _ _ ih =>
      rw [Instr.listSize_loop]
      omega

theorem condition {outcome : Outcome} {test : Opcode} {operands : List Operand}
    (htest : Testable test operands h) (hyes : Balanced yes h k) (hno : Balanced no h k) :
    Balanced (PegCompiler.condition outcome test operands yes no) h k := by
  cases outcome with
  | always => exact hyes
  | sometimes => exact .branch htest hyes hno .nil
  | never => exact hno

end Balanced

section Leaves

variable (outcome : Outcome) (height : Nat) (scope : Scope)

theorem callOf_balanced (f : HostFunction) {n h k : Nat} (hk : k + n = h + 1) (hpos : 0 < k) :
    Balanced [callOf f n h scope] h k := by
  exact .one ⟨(List.length_map _).symm, offsetsBelow_map h scope.slots, hk, hpos⟩

theorem semanticPredicate_balanced (code : Code) {onTrue onFalse : Opcode}
    (htrue : ∀ h, Moves onTrue [] h (h + 1)) (hfalse : ∀ h, Moves onFalse [] h (h + 1)) :
    Balanced (semanticPredicate outcome code onTrue onFalse height scope).code height
      (height + 1) := by
  refine .op rfl (.append (callOf_balanced scope _ rfl (Nat.succ_pos height)) ?_)
  refine .condition (Nat.succ_pos height) ?_ ?_
  · exact .op rfl (.one (htrue height))
  · exact .op rfl (.one (hfalse height))

theorem test_balanced {test : Opcode} {operands : List Operand} {accept : Instr} (e : Expectation)
    (htest : Testable test operands height) (haccept : Balanced [accept] height (height + 1)) :
    Balanced (condition outcome test operands [accept] (failure outcome e).1) height
      (height + 1) := by
  cases outcome with
  | always => exact haccept
  | sometimes => exact .branch htest haccept (.one rfl) .nil
  | never => exact .one rfl

theorem lowerLiteral_balanced (value : String) (ignoreCase : Bool) :
    Balanced (lowerLiteral outcome value ignoreCase scope).code height (height + 1) := by
  unfold lowerLiteral
  split
  · exact .one rfl
  · cases ignoreCase with
    | false => exact test_balanced outcome height _ trivial (.one rfl)
    | true => exact test_balanced outcome height _ trivial (.one rfl)

theorem lowerLeaf_balanced (t : Tag) (l : Leaf) :
    Balanced (lowerLeaf t l height scope).code height (height + 1) := by
  cases l with
  | semanticAnd code =>
      exact semanticPredicate_balanced _ _ _ _ (fun _ => rfl) (fun _ => rfl)
  | semanticNot code =>
      exact semanticPredicate_balanced _ _ _ _ (fun _ => rfl) (fun _ => rfl)
  | ruleRef name => exact .one rfl
  | literal value ignoreCase => exact lowerLiteral_balanced _ _ _ _ _
  | charClass set => exact test_balanced t.outcome height _ trivial (.one rfl)
  | any => exact test_balanced t.outcome height _ trivial (.one rfl)

end Leaves

section Operators

variable {body : Lowered} {height : Nat} (outcome : Outcome) (scope : Scope)

theorem lowerNamed_balanced (name : String) (hbody : Balanced body.code height (height + 1)) :
    Balanced (lowerNamed outcome name body).code height (height + 1) := by
  refine .append (.op rfl (hbody.append (.one rfl))) ?_
  split
  · exact .branch (Nat.succ_pos height) (.op rfl (.one rfl)) .nil .nil
  · exact .nil

theorem lowerAction_balanced (code : String)
    (hbody : Balanced body.code (height + 1) (height + 2)) :
    Balanced (lowerAction outcome code height body scope).code height (height + 1) := by
  have hcall : Balanced [.op .loadSavedPos [.count 1],
      callOf ⟨false, body.scope.names, code⟩ 1 (height + 2) body.scope] (height + 2)
      (height + 2) := by
    refine .op ⟨rfl, ?_⟩ (callOf_balanced _ _ rfl (Nat.succ_pos _))
    omega
  have hcondition : Balanced (condition outcome .ifNotError [] [.op .loadSavedPos [.count 1],
      callOf ⟨false, body.scope.names, code⟩ 1 (height + 2) body.scope] []) (height + 2)
      (height + 2) := .condition (Nat.succ_pos _) hcall .nil
  refine .append (.append (.op rfl hbody) hcondition) ?_
  exact .one ⟨rfl, Nat.succ_pos height⟩

theorem lowerText_balanced (hbody : Balanced body.code (height + 1) (height + 2)) :
    Balanced (lowerText outcome body scope).code height (height + 1) := by
  refine .append (.op rfl hbody) (.condition (Nat.succ_pos _) ?_ ?_)
  · exact .op rfl (.one ⟨rfl, Nat.succ_pos height⟩)
  · exact .one ⟨rfl, Nat.succ_pos height⟩

theorem lowerSimpleAnd_balanced (hbody : Balanced body.code (height + 1) (height + 2)) :
    Balanced (lowerSimpleAnd outcome body scope).code height (height + 1) := by
  refine .append (.append (.op rfl (.op rfl hbody)) (.one rfl)) ?_
  refine .condition (Nat.succ_pos _) ?_ ?_
  · exact .op rfl (.op rfl (.one rfl))
  · exact .op rfl (.op rfl (.one rfl))

theorem lowerSimpleNot_balanced (hbody : Balanced body.code (height + 1) (height + 2)) :
    Balanced (lowerSimpleNot outcome body scope).code height (height + 1) := by
  refine .append (.append (.op rfl (.op rfl hbody)) (.one rfl)) ?_
  refine .condition (Nat.succ_pos _) ?_ ?_
  · exact .op rfl (.op rfl (.one rfl))
  · exact .op rfl (.op rfl (.one rfl))

theorem lowerOptional_balanced (hbody : Balanced body.code height (height + 1)) :
    Balanced (lowerOptional outcome body scope).code height (height + 1) := by
  refine hbody.append (.condition (Nat.succ_pos _) ?_ .nil)
  exact .op rfl (.one rfl)

theorem appendLoop_balanced {rest : List Instr} {k : Nat}
    (hbody : Balanced body.code (height + 1) (height + 2)) (hrest : Balanced rest (height + 2) k) :
    Balanced (appendLoop body.code :: rest) (height + 2) k := by
  refine .loop (Nat.succ_pos _) (.op ⟨rfl, Nat.succ_pos height⟩ hbody) hrest

theorem lowerZeroOrMore_balanced (hbody : Balanced body.code (height + 1) (height + 2)) :
    Balanced (lowerZeroOrMore body scope).code height (height + 1) :=
  .append (.op rfl hbody) (appendLoop_balanced hbody (.one rfl))

theorem lowerOneOrMore_balanced (hbody : Balanced body.code (height + 1) (height + 2)) :
    Balanced (lowerOneOrMore outcome body scope).code height (height + 1) := by
  refine .append (.op rfl hbody) (.condition (Nat.succ_pos _) ?_ ?_)
  · exact appendLoop_balanced hbody (.one rfl)
  · exact .op rfl (.op rfl (.one rfl))

end Operators

section Lists

variable {es : List Expr}

theorem lowerAlternatives_balanced (hne : es ≠ [])
    (hes : ∀ e ∈ es, ∀ action height scope,
      Balanced (e.lower action height scope).code height (height + 1)) (height : Nat)
    (scope : Scope) :
    Balanced (Expr.lowerAlternatives es height scope).code height (height + 1) := by
  induction es with
  | nil => exact absurd rfl hne
  | cons e es ih =>
      obtain ⟨he, hes⟩ := List.forall_mem_cons.mp hes
      rw [Expr.lowerAlternatives]
      dsimp only
      split
      · exact he none height scope.inner
      · next hlast =>
          have hrest := ih (by rintro rfl; simp at hlast) hes
          refine (he none height scope.inner).append ?_
          exact .branch (Nat.succ_pos height) (.op rfl hrest) .nil .nil

theorem sequenceEnd_balanced (action : Option String) {n height : Nat} (hn : n < height)
    (scope : Scope) :
    Balanced (sequenceEnd action n height scope).code height (height - n) := by
  unfold sequenceEnd
  split
  · cases action with
    | none =>
        have hwrap : Moves .wrap [.count n] height (height - n + 1) := ⟨by omega, by omega⟩
        exact .op hwrap (.one ⟨rfl, by omega⟩)
    | some body => exact .op ⟨rfl, hn⟩ (callOf_balanced _ _ (by omega) (by omega))
  · refine .one ⟨(List.length_map _).symm, offsetsBelow_map height scope.picked, ?_, ?_⟩
    · omega
    · omega

/-- What is left of a sequence that fails is its failure. -/
theorem unwind_balanced {n height : Nat} (hn : n < height) :
    Balanced (unwind n) height (height - n) := by
  have hdrop : Balanced [dropTop n] height (height - n) := by
    unfold dropTop
    split
    · exact .one (by simp only [Moves]; omega)
    · exact .one (by simp only [Moves]; omega)
  refine hdrop.append ?_
  have hpop : Moves .popCurrPos [] (height - n) (height - n - 1) := by
    simp only [Moves]
    omega
  refine .op hpop (.one ?_)
  simp only [Moves]
  omega

theorem lowerElements_balanced
    (hes : ∀ e ∈ es, ∀ action height scope,
      Balanced (e.lower action height scope).code height (height + 1)) (action : Option String)
    {n height : Nat} (hn : n < height) (scope : Scope) :
    Balanced (Expr.lowerElements action n es height scope).code height (height - n) := by
  induction es generalizing n height scope with
  | nil => exact sequenceEnd_balanced action hn scope
  | cons e es ih =>
      obtain ⟨he, hes⟩ := List.forall_mem_cons.mp hes
      have hrest := ih hes (Nat.succ_lt_succ hn) (e.lower none height scope).scope
      have hunwind := unwind_balanced (Nat.succ_lt_succ hn)
      rw [Nat.succ_sub_succ] at hrest hunwind
      rw [Expr.lowerElements]
      exact (he none height scope).append (.condition (Nat.succ_pos height) hrest hunwind)

end Lists

namespace Expr

/-- The code of an expression adds one slot. -/
theorem lower_balanced {e : Expr} (h : e.ChoicesNonempty) (action : Option String) (height : Nat)
    (scope : Scope) : Balanced (e.lower action height scope).code height (height + 1) := by
  induction e generalizing action height scope with
  | choice t es ih =>
      obtain ⟨hne, hes⟩ := choicesNonempty_choice.mp h
      exact lowerAlternatives_balanced hne (fun e he => ih e he (hes e he)) height scope
  | sequence t es ih =>
      have hes := choicesNonempty_sequence.mp h
      refine .op rfl ?_
      exact lowerElements_balanced (fun e he => ih e he (hes e he)) action (Nat.succ_pos height) _
  | apply t op e ih =>
      have hbody := ih (choicesNonempty_apply.mp h)
      cases op with
      | named name => exact lowerNamed_balanced _ _ (hbody none height scope)
      | action code =>
          rw [lower]
          dsimp only
          split
          · exact hbody _ height scope.inner
          · exact lowerAction_balanced _ _ _ (hbody none (height + 1) scope.inner)
      | labeled label location pick => exact hbody none height scope.inner
      | text => exact lowerText_balanced _ _ (hbody none (height + 1) scope.inner)
      | simpleAnd => exact lowerSimpleAnd_balanced _ _ (hbody none (height + 1) scope.inner)
      | simpleNot => exact lowerSimpleNot_balanced _ _ (hbody none (height + 1) scope.inner)
      | optional => exact lowerOptional_balanced _ _ (hbody none height scope.inner)
      | zeroOrMore => exact lowerZeroOrMore_balanced _ (hbody none (height + 1) scope.inner)
      | oneOrMore => exact lowerOneOrMore_balanced _ _ (hbody none (height + 1) scope.inner)
      | group => exact hbody none height scope.inner
  | leaf t l => exact lowerLeaf_balanced height scope t l

end Expr

end PegCompiler
