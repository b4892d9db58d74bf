import PegCompiler.Proofs.Idempotence
import PegCompiler.Proofs.Throughout

/-!
# Occupied slots

What an instruction reads lies below the top of the stack, as a listing tells; that it does not lie
above it is left to the code that is generated, as a listing takes an offset for a signed number.
Picked values and saved positions are on the stack when they are read. A label is in the scope of
what follows its sequence, even if all values of the sequence have been put into one by then: so the
arguments of a call are on the stack as long as no sequence with labels is an element of another.
-/

namespace PegCompiler

open Instr

/-! ## Labels and the sequences around them -/

namespace Expr

mutual
/-- Whether the scope behind the expression has one of its labels. -/
def bindsLabel : Expr → Bool
  | sequence _ es => anyBindsLabel es
  | apply _ (.named _) e => bindsLabel e
  | apply _ (.labeled label _ _) _ => label.isSome
  | _ => false

def anyBindsLabel : List Expr → Bool
  | [] => false
  | e :: es => bindsLabel e || anyBindsLabel es
end

/-- Whether the scope behind the expression has a label for one of several values that are put into
one. -/
def leaksLabel : Expr → Bool
  | sequence _ es => anyBindsLabel es
  | apply _ (.named _) e => leaksLabel e
  | _ => false

/-- Whether values of labels stay on the stack while what is directly inside of the expression, or
the expression itself, can use them. An action around a sequence uses them before they go. -/
def keepsLabelsNode : Expr → Bool
  | sequence _ es => es.all fun e => !e.leaksLabel
  | apply _ (.action _) e => e.callsAction || !e.leaksLabel
  | _ => true

def keepsLabels (e : Expr) : Bool :=
  e.nodes.all keepsLabelsNode

theorem anyBindsLabel_eq_any (es : List Expr) : anyBindsLabel es = es.any bindsLabel := by
  induction es with
  | nil => rfl
  | cons e es ih => rw [anyBindsLabel, ih, List.any_cons]

theorem anyBindsLabel_map {φ : Expr → Expr} {es : List Expr}
    (h : ∀ e ∈ es, (φ e).bindsLabel = e.bindsLabel) :
    anyBindsLabel (es.map φ) = anyBindsLabel es := by
  induction es with
  | nil => rfl
  | cons e es ih =>
      obtain ⟨he, hes⟩ := List.forall_mem_cons.mp h
      rw [List.map_cons, anyBindsLabel, anyBindsLabel, he, ih hes]

section Revised

variable {m : Expr → Outcome} {f : String → String}

theorem bindsLabel_revise (e : Expr) : (e.revise m f).bindsLabel = e.bindsLabel := by
  induction e with
  | choice t es _ => rfl
  | sequence t es ih =>
      rw [revise_sequence, bindsLabel, anyBindsLabel_map ih, bindsLabel]
  | apply t op e ih =>
      cases op with
      | named name => exact ih
      | _ => rfl
  | leaf t l => rfl

theorem leaksLabel_revise (e : Expr) : (e.revise m f).leaksLabel = e.leaksLabel := by
  induction e with
  | choice t es _ => rfl
  | sequence t es _ => exact bindsLabel_revise (sequence t es)
  | apply t op e ih =>
      cases op with
      | named name => exact ih
      | _ => rfl
  | leaf t l => rfl

theorem callsAction_revise (e : Expr) : (e.revise m f).callsAction = e.callsAction := by
  cases e with
  | sequence t es => cases es <;> rfl
  | _ => rfl

theorem keepsLabelsNode_revise (e : Expr) :
    (e.revise m f).keepsLabelsNode = e.keepsLabelsNode := by
  cases e with
  | sequence t es =>
      rw [revise_sequence, keepsLabelsNode, List.all_map, keepsLabelsNode]
      exact List.all_congr rfl fun e => by rw [Function.comp_apply, leaksLabel_revise]
  | apply t op e =>
      cases op with
      | action code =>
          rw [revise, keepsLabelsNode, callsAction_revise, leaksLabel_revise, keepsLabelsNode]
      | _ => rfl
  | _ => rfl

theorem keepsLabels_revise (e : Expr) : (e.revise m f).keepsLabels = e.keepsLabels := by
  rw [keepsLabels, nodes_revise, List.all_map, keepsLabels]
  exact List.all_congr rfl keepsLabelsNode_revise

end Revised

section Parts

variable {t : Tag} {op : Operator} {e : Expr} {es : List Expr}

theorem keepsLabels_iff : e.keepsLabels ↔ ∀ n ∈ e.nodes, n.keepsLabelsNode :=
  List.all_eq_true

theorem keepsLabels_of_choice (h : (choice t es).keepsLabels) : ∀ e ∈ es, e.keepsLabels :=
  fun e he => keepsLabels_iff.mpr (forall_nodes_choice (keepsLabels_iff.mp h) e he)

theorem keepsLabels_of_sequence (h : (sequence t es).keepsLabels) : ∀ e ∈ es, e.keepsLabels :=
  fun e he => keepsLabels_iff.mpr (forall_nodes_sequence (keepsLabels_iff.mp h) e he)

theorem keepsLabels_of_apply (h : (apply t op e).keepsLabels) : e.keepsLabels :=
  keepsLabels_iff.mpr (forall_nodes_apply (keepsLabels_iff.mp h))

theorem not_leaksLabel_of_sequence (h : (sequence t es).keepsLabels) :
    ∀ e ∈ es, e.leaksLabel = false := by
  have hnode := keepsLabels_iff.mp h _ (self_mem_nodes _)
  simpa [keepsLabelsNode] using hnode

theorem not_leaksLabel_of_action {code : Code} (h : (apply t (.action code) e).keepsLabels)
    (hcalls : ¬e.callsAction) : e.leaksLabel = false := by
  have hnode := keepsLabels_iff.mp h _ (self_mem_nodes _)
  simpa [keepsLabelsNode, hcalls] using hnode

end Parts

end Expr

/-! ## Slots of labels -/

theorem Scope.Below.mono {s : Scope} {m n : Nat} (h : s.Below m) (hmn : m ≤ n) : s.Below n :=
  fun slot hslot => Nat.lt_of_lt_of_le (h slot hslot) hmn

namespace Expr

theorem labels_lowerElements {es : List Expr}
    (hes : ∀ e ∈ es, ∀ (action : Option String) height (scope : Scope),
      (e.lower action height scope).scope.labels = scope.labels)
    (action : Option String) (n height : Nat) (scope : Scope) :
    (lowerElements action n es height scope).scope.labels = scope.labels := by
  induction es generalizing n height scope with
  | nil => rw [lowerElements, scope_sequenceEnd]
  | cons e es ih =>
      obtain ⟨he, hes⟩ := List.forall_mem_cons.mp hes
      rw [lowerElements]
      exact (ih hes ..).trans (he none height scope)

/-- What binds no label leaves those of the scope as they are. -/
theorem labels_lower {e : Expr} (h : e.bindsLabel = false) (action : Option String) (height : Nat)
    (scope : Scope) : (e.lower action height scope).scope.labels = scope.labels := by
  induction e generalizing action height scope with
  | choice t es _ => rw [lower, scope_lowerAlternatives]
  | sequence t es ih =>
      rw [bindsLabel, anyBindsLabel_eq_any, List.any_eq_false] at h
      exact labels_lowerElements (fun e he => ih e he (Bool.eq_false_iff.mpr (h e he))) action 0
        (height + 1) scope.inner
  | apply t op e ih =>
      cases op with
      | named name => exact ih h none height scope
      | labeled label location pick =>
          cases label with
          | none => rfl
          | some label => cases h
      | action code =>
          rw [lower]
          dsimp only
          split <;> rfl
      | _ => rfl
  | leaf t l => rw [lower, scope_lowerLeaf]

/-- Behind an expression that leaks no label the slots of all labels are occupied. -/
theorem below_lower {e : Expr} (h : e.leaksLabel = false) (action : Option String) {height : Nat}
    {scope : Scope} (hscope : scope.Below height) :
    (e.lower action height scope).scope.Below (height + 1) := by
  have hmono := hscope.mono (Nat.le_succ height)
  induction e generalizing action with
  | choice t es _ =>
      rw [lower, scope_lowerAlternatives]
      exact hmono
  | sequence t es _ =>
      have hlabels := labels_lower (e := sequence t es) h action height scope
      intro slot hslot
      rw [Scope.slots, hlabels] at hslot
      exact hmono slot hslot
  | apply t op e ih =>
      cases op with
      | named name => exact ih h none
      | labeled label location pick => exact hmono.mark (Nat.lt_succ_self height) label pick
      | action code =>
          rw [lower]
          dsimp only
          split <;> exact hmono
      | _ => exact hmono
  | leaf t l =>
      rw [lower, scope_lowerLeaf]
      exact hmono

end Expr

/-! ## Seated instructions -/

/-- Whether an instruction has its place on a stack of no more than `bound` slots, and none of its
offsets points above the top: not even that of a call, if `keeps`. -/
structure Seated (keeps : Prop) (bound : Nat) (code : Opcode) (operands : List Operand) : Prop where
  moves : ∃ h k, Moves code operands h k ∧ (operands = [] ∨ h ≤ bound)
  occupied : code ≠ .call ∨ keeps → OffsetsReach 0 operands

section Seats

variable {keeps : Prop} {bound height : Nat} {scope : Scope}

theorem Seated.of_no_offset {code : Opcode} {operands : List Operand} {h k : Nat}
    (hmoves : Moves code operands h k) (hbound : h ≤ bound) (hno : ∀ d, .offset d ∉ operands) :
    Seated keeps bound code operands :=
  ⟨⟨h, k, hmoves, .inr hbound⟩, fun _ => offsetsReach_of_no_offset hno⟩

/-- No instruction without operands needs more than two slots. -/
theorem Seated.bare {code : Opcode} {k : Nat} (hmoves : Moves code [] 2 k) :
    Seated keeps bound code [] :=
  ⟨⟨2, k, hmoves, .inl rfl⟩, fun _ => offsetsReach_of_no_offset (by simp)⟩

theorem Seated.named {code : Opcode} {s : Symbol} {k : Nat} (hmoves : Moves code [.symbol s] 0 k) :
    Seated keeps bound code [.symbol s] :=
  .of_no_offset hmoves (Nat.zero_le _) (by simp)

/-- Slots that are occupied lie below the top. -/
theorem offsetsReach_zero {slots : List Nat} (h : ∀ slot ∈ slots, slot < height) :
    OffsetsReach 0 (slots.map (offsetFrom height)) := by
  intro d hd
  obtain ⟨slot, hslot, hoffset⟩ := List.mem_map.mp hd
  obtain rfl := Operand.offset.inj hoffset
  have hlt := h slot hslot
  omega

theorem seated_callOf (f : HostFunction) {n : Nat} (hn : n ≤ height) (hbound : height ≤ bound)
    (hscope : keeps → scope.Below height) :
    Each (Seated keeps bound) [callOf f n height scope] := by
  refine .one ⟨⟨height, height + 1 - n, ?_, .inr hbound⟩, fun h => ?_⟩
  · exact ⟨(List.length_map _).symm, offsetsBelow_map height scope.slots, by omega, by omega⟩
  · have hkeeps := h.resolve_left fun hne => hne rfl
    refine .append ?_ (offsetsReach_zero (hscope hkeeps))
    exact offsetsReach_of_no_offset (by simp)

theorem seated_semanticPredicate (outcome : Outcome) (code : Code) {onTrue onFalse : Opcode}
    (htrue : Moves onTrue [] 2 3) (hfalse : Moves onFalse [] 2 3) (hbound : height ≤ bound)
    (hscope : keeps → scope.Below height) :
    Each (Seated keeps bound)
      (semanticPredicate outcome code onTrue onFalse height scope).code := by
  refine .op (.bare rfl) (.append (seated_callOf _ (Nat.zero_le _) hbound hscope) ?_)
  refine .condition Nat.one_pos ?_ ?_
  · exact .op (.bare rfl) (.one (.bare htrue))
  · exact .op (.bare rfl) (.one (.bare hfalse))

theorem seated_test (outcome : Outcome) {test accept : Opcode} {asked taken : List Operand}
    (e : Expectation) (htest : Testable test asked 1) (haccept : Moves accept taken 0 1)
    (hno : ∀ d, .offset d ∉ taken) :
    Each (Seated keeps bound)
      (condition outcome test asked [.op accept taken] (failure outcome e).1) := by
  have haccept : Each (Seated keeps bound) [.op accept taken] :=
    .one (.of_no_offset haccept (Nat.zero_le _) hno)
  have hfail : Each (Seated keeps bound) [.op .fail [.symbol (.expectation e)]] := .one (.named rfl)
  cases outcome with
  | always => exact haccept
  | sometimes => exact .branch htest haccept hfail .nil
  | never => exact hfail

theorem seated_lowerLeaf (t : Tag) (l : Leaf) (hbound : height ≤ bound)
    (hscope : keeps → scope.Below height) :
    Each (Seated keeps bound) (lowerLeaf t l height scope).code := by
  cases l with
  | semanticAnd code => exact seated_semanticPredicate _ _ rfl rfl hbound hscope
  | semanticNot code => exact seated_semanticPredicate _ _ rfl rfl hbound hscope
  | ruleRef name => exact .one (.named rfl)
  | literal value ignoreCase =>
      rw [lowerLeaf, lowerLiteral]
      split
      · exact .one (.bare rfl)
      · cases ignoreCase with
        | false => exact seated_test _ _ trivial rfl (by simp)
        | true => exact seated_test _ _ trivial rfl (by simp)
  | charClass set => exact seated_test _ _ trivial rfl (by simp)
  | any => exact seated_test _ _ trivial rfl (by simp)

end Seats

section Operators

variable {keeps : Prop} {bound height : Nat} {body : Lowered} (outcome : Outcome) (scope : Scope)
  (hbody : Each (Seated keeps bound) body.code)

include hbody

theorem seated_lowerNamed (name : String) :
    Each (Seated keeps bound) (lowerNamed outcome name body).code := by
  refine .append (.op (.bare rfl) (hbody.append (.one (.bare rfl)))) ?_
  split
  · exact .branch Nat.one_pos (.op (.bare rfl) (.one (.named rfl))) .nil .nil
  · exact .nil

theorem seated_lowerAction (code : String) (hbound : height + 2 ≤ bound)
    (hscope : keeps → body.scope.Below (height + 2)) :
    Each (Seated keeps bound) (lowerAction outcome code height body scope).code := by
  have hload : Moves .loadSavedPos [.count 1] (height + 2) (height + 2) := ⟨rfl, by omega⟩
  refine .append (.append (.op (.bare rfl) hbody) (.condition Nat.one_pos ?_ .nil)) ?_
  · refine .op (.of_no_offset hload hbound (by simp)) ?_
    exact seated_callOf _ (by omega) hbound hscope
  · exact .one (.bare ⟨rfl, Nat.one_pos⟩)

theorem seated_lowerText : Each (Seated keeps bound) (lowerText outcome body scope).code := by
  refine .append (.op (.bare rfl) hbody) (.condition Nat.one_pos ?_ ?_)
  · exact .op (.bare rfl) (.one (.bare ⟨rfl, Nat.two_pos⟩))
  · exact .one (.bare ⟨rfl, Nat.one_pos⟩)

theorem seated_lowerSimpleAnd :
    Each (Seated keeps bound) (lowerSimpleAnd outcome body scope).code := by
  refine .append (.append (.op (.bare rfl) (.op (.bare rfl) hbody)) (.one (.bare rfl))) ?_
  refine .condition Nat.one_pos ?_ ?_
  · exact .op (.bare rfl) (.op (.bare rfl) (.one (.bare rfl)))
  · exact .op (.bare rfl) (.op (.bare rfl) (.one (.bare rfl)))

theorem seated_lowerSimpleNot :
    Each (Seated keeps bound) (lowerSimpleNot outcome body scope).code := by
  refine .append (.append (.op (.bare rfl) (.op (.bare rfl) hbody)) (.one (.bare rfl))) ?_
  refine .condition Nat.one_pos ?_ ?_
  · exact .op (.bare rfl) (.op (.bare rfl) (.one (.bare rfl)))
  · exact .op (.bare rfl) (.op (.bare rfl) (.one (.bare rfl)))

theorem seated_lowerOptional :
    Each (Seated keeps bound) (lowerOptional outcome body scope).code := by
  refine hbody.append (.condition Nat.one_pos ?_ .nil)
  exact .op (.bare rfl) (.one (.bare rfl))

theorem seated_appendLoop : Each (Seated keeps bound) [appendLoop body.code, .op .pop []] :=
  .loop (.op (.bare ⟨rfl, Nat.one_pos⟩) hbody) (.one (.bare rfl))

theorem seated_lowerZeroOrMore : Each (Seated keeps bound) (lowerZeroOrMore body scope).code :=
  .append (.op (.bare rfl) hbody) (seated_appendLoop hbody)

theorem seated_lowerOneOrMore :
    Each (Seated keeps bound) (lowerOneOrMore outcome body scope).code := by
  refine .append (.op (.bare rfl) hbody) (.condition Nat.one_pos (seated_appendLoop hbody) ?_)
  exact .op (.bare rfl) (.op (.bare rfl) (.one (.bare rfl)))

end Operators

/-- What is to be shown of an expression with a slot below `bound` for each of its nodes. -/
def Expr.Seats (keeps : Prop) (bound : Nat) (e : Expr) : Prop :=
  ∀ action height (scope : Scope), height + e.nodes.length ≤ bound →
    (keeps → scope.Below height) → Each (Seated keeps bound) (e.lower action height scope).code

section Lists

variable {keeps : Prop} {bound : Nat} {es : List Expr}

theorem seated_lowerAlternatives (hes : ∀ e ∈ es, e.Seats keeps bound) {height : Nat}
    {scope : Scope} (hbound : height + (Expr.listNodes es).length ≤ bound)
    (hscope : keeps → scope.Below height) :
    Each (Seated keeps bound) (Expr.lowerAlternatives es height scope).code := by
  induction es with
  | nil => exact .nil
  | cons e es ih =>
      obtain ⟨he, hes⟩ := List.forall_mem_cons.mp hes
      rw [Expr.listNodes, List.length_append] at hbound
      have hfirst := he none height scope.inner (by omega) hscope
      rw [Expr.lowerAlternatives]
      dsimp only
      split
      · exact hfirst
      · refine hfirst.append (.branch Nat.one_pos (.op (.bare rfl) ?_) .nil .nil)
        exact ih hes (by omega)

theorem seated_sequenceEnd (action : Option String) {n height : Nat} {scope : Scope}
    (hn : n < height) (hbound : height ≤ bound) (hpicked : ∀ slot ∈ scope.picked, slot < height)
    (hscope : keeps → scope.Below height) :
    Each (Seated keeps bound) (sequenceEnd action n height scope).code := by
  unfold sequenceEnd
  split
  · cases action with
    | none =>
        have hwrap : Moves .wrap [.count n] height (height + 1 - n) := ⟨by omega, by omega⟩
        exact .op (.of_no_offset hwrap hbound (by simp)) (.one (.bare ⟨rfl, Nat.one_pos⟩))
    | some body =>
        have hload : Moves .loadSavedPos [.count n] height height := ⟨rfl, hn⟩
        refine .op (.of_no_offset hload hbound (by simp)) ?_
        exact seated_callOf _ hn hbound hscope
  · refine .one ⟨⟨height, height - n, ?_, .inr hbound⟩, fun _ => ?_⟩
    · exact ⟨(List.length_map _).symm, offsetsBelow_map height scope.picked, by omega, by omega⟩
    · refine .append ?_ (offsetsReach_zero hpicked)
      exact offsetsReach_of_no_offset (by simp)

theorem seated_unwind {n : Nat} (hn : n ≤ bound) : Each (Seated keeps bound) (unwind n) := by
  have hdrop : Each (Seated keeps bound) [dropTop n] := by
    unfold dropTop
    split
    · exact .one (.bare rfl)
    · exact .one (.of_no_offset (show Moves .popN [.count n] n 0 from Nat.zero_add n) hn (by simp))
  exact hdrop.append (.op (.bare rfl) (.one (.bare rfl)))

/-- The values of a sequence stay where they are until all of them are there. -/
theorem seated_lowerElements (hes : ∀ e ∈ es, e.Seats keeps bound)
    (hleaks : keeps → ∀ e ∈ es, e.leaksLabel = false) (action : Option String) {n height : Nat}
    {scope : Scope} (hn : n < height) (hbound : height + (Expr.listNodes es).length ≤ bound)
    (hpicked : ∀ slot ∈ scope.picked, slot < height) (hscope : keeps → scope.Below height) :
    Each (Seated keeps bound) (Expr.lowerElements action n es height scope).code := by
  induction es generalizing n height scope with
  | nil => exact seated_sequenceEnd action hn hbound hpicked hscope
  | cons e es ih =>
      obtain ⟨he, hes⟩ := List.forall_mem_cons.mp hes
      have hnodes := List.length_pos_of_mem e.self_mem_nodes
      rw [Expr.listNodes, List.length_append] at hbound
      have hfirst := he none height scope (by omega) hscope
      have hpicked' : ∀ slot ∈ (e.lower none height scope).scope.picked, slot < height + 1 := by
        intro slot hslot
        rcases Expr.picked_of_lower hslot with hslot | rfl
        · exact Nat.lt_succ_of_lt (hpicked slot hslot)
        · exact Nat.lt_succ_self _
      have hscope' : keeps → (e.lower none height scope).scope.Below (height + 1) := fun hkeeps =>
        Expr.below_lower (hleaks hkeeps e (List.mem_cons_self ..)) none (hscope hkeeps)
      have hrest := ih hes (fun hkeeps => (List.forall_mem_cons.mp (hleaks hkeeps)).2)
        (Nat.succ_lt_succ hn) (by omega) hpicked' hscope'
      rw [Expr.lowerElements]
      exact hfirst.append (.condition Nat.one_pos hrest (seated_unwind (by omega)))

end Lists

namespace Expr

/-- All instructions for an expression are seated, calls if its labels keep their values. -/
theorem seats_of_keepsLabels {keeps : Prop} {e : Expr} (h : keeps → e.keepsLabels) (bound : Nat) :
    e.Seats keeps bound := by
  induction e with
  | choice t es ih =>
      intro action height scope hbound hscope
      rw [nodes, List.length_cons] at hbound
      refine seated_lowerAlternatives (fun e he => ih e he fun hkeeps => ?_) (by omega) hscope
      exact keepsLabels_of_choice (h hkeeps) e he
  | sequence t es ih =>
      intro action height scope hbound hscope
      rw [nodes, List.length_cons] at hbound
      have hes : ∀ e ∈ es, e.Seats keeps bound := fun e he =>
        ih e he fun hkeeps => keepsLabels_of_sequence (h hkeeps) e he
      have hinner : keeps → scope.inner.Below (height + 1) := fun hkeeps =>
        (hscope hkeeps).inner.mono (Nat.le_succ height)
      exact .op (.bare rfl) (seated_lowerElements hes
        (fun hkeeps => not_leaksLabel_of_sequence (h hkeeps)) action (Nat.succ_pos height)
        (by omega) (by simp [Scope.inner]) hinner)
  | apply t op e ih =>
      have he := ih fun hkeeps => keepsLabels_of_apply (h hkeeps)
      intro action height scope hbound hscope
      rw [nodes, List.length_cons] at hbound
      have hinner : keeps → scope.inner.Below (height + 1) := fun hkeeps =>
        (hscope hkeeps).inner.mono (Nat.le_succ height)
      have hsame := he none height scope.inner (by omega) hscope
      have habove := he none (height + 1) scope.inner (by omega) hinner
      cases op with
      | named name => exact seated_lowerNamed _ (he none height scope (by omega) hscope) name
      | action code =>
          have hnodes := List.length_pos_of_mem e.self_mem_nodes
          rw [lower]
          dsimp only
          split
          · exact he (some code.text) height scope.inner (by omega) hscope
          · next hcalls =>
              refine seated_lowerAction _ _ habove code.text (by omega) fun hkeeps => ?_
              exact below_lower (not_leaksLabel_of_action (h hkeeps) hcalls) none (hinner hkeeps)
      | labeled label location pick => exact hsame
      | text => exact seated_lowerText _ _ habove
      | simpleAnd => exact seated_lowerSimpleAnd _ _ habove
      | simpleNot => exact seated_lowerSimpleNot _ _ habove
      | optional => exact seated_lowerOptional _ _ hsame
      | zeroOrMore => exact seated_lowerZeroOrMore _ habove
      | oneOrMore => exact seated_lowerOneOrMore _ _ habove
      | group => exact hsame
  | leaf t l =>
      intro action height scope hbound hscope
      exact seated_lowerLeaf t l (by omega) hscope

end Expr

/-! ## Words -/

/-- Whether the instruction calls a function with the values of labels. -/
def Instruction.isCall : Instruction → Bool
  | call _ _ _ => true
  | _ => false

/-- Whether what the instruction pops and reads can be counted by signed words, what is read if a
call may do it. -/
def Instruction.Countable (keeps : Prop) (i : Instruction) : Prop :=
  i.pops < signedSize ∧ ((i.isCall → keeps) → ∀ o ∈ i.reads, o.toNat < signedSize)

section Words

variable {keeps : Prop} {bound : Nat} {c : Constants} {names : List String}

open Instruction

theorem toNat_offset_lt {offsets : List Operand} {h : Nat} (hbelow : OffsetsBelow h offsets)
    (hreach : OffsetsReach 0 offsets) (hh : h < signedSize) :
    ∀ w ∈ offsets.map (Operand.word c names), w.toNat < signedSize := by
  intro w hw
  obtain ⟨o, ho, rfl⟩ := List.mem_map.mp hw
  obtain ⟨d, rfl, hd⟩ := hbelow o ho
  obtain ⟨n, rfl⟩ := Int.eq_ofNat_of_zero_le (by simpa using hreach d ho)
  have hn : n < signedSize := by omega
  rw [Operand.word, UInt32.ofInt, UInt32.toNat_ofNat']
  simp only [signedSize, UInt32.size] at hn ⊢
  omega

theorem Instruction.Countable.of_pops {i : Instruction} {n : Nat} (hpops : i.pops ≤ n)
    (hn : n < signedSize) (hreads : i.reads = []) : i.Countable keeps :=
  ⟨Nat.lt_of_le_of_lt hpops hn, by simp [hreads]⟩

/-- The words of a seated instruction are read as one that can be counted. -/
theorem decode_countable {code : Opcode} {operands : List Operand} (rest : List UInt32)
    (hseated : Seated keeps bound code operands) (hbound : bound < signedSize)
    (hlen : operands.length < signedSize) :
    ∃ i, decode 0 code.value (operands.map (Operand.word c names) ++ rest) = .ok (i, rest) ∧
      i.isPlain ∧ i.Countable keeps := by
  obtain ⟨⟨h, k, hmoves, hheight⟩, hoccupied⟩ := hseated
  have htwo : 2 < signedSize := by decide
  have hword (n : Nat) : (Operand.word c names (.count n)).toNat ≤ n := by
    rw [Operand.word, UInt32.toNat_ofNat']
    exact Nat.mod_le _ _
  -- the cases are the instructions in the order in which `Moves` lists them
  unfold Moves at hmoves
  split at hmoves <;> simp only [decode, Opcode.ofWord?_value]
  case h_1 | h_2 | h_3 | h_4 | h_5 | h_6 | h_15 | h_16 | h_17 | h_19 | h_21 | h_22 | h_23 =>
    exact ⟨_, rfl, rfl, .of_pops (Nat.zero_le 2) htwo rfl⟩
  case h_7 | h_8 | h_10 | h_13 =>
    exact ⟨_, rfl, rfl, .of_pops (by simp only [pops]; omega) htwo rfl⟩
  case h_9 n =>
    have hheight := hheight.resolve_left (List.cons_ne_nil _ _)
    exact ⟨_, rfl, rfl, .of_pops (hword n) (by omega) rfl⟩
  case h_11 =>
    have hreads : ∀ o ∈ append.reads, o.toNat < signedSize := by
      simp [reads, signedSize, UInt32.size]
    exact ⟨_, rfl, rfl, Nat.lt_of_succ_lt htwo, fun _ => hreads⟩
  case h_12 n =>
    have hheight := hheight.resolve_left (List.cons_ne_nil _ _)
    exact ⟨_, rfl, rfl, .of_pops (hword n) (by omega) rfl⟩
  case h_14 n m offsets =>
    obtain ⟨rfl, hbelow, hk, hpos⟩ := hmoves
    have hheight := hheight.resolve_left (List.cons_ne_nil _ _)
    have hreach : OffsetsReach 0 offsets :=
      fun d hd => hoccupied (.inl (by decide)) d (by simp [hd])
    have hn := hword n
    simp only [List.length_cons] at hlen
    refine ⟨_, Operand.withOffsets_words _ _ (lt_size_of_lt_signedSize (by omega)) _, rfl, ?_, ?_⟩
    · simp only [pops]
      omega
    · exact fun _ => toNat_offset_lt hbelow hreach (by omega)
  case h_18 n =>
    have hheight := hheight.resolve_left (List.cons_ne_nil _ _)
    have hn := hword n
    refine ⟨_, rfl, rfl, Nat.lt_of_lt_of_le Nat.two_pos (Nat.le_of_lt htwo), fun _ o ho => ?_⟩
    obtain rfl := List.mem_singleton.mp ho
    omega
  case h_20 f n m offsets =>
    obtain ⟨rfl, hbelow, hk, hpos⟩ := hmoves
    have hheight := hheight.resolve_left (List.cons_ne_nil _ _)
    have hn := hword n
    simp only [List.length_cons] at hlen
    refine ⟨_, Operand.withOffsets_words _ _ (lt_size_of_lt_signedSize (by omega)) _, rfl, ?_, ?_⟩
    · simp only [pops]
      omega
    · intro hcall
      have hreach : OffsetsReach 0 offsets :=
        fun d hd => hoccupied (.inr (hcall rfl)) d (by simp [hd])
      exact toNat_offset_lt hbelow hreach (by omega)
  case h_24 => cases hmoves

/-- What short code pops and reads can be counted, for calls if labels keep their values. -/
theorem Rule.countable {r : Rule} (hkeeps : keeps → r.body.keepsLabels)
    (hnodes : r.body.nodes.length < signedSize)
    (hlen : (r.assemble c names).length < signedSize) :
    Throughout (Countable keeps) (r.assemble c names) := by
  rw [Rule.assemble, length_listWords] at hlen
  have hseats := Expr.seats_of_keepsLabels hkeeps r.body.nodes.length none 0 .empty
    (Nat.le_of_eq (Nat.zero_add _)) fun _ => Scope.below_empty
  have hpos : 0 < signedSize := by decide
  refine hseats.throughout (fun code operands hseated hoperands rest =>
    decode_countable rest hseated hnodes hoperands) (fun test yes no => ?_) (fun body => ?_) hlen
  · have hreads : ∀ o ∈ test.reads, o.toNat < signedSize := by
      cases test <;> simp [Test.reads, signedSize, UInt32.size]
    exact ⟨hpos, fun _ => hreads⟩
  · exact ⟨hpos, fun _ => by simp [reads, Test.reads, signedSize, UInt32.size]⟩

end Words

/-! ## Compiled grammars -/

section Compiled

variable {o : Options} {g g' : Grammar}

open Relation

theorem Grammar.CompilesTo.bytecode_eq (h : g.CompilesTo o g') {s : Rule} (hs : s ∈ g'.rules) :
    s.bytecode = some (s.assemble (ruleConstants g'.rules) g'.ruleNames) := by
  rw [← h.assembled] at hs
  obtain ⟨s, -, rfl⟩ := List.mem_map.mp hs
  rfl

/-- Whatever a compiled rule reads is on the stack: on every path to an instruction all its offsets,
as words, are less than the depth. For the arguments of calls this holds if the labels of the rule
keep their values. -/
theorem offsets_occupied (h : compile g .standard o = .ok g') (hshort : g'.HasShortCode)
    (hnodes : ∀ r ∈ g.rules, r.body.nodes.length < signedSize) {s : Rule} (hs : s ∈ g'.rules) :
    ∃ r ∈ g.rules, s.name = r.name ∧ ∃ code, s.bytecode = some code ∧ ∀ config i,
      ReflTransGen (Config.Step code) (.start code) config → config.position < config.stop →
      instructionAt? code config.position = some i → (i.isCall → r.body.keepsLabels) →
      ∀ w ∈ i.reads, (w.toNat : Int) < config.depth := by
  obtain ⟨o', -, hcompiled⟩ := compilesTo_of_compile h
  obtain ⟨r, hr, hname, m, hbody⟩ := hcompiled.transformed.source s hs
  have hr := (List.mem_filter.mp hr).1
  have hcode := hcompiled.bytecode_eq hs
  refine ⟨r, hr, hname, _, hcode, fun config i hreach hinside hi hcall w hw => ?_⟩
  have hkeeps : r.body.keepsLabels → s.body.keepsLabels := by
    rw [hbody, Expr.keepsLabels_revise]
    exact id
  have hsize : s.body.nodes.length < signedSize := by
    rw [hbody, Expr.nodes_revise, List.length_map]
    exact hnodes r hr
  have hcountable := Rule.countable hkeeps hsize (hshort s hs _ hcode)
  obtain ⟨listing, hlist⟩ := Grammar.unlisted?_eq_none_iff.mp hcompiled.verified s hs
  obtain ⟨-, heights, hframed, -⟩ :=
    exists_framed_of_recovers hcode (hcountable.recovers fun _ hi => hi.1) hlist
  obtain ⟨⟨-, hreads⟩, -, hbelow⟩ :=
    hcountable.at_config hframed (hframed.config_framed hreach) hinside hi
  rw [← signed_eq_toNat (hreads hcall w hw)]
  exact hbelow w hw

open Build in
/-- Two characters in ascending order; the second one is compared with the first in a group. -/
def increasing : Grammar :=
  grammar
    [rule "start" (action (sequence [labeled "a" any,
      group (sequence [labeled "b" any, semanticAnd "return a < b;"])]) "return a;")]

def increasingCode : List UInt32 :=
  [5, 17, 2, 2, 21, 1, 23, 0, 15, 52, 3, 5, 17, 2, 2, 21, 1, 23, 0, 15, 24, 3, 25, 26, 0, 0, 2, 2,
    0, 13, 2, 2, 6, 1, 6, 3, 15, 3, 4, 11, 2, 9, 8, 2, 7, 3, 6, 7, 3, 15, 7, 4, 24, 2, 26, 1, 3, 1,
    1, 8, 2, 7, 3, 6, 7, 3]

/-- The first argument of the comparison is the second value from the bottom. -/
theorem increasing_occupied :
    ∃ g', compile increasing .standard .standard = .ok g' ∧ g'.HasShortCode ∧
      (∀ r ∈ increasing.rules, r.body.nodes.length < signedSize ∧ r.body.keepsLabels) ∧
      (∃ s ∈ g'.rules, s.bytecode = some increasingCode) ∧
      ∃ config, ReflTransGen (Config.Step increasingCode) (.start increasingCode) config ∧
        config.depth = 4 ∧
        instructionAt? increasingCode config.position = some (.call 0 0 [2, 0]) ∧
        ∀ w ∈ [(2 : UInt32), 0], (w.toNat : Int) < config.depth := by
  have hcompiled : (compile increasing .standard .standard).toOption.map
      (fun g => g.rules.map (·.bytecode)) = some [some increasingCode] := by
    decide +kernel
  obtain ⟨g', hg', hcodes⟩ := Option.map_eq_some_iff.mp hcompiled
  have hok := eq_ok_of_toOption hg'
  obtain ⟨s, hrules, hcode⟩ := List.map_eq_singleton_iff.mp hcodes
  have hs : s ∈ g'.rules := by simp [hrules]
  have hlengths : g'.rules.map (·.bytecode.map (·.length)) = [some 66] := by
    simp [hrules, hcode, increasingCode]
  have hshort : g'.HasShortCode := by
    refine Grammar.hasShortCode_of_lengths hlengths ?_
    simp [signedSize, UInt32.size]
  have hbody : ∀ r ∈ increasing.rules, r.body.nodes.length < signedSize ∧ r.body.keepsLabels := by
    simp only [increasing, Build.grammar, List.forall_mem_singleton]
    exact ⟨by decide, by decide⟩
  have hpath : ReflTransGen (Config.Step increasingCode) (.start increasingCode)
      ⟨23, 4, 46, [(49, 63), (66, 66)]⟩ := by
    have hfirst : instructionAt? increasingCode 1 = some (.branch .hasInput 2 2) := rfl
    have hfound : instructionAt? increasingCode 8 = some (.branch .isNotFailed 52 3) := rfl
    have hsecond : instructionAt? increasingCode 12 = some (.branch .hasInput 2 2) := rfl
    have hfound' : instructionAt? increasingCode 19 = some (.branch .isNotFailed 24 3) := rfl
    refine .head (.plain (i := .push .currPos) (by decide) rfl rfl) ?_
    refine .head (.yes (by decide) hfirst rfl) ?_
    refine .head (.plain (i := .acceptN 1) (by decide) rfl rfl) ?_
    refine .head (.leave (by decide) rfl) ?_
    refine .head (.yes (by decide) hfound rfl) ?_
    refine .head (.plain (i := .push .currPos) (by decide) rfl rfl) ?_
    refine .head (.yes (by decide) hsecond rfl) ?_
    refine .head (.plain (i := .acceptN 1) (by decide) rfl rfl) ?_
    refine .head (.leave (by decide) rfl) ?_
    refine .head (.yes (by decide) hfound' rfl) ?_
    refine .head (.plain (i := .updateSavedPos) (by decide) rfl rfl) ?_
    exact .refl
  obtain ⟨r, hr, -, code, hcode', hoccupied⟩ :=
    offsets_occupied hok hshort (fun r hr => (hbody r hr).1) hs
  obtain rfl := Option.some.inj (hcode.symm.trans hcode')
  have hcall : instructionAt? increasingCode 23 = some (.call 0 0 [2, 0]) := rfl
  exact ⟨g', hok, hshort, hbody, ⟨s, hs, hcode⟩, _, hpath, rfl, hcall,
    hoccupied _ _ hpath (by decide) hcall fun _ => (hbody r hr).2⟩

open Build in
/-- A label in a sequence that is the element of another one. -/
def nestedLabel : Grammar :=
  grammar [rule "start" (sequence [sequence [labeled "a" any], semanticAnd "return a;"])]

def nestedLabelCode : List UInt32 :=
  [5, 5, 17, 2, 2, 21, 1, 23, 0, 15, 3, 3, 11, 1, 9, 6, 7, 3, 15, 23, 3, 25, 26, 0, 0, 1,
    4294967295, 13, 2, 2, 6, 1, 6, 3, 15, 3, 4, 11, 2, 9, 8, 2, 7, 3, 6, 7, 3]

/-- The predicate is called with a value above the top: that of the label has been wrapped. -/
theorem nestedLabel_call_above_top :
    ∃ g', compile nestedLabel .standard .standard = .ok g' ∧
      (∃ s ∈ g'.rules, s.bytecode = some nestedLabelCode) ∧
      ∃ config, ReflTransGen (Config.Step nestedLabelCode) (.start nestedLabelCode) config ∧
        config.position < config.stop ∧
        ∃ i, instructionAt? nestedLabelCode config.position = some i ∧ i.isCall ∧
          ∃ w ∈ i.reads, ¬(w.toNat : Int) < config.depth := by
  have hcompiled : (compile nestedLabel .standard .standard).toOption.map
      (fun g => g.rules.map (·.bytecode)) = some [some nestedLabelCode] := by
    decide +kernel
  obtain ⟨g', hg', hcodes⟩ := Option.map_eq_some_iff.mp hcompiled
  obtain ⟨s, hrules, hcode⟩ := List.map_eq_singleton_iff.mp hcodes
  have hs : s ∈ g'.rules := by simp [hrules]
  have hpath : ReflTransGen (Config.Step nestedLabelCode) (.start nestedLabelCode)
      ⟨22, 2, 44, [(47, 47)]⟩ := by
    have hinput : instructionAt? nestedLabelCode 2 = some (.branch .hasInput 2 2) := rfl
    have hinner : instructionAt? nestedLabelCode 9 = some (.branch .isNotFailed 3 3) := rfl
    have houter : instructionAt? nestedLabelCode 18 = some (.branch .isNotFailed 23 3) := rfl
    refine .head (.plain (i := .push .currPos) (by decide) rfl rfl) ?_
    refine .head (.plain (i := .push .currPos) (by decide) rfl rfl) ?_
    refine .head (.yes (by decide) hinput rfl) ?_
    refine .head (.plain (i := .acceptN 1) (by decide) rfl rfl) ?_
    refine .head (.leave (by decide) rfl) ?_
    refine .head (.yes (by decide) hinner rfl) ?_
    refine .head (.plain (i := .wrap 1) (by decide) rfl rfl) ?_
    refine .head (.plain (i := .nip) (by decide) rfl rfl) ?_
    refine .head (.leave (by decide) rfl) ?_
    refine .head (.yes (by decide) houter rfl) ?_
    refine .head (.plain (i := .updateSavedPos) (by decide) rfl rfl) ?_
    exact .refl
  have hcall : instructionAt? nestedLabelCode 22 = some (.call 0 0 [4294967295]) := rfl
  exact ⟨g', eq_ok_of_toOption hg', ⟨s, hs, hcode⟩, _, hpath, by decide, _, hcall, rfl, 4294967295,
    List.mem_singleton_self _, by decide⟩

end Compiled

end PegCompiler
