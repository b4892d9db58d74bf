import PegCompiler.Bytecode.Lowering
import PegCompiler.Proofs.Machine

/-!
# Runs of symbolic code

Symbolic code runs without being written as words: operands name constants by value, rules by name,
and blocks are nested. `Reaches` says that a run comes to an end in a state of some kind; runs are
put together instruction by instruction and block by block.
-/

namespace PegCompiler

/-- The offset that a word stands for once the operand is written. -/
def Operand.offset? : Operand → Option Nat
  | offset d => some (UInt32.ofInt d).toNat
  | _ => none

/-- The offset of `slot` below the top of `height` slots as it is read back. -/
def writtenOffset (height slot : Nat) : Nat :=
  (UInt32.ofInt ((height : Int) - 1 - slot)).toNat

/-- The offset of one of the `n` slots on top is less than `n`, however it is written. -/
theorem writtenOffset_lt {height slot n : Nat} (h : height ≤ slot + n) (h' : slot < height) :
    writtenOffset height slot < n := by
  rw [writtenOffset, UInt32.ofInt, UInt32.toNat_ofNat']
  omega

theorem mapM_offset? (height : Nat) (slots : List Nat) :
    (slots.map (offsetFrom height)).mapM Operand.offset? =
      some (slots.map (writtenOffset height)) := by
  induction slots with
  | nil => rfl
  | cons slot slots ih =>
      rw [List.map_cons, List.mapM_cons, ih]
      rfl

/-- The effect of a symbolic instruction without blocks. -/
def Effect.ofOp? : Opcode → List Operand → Option Effect
  | .pushEmptyString, [] => some (.push .emptyString)
  | .pushUndefined, [] => some (.push .undefined)
  | .pushNull, [] => some (.push .null)
  | .pushFailed, [] => some (.push .failed)
  | .pushEmptyArray, [] => some (.push .emptyArray)
  | .pushCurrPos, [] => some (.push .currPos)
  | .pop, [] => some .pop
  | .popCurrPos, [] => some .popCurrPos
  | .popN, [.count n] => some (.popN n)
  | .nip, [] => some .nip
  | .append, [] => some .append
  | .wrap, [.count n] => some (.wrap n)
  | .text, [] => some .text
  | .pluck, .count n :: .count k :: offsets =>
      if k = offsets.length then (offsets.mapM Operand.offset?).map (.pluck n) else none
  | .acceptN, [.count n] => some (.acceptN n)
  | .acceptString, [.symbol (.literal value)] => some (.acceptString value)
  | .fail, [.symbol (.expectation e)] => some (.fail e)
  | .loadSavedPos, [.count n] => some (.loadSavedPos n)
  | .updateSavedPos, [] => some .updateSavedPos
  | .call, .symbol (.function f) :: .count n :: .count k :: offsets =>
      if k = offsets.length then (offsets.mapM Operand.offset?).map (.call f n) else none
  | .silentFailsOn, [] => some .silentFailsOn
  | .silentFailsOff, [] => some .silentFailsOff
  | _, _ => none

/-- The condition of a symbolic branch. -/
def Condition.ofTest? : Opcode → List Operand → Option Condition
  | .ifTrue, [] => some .isTrue
  | .ifError, [] => some .isFailed
  | .ifNotError, [] => some .isNotFailed
  | .matchAny, [] => some .hasInput
  | .matchString, [.symbol (.literal value)] => some (.hasLiteral value)
  | .matchStringIc, [.symbol (.literal value)] => some (.hasLiteralIgnoringCase value)
  | .matchCharClass, [.symbol (.charClass set)] => some (.hasClass set)
  | _, _ => none

section

variable {α : Type} (σ : Setting) (h : Host α) (rules : List Rule)

/-- A run of symbolic code from one state to another. -/
inductive Exec : List Instr → State α → State α → Prop where
  | nil {s : State α} : Exec [] s s
  | op {code : Opcode} {operands : List Operand} {rest : List Instr} {effect : Effect}
      {s t u : State α} (heffect : Effect.ofOp? code operands = some effect)
      (happly : effect.apply σ h s = some t) (hrest : Exec rest t u) :
      Exec (.op code operands :: rest) s u
  | rule {ref : RuleRef} {rest : List Instr} {r : Rule} {v : Value α} {s t u : State α}
      (hr : findRule? rules ref.name = some r)
      (hbody : Exec r.lower.code { s with stack := [] } t) (ht : t.stack = [v])
      (hrest : Exec rest { t with stack := v :: s.stack } u) :
      Exec (.op .rule [.symbol (.rule ref)] :: rest) s u
  | branch {test : Opcode} {operands : List Operand} {yes no rest : List Instr}
      {condition : Condition} {b : Bool} {s t u : State α}
      (hcondition : Condition.ofTest? test operands = some condition)
      (hb : condition.holds? σ s = some b) (hblock : Exec (if b then yes else no) s t)
      (hrest : Exec rest t u) : Exec (.branch test operands yes no :: rest) s u
  | loopStop {body rest : List Instr} {s u : State α}
      (hs : Condition.isNotFailed.holds? σ s = some false) (hrest : Exec rest s u) :
      Exec (.loop body :: rest) s u
  | loopGo {body rest : List Instr} {s t u : State α}
      (hs : Condition.isNotFailed.holds? σ s = some true) (hbody : Exec body s t)
      (hrest : Exec (.loop body :: rest) t u) : Exec (.loop body :: rest) s u

/-- Whether a run from `s` comes to an end in a state as `P` says. -/
def Reaches (code : List Instr) (s : State α) (P : State α → Prop) : Prop :=
  ∃ t, Exec σ h rules code s t ∧ P t

end

variable {α : Type} {σ : Setting} {h : Host α} {rules : List Rule}

theorem Exec.append {a b : List Instr} {s t u : State α} (ha : Exec σ h rules a s t)
    (hb : Exec σ h rules b t u) : Exec σ h rules (a ++ b) s u := by
  induction ha with
  | nil => exact hb
  | op heffect happly _ ih => exact .op heffect happly (ih hb)
  | rule hr hbody ht _ _ ih => exact .rule hr hbody ht (ih hb)
  | branch hcondition hholds hblock _ _ ih => exact .branch hcondition hholds hblock (ih hb)
  | loopStop hs _ ih => exact .loopStop hs (ih hb)
  | loopGo hs hbody _ _ ih => exact .loopGo hs hbody (ih hb)

namespace Reaches

variable {a b rest : List Instr} {s t : State α} {P Q : State α → Prop} {v w : Value α}
  {vs ws : List (Value α)}

theorem nil (hs : P s) : Reaches σ h rules [] s P :=
  ⟨s, .nil, hs⟩

theorem append (ha : Reaches σ h rules a s P) (hb : ∀ t, P t → Reaches σ h rules b t Q) :
    Reaches σ h rules (a ++ b) s Q := by
  obtain ⟨t, hst, ht⟩ := ha
  obtain ⟨u, htu, hu⟩ := hb t ht
  exact ⟨u, hst.append htu, hu⟩

theorem mono (ha : Reaches σ h rules a s P) (hP : ∀ t, P t → Q t) : Reaches σ h rules a s Q := by
  obtain ⟨t, hst, ht⟩ := ha
  exact ⟨t, hst, hP t ht⟩

theorem op {code : Opcode} {operands : List Operand} {effect : Effect}
    (heffect : Effect.ofOp? code operands = some effect) (happly : effect.apply σ h s = some t)
    (hrest : Reaches σ h rules rest t P) : Reaches σ h rules (.op code operands :: rest) s P := by
  obtain ⟨u, htu, hu⟩ := hrest
  exact ⟨u, .op heffect happly htu, hu⟩

theorem branch {test : Opcode} {operands : List Operand} {yes no : List Instr}
    {condition : Condition} {b : Bool}
    (hcondition : Condition.ofTest? test operands = some condition)
    (hb : condition.holds? σ s = some b)
    (hblock : Reaches σ h rules (if b then yes else no) s P) :
    Reaches σ h rules [.branch test operands yes no] s P := by
  obtain ⟨t, hst, ht⟩ := hblock
  exact ⟨t, .branch hcondition hb hst .nil, ht⟩

theorem condition {outcome : Outcome} {test : Opcode} {operands : List Operand}
    {yes no : List Instr} {condition : Condition} {b : Bool}
    (hcondition : Condition.ofTest? test operands = some condition)
    (hb : condition.holds? σ s = some b) (halways : outcome = .always → b = true)
    (hnever : outcome = .never → b = false)
    (hblock : Reaches σ h rules (if b then yes else no) s P) :
    Reaches σ h rules (PegCompiler.condition outcome test operands yes no) s P := by
  cases outcome with
  | always =>
      obtain rfl := halways rfl
      exact hblock
  | sometimes => exact .branch hcondition hb hblock
  | never =>
      obtain rfl := hnever rfl
      exact hblock

theorem push {code : Opcode} {value : Plain}
    (heffect : Effect.ofOp? code [] = some (.push value))
    (hrest : Reaches σ h rules rest (s.push (value.value s.position)) P) :
    Reaches σ h rules (.op code [] :: rest) s P :=
  op heffect rfl hrest

theorem pop (hs : s.stack = v :: vs) (hrest : Reaches σ h rules rest { s with stack := vs } P) :
    Reaches σ h rules (.op .pop [] :: rest) s P :=
  op rfl (by simp only [Effect.apply, hs]) hrest

theorem popCurrPos {p : Nat} (hs : s.stack = .position p :: vs)
    (hrest : Reaches σ h rules rest { s with position := p, stack := vs } P) :
    Reaches σ h rules (.op .popCurrPos [] :: rest) s P :=
  op rfl (by simp only [Effect.apply, hs]) hrest

theorem popN {n : Nat} (hs : s.stack = ws ++ vs) (hn : ws.length = n)
    (hrest : Reaches σ h rules rest { s with stack := vs } P) :
    Reaches σ h rules (.op .popN [.count n] :: rest) s P :=
  op rfl (by simp [Effect.apply, hs, ← hn]) hrest

theorem nip (hs : s.stack = v :: w :: vs)
    (hrest : Reaches σ h rules rest { s with stack := v :: vs } P) :
    Reaches σ h rules (.op .nip [] :: rest) s P :=
  op rfl (by simp only [Effect.apply, hs]) hrest

theorem arrayAppend (hs : s.stack = v :: .array ws :: vs)
    (hrest : Reaches σ h rules rest { s with stack := .array (ws ++ [v]) :: vs } P) :
    Reaches σ h rules (.op .append [] :: rest) s P :=
  op rfl (by simp only [Effect.apply, hs]) hrest

theorem silentFailsOn
    (hrest : Reaches σ h rules rest { s with silentFails := s.silentFails + 1 } P) :
    Reaches σ h rules (.op .silentFailsOn [] :: rest) s P :=
  op rfl rfl hrest

theorem silentFailsOff
    (hrest : Reaches σ h rules rest { s with silentFails := s.silentFails - 1 } P) :
    Reaches σ h rules (.op .silentFailsOff [] :: rest) s P :=
  op rfl rfl hrest

theorem wrap {n : Nat} (hs : s.stack = ws ++ vs) (hn : ws.length = n)
    (hrest : Reaches σ h rules rest { s with stack := .array ws.reverse :: vs } P) :
    Reaches σ h rules (.op .wrap [.count n] :: rest) s P :=
  op rfl (by simp [Effect.apply, State.replace, hs, ← hn]) hrest

theorem loadSavedPos {n p : Nat} (hs : s.stack[n]? = some (.position p))
    (hrest : Reaches σ h rules rest { s with savedPosition := p } P) :
    Reaches σ h rules (.op .loadSavedPos [.count n] :: rest) s P :=
  op rfl (by simp only [Effect.apply, hs]) hrest

theorem text {p : Nat} (hs : s.stack = .position p :: vs)
    (hrest : ∀ cs, Reaches σ h rules rest { s with stack := .text cs :: vs } P) :
    Reaches σ h rules (.op .text [] :: rest) s P := by
  have heffect : Effect.ofOp? .text [] = some .text := rfl
  refine op heffect ?_ (hrest (String.ofList ((σ.input.take s.position).drop p)))
  simp only [Effect.apply, hs]

/-- A call replaces `n` values by the answer, whatever its arguments are. -/
theorem call {f : HostFunction} {n height : Nat} {scope : Scope} (hs : s.stack = ws ++ vs)
    (hn : ws.length = n)
    (hrest : ∀ args, Reaches σ h rules rest
      { s with stack := (if f.predicate then .bool (h.predicate f args s.position)
        else h.action f args s.savedPosition s.position) :: vs } P) :
    Reaches σ h rules (callOf f n height scope :: rest) s P := by
  have heffect : Effect.ofOp? .call ([.symbol (.function f), .count n, .count scope.slots.length] ++
      scope.slots.map (offsetFrom height)) =
      some (.call f n (scope.slots.map (writtenOffset height))) := by
    simp only [Effect.ofOp?, List.cons_append, List.nil_append, mapM_offset?, List.length_map,
      if_true, Option.map_some]
  refine op heffect ?_ (hrest ((scope.slots.map (writtenOffset height)).map fun o =>
    s.stack[o]?.getD .undefined))
  simp [Effect.apply, State.replace, hs, ← hn]

theorem pluck {n height : Nat} {slots : List Nat} (hs : s.stack = ws ++ vs) (hn : ws.length = n)
    (hslots : ∀ slot ∈ slots, ∃ v, s.stack[writtenOffset height slot]? = some v ∧ v ≠ .failed)
    (hrest : ∀ v, v ≠ .failed → Reaches σ h rules rest { s with stack := v :: vs } P) :
    Reaches σ h rules
      (.op .pluck ([.count n, .count slots.length] ++ slots.map (offsetFrom height)) :: rest)
      s P := by
  have hpicked : ∃ picked, (slots.map (writtenOffset height)).mapM (s.stack[·]?) = some picked ∧
      ∀ v ∈ picked, v ≠ .failed := by
    clear hrest
    induction slots with
    | nil => exact ⟨[], rfl, by simp⟩
    | cons slot slots ih =>
        obtain ⟨v, hv, hne⟩ := hslots slot (List.mem_cons_self ..)
        obtain ⟨picked, hpicked, hall⟩ :=
          ih fun slot' h' => hslots slot' (List.mem_cons_of_mem _ h')
        refine ⟨v :: picked, ?_, List.forall_mem_cons.mpr ⟨hne, hall⟩⟩
        rw [List.map_cons, List.mapM_cons, hv, hpicked]
        rfl
  obtain ⟨picked, hpicked, hall⟩ := hpicked
  have heffect : Effect.ofOp? .pluck ([.count n, .count slots.length] ++
      slots.map (offsetFrom height)) = some (.pluck n (slots.map (writtenOffset height))) := by
    simp only [Effect.ofOp?, List.cons_append, List.nil_append, mapM_offset?, List.length_map,
      if_true, Option.map_some]
  refine op heffect ?_ (hrest (Value.ofList picked) ?_)
  · have hlen : n ≤ s.stack.length := by simp [hs, ← hn]
    have hdrop : s.stack.drop n = vs := by simp [hs, ← hn]
    rw [Effect.apply, if_pos hlen, hpicked, Option.map_some, State.replace, hdrop]
  · cases picked with
    | nil => simp [Value.ofList]
    | cons v picked =>
        cases picked with
        | nil => exact hall v (List.mem_singleton.mpr rfl)
        | cons w picked => simp [Value.ofList]

end Reaches

end PegCompiler
