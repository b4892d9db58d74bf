import PegCompiler.Proofs.Calls
import PegCompiler.Proofs.Words

/-!
# Recorded runs of symbolic code

Symbolic code runs with a record of its calls, and `Achieves` says what holds behind such a run.
There is one rule for each instruction, with the very values that it leaves. The words of the code
have the same run, and so have they without a record.
-/

namespace PegCompiler

section

variable {α : Type} (σ : Setting) (h : Host α) (rules : List Rule)

/-- A run of symbolic code from one recorded state to another. -/
inductive Performs : List Instr → Recorded α → Recorded α → Prop where
  | nil {s : Recorded α} : Performs [] s s
  | op {code : Opcode} {operands : List Operand} {rest : List Instr} {effect : Effect}
      {s t u : Recorded α} (heffect : Effect.ofOp? code operands = some effect)
      (hrecord : effect.record σ h s = some t) (hrest : Performs rest t u) :
      Performs (.op code operands :: rest) s u
  | rule {ref : RuleRef} {rest : List Instr} {r : Rule} {v : Value α} {s t u : Recorded α}
      (hr : findRule? rules ref.name = some r)
      (hbody : Performs r.lower.code { s with stack := [] } t) (ht : t.stack = [v])
      (hrest : Performs rest { t with stack := v :: s.stack } u) :
      Performs (.op .rule [.symbol (.rule ref)] :: rest) s u
  | branch {test : Opcode} {operands : List Operand} {yes no rest : List Instr}
      {condition : Condition} {b : Bool} {s t u : Recorded α}
      (hcondition : Condition.ofTest? test operands = some condition)
      (hb : condition.holds? σ s.toState = some b) (hblock : Performs (if b then yes else no) s t)
      (hrest : Performs rest t u) : Performs (.branch test operands yes no :: rest) s u
  | loopStop {body rest : List Instr} {s u : Recorded α}
      (hs : Condition.isNotFailed.holds? σ s.toState = some false) (hrest : Performs rest s u) :
      Performs (.loop body :: rest) s u
  | loopGo {body rest : List Instr} {s t u : Recorded α}
      (hs : Condition.isNotFailed.holds? σ s.toState = some true) (hbody : Performs body s t)
      (hrest : Performs (.loop body :: rest) t u) : Performs (.loop body :: rest) s u

/-- Whether a recorded run from `s` comes to an end in a state as `P` says. -/
def Achieves (code : List Instr) (s : Recorded α) (P : Recorded α → Prop) : Prop :=
  ∃ t, Performs σ h rules code s t ∧ P t

end

variable {α : Type} {σ : Setting} {h : Host α} {rules : List Rule}

theorem Performs.append {a b : List Instr} {s t u : Recorded α} (ha : Performs σ h rules a s t)
    (hb : Performs σ h rules b t u) : Performs σ h rules (a ++ b) s u := by
  induction ha with
  | nil => exact hb
  | op heffect hrecord _ ih => exact .op heffect hrecord (ih hb)
  | rule hr hbody ht _ _ ih => exact .rule hr hbody ht (ih hb)
  | branch hcondition hholds hblock _ _ ih => exact .branch hcondition hholds hblock (ih hb)
  | loopStop hs _ ih => exact .loopStop hs (ih hb)
  | loopGo hs hbody _ _ ih => exact .loopGo hs hbody (ih hb)

namespace Achieves

variable {a b rest : List Instr} {s t : Recorded α} {P Q : Recorded α → Prop} {v w : Value α}
  {vs ws : List (Value α)}

theorem nil (hs : P s) : Achieves σ h rules [] s P :=
  ⟨s, .nil, hs⟩

theorem append (ha : Achieves σ h rules a s P) (hb : ∀ t, P t → Achieves σ h rules b t Q) :
    Achieves σ h rules (a ++ b) s Q := by
  obtain ⟨t, hst, ht⟩ := ha
  obtain ⟨u, htu, hu⟩ := hb t ht
  exact ⟨u, hst.append htu, hu⟩

theorem mono (ha : Achieves σ h rules a s P) (hP : ∀ t, P t → Q t) : Achieves σ h rules a s Q := by
  obtain ⟨t, hst, ht⟩ := ha
  exact ⟨t, hst, hP t ht⟩

theorem op {code : Opcode} {operands : List Operand} {effect : Effect}
    (heffect : Effect.ofOp? code operands = some effect) (hrecord : effect.record σ h s = some t)
    (hrest : Achieves σ h rules rest t P) :
    Achieves σ h rules (.op code operands :: rest) s P := by
  obtain ⟨u, htu, hu⟩ := hrest
  exact ⟨u, .op heffect hrecord htu, hu⟩

theorem branch {test : Opcode} {operands : List Operand} {yes no : List Instr}
    {condition : Condition} {b : Bool}
    (hcondition : Condition.ofTest? test operands = some condition)
    (hb : condition.holds? σ s.toState = some b)
    (hblock : Achieves σ h rules (if b then yes else no) s P) :
    Achieves σ h rules [.branch test operands yes no] s P := by
  obtain ⟨t, hst, ht⟩ := hblock
  exact ⟨t, .branch hcondition hb hst .nil, ht⟩

theorem condition {outcome : Outcome} {test : Opcode} {operands : List Operand}
    {yes no : List Instr} {condition : Condition} {b : Bool}
    (hcondition : Condition.ofTest? test operands = some condition)
    (hb : condition.holds? σ s.toState = some b) (halways : outcome = .always → b = true)
    (hnever : outcome = .never → b = false)
    (hblock : Achieves σ h rules (if b then yes else no) s P) :
    Achieves σ h rules (PegCompiler.condition outcome test operands yes no) s P := by
  cases outcome with
  | always =>
      obtain rfl := halways rfl
      exact hblock
  | sometimes => exact .branch hcondition hb hblock
  | never =>
      obtain rfl := hnever rfl
      exact hblock

theorem push {code : Opcode} {value : Plain}
    (heffect : Effect.ofOp? code [] = some (.push value))
    (hrest : Achieves σ h rules rest
      { s with stack := value.value s.position :: s.stack } P) :
    Achieves σ h rules (.op code [] :: rest) s P :=
  op heffect rfl hrest

theorem pop (hs : s.stack = v :: vs) (hrest : Achieves σ h rules rest { s with stack := vs } P) :
    Achieves σ h rules (.op .pop [] :: rest) s P :=
  op rfl (by simp [Effect.record, Effect.apply, Effect.call?, hs]) hrest

theorem popCurrPos {p : Nat} (hs : s.stack = .position p :: vs)
    (hrest : Achieves σ h rules rest { s with position := p, stack := vs } P) :
    Achieves σ h rules (.op .popCurrPos [] :: rest) s P :=
  op rfl (by simp [Effect.record, Effect.apply, Effect.call?, hs]) hrest

theorem popN {n : Nat} (hs : s.stack = ws ++ vs) (hn : ws.length = n)
    (hrest : Achieves σ h rules rest { s with stack := vs } P) :
    Achieves σ h rules (.op .popN [.count n] :: rest) s P :=
  op rfl (by simp [Effect.record, Effect.apply, Effect.call?, hs, ← hn]) hrest

theorem nip (hs : s.stack = v :: w :: vs)
    (hrest : Achieves σ h rules rest { s with stack := v :: vs } P) :
    Achieves σ h rules (.op .nip [] :: rest) s P :=
  op rfl (by simp [Effect.record, Effect.apply, Effect.call?, hs]) hrest

theorem arrayAppend (hs : s.stack = v :: .array ws :: vs)
    (hrest : Achieves σ h rules rest { s with stack := .array (ws ++ [v]) :: vs } P) :
    Achieves σ h rules (.op .append [] :: rest) s P :=
  op rfl (by simp [Effect.record, Effect.apply, Effect.call?, hs]) hrest

theorem silentFailsOn
    (hrest : Achieves σ h rules rest { s with silentFails := s.silentFails + 1 } P) :
    Achieves σ h rules (.op .silentFailsOn [] :: rest) s P :=
  op rfl rfl hrest

theorem silentFailsOff
    (hrest : Achieves σ h rules rest { s with silentFails := s.silentFails - 1 } P) :
    Achieves σ h rules (.op .silentFailsOff [] :: rest) s P :=
  op rfl rfl hrest

theorem wrap {n : Nat} (hs : s.stack = ws ++ vs) (hn : ws.length = n)
    (hrest : Achieves σ h rules rest { s with stack := .array ws.reverse :: vs } P) :
    Achieves σ h rules (.op .wrap [.count n] :: rest) s P :=
  op rfl (by simp [Effect.record, Effect.apply, Effect.call?, State.replace, hs, ← hn]) hrest

theorem loadSavedPos {n p : Nat} (hs : s.stack[n]? = some (.position p))
    (hrest : Achieves σ h rules rest { s with savedPosition := p } P) :
    Achieves σ h rules (.op .loadSavedPos [.count n] :: rest) s P :=
  op rfl (by simp [Effect.record, Effect.apply, Effect.call?, hs]) hrest

theorem text {p : Nat} (hs : s.stack = .position p :: vs)
    (hrest : Achieves σ h rules rest
      { s with stack := .text (String.ofList ((σ.input.take s.position).drop p)) :: vs } P) :
    Achieves σ h rules (.op .text [] :: rest) s P :=
  op rfl (by simp [Effect.record, Effect.apply, Effect.call?, hs]) hrest

/-- A call replaces `n` values by the answer for the arguments found in the slots. -/
theorem call {f : HostFunction} {n height : Nat} {scope : Scope} {args : List (Value α)}
    (hs : s.stack = ws ++ vs) (hn : ws.length = n)
    (hargs : scope.slots.map (fun slot =>
      s.stack[writtenOffset height slot]?.getD .undefined) = args)
    (hrest : Achieves σ h rules rest
      { s with
        stack := (if f.predicate then .bool (h.predicate f args s.position)
          else h.action f args s.savedPosition s.position) :: vs
        calls := s.calls ++ [⟨f, args, s.savedPosition, s.position⟩] } P) :
    Achieves σ h rules (callOf f n height scope :: rest) s P := by
  have heffect : Effect.ofOp? .call ([.symbol (.function f), .count n, .count scope.slots.length] ++
      scope.slots.map (offsetFrom height)) =
      some (.call f n (scope.slots.map (writtenOffset height))) := by
    simp only [Effect.ofOp?, List.cons_append, List.nil_append, mapM_offset?, List.length_map,
      if_true, Option.map_some]
  refine op heffect ?_ hrest
  have hargs : (scope.slots.map (writtenOffset height)).map
      (fun o => s.stack[o]?.getD .undefined) = args := by
    rw [List.map_map]
    exact hargs
  simp [Effect.record, Effect.apply, Effect.call?, State.replace, hs, ← hn, ← hargs]

/-- The picked values replace the `n` values on top. -/
theorem pluck {n height : Nat} {slots : List Nat} {picked : List (Value α)}
    (hs : s.stack = ws ++ vs) (hn : ws.length = n)
    (hpicked : slots.mapM (fun slot => s.stack[writtenOffset height slot]?) = some picked)
    (hrest : Achieves σ h rules rest { s with stack := .ofList picked :: vs } P) :
    Achieves σ h rules
      (.op .pluck ([.count n, .count slots.length] ++ slots.map (offsetFrom height)) :: rest)
      s P := by
  have heffect : Effect.ofOp? .pluck ([.count n, .count slots.length] ++
      slots.map (offsetFrom height)) = some (.pluck n (slots.map (writtenOffset height))) := by
    simp only [Effect.ofOp?, List.cons_append, List.nil_append, mapM_offset?, List.length_map,
      if_true, Option.map_some]
  refine op heffect ?_ hrest
  have hlen : n ≤ s.stack.length := by simp [hs, ← hn]
  have hdrop : s.stack.drop n = vs := by simp [hs, ← hn]
  have hpicked : (slots.map (writtenOffset height)).mapM (s.stack[·]?) = some picked := by
    rw [List.mapM_map]
    exact hpicked
  simp [Effect.record, Effect.apply, Effect.call?, hlen, hpicked, State.replace, hdrop]

theorem loop_stop {body : List Instr} (hs : s.stack = .failed :: vs) (hP : P s) :
    Achieves σ h rules [.loop body] s P :=
  ⟨s, .loopStop (by simp [Condition.holds?, hs, Value.isFailed]) .nil, hP⟩

theorem appendLoop {body : List Instr} (hs : s.stack = v :: .array ws :: vs) (hv : v ≠ .failed)
    (hbody : Achieves σ h rules body { s with stack := .array (ws ++ [v]) :: vs }
      fun t => Achieves σ h rules [PegCompiler.appendLoop body] t P) :
    Achieves σ h rules [PegCompiler.appendLoop body] s P := by
  have hgo : Condition.isNotFailed.holds? σ s.toState = some true := by
    simp [Condition.holds?, hs, hv]
  have happend : Achieves σ h rules (.op .append [] :: body) s
      fun t => Achieves σ h rules [PegCompiler.appendLoop body] t P := .arrayAppend hs hbody
  obtain ⟨t, hst, u, htu, hu⟩ := happend
  exact ⟨u, .loopGo hgo hst htu, hu⟩

end Achieves

/-! ## Words -/

/-- Words have the recorded run of the symbolic code that they were assembled from. -/
theorem Performs.recordWords {c : Constants}
    (hrules : ∀ r ∈ rules, Instr.Readable c (rules.map (·.name)) r.lower.code)
    {code : List Instr} {s t : Recorded α} (hperforms : Performs σ h rules code s t)
    (hcode : Instr.Readable c (rules.map (·.name)) code) :
    ∃ fuel, PegCompiler.recordWords σ h (assembled c rules) c fuel
      (Instr.listWords c (rules.map (·.name)) code) s = some t := by
  generalize hnames : rules.map (·.name) = names at *
  induction hperforms with
  | nil => exact ⟨1, rfl⟩
  | @op code operands rest effect s t u heffect hrecord _ ih =>
      obtain ⟨fuel, hfuel⟩ := ih hcode.tail
      obtain ⟨i, hdecode, hi⟩ := decode_op 0 (Instr.listWords c names rest) heffect hcode.op
      refine ⟨fuel + 1, ?_⟩
      rw [Instr.listWords, Instr.words, List.cons_append, recordWords_of_decode hdecode,
        Instruction.record_of_effect? hi, hrecord, Option.bind_some, hfuel]
  | @rule ref rest r v s t u hr _ ht _ ihbody ih =>
      obtain ⟨fuel, hbody, hrest⟩ := exists_recordWords_both
        (ihbody (hrules r (mem_of_findRule? hr))) (ih hcode.tail)
      have hcodes := getElem?_assembled (c := c) hr
      have hindex := Operand.toNat_word_symbol (hcode.op _ (List.mem_singleton_self _)).fits
      refine ⟨fuel + 1, ?_⟩
      rw [Instr.listWords, Instr.words, List.cons_append, List.map_singleton,
        List.singleton_append, recordWords_of_decode (decode_rule 0 _ _)]
      rw [Instruction.record]
      rw [hindex, Symbol.index, ← hnames, hcodes, Option.bind_some, hnames]
      rw [Rule.assemble, hbody, Option.bind_some, ht]
      exact hrest
  | @branch test operands yes no rest condition b s t u hcondition hb _ _ ihblock ih =>
      have hblockReadable : Instr.Readable c names (if b then yes else no) := by
        cases b
        · exact hcode.no
        · exact hcode.yes
      obtain ⟨fuel, hblock, hrest⟩ := exists_recordWords_both (ihblock hblockReadable)
        (ih hcode.tail)
      obtain ⟨i, hdecode, hi⟩ := decode_branch 0 (Instr.listWords c names yes ++
        (Instr.listWords c names no ++ Instr.listWords c names rest)) hcondition hcode.test
        hcode.yes.length_lt hcode.no.length_lt
      have hlen := not_length_blocks_lt (Instr.listWords c names yes)
        (Instr.listWords c names no) (Instr.listWords c names rest)
      refine ⟨fuel + 1, ?_⟩
      rw [Instr.listWords_branch, recordWords_of_decode hdecode, Instruction.record, if_neg hlen,
        hi, Option.bind_some, hb, Option.bind_some, take_blocks, drop_blocks, ← apply_ite, hblock,
        Option.bind_some, hrest]
  | @loopStop body rest s u hs _ ih =>
      obtain ⟨fuel, hrest⟩ := ih hcode.tail
      refine ⟨fuel + 1, ?_⟩
      have hlen := not_length_block_lt (Instr.listWords c names body)
        (Instr.listWords c names rest)
      rw [Instr.listWords_loop, recordWords_of_decode (decode_loop 0 _ hcode.body.length_lt),
        Instruction.record, if_neg hlen, hs, Option.bind_some, if_neg Bool.false_ne_true,
        List.drop_left, hrest]
  | @loopGo body rest s t u hs _ _ ihbody ih =>
      obtain ⟨fuel, hbody, hrest⟩ := exists_recordWords_both (ihbody hcode.body) (ih hcode)
      refine ⟨fuel + 1, ?_⟩
      have hlen := not_length_block_lt (Instr.listWords c names body)
        (Instr.listWords c names rest)
      rw [Instr.listWords_loop] at hrest ⊢
      rw [recordWords_of_decode (decode_loop 0 _ hcode.body.length_lt), Instruction.record,
        if_neg hlen, hs, Option.bind_some, if_pos rfl, List.take_left, hbody, Option.bind_some,
        hrest]

/-- A run leaves some record behind. -/
theorem Exec.exists_performs {code : List Instr} {s t : State α} (hexec : Exec σ h rules code s t)
    (calls : List (Call α)) :
    ∃ calls', Performs σ h rules code ⟨s, calls⟩ ⟨t, calls'⟩ := by
  induction hexec generalizing calls with
  | nil => exact ⟨calls, .nil⟩
  | @op code operands rest effect s t u heffect happly _ ih =>
      obtain ⟨calls', hrest⟩ := ih ((effect.call? s).elim calls (calls ++ [·]))
      exact ⟨calls', .op heffect (by rw [Effect.record, happly, Option.map_some]) hrest⟩
  | rule hr _ ht _ ihbody ih =>
      obtain ⟨between, hbody⟩ := ihbody calls
      obtain ⟨calls', hrest⟩ := ih between
      exact ⟨calls', .rule hr hbody ht hrest⟩
  | branch hcondition hb _ _ ihblock ih =>
      obtain ⟨between, hblock⟩ := ihblock calls
      obtain ⟨calls', hrest⟩ := ih between
      exact ⟨calls', .branch hcondition hb hblock hrest⟩
  | loopStop hs _ ih =>
      obtain ⟨calls', hrest⟩ := ih calls
      exact ⟨calls', .loopStop hs hrest⟩
  | loopGo hs _ _ ihbody ih =>
      obtain ⟨between, hbody⟩ := ihbody calls
      obtain ⟨calls', hrest⟩ := ih between
      exact ⟨calls', .loopGo hs hbody hrest⟩

/-- Words run as the symbolic code does that they were assembled from. -/
theorem Exec.runWords {c : Constants}
    (hrules : ∀ r ∈ rules, Instr.Readable c (rules.map (·.name)) r.lower.code)
    {code : List Instr} {s t : State α} (hexec : Exec σ h rules code s t)
    (hcode : Instr.Readable c (rules.map (·.name)) code) :
    ∃ fuel, PegCompiler.runWords σ h (assembled c rules) c fuel
      (Instr.listWords c (rules.map (·.name)) code) s = some t := by
  obtain ⟨calls, hperforms⟩ := hexec.exists_performs []
  obtain ⟨fuel, hfuel⟩ := hperforms.recordWords hrules hcode
  refine ⟨fuel, ?_⟩
  rw [← map_recordWords fuel _ ⟨s, []⟩, hfuel, Option.map_some]

end PegCompiler
