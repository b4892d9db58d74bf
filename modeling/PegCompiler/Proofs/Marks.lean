import PegCompiler.Proofs.Blocks

/-!
# Failure marks

What is known of a stack before a run is which of its slots hold the failure mark, as far as the
code and the outcomes of the rules tell. `MayRun` follows code in that knowledge alone: a test of
the input may turn out either way, a rule may fail unless it always matches. The runs of the machine
are among these.
-/

namespace PegCompiler

/-- Which slots hold the failure mark behind the effect. Host functions do not answer with it. -/
def Effect.marks : Effect → List Bool → Option (List Bool)
  | push .failed, fs => some (true :: fs)
  | push _, fs => some (false :: fs)
  | pop, _ :: fs => some fs
  | popCurrPos, _ :: fs => some fs
  | popN n, fs => if n ≤ fs.length then some (fs.drop n) else none
  | nip, f :: _ :: fs => some (f :: fs)
  | append, _ :: _ :: fs => some (false :: fs)
  | wrap n, fs => if n ≤ fs.length then some (false :: fs.drop n) else none
  | text, _ :: fs => some (false :: fs)
  | pluck n [o], fs => if n ≤ fs.length then some (fs[o]?.getD false :: fs.drop n) else none
  | pluck n _, fs => if n ≤ fs.length then some (false :: fs.drop n) else none
  | acceptN _, fs => some (false :: fs)
  | acceptString _, fs => some (false :: fs)
  | fail _, fs => some (true :: fs)
  | loadSavedPos _, fs => some fs
  | updateSavedPos, fs => some fs
  | call _ n _, fs => if n ≤ fs.length then some (false :: fs.drop n) else none
  | silentFailsOn, fs => some fs
  | silentFailsOff, fs => some fs
  | _, _ => none

/-- Whether a condition may have the answer `b`. -/
def Condition.Allows : Condition → List Bool → Bool → Prop
  | isFailed, f :: _, b => b = f
  | isNotFailed, f :: _, b => b = !f
  | isTrue, f :: _, b => b = true → f = false
  | isFailed, [], _ => False
  | isNotFailed, [], _ => False
  | isTrue, [], _ => False
  | _, _, _ => True

/-- Whether the outcome of a rule allows that it fails, or that it does not. -/
def Rule.Allows (r : Rule) (failed : Bool) : Prop :=
  (r.outcome = some .always → failed = false) ∧ (r.outcome = some .never → failed = true)

/-- Whether a run of symbolic code may lead from a stack with failure marks as in the first list to
one as in the second. -/
inductive MayRun (rules : List Rule) : List Instr → List Bool → List Bool → Prop where
  | nil {fs : List Bool} : MayRun rules [] fs fs
  | op {code : Opcode} {operands : List Operand} {rest : List Instr} {effect : Effect}
      {fs gs hs : List Bool} (heffect : Effect.ofOp? code operands = some effect)
      (hmarks : effect.marks fs = some gs) (hrest : MayRun rules rest gs hs) :
      MayRun rules (.op code operands :: rest) fs hs
  | rule {ref : RuleRef} {rest : List Instr} {r : Rule} {failed : Bool} {fs hs : List Bool}
      (hr : findRule? rules ref.name = some r) (hallows : r.Allows failed)
      (hrest : MayRun rules rest (failed :: fs) hs) :
      MayRun rules (.op .rule [.symbol (.rule ref)] :: rest) fs hs
  | branch {test : Opcode} {operands : List Operand} {yes no rest : List Instr}
      {condition : Condition} {b : Bool} {fs gs hs : List Bool}
      (hcondition : Condition.ofTest? test operands = some condition)
      (hb : condition.Allows fs b) (hblock : MayRun rules (if b then yes else no) fs gs)
      (hrest : MayRun rules rest gs hs) :
      MayRun rules (.branch test operands yes no :: rest) fs hs
  | loopStop {body rest : List Instr} {fs hs : List Bool}
      (hstop : Condition.isNotFailed.Allows fs false)
      (hrest : MayRun rules rest fs hs) : MayRun rules (.loop body :: rest) fs hs
  | loopGo {body rest : List Instr} {fs gs hs : List Bool}
      (hgo : Condition.isNotFailed.Allows fs true)
      (hbody : MayRun rules body fs gs) (hrest : MayRun rules (.loop body :: rest) gs hs) :
      MayRun rules (.loop body :: rest) fs hs

/-- There is an answer to a condition on any value. -/
theorem Condition.exists_allows (condition : Condition) (f : Bool) (fs : List Bool) :
    ∃ answer, condition.Allows (f :: fs) answer := by
  cases condition with
  | isTrue => exact ⟨false, nofun⟩
  | isFailed => exact ⟨f, rfl⟩
  | isNotFailed => exact ⟨!f, rfl⟩
  | _ => exact ⟨true, trivial⟩

variable {rules : List Rule}

namespace MayRun

variable {a b rest yes no : List Instr} {code test : Opcode} {operands : List Operand}
  {condition : Condition} {outcome : Outcome} {fs gs hs vs : List Bool}

theorem append (ha : MayRun rules a fs gs) (hb : MayRun rules b gs hs) :
    MayRun rules (a ++ b) fs hs := by
  induction ha with
  | nil => exact hb
  | op heffect hmarks _ ih => exact .op heffect hmarks (ih hb)
  | rule hr hallows _ ih => exact .rule hr hallows (ih hb)
  | branch hcondition hallows hblock _ _ ih => exact .branch hcondition hallows hblock (ih hb)
  | loopStop hstop _ ih => exact .loopStop hstop (ih hb)
  | loopGo hgo hbody _ _ ih => exact .loopGo hgo hbody (ih hb)

theorem branchOf {answer : Bool} (hcondition : Condition.ofTest? test operands = some condition)
    (hallows : condition.Allows fs answer)
    (hblock : MayRun rules (if answer then yes else no) fs gs) :
    MayRun rules [.branch test operands yes no] fs gs :=
  .branch hcondition hallows hblock .nil

/-- The second block of a test may run unless it has been left away. -/
theorem conditionNo (hcondition : Condition.ofTest? test operands = some condition)
    (hallows : condition.Allows fs false) (houtcome : outcome ≠ .always)
    (hno : MayRun rules no fs gs) :
    MayRun rules (PegCompiler.condition outcome test operands yes no) fs gs := by
  cases outcome with
  | always => exact absurd rfl houtcome
  | sometimes => exact .branchOf hcondition hallows hno
  | never => exact hno

theorem ifNotErrorNo (houtcome : outcome ≠ .always) (hno : MayRun rules no (true :: fs) gs) :
    MayRun rules (PegCompiler.condition outcome .ifNotError [] yes no) (true :: fs) gs :=
  have hallows : Condition.isNotFailed.Allows (true :: fs) false := rfl
  .conditionNo rfl hallows houtcome hno

/-- One of the blocks of a test of the top may run. -/
theorem exists_block {f : Bool} (hcondition : Condition.ofTest? test operands = some condition) :
    ∃ answer : Bool, ∀ gs, MayRun rules (if answer then yes else no) (f :: fs) gs →
      MayRun rules (PegCompiler.condition outcome test operands yes no) (f :: fs) gs := by
  obtain ⟨answer, hallows⟩ := Condition.exists_allows condition f fs
  cases outcome with
  | always => exact ⟨true, fun _ => id⟩
  | never => exact ⟨false, fun _ => id⟩
  | sometimes => exact ⟨answer, fun _ => .branchOf hcondition hallows⟩

theorem exists_condition {f : Bool} (hcondition : Condition.ofTest? test operands = some condition)
    (hyes : ∃ b, MayRun rules yes (f :: fs) (b :: gs))
    (hno : ∃ b, MayRun rules no (f :: fs) (b :: gs)) :
    ∃ b, MayRun rules (PegCompiler.condition outcome test operands yes no) (f :: fs) (b :: gs) := by
  obtain ⟨answer, hblock⟩ := exists_block hcondition
  cases answer with
  | true => exact hyes.imp fun _ => hblock _
  | false => exact hno.imp fun _ => hblock _

/-- Both blocks of a test of the top lead to the same stack. -/
theorem conditionOf {f : Bool} (hcondition : Condition.ofTest? test operands = some condition)
    (hyes : MayRun rules yes (f :: fs) gs) (hno : MayRun rules no (f :: fs) gs) :
    MayRun rules (PegCompiler.condition outcome test operands yes no) (f :: fs) gs := by
  obtain ⟨answer, hblock⟩ := exists_block hcondition
  cases answer with
  | true => exact hblock _ hyes
  | false => exact hblock _ hno

/-- The next alternative is tried behind a failure. -/
theorem orElse (hrest : MayRun rules rest fs gs) :
    MayRun rules [PegCompiler.orElse rest] (true :: fs) gs :=
  have hallows : Condition.isFailed.Allows (true :: fs) true := rfl
  .branchOf rfl hallows (.op rfl rfl hrest)

theorem orElseNot : MayRun rules [PegCompiler.orElse rest] (false :: fs) (false :: fs) :=
  have hallows : Condition.isFailed.Allows (false :: fs) false := rfl
  .branchOf rfl hallows .nil

theorem exists_append (ha : ∃ b, MayRun rules a fs (b :: gs))
    (hb : ∀ b, ∃ c, MayRun rules rest (b :: gs) (c :: hs)) :
    ∃ c, MayRun rules (a ++ rest) fs (c :: hs) := by
  obtain ⟨b, ha⟩ := ha
  obtain ⟨c, hb⟩ := hb b
  exact ⟨c, ha.append hb⟩

theorem exists_op {effect : Effect} (heffect : Effect.ofOp? code operands = some effect)
    (hmarks : effect.marks fs = some gs) (hrest : ∃ b, MayRun rules rest gs (b :: hs)) :
    ∃ b, MayRun rules (.op code operands :: rest) fs (b :: hs) :=
  hrest.imp fun _ => .op heffect hmarks

theorem nip (failed f : Bool) (fs : List Bool) :
    MayRun rules [.op .nip []] (failed :: f :: fs) (failed :: fs) :=
  .op rfl rfl .nil

theorem dropTop {n : Nat} (hvs : vs.length = n) (hrest : MayRun rules rest fs gs) :
    MayRun rules (PegCompiler.dropTop n :: rest) (vs ++ fs) gs := by
  unfold PegCompiler.dropTop
  split
  · next hn =>
      obtain ⟨v, rfl⟩ := List.length_eq_one_iff.mp (hvs.trans hn)
      exact .op rfl rfl hrest
  · refine .op rfl ?_ hrest
    simp [Effect.marks, ← hvs]

theorem callOf {f : HostFunction} {n height : Nat} {s : Scope} (hvs : vs.length = n)
    (hrest : MayRun rules rest (false :: fs) gs) :
    MayRun rules (PegCompiler.callOf f n height s :: rest) (vs ++ fs) gs := by
  have heffect : Effect.ofOp? .call ([.symbol (.function f), .count n, .count s.slots.length] ++
      s.slots.map (offsetFrom height)) =
      some (.call f n (s.slots.map (writtenOffset height))) := by
    simp only [Effect.ofOp?, List.cons_append, List.nil_append, mapM_offset?, List.length_map,
      if_true, Option.map_some]
  refine .op heffect ?_ hrest
  simp [Effect.marks, ← hvs]

theorem pluck {n height : Nat} {slots : List Nat} (hvs : vs.length = n) :
    ∃ b, MayRun rules
      [.op .pluck ([.count n, .count slots.length] ++ slots.map (offsetFrom height))]
      (vs ++ fs) (b :: fs) := by
  have heffect : Effect.ofOp? .pluck ([.count n, .count slots.length] ++
      slots.map (offsetFrom height)) = some (.pluck n (slots.map (writtenOffset height))) := by
    simp only [Effect.ofOp?, List.cons_append, List.nil_append, mapM_offset?, List.length_map,
      if_true, Option.map_some]
  have hmarks : ∃ b, (Effect.pluck n (slots.map (writtenOffset height))).marks (vs ++ fs) =
      some (b :: fs) := by
    have hlen : n ≤ (vs ++ fs).length := by simp [← hvs]
    have hdrop : (vs ++ fs).drop n = fs := by simp [← hvs]
    unfold Effect.marks
    split <;> simp_all
  obtain ⟨b, hmarks⟩ := hmarks
  exact ⟨b, .op heffect hmarks .nil⟩

end MayRun

section Machine

variable {α : Type} {σ : Setting} {h : Host α} {s t : State α}

/-- The slots of a stack that hold the failure mark. -/
def State.marks (s : State α) : List Bool :=
  s.stack.map Value.isFailed

theorem State.marks_replace (n : Nat) (v : Value α) :
    (s.replace n v).marks = v.isFailed :: s.marks.drop n := by
  simp [State.marks, State.replace, List.map_drop]

theorem State.length_marks : s.marks.length = s.stack.length :=
  List.length_map _

/-- What is picked holds the failure mark if it is one value that does. -/
theorem Effect.marks_pluck {n : Nat} {offsets : List Nat} {vs : List (Value α)}
    (hn : n ≤ s.stack.length) (hvs : offsets.mapM (s.stack[·]?) = some vs) :
    (Effect.pluck n offsets).marks s.marks =
      some ((Value.ofList vs).isFailed :: s.marks.drop n) := by
  have hlen : n ≤ s.marks.length := State.length_marks ▸ hn
  match offsets with
  | [] =>
      obtain rfl := Option.some.inj hvs
      simp [Effect.marks, hlen, Value.ofList, Value.isFailed]
  | [o] =>
      obtain ⟨v, hv, rfl⟩ : ∃ v, s.stack[o]? = some v ∧ vs = [v] := by
        cases hv : s.stack[o]? with
        | none => simp [hv] at hvs
        | some v => exact ⟨v, rfl, by simpa [hv, eq_comm] using hvs⟩
      rw [Effect.marks, if_pos hlen]
      simp [Value.ofList, State.marks, hv]
  | o :: o' :: os =>
      simp only [List.mapM_cons, Option.pure_def, Option.bind_eq_bind, Option.bind_eq_some_iff,
        Option.some.injEq] at hvs
      obtain ⟨v, -, _, ⟨w, -, ws, -, rfl⟩, rfl⟩ := hvs
      simp [Effect.marks, hlen, Value.ofList, Value.isFailed]

theorem Effect.marks_of_apply (hhost : ∀ f args saved p, h.action f args saved p ≠ .failed)
    {effect : Effect} (happly : effect.apply σ h s = some t) :
    effect.marks s.marks = some t.marks := by
  cases effect with
  | push value =>
      obtain rfl := Option.some.inj happly
      cases value <;> rfl
  | pop | popCurrPos | nip | append | text =>
      simp only [Effect.apply] at happly
      split at happly
      · next hs =>
          obtain rfl := Option.some.inj happly
          simp [Effect.marks, State.marks, hs, Value.isFailed]
      · cases happly
  | popN n =>
      simp only [Effect.apply, Option.ite_none_right_eq_some] at happly
      obtain ⟨hn, ht⟩ := happly
      obtain rfl := Option.some.inj ht
      simp [Effect.marks, State.marks, hn, List.map_drop]
  | wrap n =>
      simp only [Effect.apply, Option.ite_none_right_eq_some] at happly
      obtain ⟨hn, ht⟩ := happly
      obtain rfl := Option.some.inj ht
      rw [Effect.marks, if_pos (State.length_marks ▸ hn), State.marks_replace]
      rfl
  | pluck n offsets =>
      simp only [Effect.apply, Option.ite_none_right_eq_some] at happly
      obtain ⟨hn, ht⟩ := happly
      obtain ⟨vs, hvs, rfl⟩ := Option.map_eq_some_iff.mp ht
      rw [Effect.marks_pluck hn hvs, State.marks_replace]
  | call f n offsets =>
      simp only [Effect.apply, Option.ite_none_right_eq_some] at happly
      obtain ⟨hn, ht⟩ := happly
      obtain rfl := Option.some.inj ht
      rw [Effect.marks, if_pos (State.length_marks ▸ hn), State.marks_replace]
      split
      · rfl
      · rw [Value.isFailed_eq_false.mpr (hhost _ _ _ _)]
  | loadSavedPos offset =>
      simp only [Effect.apply] at happly
      split at happly
      · obtain rfl := Option.some.inj happly
        rfl
      · cases happly
  | _ =>
      obtain rfl := Option.some.inj happly
      rfl

theorem Condition.allows_of_holds {condition : Condition} {b : Bool}
    (hb : condition.holds? σ s = some b) : condition.Allows s.marks b := by
  cases condition with
  | isTrue | isFailed | isNotFailed =>
      obtain ⟨v, hv, rfl⟩ := Option.map_eq_some_iff.mp hb
      obtain ⟨vs, hs⟩ := List.head?_eq_some_iff.mp hv
      cases v <;> simp [Allows, State.marks, hs, Value.isTrue, Value.isFailed]
  | _ => trivial

/-- A run of the machine is among those that are expected of the code, when no host function answers
with the failure mark and the outcomes of the rules are right. -/
theorem Exec.mayRun (hhost : ∀ f args saved p, h.action f args saved p ≠ .failed)
    (hrules : ∀ name r, findRule? rules name = some r → ∀ s t v, Exec σ h rules r.lower.code s t →
      t.stack = [v] → r.Allows v.isFailed) {code : List Instr} {s t : State α}
    (hrun : Exec σ h rules code s t) : MayRun rules code s.marks t.marks := by
  induction hrun with
  | nil => exact .nil
  | op heffect happly _ ih => exact .op heffect (Effect.marks_of_apply hhost happly) ih
  | rule hr hbody ht _ _ ih => exact .rule hr (hrules _ _ hr _ _ _ hbody ht) ih
  | branch hcondition hholds _ _ ihblock ih =>
      exact .branch hcondition (Condition.allows_of_holds hholds) ihblock ih
  | loopStop hs _ ih => exact .loopStop (Condition.allows_of_holds hs) ih
  | loopGo hs _ _ ihbody ih => exact .loopGo (Condition.allows_of_holds hs) ihbody ih

end Machine

end PegCompiler
