import PegCompiler.Proofs.Machine
import PegCompiler.Proofs.Preservation
import PegCompiler.Proofs.Sweeps

/-!
# Counters

The machine counts levels of silence as its instructions tell, and a rule that it calls is generated
code as well. So a run of the code of a rule leaves the counter at what it was, whatever rules it
has called on the way.
-/

namespace PegCompiler

section Runs

variable {α : Type} {σ : Setting} {host : Host α} {rules : List Rule} {c : Constants}

/-- The machine counts as its instructions tell. -/
theorem silentFails_of_apply {i : Instruction} {effect : Effect} {s t : State α}
    (heffect : i.effect? c = some effect) (happly : effect.apply σ host s = some t) :
    t.silentFails = s.silentFails + i.opcode.silence := by
  cases i with
  | branch | loop | rule => cases heffect
  | push value =>
      obtain rfl := Option.some.inj heffect
      obtain rfl := Option.some.inj happly
      cases value <;> exact (Int.add_zero _).symm
  | acceptN | updateSavedPos | silentFailsOn | silentFailsOff =>
      obtain rfl := Option.some.inj heffect
      obtain rfl := Option.some.inj happly
      simp [Instruction.opcode, Opcode.silence, State.push, Int.sub_eq_add_neg]
  | acceptString | fail =>
      obtain ⟨_, -, rfl⟩ := Option.map_eq_some_iff.mp heffect
      obtain rfl := Option.some.inj happly
      exact (Int.add_zero _).symm
  | pop | popCurrPos | nip | append | text | loadSavedPos | popN | wrap =>
      obtain rfl := Option.some.inj heffect
      simp only [Effect.apply] at happly
      split at happly
      · obtain rfl := Option.some.inj happly
        exact (Int.add_zero _).symm
      · cases happly
  | pluck n offsets =>
      obtain rfl := Option.some.inj heffect
      simp only [Effect.apply] at happly
      split at happly
      · obtain ⟨vs, -, rfl⟩ := Option.map_eq_some_iff.mp happly
        exact (Int.add_zero _).symm
      · cases happly
  | call f n offsets =>
      obtain ⟨f, -, rfl⟩ := Option.map_eq_some_iff.mp heffect
      simp only [Effect.apply] at happly
      split at happly
      · obtain rfl := Option.some.inj happly
        exact (Int.add_zero _).symm
      · cases happly

/-- Whether words are those of instructions that come back to the level they begin at. -/
def Restful (code : List UInt32) : Prop :=
  ∃ all : List Instruction, code = all.flatMap Instruction.words ∧ Quiet all 0 0 ∧
    ∀ i ∈ all, i.Encodable

variable (hrules : ∀ r ∈ rules, ∀ code, r.bytecode = some code → Restful code)

/-- A run of quiet code changes the counter by the levels between its ends. -/
def RunsQuietly (run : List UInt32 → State α → Option (State α)) : Prop :=
  ∀ ⦃is : List Instruction⦄ ⦃l k : Nat⦄, Quiet is l k → (∀ i ∈ is, i.Encodable) →
    ∀ ⦃s t : State α⦄, run (is.flatMap Instruction.words) s = some t →
      t.silentFails + l = s.silentFails + k

section Steps

variable {run : List UInt32 → State α → Option (State α)} (hruns : RunsQuietly run) {s t : State α}
  {again : List UInt32} {is inYes inNo inBody : List Instruction} {l k m : Nat}

include hruns

include hrules in
theorem RunsQuietly.plain {i : Instruction} (hplain : i.isPlain)
    (hsilence : (k : Int) = l + i.opcode.silence) (hquiet : Quiet is k m)
    (his : ∀ j ∈ is, j.Encodable)
    (hrun : i.run σ host rules c run again (is.flatMap Instruction.words) s = some t) :
    t.silentFails + l = s.silentFails + m := by
  cases i with
  | branch | loop => cases hplain
  | rule index =>
      obtain ⟨code, hfound, hrun⟩ := Option.bind_eq_some_iff.mp hrun
      obtain ⟨r, hr, hcode⟩ := Option.bind_eq_some_iff.mp hfound
      obtain ⟨u, hcalled, hrun⟩ := Option.bind_eq_some_iff.mp hrun
      obtain ⟨all, hwords, hall, hencodable⟩ := hrules r (List.mem_of_getElem? hr) code hcode
      rw [hwords] at hcalled
      have hinside := hruns hall hencodable hcalled
      have hsilence : (k : Int) = l + 0 := hsilence
      split at hrun
      · have hrest := hruns hquiet his hrun
        dsimp only at hinside hrest
        omega
      · cases hrun
  | _ =>
      simp only [Instruction.run] at hrun
      obtain ⟨effect, heffect, hrun⟩ := Option.bind_eq_some_iff.mp hrun
      obtain ⟨u, happly, hrun⟩ := Option.bind_eq_some_iff.mp hrun
      have hhere := silentFails_of_apply heffect happly
      have hrest := hruns hquiet his hrun
      omega

theorem RunsQuietly.branch {test : Test} (hyes : Quiet inYes l l) (hno : Quiet inNo l l)
    (hrest : Quiet is l m) (his : ∀ j ∈ inYes ++ (inNo ++ is), j.Encodable)
    (hrun : (Instruction.branch test (Instruction.totalSize inYes)
      (Instruction.totalSize inNo)).run σ host rules c run again
        ((inYes ++ (inNo ++ is)).flatMap Instruction.words) s = some t) :
    t.silentFails + l = s.silentFails + m := by
  simp only [List.forall_mem_append] at his
  obtain ⟨hinYes, hinNo, hbehind⟩ := his
  simp only [List.flatMap_append, ← Instruction.length_flatMap_words] at hrun
  rw [Instruction.run] at hrun
  split at hrun
  · cases hrun
  · obtain ⟨condition, -, hrun⟩ := Option.bind_eq_some_iff.mp hrun
    obtain ⟨b, -, hrun⟩ := Option.bind_eq_some_iff.mp hrun
    obtain ⟨u, hblock, hrun⟩ := Option.bind_eq_some_iff.mp hrun
    rw [take_blocks] at hblock
    rw [drop_blocks] at hrun
    have hlast := hruns hrest hbehind hrun
    have hfirst : u.silentFails + l = s.silentFails + l := by
      cases b with
      | true => exact hruns hyes hinYes hblock
      | false => exact hruns hno hinNo hblock
    omega

theorem RunsQuietly.loop (hbody : Quiet inBody l l) (hrest : Quiet is l m)
    (his : ∀ j ∈ Instruction.loop (Instruction.totalSize inBody) :: (inBody ++ is), j.Encodable)
    (hrun : (Instruction.loop (Instruction.totalSize inBody)).run σ host rules c run
      ((Instruction.loop (Instruction.totalSize inBody) :: (inBody ++ is)).flatMap
        Instruction.words) ((inBody ++ is).flatMap Instruction.words) s = some t) :
    t.silentFails + l = s.silentFails + m := by
  obtain ⟨hloop, hblocks⟩ := List.forall_mem_cons.mp his
  obtain ⟨hinBody, hbehind⟩ := List.forall_mem_append.mp hblocks
  have hagain := Quiet.loop hbody hrest
  have htake : ((inBody ++ is).flatMap Instruction.words).take (Instruction.totalSize inBody) =
      inBody.flatMap Instruction.words := by
    rw [List.flatMap_append, ← Instruction.length_flatMap_words, List.take_left]
  have hdrop : ((inBody ++ is).flatMap Instruction.words).drop (Instruction.totalSize inBody) =
      is.flatMap Instruction.words := by
    rw [List.flatMap_append, ← Instruction.length_flatMap_words, List.drop_left]
  rw [Instruction.run] at hrun
  split at hrun
  · cases hrun
  · obtain ⟨b, -, hrun⟩ := Option.bind_eq_some_iff.mp hrun
    rw [htake, hdrop] at hrun
    cases b with
    | true =>
        rw [if_pos rfl] at hrun
        obtain ⟨u, hblock, hrun⟩ := Option.bind_eq_some_iff.mp hrun
        have hfirst := hruns hbody hinBody hblock
        have hlast := hruns hagain his hrun
        omega
    | false => exact hruns hrest hbehind hrun

end Steps

include hrules in
theorem runsQuietly_runWords (fuel : Nat) : RunsQuietly (runWords σ host rules c fuel) := by
  induction fuel with
  | zero => exact fun _ _ _ _ _ _ _ hrun => by cases hrun
  | succ fuel ih =>
      intro is l k hquiet his s t hrun
      cases is with
      | nil =>
          cases hquiet
          obtain rfl := Option.some.inj hrun
          rfl
      | cons i is =>
          have hdecode : Instruction.decode 0 i.opcode.value
              (i.operands ++ is.flatMap Instruction.words) =
                .ok (i, is.flatMap Instruction.words) :=
            Instruction.decode_words (his i (List.mem_cons_self ..))
          have hbehind : ∀ j ∈ is, j.Encodable := fun j hj => his j (List.mem_cons_of_mem _ hj)
          have hrun := (runWords_of_decode hdecode s).symm.trans hrun
          cases hquiet with
          | plain hplain hsilence hrest => exact ih.plain hrules hplain hsilence hrest hbehind hrun
          | branch hyes hno hrest => exact ih.branch hyes hno hrest hbehind hrun
          | loop hbody hrest => exact ih.loop hbody hrest his hrun

end Runs

/-! ## Generated code -/

theorem Rule.restful (r : Rule) {c : Constants} {names : List String}
    (hlength : (r.assemble c names).length < UInt32.size) : Restful (r.assemble c names) := by
  obtain ⟨is, -, hcode, hquiet, hencodable⟩ := r.exists_quiet hlength
  exact ⟨is, hcode, hquiet, hencodable⟩

/-- When words can count the code of the rules, each run of it leaves the counter of silence as it
was. -/
theorem runs_restore_silence {g : Grammar} (hrefs : RefsDefined g.rules) :
    ∃ g', g.generate = .ok g' ∧
      ((∀ r ∈ g'.rules, ∀ code, r.bytecode = some code → code.length < UInt32.size) →
        ∀ r ∈ g'.rules, ∀ code, r.bytecode = some code →
          ∀ {α : Type} (σ : Setting) (host : Host α) (fuel : Nat) (s t : State α),
            g'.runCode σ host fuel code s = some t → t.silentFails = s.silentFails) := by
  refine ⟨g.assembled, Grammar.generate_of_refsDefined hrefs, fun hshort => ?_⟩
  have hrestful : ∀ r ∈ g.assembled.rules, ∀ code, r.bytecode = some code → Restful code := by
    intro r hr code hcode
    have hlength := hshort r hr code hcode
    obtain ⟨r, -, rfl⟩ := List.mem_map.mp hr
    obtain rfl := Option.some.inj hcode
    exact r.restful hlength
  intro r hr code hcode α σ host fuel s t hrun
  obtain ⟨all, rfl, hquiet, hencodable⟩ := hrestful r hr code hcode
  obtain ⟨c, -, hrun⟩ := Option.bind_eq_some_iff.mp hrun
  have hcount := runsQuietly_runWords hrestful fuel hquiet hencodable hrun
  omega
end PegCompiler
