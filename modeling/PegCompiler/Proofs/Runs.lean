import PegCompiler.Proofs.Machine
import PegCompiler.Proofs.Paths

/-!
# Runs along paths

What the machine does to its stack is what the paths through its code tell. So a rule whose code has
a listing leaves one value whenever it comes to an end.
-/

namespace PegCompiler

open Relation

section Runs

variable {α : Type} {σ : Setting} {host : Host α} {rules : List Rule} {c : Constants}

theorem length_stack_replace {n : Nat} {v : Value α} {s : State α} (h : n ≤ s.stack.length) :
    ((s.replace n v).stack.length : Int) = s.stack.length - n + 1 := by
  simp only [State.replace, List.length_cons, List.length_drop]
  omega

/-- The machine takes from its stack and puts there as many values as its instructions tell. -/
theorem length_stack_of_apply {i : Instruction} {effect : Effect} {s t : State α}
    (heffect : i.effect? c = some effect) (happly : effect.apply σ host s = some t) :
    (t.stack.length : Int) = s.stack.length - i.pops + i.pushes := by
  cases i with
  | branch | loop | rule => cases heffect
  | push | acceptN | updateSavedPos | silentFailsOn | silentFailsOff =>
      obtain rfl := Option.some.inj heffect
      obtain rfl := Option.some.inj happly
      simp [State.push, Instruction.pops, Instruction.pushes]
  | acceptString | fail =>
      obtain ⟨_, -, rfl⟩ := Option.map_eq_some_iff.mp heffect
      obtain rfl := Option.some.inj happly
      simp [State.push, Instruction.pops, Instruction.pushes]
  | pop | popCurrPos | nip | append | text | loadSavedPos =>
      obtain rfl := Option.some.inj heffect
      simp only [Effect.apply] at happly
      split at happly
      · next hstack =>
          obtain rfl := Option.some.inj happly
          simp only [Instruction.pops, Instruction.pushes, hstack, List.length_cons]
          omega
      · cases happly
  | popN n | wrap n =>
      obtain rfl := Option.some.inj heffect
      simp only [Effect.apply] at happly
      split at happly
      · next hle =>
          obtain rfl := Option.some.inj happly
          simp only [Instruction.pops, Instruction.pushes, State.replace, List.length_cons,
            List.length_drop]
          omega
      · cases happly
  | pluck n offsets =>
      obtain rfl := Option.some.inj heffect
      simp only [Effect.apply] at happly
      split at happly
      · next hle =>
          obtain ⟨vs, -, rfl⟩ := Option.map_eq_some_iff.mp happly
          exact length_stack_replace hle
      · cases happly
  | call f n offsets =>
      obtain ⟨f, -, rfl⟩ := Option.map_eq_some_iff.mp heffect
      simp only [Effect.apply] at happly
      split at happly
      · next hle =>
          obtain rfl := Option.some.inj happly
          exact length_stack_replace hle
      · cases happly

theorem exists_run_of_plain {run : List UInt32 → State α → Option (State α)}
    {again left : List UInt32} {i : Instruction} {s t : State α} (hplain : i.isPlain)
    (hrun : i.run σ host rules c run again left s = some t) :
    ∃ u : State α, (u.stack.length : Int) = s.stack.length - i.pops + i.pushes ∧
      run left u = some t := by
  cases i with
  | branch | loop => cases hplain
  | rule index =>
      obtain ⟨code, -, hrun⟩ := Option.bind_eq_some_iff.mp hrun
      obtain ⟨u, -, hrun⟩ := Option.bind_eq_some_iff.mp hrun
      split at hrun
      · exact ⟨_, by simp [Instruction.pops, Instruction.pushes], hrun⟩
      · cases hrun
  | _ =>
      simp only [Instruction.run] at hrun
      obtain ⟨effect, heffect, hrun⟩ := Option.bind_eq_some_iff.mp hrun
      obtain ⟨u, happly, hrun⟩ := Option.bind_eq_some_iff.mp hrun
      exact ⟨u, length_stack_of_apply heffect happly, hrun⟩

/-- Whether all that `run` runs of the code are paths through it. -/
def RunsAlong (code : List UInt32) (run : List UInt32 → State α → Option (State α)) : Prop :=
  ∀ ⦃first stop : Nat⦄ ⦃s t : State α⦄, run (slice code first stop) s = some t → first ≤ stop →
    stop ≤ code.length → ∀ around, ReflTransGen (Config.Step code)
      ⟨first, s.stack.length, stop, around⟩ ⟨stop, t.stack.length, stop, around⟩

section Blocks

variable {code left : List UInt32} {run : List UInt32 → State α → Option (State α)}
  {first stop : Nat} {s t : State α} (hruns : RunsAlong code run) (hstop : stop ≤ code.length)

include hruns hstop

theorem RunsAlong.branch {test : Test} {yes no next : Nat}
    (hi : instructionAt? code first = some (.branch test yes no))
    (hnext : next = first + (Instruction.branch test yes no).size)
    (hlength : next + (slice code next stop).length = stop) {again : List UInt32}
    (hrun : (Instruction.branch test yes no).run σ host rules c run again (slice code next stop) s =
      some t) (around : List (Nat × Nat)) :
    ReflTransGen (Config.Step code) ⟨first, s.stack.length, stop, around⟩
      ⟨stop, t.stack.length, stop, around⟩ := by
  have hpos := (Instruction.branch test yes no).size_pos
  rw [Instruction.run] at hrun
  split at hrun
  · cases hrun
  · next hlen =>
      obtain ⟨condition, -, hrun⟩ := Option.bind_eq_some_iff.mp hrun
      obtain ⟨b, -, hrun⟩ := Option.bind_eq_some_iff.mp hrun
      obtain ⟨u, hblock, hrest⟩ := Option.bind_eq_some_iff.mp hrun
      rw [drop_slice, ← Nat.add_assoc] at hrest
      have hrest := hruns hrest (by omega) hstop around
      have hleave : ∀ position, Config.Step code
          ⟨position, u.stack.length, position, (next + yes + no, stop) :: around⟩
          ⟨next + yes + no, u.stack.length, stop, around⟩ :=
        fun position => .leave (Nat.le_refl _) rfl
      cases b with
      | true =>
          rw [if_pos rfl, take_slice (by omega)] at hblock
          have hblock := hruns hblock (by omega) (by omega) ((next + yes + no, stop) :: around)
          exact .head (.yes (by dsimp only; omega) hi hnext)
            (hblock.trans (.head (hleave _) hrest))
      | false =>
          rw [if_neg (by decide), drop_slice, take_slice (by omega)] at hblock
          have hblock := hruns hblock (by omega) (by omega) ((next + yes + no, stop) :: around)
          exact .head (.no (by dsimp only; omega) hi hnext)
            (hblock.trans (.head (hleave _) hrest))

theorem RunsAlong.loop {body next : Nat} (hi : instructionAt? code first = some (.loop body))
    (hnext : next = first + (Instruction.loop body).size)
    (hlength : next + (slice code next stop).length = stop)
    (hrun : (Instruction.loop body).run σ host rules c run (slice code first stop)
      (slice code next stop) s = some t) (around : List (Nat × Nat)) :
    ReflTransGen (Config.Step code) ⟨first, s.stack.length, stop, around⟩
      ⟨stop, t.stack.length, stop, around⟩ := by
  have hpos := (Instruction.loop body).size_pos
  rw [Instruction.run] at hrun
  split at hrun
  · cases hrun
  · next hlen =>
      obtain ⟨b, -, hrun⟩ := Option.bind_eq_some_iff.mp hrun
      cases b with
      | true =>
          rw [if_pos rfl] at hrun
          obtain ⟨u, hbody, hagain⟩ := Option.bind_eq_some_iff.mp hrun
          rw [take_slice (by omega)] at hbody
          have hbody := hruns hbody (by omega) (by omega) ((first, stop) :: around)
          have hagain := hruns hagain (by omega) hstop around
          exact .head (.again (by dsimp only; omega) hi hnext)
            (hbody.trans (.head (.leave (Nat.le_refl _) rfl) hagain))
      | false =>
          rw [if_neg (by decide), drop_slice] at hrun
          have hrest := hruns hrun (by omega) hstop around
          exact .head (.past (by dsimp only; omega) hi hnext) hrest

end Blocks

theorem runsAlong_runWords (code : List UInt32) (fuel : Nat) :
    RunsAlong code (runWords σ host rules c fuel) := by
  induction fuel with
  | zero => exact fun first stop s t hrun => by cases hrun
  | succ fuel ih =>
      intro first stop s t hrun hle hstop around
      cases hslice : slice code first stop with
      | nil =>
          rw [hslice] at hrun
          obtain rfl := Option.some.inj hrun
          have hlength := length_slice first hstop
          rw [hslice, List.length_nil] at hlength
          obtain rfl : first = stop := by omega
          exact .refl
      | cons w rest =>
          rw [hslice] at hrun
          cases hdecode : Instruction.decode 0 w rest with
          | error fault => simp [runWords, hdecode] at hrun
          | ok found =>
              obtain ⟨i, left⟩ := found
              rw [runWords_of_decode hdecode, ← hslice] at hrun
              have hdecode : Instruction.decode first w rest = .ok (i, left) := by
                have happend := Instruction.decode_append hdecode first []
                rwa [List.append_nil, List.append_nil] at happend
              have hi := instructionAt?_of_slice hslice hdecode
              obtain ⟨rfl, hlength⟩ := slice_of_decode hslice hdecode hstop
              have hpos := i.size_pos
              obtain hplain | ⟨test, yes, no, rfl⟩ | ⟨body, rfl⟩ := i.plain_or
              · obtain ⟨u, hlen, hrest⟩ := exists_run_of_plain hplain hrun
                have hstep : Config.Step code ⟨first, s.stack.length, stop, around⟩
                    ⟨first + i.size, u.stack.length, stop, around⟩ := by
                  rw [hlen]
                  exact .plain (by dsimp only; omega) hi hplain
                exact .head hstep (ih hrest (by omega) hstop around)
              · exact ih.branch hstop hi rfl hlength hrun around
              · exact ih.loop hstop hi rfl hlength hrun around

/-- Code with a listing leaves one value when it comes to an end. -/
theorem length_stack_of_listed {g : Grammar} {r : Rule} {code : List UInt32} {listing : Listing}
    (hcode : r.bytecode = some code) (hwords : ∀ w ∈ code, w.toNat < signedSize)
    (hlist : g.list r = .ok listing) {fuel : Nat} {s t : State α} (hs : s.stack = [])
    (hrun : runWords σ host rules c fuel code s = some t) : t.stack.length = 1 := by
  obtain ⟨-, heights, hframed, -⟩ := exists_framed_of_list hcode hwords hlist
  have hslice : slice code 0 code.length = code := by
    rw [slice, List.take_length, List.drop_zero]
  rw [← hslice] at hrun
  have hpath := runsAlong_runWords code fuel hrun (Nat.zero_le _) (Nat.le_refl _) []
  rw [hs] at hpath
  obtain ⟨-, hdepth⟩ := (hframed.config_framed hpath).depth_of_end rfl rfl
  exact Int.ofNat.inj hdepth

end Runs

end PegCompiler
