import PegCompiler.Proofs.Preservation
import PegCompiler.Proofs.Sweeps

/-!
# Silence

Failures are reported while a counter is zero. Code raises it before the operand of a predicate or
of a named expression, and lowers it behind. An execution can come to an instruction in many ways,
by either block of a branch and once or often through a loop, but the counter that it comes with
depends on the place of the instruction alone: it is higher than at the beginning by the number of
nodes around that ask for silence.
-/

namespace PegCompiler

/-- How much higher the counter is behind what is done next. At the end of a block that is
nothing. -/
def Config.silence (code : List UInt32) (s : Config) : Int :=
  if s.position < s.stop then
    ((instructionAt? code s.position).map (·.opcode.silence)).getD 0
  else 0

/-- Where executions come to, and the counter there. Rules that are called leave it as it was. -/
inductive Counted (code : List UInt32) (n : Int) : Config → Int → Prop where
  | start : Counted code n (.start code) n
  | step {s t : Config} {m k : Int} (hs : Counted code n s m) (hstep : Config.Step code s t)
      (hcount : k = m + s.silence code) : Counted code n t k

/-- Steps that leave the counter alone can be taken together. -/
theorem Counted.along {code : List UInt32} {n m : Int} {s t : Config} (hs : Counted code n s m)
    (hpath : Relation.ReflTransGen (fun s t => Config.Step code s t ∧ s.silence code = 0) s t) :
    Counted code n t m := by
  induction hpath with
  | refl => exact hs
  | tail _ hstep ih => exact .step ih hstep.1 (by rw [hstep.2, Int.add_zero])

section Silences

variable {code : List UInt32} {s : Config}

theorem Config.silence_of_inside {i : Instruction} (hinside : s.position < s.stop)
    (hi : instructionAt? code s.position = some i) : s.silence code = i.opcode.silence := by
  rw [silence, if_pos hinside, hi]
  rfl

theorem Config.silence_of_end (hend : s.stop ≤ s.position) : s.silence code = 0 :=
  if_neg (Nat.not_lt.mpr hend)

end Silences

/-! ## Places in code -/

/-- Whether `is` stand one behind another in `all`, from a position on and at a level of silence. -/
def Placed (all : List Instruction) (position : Nat) (level : Int) (is : List Instruction) : Prop :=
  ∃ before behind, all = before ++ (is ++ behind) ∧ position = Instruction.totalSize before ∧
    level = netSilence before

namespace Placed

variable {all is js : List Instruction} {i : Instruction} {position : Nat} {level : Int}

theorem refl (is : List Instruction) : Placed is 0 0 is :=
  ⟨[], [], by simp, rfl, rfl⟩

theorem left (h : Placed all position level (is ++ js)) : Placed all position level is := by
  obtain ⟨before, behind, hall, hposition, hlevel⟩ := h
  exact ⟨before, js ++ behind, by rw [hall, List.append_assoc], hposition, hlevel⟩

theorem right (h : Placed all position level (is ++ js)) :
    Placed all (position + Instruction.totalSize is) (level + netSilence is) js := by
  obtain ⟨before, behind, rfl, rfl, rfl⟩ := h
  refine ⟨before ++ is, behind, by simp only [List.append_assoc], ?_, ?_⟩
  · rw [Instruction.totalSize_append]
  · rw [netSilence_append]

theorem tail (h : Placed all position level (i :: is)) :
    Placed all (position + i.size) (level + i.opcode.silence) is := by
  have hright : Placed all (position + Instruction.totalSize [i]) (level + netSilence [i]) is :=
    right h
  rwa [Instruction.totalSize_cons, netSilence_cons, Instruction.totalSize_nil, netSilence_nil,
    Nat.add_zero, Int.add_zero] at hright

theorem mem_marks (h : Placed all position level (i :: is)) :
    ⟨position, i, level⟩ ∈ marks 0 0 all := by
  obtain ⟨before, behind, rfl, rfl, rfl⟩ := h
  rw [marks_append, Nat.zero_add, Int.zero_add]
  exact List.mem_append_right _ (List.mem_cons_self ..)

theorem instructionAt?_eq (h : Placed all position level (i :: is))
    (hencodable : ∀ j ∈ all, j.Encodable) :
    instructionAt? (all.flatMap Instruction.words) position = some i := by
  obtain ⟨before, behind, rfl, rfl, -⟩ := h
  have hi : i.Encodable := hencodable i (by simp)
  have hdrop : ((before ++ (i :: is ++ behind)).flatMap Instruction.words).drop
      (Instruction.totalSize before) =
        i.opcode.value :: (i.operands ++ (is ++ behind).flatMap Instruction.words) := by
    rw [List.flatMap_append, ← Instruction.length_flatMap_words, List.drop_left]
    rfl
  rw [instructionAt?, hdrop]
  simp only [Instruction.decode_words hi]

section Blocks

variable {next yes no l : Nat} {inYes inNo inBody : List Instruction}

/-- The blocks of a branch, and what stands behind it, are as silent as the branch. -/
theorem branch {test : Test}
    (h : Placed all position l (.branch test yes no :: (inYes ++ (inNo ++ is))))
    (hnext : next = position + (Instruction.branch test yes no).size) (hyes : Quiet inYes l l)
    (hno : Quiet inNo l l) :
    Placed all next l inYes ∧ Placed all (next + Instruction.totalSize inYes) l inNo ∧
      Placed all (next + Instruction.totalSize inYes + Instruction.totalSize inNo) l is := by
  subst hnext
  have hblocks := h.tail
  rw [silence_opcode_branch, Int.add_zero] at hblocks
  have hbehindYes := hblocks.right
  rw [hyes.netSilence_eq_zero, Int.add_zero] at hbehindYes
  have hbehindNo := hbehindYes.right
  rw [hno.netSilence_eq_zero, Int.add_zero] at hbehindNo
  exact ⟨hblocks.left, hbehindYes.left, hbehindNo⟩

theorem loop (h : Placed all position l (.loop yes :: (inBody ++ is)))
    (hnext : next = position + (Instruction.loop yes).size) (hbody : Quiet inBody l l) :
    Placed all next l inBody ∧ Placed all (next + Instruction.totalSize inBody) l is := by
  subst hnext
  have hblocks := h.tail
  rw [silence_opcode_loop, Int.add_zero] at hblocks
  have hbehind := hblocks.right
  rw [hbody.netSilence_eq_zero, Int.add_zero] at hbehind
  exact ⟨hblocks.left, hbehind⟩

end Blocks

end Placed

/-! ## Executions in a quiet code -/

/-- Whether what stands behind each block comes from one level of silence back to zero. -/
inductive Resumes (all : List Instruction) : Nat → List (Nat × Nat) → Prop where
  | done : Resumes all 0 []
  | behind {is : List Instruction} {next stop l k : Nat} {around : List (Nat × Nat)}
      (hplaced : Placed all next l is) (hquiet : Quiet is l k)
      (hstop : stop = next + Instruction.totalSize is) (hrest : Resumes all k around) :
      Resumes all l ((next, stop) :: around)

/-- What holds wherever an execution is, `l` levels deep in silence. -/
def Config.Stands (all : List Instruction) (s : Config) (l : Nat) : Prop :=
  ∃ is k, Placed all s.position l is ∧ Quiet is l k ∧
    s.stop = s.position + Instruction.totalSize is ∧ Resumes all k s.around

section Standing

variable {all : List Instruction} {s t : Config} {l : Nat} (hs : s.Stands all l)

include hs

/-- Before the end of a block there is an instruction, and the quiet rest of the block behind it. -/
theorem Config.Stands.inside (hencodable : ∀ j ∈ all, j.Encodable)
    (hinside : s.position < s.stop) :
    ∃ i is k, instructionAt? (all.flatMap Instruction.words) s.position = some i ∧
      Placed all s.position l (i :: is) ∧ Quiet (i :: is) l k ∧
        s.stop = s.position + i.size + Instruction.totalSize is ∧ Resumes all k s.around := by
  obtain ⟨is, k, hplaced, hquiet, hstop, hresumes⟩ := hs
  cases is with
  | nil =>
      rw [Instruction.totalSize_nil] at hstop
      omega
  | cons i is =>
      rw [Instruction.totalSize_cons, ← Nat.add_assoc] at hstop
      exact ⟨i, is, k, hplaced.instructionAt?_eq hencodable, hplaced, hquiet, hstop, hresumes⟩

theorem Config.Stands.of_instruction (hencodable : ∀ j ∈ all, j.Encodable)
    (hinside : s.position < s.stop) {i : Instruction}
    (hi : instructionAt? (all.flatMap Instruction.words) s.position = some i) :
    ∃ is k, Placed all s.position l (i :: is) ∧ Quiet (i :: is) l k ∧
      s.stop = s.position + i.size + Instruction.totalSize is ∧ Resumes all k s.around := by
  obtain ⟨j, is, k, hj, hrest⟩ := hs.inside hencodable hinside
  obtain rfl := Option.some.inj (hi.symm.trans hj)
  exact ⟨is, k, hrest⟩

theorem Config.Stands.exists_mark (hencodable : ∀ j ∈ all, j.Encodable)
    (hinside : s.position < s.stop) :
    ∃ i, instructionAt? (all.flatMap Instruction.words) s.position = some i ∧
      ⟨s.position, i, l⟩ ∈ marks 0 0 all := by
  obtain ⟨i, is, k, hi, hplaced, -⟩ := hs.inside hencodable hinside
  exact ⟨i, hi, hplaced.mem_marks⟩

theorem Config.Stands.resumes_of_end (hend : s.stop ≤ s.position) : Resumes all l s.around := by
  obtain ⟨is, k, hplaced, hquiet, hstop, hresumes⟩ := hs
  cases is with
  | nil =>
      cases hquiet
      exact hresumes
  | cons i is =>
      have hpos := i.size_pos
      rw [Instruction.totalSize_cons] at hstop
      omega

theorem Config.Stands.step (hencodable : ∀ j ∈ all, j.Encodable)
    (hstep : Config.Step (all.flatMap Instruction.words) s t) :
    ∃ k : Nat, (k : Int) = l + s.silence (all.flatMap Instruction.words) ∧ t.Stands all k := by
  cases hstep with
  | plain hinside hi hplain =>
      obtain ⟨is, k, hplaced, hquiet, hstop, hresumes⟩ := hs.of_instruction hencodable hinside hi
      rw [Config.silence_of_inside hinside hi]
      cases hquiet with
      | @plain _ _ _ m _ _ hsilence hrest =>
          have hplaced := hplaced.tail
          rw [← hsilence] at hplaced
          exact ⟨m, hsilence, is, k, hplaced, hrest, hstop, hresumes⟩
      | branch => cases hplain
      | loop => cases hplain
  | yes hinside hi hnext =>
      obtain ⟨_, k, hplaced, hquiet, hstop, hresumes⟩ := hs.of_instruction hencodable hinside hi
      rw [Config.silence_of_inside hinside hi, silence_opcode_branch, Int.add_zero]
      cases hquiet with
      | plain hplain => cases hplain
      | branch hyes hno hrest =>
          obtain ⟨hinYes, -, hbehind⟩ := hplaced.branch hnext hyes hno
          simp only [Instruction.totalSize_append, ← hnext, ← Nat.add_assoc] at hstop
          exact ⟨l, rfl, _, l, hinYes, hyes, rfl, .behind hbehind hrest hstop hresumes⟩
  | no hinside hi hnext =>
      obtain ⟨_, k, hplaced, hquiet, hstop, hresumes⟩ := hs.of_instruction hencodable hinside hi
      rw [Config.silence_of_inside hinside hi, silence_opcode_branch, Int.add_zero]
      cases hquiet with
      | plain hplain => cases hplain
      | branch hyes hno hrest =>
          obtain ⟨-, hinNo, hbehind⟩ := hplaced.branch hnext hyes hno
          simp only [Instruction.totalSize_append, ← hnext, ← Nat.add_assoc] at hstop
          exact ⟨l, rfl, _, l, hinNo, hno, rfl, .behind hbehind hrest hstop hresumes⟩
  | again hinside hi hnext =>
      obtain ⟨_, k, hplaced, hquiet, hstop, hresumes⟩ := hs.of_instruction hencodable hinside hi
      rw [Config.silence_of_inside hinside hi, silence_opcode_loop, Int.add_zero]
      cases hquiet with
      | plain hplain => cases hplain
      | loop hbody hrest =>
          -- behind the body stands the loop itself, with all that is behind it
          obtain ⟨hinBody, -⟩ := hplaced.loop hnext hbody
          rw [Nat.add_assoc, ← Instruction.totalSize_cons] at hstop
          exact ⟨l, rfl, _, l, hinBody, hbody, rfl,
            .behind hplaced (.loop hbody hrest) hstop hresumes⟩
  | past hinside hi hnext =>
      obtain ⟨_, k, hplaced, hquiet, hstop, hresumes⟩ := hs.of_instruction hencodable hinside hi
      rw [Config.silence_of_inside hinside hi, silence_opcode_loop, Int.add_zero]
      cases hquiet with
      | plain hplain => cases hplain
      | loop hbody hrest =>
          obtain ⟨-, hbehind⟩ := hplaced.loop hnext hbody
          simp only [Instruction.totalSize_append, ← hnext, ← Nat.add_assoc] at hstop
          exact ⟨l, rfl, _, k, hbehind, hrest, hstop, hresumes⟩
  | leave hend haround =>
      have hresumes := hs.resumes_of_end hend
      rw [Config.silence_of_end hend, Int.add_zero]
      rw [haround] at hresumes
      cases hresumes with
      | behind hplaced hquiet hstop hrest => exact ⟨l, rfl, _, _, hplaced, hquiet, hstop, hrest⟩

end Standing

section Counting

variable {all : List Instruction} {n m : Int} {s : Config}

/-- In quiet code the counter is as much higher than at the beginning as there are levels. -/
theorem Counted.stands (hquiet : Quiet all 0 0) (hencodable : ∀ i ∈ all, i.Encodable)
    (hs : Counted (all.flatMap Instruction.words) n s m) :
    ∃ l : Nat, m = n + l ∧ s.Stands all l := by
  induction hs with
  | start =>
      have hlength : (all.flatMap Instruction.words).length = 0 + Instruction.totalSize all := by
        rw [Instruction.length_flatMap_words, Nat.zero_add]
      exact ⟨0, (Int.add_zero n).symm, all, 0, .refl all, hquiet, hlength, .done⟩
  | step _ hstep hcount ih =>
      obtain ⟨l, hm, hstands⟩ := ih
      obtain ⟨k, hk, hstands⟩ := hstands.step hencodable hstep
      exact ⟨k, by omega, hstands⟩

theorem Config.Stands.level_eq_zero {l : Nat} (hs : s.Stands all l) (hend : s.stop ≤ s.position)
    (haround : s.around = []) : l = 0 := by
  have hresumes := hs.resumes_of_end hend
  rw [haround] at hresumes
  cases hresumes with
  | done => rfl

end Counting

/-! ## Main result -/

/-- Whether failures are kept from being reported in the code of a rule where its nodes ask for
that, and nowhere else. Executions are at instructions of the code, the counter is never lower than
at the beginning, and at the end it is as it was. Where a node has emitted an instruction, an
execution comes to it with the counter higher by the number of nodes around it that ask for
silence. -/
structure Rule.KeepsSilence (r : Rule) (code : List UInt32) : Prop where
  reads {n m : Int} {s : Config} (hs : Counted code n s m) (hinside : s.position < s.stop) :
    ∃ i, instructionAt? code s.position = some i ∧ (s.position, i) ∈ instructions 0 code
  not_below {n m : Int} {s : Config} (hs : Counted code n s m) : n ≤ m
  restored {n m : Int} {s : Config} (hs : Counted code n s m) (hend : s.stop ≤ s.position)
    (haround : s.around = []) : m = n
  raised : List.Forall₂ (fun em found => em.site.Of r.body ∧ found.2.opcode = em.opcode ∧
      (∃ symbol, em.symbol? = some symbol) ∧
      ∀ n m s, Counted code n s m → s.position < s.stop → s.position = found.1 →
        m = n + em.site.silenced)
    r.emissions ((instructions 0 code).filter (·.2.opcode.takesConstant))

theorem Rule.keepsSilence (r : Rule) {c : Constants} {names : List String}
    (hlength : (r.assemble c names).length < UInt32.size) :
    r.KeepsSilence (r.assemble c names) := by
  obtain ⟨is, his, hcode, hquiet, hencodable⟩ := r.exists_quiet hlength
  have hsweep := instructions_flatMap 0 0 hencodable
  rw [hcode]
  refine ⟨fun hs hinside => ?_, fun hs => ?_, fun hs hend haround => ?_, ?_⟩
  · obtain ⟨l, -, hstands⟩ := hs.stands hquiet hencodable
    obtain ⟨i, hi, hmark⟩ := hstands.exists_mark hencodable hinside
    rw [hsweep]
    exact ⟨i, hi, List.mem_map_of_mem hmark⟩
  · obtain ⟨l, hm, -⟩ := hs.stands hquiet hencodable
    omega
  · obtain ⟨l, hm, hstands⟩ := hs.stands hquiet hencodable
    rw [hm, hstands.level_eq_zero hend haround]
    exact Int.add_zero _
  · have hcarriers : ((marks 0 0 is).map fun mark => (mark.position, mark.instruction)).filter
        (·.2.opcode.takesConstant) =
          (carriers (marks 0 0 is)).map fun mark => (mark.position, mark.instruction) :=
      List.filter_map
    rw [hsweep, hcarriers, List.forall₂_map_right_iff]
    have hmarked := r.emits.marked his (P := fun _ _ => True) (fun _ _ => trivial) 0
    obtain ⟨hsame, hmarked⟩ := List.forall₂_iff_zip.mp hmarked
    refine List.forall₂_iff_zip.mpr ⟨hsame, fun {em mark} hem => ?_⟩
    obtain ⟨hemitted, hmark⟩ := List.of_mem_zip hem
    obtain ⟨hopcode, hlevel, symbol, -, hsymbol, -⟩ := hmarked hem
    refine ⟨r.site_of_emissions em hemitted, hopcode, ⟨symbol, hsymbol⟩, ?_⟩
    intro n m s hs hinside hposition
    obtain ⟨l, hm, hstands⟩ := hs.stands hquiet hencodable
    obtain ⟨i, -, hat⟩ := hstands.exists_mark hencodable hinside
    have hmark : mark ∈ marks 0 0 is := List.mem_of_mem_filter hmark
    have hunique := marks_unique hat hmark hposition
    rw [hm, ← hlevel, ← hunique]

/-- In all rules of a generated grammar failures are kept from being reported inside of predicates
and named expressions, and nowhere else. -/
theorem silence_as_asked {g : Grammar} (hrefs : RefsDefined g.rules) :
    ∃ g', g.generate = .ok g' ∧
      List.Forall₂ (fun r r' => ∃ code, r'.bytecode = some code ∧
        (code.length < UInt32.size → r.KeepsSilence code)) g.rules g'.rules := by
  refine ⟨g.assembled, Grammar.generate_of_refsDefined hrefs, ?_⟩
  refine List.forall₂_map_right_iff.mpr (List.forall₂_same.mpr fun r _ => ?_)
  exact ⟨_, rfl, r.keepsSilence⟩

open Build in
/-- What is no number: a digit is looked for in two places, two levels deep in silence. -/
def unlessNumber : Rule :=
  rule "start" (simpleNot (named "number" (oneOrMore (charClass [.range '0' '9'] false false))))

def unlessNumberCode : List UInt32 :=
  [5, 28, 28, 4, 20, 0, 2, 2, 21, 1, 23, 1, 15, 12, 3, 16, 9, 10, 20, 0, 2, 2, 21, 1, 23, 1, 6, 6,
    6, 3, 29, 14, 3, 0, 6, 23, 0, 29, 14, 3, 3, 6, 6, 1, 6, 7, 3]

/-- The digit that is missing behind another one is reported two levels deep, the number that is
missing one level deep. -/
theorem unlessNumber_keeps_silence :
    RefsDefined [unlessNumber] ∧
    unlessNumber.emissions.map (fun em => (em.opcode, em.site.silenced)) =
      [(.matchCharClass, 2), (.fail, 2), (.matchCharClass, 2), (.fail, 2), (.fail, 1)] ∧
    ∃ g' r', (Build.grammar [unlessNumber]).generate = .ok g' ∧ g'.rules = [r'] ∧
      r'.bytecode = some unlessNumberCode ∧ unlessNumber.KeepsSilence unlessNumberCode ∧
      instructionAt? unlessNumberCode 24 = some (.fail 1) ∧
      Counted unlessNumberCode 0 ⟨24, 2, 26, [(26, 26), (15, 27), (30, 47)]⟩ 2 ∧
      instructionAt? unlessNumberCode 35 = some (.fail 0) ∧
      Counted unlessNumberCode 0 ⟨35, 1, 37, [(37, 47)]⟩ 1 := by
  have hrefs : RefsDefined [unlessNumber] :=
    (Grammar.undefinedRule?_eq_none_iff (g := Build.grammar [unlessNumber])).mp (by decide +kernel)
  obtain ⟨g', hgenerate, hrules⟩ := silence_as_asked (g := Build.grammar [unlessNumber]) hrefs
  have hcodes : (Build.grammar [unlessNumber]).generate.toOption.map
      (fun g => g.rules.map (·.bytecode)) = some [some unlessNumberCode] := by
    decide +kernel
  rw [hgenerate] at hcodes
  obtain ⟨r', hrules', hcode⟩ := List.map_eq_singleton_iff.mp (Option.some.inj hcodes)
  rw [hrules'] at hrules
  obtain ⟨⟨code, hcode', hkeeps⟩, -⟩ := List.forall₂_cons.mp hrules
  obtain rfl := Option.some.inj (hcode'.symm.trans hcode)
  have hfirst : instructionAt? unlessNumberCode 4 = some (.branch (.hasClass 0) 2 2) := rfl
  have hfound : instructionAt? unlessNumberCode 12 = some (.branch .isNotFailed 12 3) := rfl
  have hbefore : Counted unlessNumberCode 0 ⟨4, 2, 47, []⟩ 2 := by
    have hposition : Counted unlessNumberCode 0 ⟨1, 1, 47, []⟩ 0 :=
      .step .start (.plain (i := .push .currPos) (by decide) rfl rfl) rfl
    have honce : Counted unlessNumberCode 0 ⟨2, 1, 47, []⟩ 1 :=
      .step hposition (.plain (i := .silentFailsOn) (by decide) rfl rfl) rfl
    have htwice : Counted unlessNumberCode 0 ⟨3, 1, 47, []⟩ 2 :=
      .step honce (.plain (i := .silentFailsOn) (by decide) rfl rfl) rfl
    exact .step htwice (.plain (i := .push .emptyArray) (by decide) rfl rfl) rfl
  have hdigit : Counted unlessNumberCode 0 ⟨24, 2, 26, [(26, 26), (15, 27), (30, 47)]⟩ 2 := by
    have hloop : instructionAt? unlessNumberCode 15 = some (.loop 9) := rfl
    have hnext : instructionAt? unlessNumberCode 18 = some (.branch (.hasClass 0) 2 2) := rfl
    refine hbefore.along ?_
    refine .head ⟨.yes (by decide) hfirst rfl, rfl⟩ ?_
    refine .head ⟨.plain (i := .acceptN 1) (by decide) rfl rfl, rfl⟩ ?_
    refine .head ⟨.leave (by decide) rfl, rfl⟩ ?_
    refine .head ⟨.yes (by decide) hfound rfl, rfl⟩ ?_
    refine .head ⟨.again (by decide) hloop rfl, rfl⟩ ?_
    refine .head ⟨.plain (i := .append) (by decide) rfl rfl, rfl⟩ ?_
    refine .head ⟨.no (by decide) hnext rfl, rfl⟩ ?_
    exact .refl
  have hbehind : Counted unlessNumberCode 0 ⟨30, 2, 47, []⟩ 2 := by
    refine hbefore.along ?_
    refine .head ⟨.no (by decide) hfirst rfl, rfl⟩ ?_
    refine .head ⟨.plain (i := .fail 1) (by decide) rfl rfl, rfl⟩ ?_
    refine .head ⟨.leave (by decide) rfl, rfl⟩ ?_
    refine .head ⟨.no (by decide) hfound rfl, rfl⟩ ?_
    refine .head ⟨.plain (i := .pop) (by decide) rfl rfl, rfl⟩ ?_
    refine .head ⟨.plain (i := .pop) (by decide) rfl rfl, rfl⟩ ?_
    refine .head ⟨.plain (i := .push .failed) (by decide) rfl rfl, rfl⟩ ?_
    refine .head ⟨.leave (by decide) rfl, rfl⟩ ?_
    exact .refl
  have hnumber : Counted unlessNumberCode 0 ⟨35, 1, 37, [(37, 47)]⟩ 1 := by
    have hloud : Counted unlessNumberCode 0 ⟨31, 2, 47, []⟩ 1 :=
      .step hbehind (.plain (i := .silentFailsOff) (by decide) rfl rfl) rfl
    have hfailed : instructionAt? unlessNumberCode 31 = some (.branch .isFailed 3 0) := rfl
    refine hloud.along ?_
    refine .head ⟨.yes (by decide) hfailed rfl, rfl⟩ ?_
    refine .head ⟨.plain (i := .pop) (by decide) rfl rfl, rfl⟩ ?_
    exact .refl
  have hshort : unlessNumberCode.length < UInt32.size := by decide
  exact ⟨hrefs, rfl, g', r', hgenerate, hrules', hcode, hkeeps hshort, rfl, hdigit, rfl, hnumber⟩

end PegCompiler
