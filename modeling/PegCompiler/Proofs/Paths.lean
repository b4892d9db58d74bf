import Mathlib.Data.List.Nodup
import Mathlib.Logic.Relation
import PegCompiler.Grammar.Build
import PegCompiler.Proofs.Checks
import PegCompiler.Proofs.Frames

/-!
# Paths through listed code

An execution jumps through the words of the code: a branch is taken or not, a loop is run or left,
and at the end of a block the execution goes on behind it, or at the loop that the block is the body
of. A listing follows the stack through each block once. Still it speaks for all paths, however
often they come to a loop and whatever conditions turn out to be.
-/

namespace PegCompiler

/-- The instruction that the words at a position are read as. -/
def instructionAt? (code : List UInt32) (position : Nat) : Option Instruction :=
  match code.drop position with
  | [] => none
  | w :: rest =>
      match Instruction.decode position w rest with
      | .ok (i, _) => some i
      | .error _ => none

/-- Where an execution is: at a position in a block that ends before `stop`, on a stack of some
depth. For each block around it there is the position where it goes on behind the inner one, and the
end. -/
structure Config where
  position : Nat
  depth : Int
  stop : Nat
  around : List (Nat × Nat)

theorem operands_subset_of_instructionAt? {code : List UInt32} {position : Nat} {i : Instruction}
    (hi : instructionAt? code position = some i) : i.operands ⊆ code := by
  unfold instructionAt? at hi
  split at hi
  · cases hi
  · next w rest hdrop =>
      split at hi
      · next j left hdecode =>
          obtain rfl := Option.some.inj hi
          obtain ⟨-, rfl, -⟩ := Instruction.words_of_decode hdecode
          intro o ho
          refine List.mem_of_mem_drop (i := position) ?_
          rw [hdrop]
          exact List.mem_cons_of_mem _ (List.mem_append_left _ ho)
      · cases hi

namespace Config

def start (code : List UInt32) : Config :=
  ⟨0, 0, code.length, []⟩

/-- One step of an execution. Conditions may turn out in any way. -/
inductive Step (code : List UInt32) : Config → Config → Prop where
  | plain {s : Config} {i : Instruction} (hinside : s.position < s.stop)
      (hi : instructionAt? code s.position = some i) (hplain : i.isPlain) :
      Step code s
        { s with position := s.position + i.size, depth := s.depth - i.pops + i.pushes }
  | yes {s : Config} {test : Test} {yes no next : Nat} (hinside : s.position < s.stop)
      (hi : instructionAt? code s.position = some (.branch test yes no))
      (hnext : next = s.position + (Instruction.branch test yes no).size) :
      Step code s
        { s with position := next, stop := next + yes
                 around := (next + yes + no, s.stop) :: s.around }
  | no {s : Config} {test : Test} {yes no next : Nat} (hinside : s.position < s.stop)
      (hi : instructionAt? code s.position = some (.branch test yes no))
      (hnext : next = s.position + (Instruction.branch test yes no).size) :
      Step code s
        { s with
          position := next + yes
          stop := next + yes + no
          around := (next + yes + no, s.stop) :: s.around }
  | again {s : Config} {body next : Nat} (hinside : s.position < s.stop)
      (hi : instructionAt? code s.position = some (.loop body))
      (hnext : next = s.position + (Instruction.loop body).size) :
      Step code s
        { s with position := next, stop := next + body, around := (s.position, s.stop) :: s.around }
  | past {s : Config} {body next : Nat} (hinside : s.position < s.stop)
      (hi : instructionAt? code s.position = some (.loop body))
      (hnext : next = s.position + (Instruction.loop body).size) :
      Step code s { s with position := next + body }
  | leave {s : Config} {next stop : Nat} {around : List (Nat × Nat)} (hend : s.stop ≤ s.position)
      (haround : s.around = (next, stop) :: around) :
      Step code s { s with position := next, stop, around }

end Config

/-! ## Slices -/

/-- The words from one position up to another. -/
def slice (code : List UInt32) (first stop : Nat) : List UInt32 :=
  (code.take stop).drop first

section Slices

variable {code rest left : List UInt32} {first stop n : Nat} {w : UInt32} {i : Instruction}

theorem length_slice (first : Nat) (hstop : stop ≤ code.length) :
    (slice code first stop).length = stop - first := by
  rw [slice, List.length_drop, List.length_take, Nat.min_eq_left hstop]

theorem drop_slice : (slice code first stop).drop n = slice code (first + n) stop := by
  rw [slice, slice, List.drop_drop]

theorem take_slice (h : first + n ≤ stop) :
    (slice code first stop).take n = slice code first (first + n) := by
  rw [slice, slice, List.take_drop, List.take_take, Nat.min_eq_left h]

/-- What is read in a block is read in the whole code. -/
theorem instructionAt?_of_slice (hslice : slice code first stop = w :: rest)
    (hdecode : Instruction.decode first w rest = .ok (i, left)) :
    instructionAt? code first = some i := by
  have hlt : first ≤ (code.take stop).length := by
    refine Nat.le_of_lt (Nat.lt_of_not_le fun hle => ?_)
    rw [slice, List.drop_eq_nil_of_le hle] at hslice
    cases hslice
  have hdrop : code.drop first = w :: (rest ++ code.drop stop) := by
    rw [← List.cons_append, ← hslice, slice, ← List.drop_append_of_le_length hlt,
      List.take_append_drop]
  rw [instructionAt?, hdrop]
  simp only [Instruction.decode_append hdecode first]

/-- What is left of a block is the block from the next instruction on. -/
theorem slice_of_decode (hslice : slice code first stop = w :: rest)
    (hdecode : Instruction.decode first w rest = .ok (i, left)) (hstop : stop ≤ code.length) :
    left = slice code (first + i.size) stop ∧ first + i.size + left.length = stop := by
  obtain ⟨hlength, hdrop⟩ := Instruction.drop_size_of_decode hdecode
  rw [← hslice, drop_slice] at hdrop
  rw [← hslice, length_slice first hstop] at hlength
  refine ⟨hdrop.symm, ?_⟩
  have hpos := i.size_pos
  omega

end Slices

/-! ## Framed code by positions -/

/-- Framed code between two positions of the whole, with its instructions in the table `heights`. -/
inductive Flows (names : List String) (code : List UInt32) (heights : List (Nat × Nat)) :
    Nat → Nat → Nat → Nat → Prop where
  | done {stop h : Nat} : Flows names code heights stop stop h h
  | plain {position stop h k l : Nat} {i : Instruction}
      (hi : instructionAt? code position = some i) (hplain : i.isPlain)
      (hheight : (position, h) ∈ heights) (hshifts : i.Shifts names h k)
      (hrest : Flows names code heights (position + i.size) stop k l) :
      Flows names code heights position stop h l
  | branch {position stop yes no next h k l : Nat} {test : Test}
      (hi : instructionAt? code position = some (.branch test yes no))
      (hheight : (position, h) ∈ heights) (htest : ∀ o ∈ test.reads, signed o < h)
      (hnext : next = position + (Instruction.branch test yes no).size)
      (hyes : Flows names code heights next (next + yes) h k)
      (hno : Flows names code heights (next + yes) (next + yes + no) h k)
      (hrest : Flows names code heights (next + yes + no) stop k l) :
      Flows names code heights position stop h l
  | loop {position stop body next h l : Nat}
      (hi : instructionAt? code position = some (.loop body))
      (hheight : (position, h) ∈ heights) (hpos : 0 < h)
      (hnext : next = position + (Instruction.loop body).size)
      (hbody : Flows names code heights next (next + body) h h)
      (hrest : Flows names code heights (next + body) stop h l) :
      Flows names code heights position stop h l

section Flowing

variable {names : List String} {code : List UInt32} {heights : List (Nat × Nat)}

theorem Flows.le {position stop h k : Nat} (hflows : Flows names code heights position stop h k) :
    position ≤ stop := by
  induction hflows with
  | done => exact Nat.le_refl _
  | plain => omega
  | branch => omega
  | loop => omega

theorem Framed.flows {position stop h k : Nat} {block : List UInt32} {table : List (Nat × Nat)}
    (hcode : Framed names position block h k table) (hslice : slice code position stop = block)
    (hle : position ≤ stop) (hstop : stop ≤ code.length)
    (htable : ∀ entry ∈ table, entry ∈ heights) :
    Flows names code heights position stop h k := by
  induction hcode generalizing stop with
  | @nil position h =>
      have hlength := length_slice position hstop
      rw [hslice, List.length_nil] at hlength
      obtain rfl : position = stop := by omega
      exact .done
  | plain hdecode hplain hshifts _ ih =>
      obtain ⟨hheight, htable⟩ := List.forall_mem_cons.mp htable
      obtain ⟨hleft, hlength⟩ := slice_of_decode hslice hdecode hstop
      refine .plain (instructionAt?_of_slice hslice hdecode) hplain hheight hshifts ?_
      exact ih hleft.symm (by omega) hstop htable
  | @branch position yes no w rest left test h k l _ _ _ hdecode htest hlen _ _ _ ihyes ihno ih =>
      simp only [List.forall_mem_cons, List.forall_mem_append] at htable
      obtain ⟨hheight, ⟨hyes, hno⟩, hrest⟩ := htable
      obtain ⟨rfl, hlength⟩ := slice_of_decode hslice hdecode hstop
      refine .branch (k := k) (instructionAt?_of_slice hslice hdecode) hheight htest rfl ?_ ?_ ?_
      · exact ihyes (take_slice (by omega)).symm (by omega) (by omega) hyes
      · refine ihno ?_ (by omega) (by omega) hno
        rw [drop_slice, take_slice (by omega)]
      · refine ih ?_ (by omega) hstop hrest
        rw [drop_slice, Nat.add_assoc]
  | @loop position body w rest left h l _ _ hdecode hpos hlen _ _ ihbody ih =>
      simp only [List.forall_mem_cons, List.forall_mem_append] at htable
      obtain ⟨hheight, hbody, hrest⟩ := htable
      obtain ⟨rfl, hlength⟩ := slice_of_decode hslice hdecode hstop
      refine .loop (instructionAt?_of_slice hslice hdecode) hheight hpos rfl ?_ ?_
      · exact ihbody (take_slice (by omega)).symm (by omega) (by omega) hbody
      · refine ih ?_ (by omega) hstop hrest
        rw [drop_slice]

/-- Nothing is done between a position and itself. -/
theorem Flows.height_eq {stop h k : Nat} (hflows : Flows names code heights stop stop h k) :
    h = k := by
  cases hflows with
  | done => rfl
  | @plain _ _ _ _ _ i _ _ _ _ hrest =>
      have hle := hrest.le
      have hpos := i.size_pos
      omega
  | @branch _ _ yes no _ _ _ _ test _ _ _ _ _ _ hrest =>
      have hle := hrest.le
      have hpos := (Instruction.branch test yes no).size_pos
      omega
  | @loop _ _ body _ _ _ _ _ _ _ _ hrest =>
      have hle := hrest.le
      have hpos := (Instruction.loop body).size_pos
      omega

namespace Flows

variable {position stop h k : Nat} (hflows : Flows names code heights position stop h k)
  (hinside : position < stop)

include hflows hinside

theorem of_plain {i : Instruction} (hi : instructionAt? code position = some i)
    (hplain : i.isPlain) :
    ∃ m, i.Shifts names h m ∧ Flows names code heights (position + i.size) stop m k := by
  cases hflows with
  | done => exact absurd hinside (Nat.lt_irrefl _)
  | plain hi' _ _ hshifts hrest =>
      obtain rfl := Option.some.inj (hi.symm.trans hi')
      exact ⟨_, hshifts, hrest⟩
  | branch hi' => cases (Option.some.inj (hi.symm.trans hi') ▸ hplain : _ = true)
  | loop hi' => cases (Option.some.inj (hi.symm.trans hi') ▸ hplain : _ = true)

theorem of_branch {test : Test} {yes no next : Nat}
    (hi : instructionAt? code position = some (.branch test yes no))
    (hnext : next = position + (Instruction.branch test yes no).size) :
    ∃ m, Flows names code heights next (next + yes) h m ∧
      Flows names code heights (next + yes) (next + yes + no) h m ∧
      Flows names code heights (next + yes + no) stop m k := by
  cases hflows with
  | done => exact absurd hinside (Nat.lt_irrefl _)
  | plain hi' hplain => cases (Option.some.inj (hi'.symm.trans hi) ▸ hplain : _ = true)
  | branch hi' _ _ hnext' hyes hno hrest =>
      obtain ⟨rfl, rfl, rfl⟩ := Instruction.branch.inj (Option.some.inj (hi.symm.trans hi'))
      obtain rfl := hnext.trans hnext'.symm
      exact ⟨_, hyes, hno, hrest⟩
  | loop hi' => cases hi.symm.trans hi'

theorem of_loop {body next : Nat} (hi : instructionAt? code position = some (.loop body))
    (hnext : next = position + (Instruction.loop body).size) :
    Flows names code heights next (next + body) h h ∧
      Flows names code heights (next + body) stop h k := by
  cases hflows with
  | done => exact absurd hinside (Nat.lt_irrefl _)
  | plain hi' hplain => cases (Option.some.inj (hi'.symm.trans hi) ▸ hplain : _ = true)
  | branch hi' => cases hi.symm.trans hi'
  | loop hi' _ _ hnext' hbody hrest =>
      obtain rfl := Instruction.loop.inj (Option.some.inj (hi.symm.trans hi'))
      obtain rfl := hnext.trans hnext'.symm
      exact ⟨hbody, hrest⟩

/-- At every position there is an instruction that finds what it needs, and its blocks lie inside of
the block around it. -/
theorem exists_instruction :
    ∃ i, instructionAt? code position = some i ∧ (position, h) ∈ heights ∧
      position + i.size + i.extent ≤ stop ∧ i.pops ≤ h ∧ ∀ o ∈ i.reads, signed o < h := by
  cases hflows with
  | done => exact absurd hinside (Nat.lt_irrefl _)
  | @plain _ _ _ _ _ i hi hplain hheight hshifts hrest =>
      have hle := hrest.le
      have hextent : i.extent = 0 := by
        cases i with
        | branch | loop => cases hplain
        | _ => rfl
      exact ⟨i, hi, hheight, by omega, hshifts.pops_le, hshifts.reads_lt⟩
  | branch hi hheight htest hnext _ _ hrest =>
      have hle := hrest.le
      refine ⟨_, hi, hheight, ?_, Nat.zero_le _, htest⟩
      rw [Instruction.extent]
      omega
  | loop hi hheight hpos hnext _ hrest =>
      have hle := hrest.le
      refine ⟨_, hi, hheight, ?_, Nat.zero_le _, fun o ho => ?_⟩
      · rw [Instruction.extent]
        omega
      · obtain rfl := List.mem_singleton.mp ho
        exact Int.natCast_pos.mpr hpos

end Flows

/-- Whether what stands behind a block, and behind each block around it, takes a stack of height `k`
to a single value at the end of the code. -/
inductive Awaits (names : List String) (code : List UInt32) (heights : List (Nat × Nat)) :
    Nat → Nat → List (Nat × Nat) → Prop where
  | done : Awaits names code heights 1 code.length []
  | behind {stop next stop' k l : Nat} {around : List (Nat × Nat)} (hstop : stop' ≤ code.length)
      (hflows : Flows names code heights next stop' k l)
      (hrest : Awaits names code heights l stop' around) :
      Awaits names code heights k stop ((next, stop') :: around)

/-- When no instruction stands on a higher stack than `bound`, nor does the end of a block. -/
theorem Awaits.height_le {bound : Int} (hbound : ∀ entry ∈ heights, (entry.2 : Int) ≤ bound)
    (hone : 1 ≤ bound) {k stop : Nat} {around : List (Nat × Nat)}
    (hawaits : Awaits names code heights k stop around) : (k : Int) ≤ bound := by
  induction hawaits with
  | done => exact hone
  | @behind stop next stop' k l around _ hflows _ ih =>
      rcases Nat.lt_or_ge next stop' with hinside | hend
      · obtain ⟨i, -, hheight, -⟩ := hflows.exists_instruction hinside
        exact hbound _ hheight
      · obtain rfl := Nat.le_antisymm hflows.le hend
        rwa [hflows.height_eq]

/-- What holds wherever an execution of framed code is. -/
def Config.Framed (names : List String) (code : List UInt32) (heights : List (Nat × Nat))
    (s : Config) : Prop :=
  ∃ h k : Nat, s.depth = h ∧ s.stop ≤ code.length ∧
    Flows names code heights s.position s.stop h k ∧ Awaits names code heights k s.stop s.around

theorem Config.Framed.step {s t : Config} (hs : s.Framed names code heights)
    (hstep : Step code s t) : t.Framed names code heights := by
  obtain ⟨h, k, hdepth, hstop, hflows, hawaits⟩ := hs
  cases hstep with
  | @plain i hinside hi hplain =>
      obtain ⟨m, hshifts, hrest⟩ := hflows.of_plain hinside hi hplain
      have hle := hshifts.pops_le
      have hheight := hshifts.height
      exact ⟨m, k, by dsimp only; omega, hstop, hrest, hawaits⟩
  | yes hinside hi hnext =>
      obtain ⟨m, hyes, hno, hrest⟩ := hflows.of_branch hinside hi hnext
      have hle := hno.le
      have hle' := hrest.le
      exact ⟨h, m, hdepth, by dsimp only; omega, hyes, .behind hstop hrest hawaits⟩
  | no hinside hi hnext =>
      obtain ⟨m, hyes, hno, hrest⟩ := hflows.of_branch hinside hi hnext
      have hle := hrest.le
      exact ⟨h, m, hdepth, by dsimp only; omega, hno, .behind hstop hrest hawaits⟩
  | again hinside hi hnext =>
      -- behind the body stands the loop itself, at the height that the body comes back to
      obtain ⟨hbody, hrest⟩ := hflows.of_loop hinside hi hnext
      have hle := hrest.le
      exact ⟨h, h, hdepth, by dsimp only; omega, hbody, .behind hstop hflows hawaits⟩
  | past hinside hi hnext =>
      obtain ⟨hbody, hrest⟩ := hflows.of_loop hinside hi hnext
      exact ⟨h, k, hdepth, hstop, hrest, hawaits⟩
  | leave hend haround =>
      obtain ⟨position, depth, stop, around⟩ := s
      subst haround
      obtain rfl : position = stop := Nat.le_antisymm hflows.le hend
      obtain rfl := hflows.height_eq
      cases hawaits with
      | behind hstop hflows hrest => exact ⟨h, _, hdepth, hstop, hflows, hrest⟩

theorem Config.Framed.depth_le {s : Config} (hs : s.Framed names code heights) {bound : Int}
    (hbound : ∀ entry ∈ heights, (entry.2 : Int) ≤ bound) (hone : 1 ≤ bound) : s.depth ≤ bound := by
  obtain ⟨h, k, hdepth, hstop, hflows, hawaits⟩ := hs
  rw [hdepth]
  have hbehind : Awaits names code heights h 0 ((s.position, s.stop) :: s.around) :=
    .behind hstop hflows hawaits
  exact hbehind.height_le hbound hone

theorem Config.framed_of_reachable {s t : Config} (hs : s.Framed names code heights)
    (hreach : Relation.ReflTransGen (Step code) s t) : t.Framed names code heights := by
  induction hreach with
  | refl => exact hs
  | tail _ hstep ih => exact ih.step hstep

section Facts

variable {s : Config} (hs : s.Framed names code heights)

include hs

theorem Config.Framed.position_le : s.position ≤ s.stop := by
  obtain ⟨h, k, -, -, hflows, -⟩ := hs
  exact hflows.le

theorem Config.Framed.stop_le : s.stop ≤ code.length := by
  obtain ⟨h, k, -, hstop, -⟩ := hs
  exact hstop

theorem Config.Framed.depth_nonneg : 0 ≤ s.depth := by
  obtain ⟨h, k, hdepth, -⟩ := hs
  omega

theorem Config.Framed.depth_of_end (hend : s.position = s.stop) (haround : s.around = []) :
    s.stop = code.length ∧ s.depth = 1 := by
  obtain ⟨h, k, hdepth, -, hflows, hawaits⟩ := hs
  rw [hend] at hflows
  obtain ⟨position, depth, stop, around⟩ := s
  subst haround
  cases hawaits with
  | done =>
      obtain rfl := hflows.height_eq
      exact ⟨rfl, hdepth⟩

end Facts

/-- An execution that is not at the end of the code can go on. -/
theorem Config.Framed.progress {s : Config} (hs : s.Framed names code heights)
    (hnot : s.position < s.stop ∨ s.around ≠ []) : ∃ t, Step code s t := by
  obtain ⟨h, k, -, -, hflows, -⟩ := hs
  rcases Nat.lt_or_ge s.position s.stop with hinside | hend
  · obtain ⟨i, hi, -⟩ := hflows.exists_instruction hinside
    obtain hplain | ⟨test, yes, no, rfl⟩ | ⟨body, rfl⟩ := i.plain_or
    · exact ⟨_, .plain hinside hi hplain⟩
    · exact ⟨_, .yes hinside hi rfl⟩
    · exact ⟨_, .past hinside hi rfl⟩
  · obtain ⟨⟨next, stop⟩, around, haround⟩ :=
      List.exists_cons_of_ne_nil (hnot.resolve_left (Nat.not_lt.mpr hend))
    exact ⟨_, .leave hend haround⟩

end Flowing

/-! ## Heights of instructions -/

/-- A table of positions from `first` on and before `stop`, each of them once. -/
structure Ascending (first stop : Nat) (table : List (Nat × Nat)) : Prop where
  sorted : table.Pairwise fun a b => a.1 < b.1
  range : ∀ entry ∈ table, first ≤ entry.1 ∧ entry.1 < stop

namespace Ascending

variable {first middle stop : Nat} {xs ys : List (Nat × Nat)}

theorem nil : Ascending first stop [] :=
  ⟨.nil, by simp⟩

theorem cons (hxs : Ascending middle stop xs) (hlt : first < middle) (hle : middle ≤ stop)
    (height : Nat) : Ascending first stop ((first, height) :: xs) := by
  constructor
  · refine .cons (fun entry hentry => ?_) hxs.sorted
    exact Nat.lt_of_lt_of_le hlt (hxs.range entry hentry).1
  · refine List.forall_mem_cons.mpr ⟨⟨Nat.le_refl _, by omega⟩, fun entry hentry => ?_⟩
    have hentry := hxs.range entry hentry
    omega

theorem append (hxs : Ascending first middle xs) (hys : Ascending middle stop ys)
    (hfirst : first ≤ middle) (hstop : middle ≤ stop) : Ascending first stop (xs ++ ys) := by
  constructor
  · refine List.pairwise_append.mpr ⟨hxs.sorted, hys.sorted, fun x hx y hy => ?_⟩
    exact Nat.lt_of_lt_of_le (hxs.range x hx).2 (hys.range y hy).1
  · refine List.forall_mem_append.mpr ⟨fun entry hentry => ?_, fun entry hentry => ?_⟩
    · have hentry := hxs.range entry hentry
      omega
    · have hentry := hys.range entry hentry
      omega

theorem unique (hxs : Ascending first stop xs) {position h k : Nat} (hh : (position, h) ∈ xs)
    (hk : (position, k) ∈ xs) : h = k := by
  have hnodup : (xs.map Prod.fst).Nodup :=
    List.pairwise_map.mpr (hxs.sorted.imp fun hlt => Nat.ne_of_lt hlt)
  exact congrArg Prod.snd (List.inj_on_of_nodup_map hnodup hh hk rfl)

end Ascending

/-- The blocks of framed code lie behind one another. -/
theorem Framed.ascending {names : List String} {position : Nat} {code : List UInt32} {h k : Nat}
    {table : List (Nat × Nat)} (hcode : Framed names position code h k table) :
    Ascending position (position + code.length) table := by
  induction hcode with
  | nil => exact .nil
  | @plain position w rest left i _ _ _ _ hdecode _ _ _ ih =>
      have hpos := i.size_pos
      obtain ⟨hsize, -⟩ := Instruction.drop_size_of_decode hdecode
      rw [Nat.add_assoc, ← hsize] at ih
      exact ih.cons (by omega) (by omega) _
  | @branch position yes no w rest left test _ _ _ _ _ _ hdecode _ hlen _ _ _ ihyes ihno ih =>
      have hpos := (Instruction.branch test yes no).size_pos
      obtain ⟨hsize, -⟩ := Instruction.drop_size_of_decode hdecode
      have hno : (left.drop yes).length = left.length - yes := List.length_drop ..
      rw [List.length_take_of_le (by omega)] at ihyes ihno
      have hstop : position + (w :: rest).length = position +
          (Instruction.branch test yes no).size + yes + no + (left.drop (yes + no)).length := by
        rw [List.length_drop]
        omega
      rw [hstop]
      exact ((ihyes.append ihno (by omega) (by omega)).append ih (by omega) (by omega)).cons
        (by omega) (by omega) _
  | @loop position body w rest left _ _ _ _ hdecode _ hlen _ _ ihbody ih =>
      have hpos := (Instruction.loop body).size_pos
      obtain ⟨hsize, -⟩ := Instruction.drop_size_of_decode hdecode
      rw [List.length_take_of_le hlen] at ihbody
      have hstop : position + (w :: rest).length = position + (Instruction.loop body).size + body +
          (left.drop body).length := by
        rw [List.length_drop]
        omega
      rw [hstop]
      exact (ihbody.append ih (by omega) (by omega)).cons (by omega) (by omega) _

/-! ## Listed code -/

theorem exists_framed_of_recovers {g : Grammar} {r : Rule} {code : List UInt32} {listing : Listing}
    (hcode : r.bytecode = some code) (hrecovers : Recovers g.ruleNames code)
    (hlist : g.list r = .ok listing) :
    0 ≤ listing.highest ∧ ∃ table, Framed g.ruleNames 0 code 0 1 table ∧
      ∀ entry ∈ table, (entry.2 : Int) ≤ listing.highest + 1 := by
  have hexec : ∃ t, (listCode g.ruleNames r.name code).exec .empty = (.ok listing, t) := by
    simp only [Grammar.list, Rule.list, hcode] at hlist
    split at hlist
    · next found hfound =>
        obtain rfl := Except.ok.inj hlist
        exact ⟨_, Prod.ext hfound rfl⟩
    · cases hlist
  obtain ⟨t, hexec⟩ := hexec
  obtain ⟨lines, u, hblock, hend⟩ := Tracked.exec_bind_eq_ok.mp hexec
  obtain ⟨k, table, hframed, hu, -, htable⟩ := hrecovers 1 0 0 _ _ _ Slots.empty_at hblock
  simp only [Tracked.exec_bind, Tracked.exec_get] at hend
  by_cases htop : u.top = 0
  · have hk : k = 1 := by
      have hheight := hu.top
      omega
    have hle := hu.top_le
    simp [htop, Slots.exec_result, show ¬u.highest < 0 by omega] at hend
    obtain ⟨rfl, -⟩ := hend
    subst hk
    exact ⟨by dsimp only; omega, table, hframed, htable⟩
  · simp [htop] at hend

theorem exists_framed_of_list {g : Grammar} {r : Rule} {code : List UInt32} {listing : Listing}
    (hcode : r.bytecode = some code) (hwords : ∀ w ∈ code, w.toNat < signedSize)
    (hlist : g.list r = .ok listing) :
    0 ≤ listing.highest ∧ ∃ table, Framed g.ruleNames 0 code 0 1 table ∧
      ∀ entry ∈ table, (entry.2 : Int) ≤ listing.highest + 1 :=
  exists_framed_of_recovers hcode (recovers hwords) hlist

/-- All paths through framed code stay in its frame. -/
theorem Framed.config_framed {names : List String} {code : List UInt32} {heights : List (Nat × Nat)}
    (hcode : Framed names 0 code 0 1 heights) {s : Config}
    (hreach : Relation.ReflTransGen (Config.Step code) (.start code) s) :
    s.Framed names code heights := by
  have hflows : Flows names code heights 0 code.length 0 1 :=
    hcode.flows (by rw [slice, List.take_length, List.drop_zero]) (Nat.zero_le _) (Nat.le_refl _)
      fun _ hentry => hentry
  exact Config.framed_of_reachable ⟨0, 1, rfl, Nat.le_refl _, hflows, .done⟩ hreach

/-- Code that has a listing keeps to its stack on all paths. An execution is at an instruction all
of whose words are there, or at the end of a block. No instruction pops or reads a slot below the
bottom, the depth at an instruction is the same whenever an execution comes to it and is never more
than the listing says, and at the end of the code there is one value. -/
theorem paths_of_listed {g : Grammar} {r : Rule} {code : List UInt32} {listing : Listing}
    (hcode : r.bytecode = some code) (hwords : ∀ w ∈ code, w.toNat < signedSize)
    (hlist : g.list r = .ok listing) {s : Config}
    (hreach : Relation.ReflTransGen (Config.Step code) (.start code) s) :
    s.position ≤ s.stop ∧ s.stop ≤ code.length ∧ 0 ≤ s.depth ∧ s.depth ≤ listing.highest + 1 ∧
    (s.position < s.stop → ∃ i, instructionAt? code s.position = some i ∧
      s.position + i.size + i.extent ≤ s.stop ∧ i.pops ≤ s.depth ∧
      (∀ o ∈ i.reads, (o.toNat : Int) < s.depth) ∧
      ∀ t, Relation.ReflTransGen (Config.Step code) (.start code) t → t.position < t.stop →
        t.position = s.position → t.depth = s.depth) ∧
    (s.position < s.stop ∨ s.around ≠ [] → ∃ t, Config.Step code s t) ∧
    (s.position = s.stop → s.around = [] → s.stop = code.length ∧ s.depth = 1) := by
  obtain ⟨hhighest, heights, hcode, hbound⟩ := exists_framed_of_list hcode hwords hlist
  have hs := hcode.config_framed hreach
  refine ⟨hs.position_le, hs.stop_le, hs.depth_nonneg, hs.depth_le hbound (by omega), ?_,
    hs.progress, hs.depth_of_end⟩
  obtain ⟨h, k, hdepth, -, hflows, -⟩ := hs
  intro hinside
  obtain ⟨i, hi, hheight, hle, hpops, hreads⟩ := hflows.exists_instruction hinside
  refine ⟨i, hi, hle, by omega, fun o ho => ?_, fun t ht hinside' hsame => ?_⟩
  · have hsmall := Instruction.toNat_reads_lt
      (fun w hw => hwords w (operands_subset_of_instructionAt? hi hw)) o ho
    rw [hdepth, ← signed_eq_toNat hsmall]
    exact hreads o ho
  · obtain ⟨h', k', hdepth', -, hflows', -⟩ := hcode.config_framed ht
    obtain ⟨-, -, hheight', -⟩ := hflows'.exists_instruction hinside'
    rw [hsame] at hheight'
    rw [hdepth, hdepth', hcode.ascending.unique hheight' hheight]

/-- Code that collects matches of a literal and puts them behind the current position. -/
def collecting : List UInt32 :=
  [5, 4, 18, 0, 2, 2, 22, 0, 23, 0, 16, 9, 10, 18, 0, 2, 2, 22, 0, 23, 0, 6, 11, 2]

theorem collecting_keeps_stack :
    (∀ w ∈ collecting, w.toNat < signedSize) ∧
    ∃ g r listing, r.bytecode = some collecting ∧ Grammar.list g r = .ok listing ∧
      listing.highest = 2 ∧
      Relation.ReflTransGen (Config.Step collecting) (.start collecting) ⟨13, 2, 21, [(10, 24)]⟩ ∧
      ∀ t, Relation.ReflTransGen (Config.Step collecting) (.start collecting) t →
        t.position < t.stop → t.position = 13 → t.depth = 2 := by
  have hwords : ∀ w ∈ collecting, w.toNat < signedSize := by
    simp [collecting, signedSize, UInt32.size]
  let r : Rule := { Build.rule "start" (Build.literal "a") with bytecode := some collecting }
  let g : Grammar := Build.grammar [r]
  have hhighest : (g.list r).toOption.map (·.highest) = some 2 := by
    decide +kernel
  obtain ⟨listing, hlisting, hhighest⟩ := Option.map_eq_some_iff.mp hhighest
  have hlist : g.list r = .ok listing := eq_ok_of_toOption hlisting
  -- the first match succeeds, so the loop is entered and appends it
  have hpath : Relation.ReflTransGen (Config.Step collecting) (.start collecting)
      ⟨13, 2, 21, [(10, 24)]⟩ := by
    have hbranch : instructionAt? collecting 2 = some (.branch (.hasLiteral 0) 2 2) := rfl
    have hloop : instructionAt? collecting 10 = some (.loop 9) := rfl
    refine .head (.plain (i := .push .currPos) (by decide) rfl rfl) ?_
    refine .head (.plain (i := .push .emptyArray) (by decide) rfl rfl) ?_
    refine .head (.yes (by decide) hbranch rfl) ?_
    refine .head (.plain (i := .acceptString 0) (by decide) rfl rfl) ?_
    refine .head (.leave (by decide) rfl) ?_
    refine .head (.again (by decide) hloop rfl) ?_
    refine .head (.plain (i := .append) (by decide) rfl rfl) ?_
    exact .refl
  obtain ⟨-, -, -, -, hat, -⟩ := paths_of_listed (g := g) (r := r) rfl hwords hlist hpath
  obtain ⟨i, -, -, -, -, hsame⟩ := hat (by decide)
  exact ⟨hwords, g, r, listing, rfl, hlist, hhighest, hpath, hsame⟩

end PegCompiler
