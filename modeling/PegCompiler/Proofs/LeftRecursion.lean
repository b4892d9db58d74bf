import Mathlib.Data.List.Nodup
import Mathlib.Logic.Relation
import Mathlib.Order.WellFounded
import PegCompiler.Proofs.Proxies

/-!
# Reports on left recursion

The search enters rules along references at left positions, so the rules on its path call each other
at left positions, and the references by which they were entered stand in their bodies. When one of
them is met again, that path is what the report tells. Where nothing is met again the left calls are
well-founded, and no rule can come back to itself.
-/

namespace PegCompiler

open Relation

namespace Expr

/-- Whether a node stands at a left position: in all sequences around it, no element in front of it
always consumes. -/
inductive AtLeft (rules : List Rule) (n : Expr) : Expr → Prop
  | self : AtLeft rules n n
  | choice {t es e} (he : e ∈ es) (h : AtLeft rules n e) : AtLeft rules n (.choice t es)
  | sequence {t before e after} (hbefore : ∀ d ∈ before, ¬d.consumes rules)
      (h : AtLeft rules n e) : AtLeft rules n (.sequence t (before ++ e :: after))
  | apply {t op e} (h : AtLeft rules n e) : AtLeft rules n (.apply t op e)

section LeftRefs

variable {rules : List Rule} {ref : RuleRef}

theorem leftRefsChoice_eq_flatMap (es : List Expr) :
    leftRefsChoice rules es = es.flatMap (leftRefs rules) := by
  induction es with
  | nil => rfl
  | cons e es ih => rw [leftRefsChoice, ih, List.flatMap_cons]

theorem mem_leftRefsSequence {es : List Expr} :
    ref ∈ leftRefsSequence rules es ↔ ∃ before e after, es = before ++ e :: after ∧
      (∀ d ∈ before, ¬d.consumes rules) ∧ ref ∈ e.leftRefs rules := by
  induction es with
  | nil => simp [leftRefsSequence]
  | cons first es ih =>
      rw [leftRefsSequence, List.mem_append]
      constructor
      · rintro (href | href)
        · exact ⟨[], first, es, rfl, by simp, href⟩
        · split at href
          · cases href
          · next hfirst =>
              obtain ⟨before, e, after, rfl, hbefore, he⟩ := ih.mp href
              refine ⟨first :: before, e, after, rfl, ?_, he⟩
              exact List.forall_mem_cons.mpr ⟨hfirst, hbefore⟩
      · rintro ⟨_ | ⟨d, before⟩, e, after, hes, hbefore, he⟩
        · obtain ⟨rfl, -⟩ := List.cons.inj hes
          exact .inl he
        · obtain ⟨rfl, rfl⟩ := List.cons.inj hes
          obtain ⟨hfirst, hbefore⟩ := List.forall_mem_cons.mp hbefore
          rw [if_neg hfirst]
          exact .inr (ih.mpr ⟨before, e, after, rfl, hbefore, he⟩)

theorem mem_leftRefs {e : Expr} :
    ref ∈ e.leftRefs rules ↔
      ∃ t, AtLeft rules (leaf t (.ruleRef ref.name)) e ∧ t.location = ref.location := by
  constructor
  · intro href
    induction e with
    | choice t es ih =>
        rw [leftRefs, leftRefsChoice_eq_flatMap] at href
        obtain ⟨e, he, href⟩ := List.mem_flatMap.mp href
        obtain ⟨s, hs, hlocation⟩ := ih e he href
        exact ⟨s, .choice he hs, hlocation⟩
    | sequence t es ih =>
        rw [leftRefs] at href
        obtain ⟨before, e, after, rfl, hbefore, href⟩ := mem_leftRefsSequence.mp href
        obtain ⟨s, hs, hlocation⟩ := ih e (by simp) href
        exact ⟨s, .sequence hbefore hs, hlocation⟩
    | apply t op e ih =>
        obtain ⟨s, hs, hlocation⟩ := ih href
        exact ⟨s, .apply hs, hlocation⟩
    | leaf t l =>
        cases l with
        | ruleRef name =>
            obtain rfl := List.mem_singleton.mp href
            exact ⟨t, .self, rfl⟩
        | _ => cases href
  · rintro ⟨t, h, hlocation⟩
    induction h with
    | self =>
        rw [leftRefs, hlocation]
        exact List.mem_singleton_self ref
    | choice he _ ih =>
        rw [leftRefs, leftRefsChoice_eq_flatMap]
        exact List.mem_flatMap.mpr ⟨_, he, ih⟩
    | sequence hbefore _ ih =>
        rw [leftRefs]
        exact mem_leftRefsSequence.mpr ⟨_, _, _, rfl, hbefore, ih⟩
    | apply _ ih => exact ih

end LeftRefs

end Expr

/-- Whether the body of one of the rules refers to another one at a left position. -/
structure Rule.LeftCalls (rules : List Rule) (r s : Rule) : Prop where
  caller : r ∈ rules
  callee : s ∈ rules
  exists_ref : ∃ t, Expr.AtLeft rules (.leaf t (.ruleRef s.name)) r.body

/-- Ways down to a rule: the rules that were passed, and the references at left positions by which
each of them was left for the next. -/
inductive Descent (rules : List Rule) : List Rule → List RuleRef → Rule → Prop
  | start {r} (hr : r ∈ rules) : Descent rules [] [] r
  | enter {path steps r ref s} (h : Descent rules path steps r) (href : ref ∈ r.body.leftRefs rules)
      (hs : findRule? rules ref.name = some s) : Descent rules (path ++ [r]) (steps ++ [ref]) s

section Descent

variable {rules path : List Rule} {steps refs : List RuleRef} {r : Rule} {defect : Defect}

namespace Descent

theorem mem (h : Descent rules path steps r) : r ∈ rules := by
  cases h with
  | start hr => exact hr
  | enter _ _ hs => exact mem_of_findRule? hs

theorem path_subset (h : Descent rules path steps r) : ∀ s ∈ path, s ∈ rules := by
  induction h with
  | start => simp
  | enter h _ _ ih =>
      intro s hs
      rcases List.mem_append.mp hs with hs | hs
      · exact ih s hs
      · exact List.mem_singleton.mp hs ▸ h.mem

theorem length_steps (h : Descent rules path steps r) : steps.length = path.length := by
  induction h with
  | start => rfl
  | enter _ _ _ ih => simp [ih]

/-- Each rule that was passed refers to the next one, by the step of the same number. -/
theorem exists_step (h : Descent rules path steps r) {i : Nat} {s : Rule} (hs : path[i]? = some s) :
    ∃ ref next, steps[i]? = some ref ∧ (path ++ [r])[i + 1]? = some next ∧
      ref.name = next.name ∧ ref ∈ s.body.leftRefs rules := by
  induction h with
  | start => cases hs
  | @enter path steps r ref last h href hlast ih =>
      have hlength := h.length_steps
      by_cases hi : i < path.length
      · rw [List.getElem?_append_left hi] at hs
        obtain ⟨step, next, hstep, hnext, hname, hmem⟩ := ih hs
        refine ⟨step, next, ?_, ?_, hname, hmem⟩
        · rw [List.getElem?_append_left (hlength ▸ hi), hstep]
        · rw [List.getElem?_append_left (by simpa using hi), hnext]
      · obtain ⟨rfl, rfl⟩ : i = path.length ∧ s = r := by
          rw [List.getElem?_append_right (Nat.le_of_not_lt hi)] at hs
          have hlt := (List.getElem?_eq_some_iff.mp hs).1
          have hzero : i - path.length = 0 := by simpa using hlt
          rw [hzero] at hs
          exact ⟨by omega, (Option.some.inj hs).symm⟩
        refine ⟨ref, last, ?_, ?_, (name_of_findRule? hlast).symm, href⟩
        · simp [← hlength]
        · simp

theorem transGen (h : Descent rules path steps r) :
    ∀ s ∈ path, TransGen (Rule.LeftCalls rules) s r := by
  induction h with
  | start => simp
  | @enter path steps r ref last h href hlast ih =>
      have hcall : Rule.LeftCalls rules r last := by
        obtain ⟨t, ht, -⟩ := Expr.mem_leftRefs.mp href
        exact ⟨h.mem, mem_of_findRule? hlast, t, name_of_findRule? hlast ▸ ht⟩
      intro s hs
      rcases List.mem_append.mp hs with hs | hs
      · exact .tail (ih s hs) hcall
      · exact List.mem_singleton.mp hs ▸ .single hcall

end Descent

/-- What the search finds is a way down to a rule that was passed before. -/
theorem exists_descent {names : List String} (hd : Descent rules path steps r)
    (hpath : names = (path ++ [r]).map (·.name)) (hnodup : names.Nodup)
    (hrefs : ∀ ref ∈ refs, ref ∈ r.body.leftRefs rules)
    (h : leftRecursionFrom? rules names steps refs = some defect) :
    ∃ path' steps' last, Descent rules path' steps' last ∧ (path'.map (·.name)).Nodup ∧
      last.name ∈ path'.map (·.name) ∧
        defect = .leftRecursion ((path' ++ [last]).map (·.name)) last.nameLocation steps' := by
  fun_induction leftRecursionFrom? rules names steps refs generalizing path r with
  | case1 names steps refs ih =>
      obtain ⟨ref, href, hfound⟩ := List.exists_of_findSome?_eq_some h
      split at hfound
      · cases hfound
      · next s hs =>
          have hname := name_of_findRule? hs
          have hdown := hd.enter (hrefs ref href) hs
          have hnames : names ++ [ref.name] = (path ++ [r] ++ [s]).map (·.name) := by
            rw [List.map_append, ← hpath, List.map_singleton, hname]
          split at hfound
          · next hmem =>
              refine ⟨_, _, s, hdown, hpath ▸ hnodup, hpath ▸ hname ▸ hmem, ?_⟩
              rw [← hnames]
              exact (Option.some.inj hfound).symm
          · next hmem =>
              refine ih ref s hs hmem hdown hnames ?_ (fun _ h => h) hfound
              rw [← List.concat_eq_append]
              exact hnodup.concat hmem

end Descent

/-! ## Reports -/

theorem Defect.location_stepNotes (i : Nat) (steps : List RuleRef) :
    (stepNotes i steps).map (·.location) = steps.map (·.location) := by
  fun_induction stepNotes i steps with
  | case1 => rfl
  | case2 => rfl
  | case3 i ref refs _ ih => rw [List.map_cons, List.map_cons, ih]

/-- Whether a report tells of the rules on a path, each of which refers to the next at a left
position, and of the last one that it comes back to one of them. -/
structure Report.TellsCycle (rules : List Rule) (report : Report) (path : List Rule) (last : Rule) :
    Prop where
  message : report.message = "Possible infinite loop when parsing (left recursion: " ++
    " -> ".intercalate ((path ++ [last]).map (·.name)) ++ ")"
  location : report.location = last.nameLocation
  path_subset : ∀ r ∈ path, r ∈ rules
  last_mem : last ∈ path
  names_nodup : (path.map (·.name)).Nodup
  length_notes : report.notes.length = path.length
  exists_note : ∀ (i : Nat) (r : Rule), path[i]? = some r → ∃ note next t,
    report.notes[i]? = some note ∧ (path ++ [last])[i + 1]? = some next ∧
      Expr.AtLeft rules (.leaf t (.ruleRef next.name)) r.body ∧ t.location = note.location

section Reports

variable {rules path : List Rule} {steps : List RuleRef} {last : Rule}

theorem Descent.tellsCycle (h : Descent rules path steps last)
    (hnodup : (path.map (·.name)).Nodup) (hlast : last ∈ path) :
    (Defect.leftRecursion ((path ++ [last]).map (·.name)) last.nameLocation steps).report.TellsCycle
      rules path last := by
  have hlocations := Defect.location_stepNotes 1 steps
  refine ⟨rfl, rfl, h.path_subset, hlast, hnodup, ?_, fun i r hr => ?_⟩
  · have hlength := congrArg List.length hlocations
    rw [List.length_map, List.length_map, h.length_steps] at hlength
    exact hlength
  · obtain ⟨ref, next, href, hnext, hname, hmem⟩ := h.exists_step hr
    obtain ⟨t, ht, hlocation⟩ := Expr.mem_leftRefs.mp hmem
    have hnote : ((Defect.stepNotes 1 steps)[i]?).map (·.location) = some ref.location := by
      rw [← List.getElem?_map, hlocations, List.getElem?_map, href, Option.map_some]
    obtain ⟨note, hnote, hsame⟩ := Option.map_eq_some_iff.mp hnote
    exact ⟨note, next, t, hnote, hnext, hname ▸ ht, hlocation.trans hsame.symm⟩

variable {g : Grammar}

/-- What is reported for a grammar is a way down that comes back to where it has been. -/
theorem Grammar.exists_descent_of_leftRecursion? (hnames : g.ruleNames.Nodup) {defect : Defect}
    (h : g.leftRecursion? = some defect) :
    ∃ path steps last, Descent g.rules path steps last ∧ (path.map (·.name)).Nodup ∧ last ∈ path ∧
      defect = .leftRecursion ((path ++ [last]).map (·.name)) last.nameLocation steps := by
  obtain ⟨r, hr, hfound⟩ := List.exists_of_findSome?_eq_some h
  have hstart : Descent g.rules [] [] r := .start hr
  obtain ⟨path, steps, last, hd, hnodup, hlast, hdefect⟩ :=
    exists_descent hstart rfl (List.nodup_singleton _) (fun _ h => h) hfound
  obtain ⟨s, hs, hname⟩ := List.mem_map.mp hlast
  obtain rfl : s = last := List.inj_on_of_nodup_map hnames (hd.path_subset s hs) hd.mem hname
  exact ⟨path, steps, s, hd, hnodup, hs, hdefect⟩

/-- Where nothing is reported, no rule comes back to itself. -/
theorem not_transGen_of_leftRecursion?_eq_none (hnames : g.ruleNames.Nodup)
    (h : g.leftRecursion? = none) (r : Rule) : ¬TransGen (Rule.LeftCalls g.rules) r r := by
  intro hcycle
  have hcalls : ∀ a b, Rule.LeftCalls g.rules a b → LeftCalls g.rules a.name b.name := by
    rintro a b ⟨ha, -, t, ht⟩
    refine ⟨a, findRule?_of_mem hnames ha, ⟨b.name, t.location⟩, ?_, rfl⟩
    exact Expr.mem_leftRefs.mpr ⟨t, ht, rfl⟩
  have hnamed : TransGen (LeftCalls g.rules) r.name r.name :=
    TransGen.lift Rule.name hcalls r r hcycle
  exact (wellFounded_leftCalls h).transGen.irrefl.irrefl r.name (transGen_swap.mp hnamed)

end Reports

/-- Of a grammar whose rules have distinct names, left recursion is reported just when some rule
comes back to itself through references at left positions, and the report tells of such rules. -/
theorem leftRecursion_reported_iff_cycle {o : Options} {g : Grammar} (hnames : g.ruleNames.Nodup) :
    ((∃ defect, (Pass.reportInfiniteRecursion.run o g).2 = .error defect) ↔
      ∃ r, TransGen (Rule.LeftCalls g.rules) r r) ∧
    ∀ defect, (Pass.reportInfiniteRecursion.run o g).2 = .error defect →
      ∃ path last, defect.report.TellsCycle g.rules path last := by
  simp only [Pass.run, Pass.check_eq_error_iff]
  refine ⟨⟨?_, ?_⟩, fun defect h => ?_⟩
  · rintro ⟨defect, h⟩
    obtain ⟨path, steps, last, hd, -, hlast, -⟩ := Grammar.exists_descent_of_leftRecursion? hnames h
    exact ⟨last, hd.transGen last hlast⟩
  · rintro ⟨r, hr⟩
    cases h : g.leftRecursion? with
    | none => exact absurd hr (not_transGen_of_leftRecursion?_eq_none hnames h r)
    | some defect => exact ⟨defect, rfl⟩
  · obtain ⟨path, steps, last, hd, hnodup, hlast, rfl⟩ :=
      Grammar.exists_descent_of_leftRecursion? hnames h
    exact ⟨path, last, hd.tellsCycle hnodup hlast⟩

open Build in
/-- Items that end in a call of an item, behind a sign that may be missing. -/
def signedCalls : Grammar :=
  grammar
    [rule "start" (oneOrMore (sequence [ruleRef "item", literal ";"])),
      rule "item" (choice [literal "x", sequence [optional (literal "-"), text (ruleRef "call")]]),
      rule "call" (sequence [simpleNot (literal "!"), ruleRef "item", literal "()"])]

theorem signedCalls_cycle :
    signedCalls.ruleNames.Nodup ∧ (∃ r, TransGen (Rule.LeftCalls signedCalls.rules) r r) ∧
    ∃ defect path last, (Pass.reportInfiniteRecursion.run .standard signedCalls).2 = .error defect ∧
      defect.report.TellsCycle signedCalls.rules path last := by
  have hnames : signedCalls.ruleNames.Nodup := by decide
  have hfound : (Pass.reportInfiniteRecursion.run .standard signedCalls).2 =
      .error (.leftRecursion ["start", "item", "call", "item"] .unknown
        [⟨"item", .unknown⟩, ⟨"call", .unknown⟩, ⟨"item", .unknown⟩]) := by decide +kernel
  obtain ⟨hiff, htells⟩ := leftRecursion_reported_iff_cycle hnames
  obtain ⟨path, last, h⟩ := htells _ hfound
  exact ⟨hnames, hiff.mp ⟨_, hfound⟩, _, path, last, hfound, h⟩

end PegCompiler
