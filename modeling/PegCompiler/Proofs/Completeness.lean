import PegCompiler.Proofs.Layout
import PegCompiler.Proofs.Offsets
import PegCompiler.Proofs.Preservation
import PegCompiler.Proofs.Proxies
import PegCompiler.Proofs.Termination

/-!
# Checked grammars compile

The passes behind the checks find no defect in what the checks accept. References survive the
removal of proxies, inference comes to an end, and the generated code has a listing.
-/

namespace PegCompiler

open Inference

/-! ## Running passes -/

section Running

variable {o : Options} {g g' : Grammar}

theorem runPasses_append (first rest : List Pass) :
    runPasses o g (first ++ rest) = (runPasses o g first).bind (runPasses o · rest) := by
  induction first generalizing g with
  | nil => rfl
  | cons pass passes ih =>
      simp only [List.cons_append, runPasses]
      split
      · exact ih
      · rfl

theorem runPasses_append_of_ok {first rest : List Pass} (h : runPasses o g first = .ok g') :
    runPasses o g (first ++ rest) = runPasses o g' rest := by
  rw [runPasses_append, h]
  rfl

theorem runPasses_cons_of_keeps {pass : Pass} {rest : List Pass} (hkeeps : (pass.run o g).1 = g)
    (h : pass.Accepts o g) : runPasses o g (pass :: rest) = runPasses o g rest := by
  have hrun : pass.run o g = (g, .ok ()) := Prod.ext hkeeps h
  rw [runPasses, hrun]

theorem Pass.fst_check (found : Option Defect) : (Pass.check g found).1 = g := by
  cases found <;> rfl

theorem Pass.fst_run_of_check {pass : Pass} (h : pass ∈ Passes.standard.check) :
    (pass.run o g).1 = g := by
  simp only [Passes.standard, List.mem_cons, List.not_mem_nil, or_false] at h
  rcases h with rfl | rfl | rfl | rfl | rfl | rfl | rfl <;> exact fst_check _

theorem runPasses_of_accepts {passes : List Pass} (hkeeps : ∀ pass ∈ passes, (pass.run o g).1 = g)
    (h : ∀ pass ∈ passes, pass.Accepts o g) : runPasses o g passes = .ok g := by
  induction passes with
  | nil => rfl
  | cons pass passes ih =>
      obtain ⟨hkeep, hkeeps⟩ := List.forall_mem_cons.mp hkeeps
      obtain ⟨hpass, h⟩ := List.forall_mem_cons.mp h
      rw [runPasses_cons_of_keeps hkeep hpass]
      exact ih hkeeps h

theorem compile_of_runPasses {o' : Options} {passes : Passes} (hoptions : o.validate g = .ok o')
    (h : runPasses o' g passes.toList = .ok g') : compile g passes o = .ok g' := by
  simp only [compile, hoptions, h]

/-- The start rules that options are completed with are rules. -/
theorem Options.mem_ruleNames_of_validate {o' : Options} (h : o.validate g = .ok o') {name : String}
    (hname : name ∈ o'.starts) : name ∈ g.ruleNames := by
  unfold validate at h
  split at h
  · cases h
  · dsimp only at h
    split at h
    · cases h
    · split at h
      · cases h
      · next hfound =>
          obtain rfl := Except.ok.inj h
          have hmem := List.find?_eq_none.mp hfound name hname
          simpa using hmem

end Running

/-! ## Listings of all rules -/

/-- Whether the code of every rule is short enough for signed words to number its slots. -/
def Grammar.HasShortCode (g : Grammar) : Prop :=
  ∀ r ∈ g.rules, ∀ code, r.bytecode = some code → code.length < signedSize

/-- Whether the rules that come with an outcome have no more nodes than signed words can number. -/
def Grammar.HasSmallPresets (g : Grammar) : Prop :=
  ∀ r ∈ g.rules, r.outcome.isSome → r.body.nodes.length ≤ signedSize

namespace Grammar

variable {g : Grammar}

theorem hasShortCode_of_lengths {lengths : List (Option Nat)}
    (h : g.rules.map (·.bytecode.map (·.length)) = lengths)
    (hshort : ∀ n, some n ∈ lengths → n < signedSize) : g.HasShortCode := by
  intro r hr code hcode
  refine hshort _ ?_
  rw [← h]
  exact List.mem_map.mpr ⟨r, hr, by rw [hcode, Option.map_some]⟩

theorem unlisted?_eq_none_iff :
    g.unlisted? = none ↔ ∀ r ∈ g.rules, ∃ listing, g.list r = .ok listing := by
  rw [unlisted?, List.findSome?_eq_none_iff]
  refine forall₂_congr fun r _ => ?_
  cases g.list r <;> simp

/-- Short code has its slots close enough together for signed words. -/
theorem offsetsReach_of_short {c : Constants} {names : List String} {r : Rule}
    (hchoices : r.body.ChoicesNonempty)
    (hroom : r.body.nodes.length ≤ signedSize ∨ r.body.Coherent)
    (hlen : (r.assemble c names).length < signedSize) :
    OffsetsReach signedSize (Instr.listOperands r.lower.code) := by
  have hsize : Instr.listSize r.lower.code ≤ signedSize := by
    rw [Rule.assemble, Instr.length_listWords] at hlen
    exact Nat.le_of_lt hlen
  have hbounded : r.body.Room signedSize 0 (Instr.listSize r.lower.code) :=
    hroom.imp (by omega) fun h => ⟨h, by omega⟩
  exact (Expr.bounded_of_choicesNonempty hchoices signedSize none 0 .empty Scope.below_empty
    hbounded).reach

section Assembled

variable (hrefs : RefsDefined g.rules) (hchoices : ∀ r ∈ g.rules, r.body.ChoicesNonempty)
  (hroom : ∀ r ∈ g.rules, r.body.nodes.length ≤ signedSize ∨ r.body.Coherent)
  (hshort : g.assembled.HasShortCode)

include hrefs hchoices hroom hshort

theorem exists_framed_of_assembled :
    ∀ r ∈ g.assembled.rules, ∃ code table, r.bytecode = some code ∧
      Framed g.ruleNames 0 code 0 1 table := by
  intro s hs
  obtain ⟨r, hr, rfl⟩ := List.mem_map.mp hs
  have hlen : (r.assemble (ruleConstants g.rules) g.ruleNames).length < signedSize :=
    hshort _ hs _ rfl
  obtain ⟨table, hframed, -⟩ := Rule.exists_framed (hchoices r hr)
    (fun ref href => isDefined_iff_mem.mp (hrefs r hr ref href)) hlen
    (offsetsReach_of_short (hchoices r hr) (hroom r hr) hlen)
  exact ⟨_, table, rfl, hframed⟩

theorem exists_list_of_assembled :
    ∀ r ∈ g.assembled.rules, ∃ listing, g.assembled.list r = .ok listing := by
  intro s hs
  obtain ⟨r, hr, rfl⟩ := List.mem_map.mp hs
  have hlen : (r.assemble (ruleConstants g.rules) g.ruleNames).length < signedSize :=
    hshort _ hs _ rfl
  rw [Grammar.list, ruleNames_assembled]
  exact Rule.exists_list (hchoices r hr)
    (fun ref href => isDefined_iff_mem.mp (hrefs r hr ref href)) hlen
    (offsetsReach_of_short (hchoices r hr) (hroom r hr) hlen)

end Assembled

end Grammar

/-! ## Transformed rules -/

section Transformed

variable {rules rules' : List Rule} {isStart : String → Bool}

theorem choicesNonempty_of_transformed (h : Progress (withoutProxies isStart rules) rules')
    (hchoices : ∀ r ∈ rules, r.body.ChoicesNonempty) : ∀ r ∈ rules', r.body.ChoicesNonempty := by
  intro r' hr'
  obtain ⟨r, hr, hsource⟩ := h.exists_source hr'
  obtain ⟨s, hs, rfl⟩ := exists_of_mem_withoutProxies hr
  have hbody : (s.body.rename (redirect rules)).ChoicesNonempty :=
    Expr.choicesNonempty_rename.mpr (hchoices s hs)
  obtain rfl | ⟨-, k, -, rfl⟩ := hsource
  · exact hbody
  · exact Expr.choicesNonempty_annotate.mpr hbody

/-- A rule that was not inferred had its outcome from the start, and is as large as it was. -/
theorem room_of_transformed (h : Progress (withoutProxies isStart rules) rules')
    (hsome : ∀ r ∈ rules', r.outcome.isSome)
    (hpreset : ∀ r ∈ rules, r.outcome.isSome → r.body.nodes.length ≤ signedSize) :
    ∀ r ∈ rules', r.body.nodes.length ≤ signedSize ∨ r.body.Coherent := by
  intro r' hr'
  obtain ⟨r, hr, hsource⟩ := h.exists_source hr'
  obtain rfl | ⟨-, k, -, rfl⟩ := hsource
  · obtain ⟨s, hs, rfl⟩ := exists_of_mem_withoutProxies hr
    have hlen := hpreset s hs (hsome (s.rename (redirect rules)) hr')
    rw [← Expr.length_nodes_rename (redirect rules)] at hlen
    exact .inl hlen
  · exact .inr (Expr.coherent_annotate k r.body)

end Transformed

theorem Grammar.exists_transformed {g : Grammar} (o : Options) (hnodup : g.ruleNames.Nodup)
    (hwf : WellFounded fun b a => LeftCalls g.rules a b) (hrefs : RefsDefined g.rules) :
    ∃ rules', Progress (withoutProxies o.isStart g.rules) rules' ∧
      (∀ r ∈ rules', r.outcome.isSome) ∧
      runPasses o g (Passes.standard.transform ++ [.generateBytecode]) =
        .ok { g with rules := rules' }.assembled := by
  let lasting : Grammar := { g with rules := withoutProxies o.isStart g.rules }
  have hlasting : RefsDefined lasting.rules := refsDefined_withoutProxies hnodup hwf hrefs
  obtain ⟨rules', hprog, hsome, hrun⟩ := Grammar.exists_inferred hlasting
  refine ⟨rules', hprog, hsome, ?_⟩
  have htransform : Passes.standard.transform ++ [.generateBytecode] =
      [.removeProxyRules, .inferMatchResults, .generateBytecode] := rfl
  rw [htransform, runPasses, Pass.run_removeProxyRules]
  exact hrun o

/-- When the checks accept a grammar the passes behind them succeed: all rules that are left have
code, and the start rules are among them. Short code has a listing, so `compile` succeeds as well. A
rule that came with an outcome is not inferred, and what its nodes say may keep code away that has
labels in more slots than there are words of code: it must not be too large itself. -/
theorem compile_succeeds_of_checked {g : Grammar} {o o' : Options}
    (hchoices : ∀ r ∈ g.rules, r.body.ChoicesNonempty) (hoptions : o.validate g = .ok o')
    (hchecks : ∀ pass ∈ Passes.standard.check, pass.Accepts o' g) :
    ∃ g', runPasses o' g (Passes.standard.check ++ Passes.standard.transform ++
        [.generateBytecode]) = .ok g' ∧
      g'.constants.isSome ∧ (∀ r ∈ g'.rules, r.bytecode.isSome) ∧
      (∀ name ∈ o'.starts, name ∈ g'.ruleNames) ∧
      (g'.HasShortCode → g.HasSmallPresets →
        compile g .standard o = .ok g' ∧ ∀ r ∈ g'.rules, ∃ listing, g'.list r = .ok listing) := by
  have hrefs : RefsDefined g.rules := Grammar.undefinedRule?_eq_none_iff.mp
    (Pass.accepts_reportUndefinedRules.mp (hchecks _ (by simp [Passes.standard])))
  have hnodup : g.ruleNames.Nodup := Grammar.duplicateRule?_eq_none_iff.mp
    (Pass.accepts_reportDuplicateRules.mp (hchecks _ (by simp [Passes.standard])))
  have hwf := wellFounded_leftCalls
    (Pass.accepts_reportInfiniteRecursion.mp (hchecks _ (by simp [Passes.standard])))
  obtain ⟨rules', hprog, hsome, hrun⟩ := Grammar.exists_transformed o' hnodup hwf hrefs
  have hchecked : runPasses o' g Passes.standard.check = .ok g :=
    runPasses_of_accepts (fun _ hpass => Pass.fst_run_of_check hpass) hchecks
  have hgenerated : runPasses o' g (Passes.standard.check ++ Passes.standard.transform ++
      [.generateBytecode]) = .ok { g with rules := rules' }.assembled := by
    rw [List.append_assoc, runPasses_append_of_ok hchecked, hrun]
  refine ⟨_, hgenerated, rfl, fun r hr => ?_, fun name hname => ?_, fun hshort hpreset => ?_⟩
  · obtain ⟨s, -, rfl⟩ := List.mem_map.mp hr
    rfl
  · have hmem : name ∈ (withoutProxies o'.isStart g.rules).map (·.name) :=
      start_mem_withoutProxies (Options.mem_ruleNames_of_validate hoptions hname)
        (decide_eq_true hname)
    rw [Grammar.ruleNames_assembled, Grammar.ruleNames, hprog.names]
    exact hmem
  · have hrefs' : RefsDefined rules' :=
      hprog.refsDefined (refsDefined_withoutProxies hnodup hwf hrefs)
    have hlist := Grammar.exists_list_of_assembled (g := { g with rules := rules' }) hrefs'
      (choicesNonempty_of_transformed hprog hchoices) (room_of_transformed hprog hsome hpreset)
      hshort
    refine ⟨compile_of_runPasses hoptions ?_, hlist⟩
    have hall : Passes.standard.toList = Passes.standard.check ++ Passes.standard.transform ++
        [.generateBytecode] ++ [.verifyBytecode] := rfl
    rw [hall, runPasses_append_of_ok hgenerated]
    refine runPasses_of_accepts (fun pass hpass => ?_) fun pass hpass => ?_
    · obtain rfl := List.mem_singleton.mp hpass
      exact Pass.fst_check _
    · obtain rfl := List.mem_singleton.mp hpass
      exact Pass.check_eq_ok_iff.mpr (Grammar.unlisted?_eq_none_iff.mpr hlist)

open Build in
/-- Numbers behind proxies, with a rule whose outcome is given. -/
def numbers : Grammar :=
  grammar
    [rule "start" (ruleRef "number"),
      rule "number" (choice [ruleRef "digits",
        action (sequence [literal "-", labeled "n" (ruleRef "digits")]) "return -n;"]),
      rule "digits" (ruleRef "decimal"),
      { rule "decimal" (oneOrMore (charClass [.range '0' '9'] false false)) with
        outcome := some .sometimes }]

theorem numbers_compile :
    (∀ r ∈ numbers.rules, r.body.ChoicesNonempty) ∧
    Options.standard.validate numbers = .ok ⟨some ["start"], hostKeywords⟩ ∧
    (∀ pass ∈ Passes.standard.check, pass.Accepts ⟨some ["start"], hostKeywords⟩ numbers) ∧
    numbers.HasSmallPresets ∧
    ∃ g', compile numbers .standard .standard = .ok g' ∧
      g'.ruleNames = ["start", "number", "decimal"] ∧
      ∀ r ∈ g'.rules, ∃ listing, g'.list r = .ok listing := by
  have hchoices : ∀ r ∈ numbers.rules, r.body.ChoicesNonempty := by
    simp [numbers, Build.grammar, Build.rule, Build.choice, Build.action, Build.sequence,
      Build.labeled, Build.apply, Build.oneOrMore, Build.literal, Build.ruleRef, Build.charClass,
      Build.leaf]
  have hoptions : Options.standard.validate numbers = .ok ⟨some ["start"], hostKeywords⟩ := rfl
  have hchecks : ∀ pass ∈ Passes.standard.check,
      pass.Accepts ⟨some ["start"], hostKeywords⟩ numbers := by
    decide +kernel
  have hpreset : numbers.HasSmallPresets := by
    simp only [Grammar.HasSmallPresets, numbers, Build.grammar, List.forall_mem_cons,
      List.not_mem_nil]
    refine ⟨by simp [Build.rule], by simp [Build.rule], by simp [Build.rule], fun _ => ?_, by simp⟩
    have hnodes : (Build.oneOrMore (Build.charClass [.range '0' '9'] false false)).nodes.length =
        2 := by rfl
    rw [Build.rule, hnodes, signedSize]
    decide
  refine ⟨hchoices, hoptions, hchecks, hpreset, ?_⟩
  obtain ⟨g', hrun, -, -, -, hcompile⟩ :=
    compile_succeeds_of_checked hchoices hoptions hchecks
  have hsizes : (runPasses ⟨some ["start"], hostKeywords⟩ numbers (Passes.standard.check ++
      Passes.standard.transform ++ [.generateBytecode])).toOption.map
      (fun g => (g.ruleNames, g.rules.map (·.bytecode.map (·.length)))) =
        some (["start", "number", "decimal"], [some 2, some 37, some 27]) := by
    decide +kernel
  rw [hrun] at hsizes
  obtain ⟨hnames, hlengths⟩ := Prod.mk.inj (Option.some.inj hsizes)
  have hshort : g'.HasShortCode := by
    refine Grammar.hasShortCode_of_lengths hlengths ?_
    simp [signedSize, UInt32.size]
  obtain ⟨hok, hlist⟩ := hcompile hshort hpreset
  exact ⟨g', hok, hnames, hlist⟩

end PegCompiler
