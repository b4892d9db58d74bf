import PegCompiler.Proofs.Completeness

/-!
# Code for any annotations

Code is generated from what the nodes say about their outcomes, whether that is true or not.
Whatever they say, an expression pushes one value, and the verifier accepts the code.
-/

namespace PegCompiler

open Inference

/-- Whether signed words can number the slots of all rules. A rule with more nodes than that may
have labels for code that was left away, unless no node says that it may match and a part of it that
it never does. -/
def Grammar.HasNumberedSlots (g : Grammar) : Prop :=
  ∀ r ∈ g.rules, r.body.nodes.length ≤ signedSize ∨ r.body.Coherent

/-- All references being defined and no choice empty, code is generated for every rule. Short code
is accepted by the verifier: the lengths in it delimit whole instructions, both blocks of a branch
lead to one height, the body of a loop comes back to where it began, and a rule leaves one value. -/
theorem generated_code_framed {g : Grammar} (o : Options) (hrefs : RefsDefined g.rules)
    (hchoices : ∀ r ∈ g.rules, r.body.ChoicesNonempty) :
    ∃ g', Pass.generateBytecode.run o g = (g', .ok ()) ∧ (∀ r ∈ g'.rules, r.bytecode.isSome) ∧
      (g'.HasShortCode → g.HasNumberedSlots →
        Pass.verifyBytecode.run o g' = (g', .ok ()) ∧
        ∀ r ∈ g'.rules, ∃ code table, r.bytecode = some code ∧
          Framed g'.ruleNames 0 code 0 1 table) := by
  have hgenerate : Pass.generateBytecode.run o g = (g.assembled, .ok ()) := by
    simp only [Pass.run, Grammar.generate_of_refsDefined hrefs]
  refine ⟨g.assembled, hgenerate, fun r hr => ?_, fun hshort hslots => ⟨?_, ?_⟩⟩
  · obtain ⟨s, -, rfl⟩ := List.mem_map.mp hr
    rfl
  · have hlist := Grammar.exists_list_of_assembled hrefs hchoices hslots hshort
    have hnone := Grammar.unlisted?_eq_none_iff.mpr hlist
    rw [Pass.run, hnone, Pass.check]
  · rw [Grammar.ruleNames_assembled]
    exact Grammar.exists_framed_of_assembled hrefs hchoices hslots hshort

open Build in
/-- Expressions with outcomes that they cannot have. -/
def contradictory : Grammar :=
  grammar
    [rule "start" ((choice
        [(action (sequence [(labeled "a" (literal "x")).withOutcome .never,
          labeled "b" (ruleRef "other")]) "return b;").withOutcome .always,
          optional ((literal "y").withOutcome .always)]).withOutcome .never),
      rule "other" ((oneOrMore (any.withOutcome .never)).withOutcome .always)]

theorem contradictory_framed :
    RefsDefined contradictory.rules ∧ (∀ r ∈ contradictory.rules, r.body.ChoicesNonempty) ∧
    contradictory.HasNumberedSlots ∧
    ∃ g', Pass.generateBytecode.run .standard contradictory = (g', .ok ()) ∧
      Pass.verifyBytecode.run .standard g' = (g', .ok ()) ∧
      ∀ r ∈ g'.rules, ∃ code table, r.bytecode = some code ∧
        Framed g'.ruleNames 0 code 0 1 table := by
  have hrefs : RefsDefined contradictory.rules := by
    rw [← Grammar.undefinedRule?_eq_none_iff]
    decide +kernel
  have hchoices : ∀ r ∈ contradictory.rules, r.body.ChoicesNonempty := by
    simp [contradictory, Build.grammar, Build.rule, Build.choice, Build.action, Build.sequence,
      Build.labeled, Build.apply, Build.oneOrMore, Build.literal, Build.ruleRef, Build.any,
      Build.leaf, Build.optional, Expr.withOutcome, Expr.withTag]
  have hslots : contradictory.HasNumberedSlots := by
    have hnodes : ∀ r ∈ contradictory.rules, r.body.nodes.length ≤ 9 := by
      decide +kernel
    intro r hr
    have hle := hnodes r hr
    exact .inl (Nat.le_trans hle (by decide))
  refine ⟨hrefs, hchoices, hslots, ?_⟩
  obtain ⟨g', hgenerate, -, hverify⟩ := generated_code_framed .standard hrefs hchoices
  have hsizes : (Pass.generateBytecode.run .standard contradictory).1.rules.map
      (·.bytecode.map (·.length)) = [some 12, some 6] := by
    decide +kernel
  rw [hgenerate] at hsizes
  have hshort : g'.HasShortCode := by
    refine Grammar.hasShortCode_of_lengths hsizes ?_
    simp [signedSize, UInt32.size]
  obtain ⟨haccepts, hframed⟩ := hverify hshort hslots
  exact ⟨g', hgenerate, haccepts, hframed⟩

end PegCompiler
