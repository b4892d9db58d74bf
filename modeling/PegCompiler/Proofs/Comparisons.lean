import PegCompiler.Proofs.Descriptors
import PegCompiler.Proofs.Folding

/-!
# What is compared and what is accepted

To match a literal without regard to case, its lower case form is compared with as many characters
of the input as that form has, and then as many are accepted as the literal itself has. The tests of
a rule's code that ignore case are those of such literals, in the order of the code, each with the
acceptance behind it. Both numbers are the same just for literals without the one letter that lower
case makes longer.
-/

namespace PegCompiler

open Instr

/-! ## Tests that ignore case -/

namespace Instr

mutual
/-- The tests that ignore case, with their blocks, in the order of the code. -/
def foldedTests : Instr → List Instr
  | op _ _ => []
  | branch test operands yes no =>
      (if test = .matchStringIc then [branch test operands yes no] else []) ++
        listFoldedTests yes ++ listFoldedTests no
  | loop body => listFoldedTests body

def listFoldedTests : List Instr → List Instr
  | [] => []
  | i :: is => foldedTests i ++ listFoldedTests is
end

@[simp] theorem listFoldedTests_nil : listFoldedTests [] = [] := rfl

@[simp] theorem listFoldedTests_op (code : Opcode) (operands : List Operand) (is : List Instr) :
    listFoldedTests (.op code operands :: is) = listFoldedTests is := rfl

@[simp] theorem listFoldedTests_loop (body is : List Instr) :
    listFoldedTests (.loop body :: is) = listFoldedTests body ++ listFoldedTests is := rfl

@[simp] theorem listFoldedTests_append (a b : List Instr) :
    listFoldedTests (a ++ b) = listFoldedTests a ++ listFoldedTests b := by
  induction a with
  | nil => rfl
  | cons i is ih =>
      rw [List.cons_append, listFoldedTests, ih, listFoldedTests, List.append_assoc]

theorem listFoldedTests_branch {test : Opcode} (htest : test ≠ .matchStringIc)
    (operands : List Operand) (yes no is : List Instr) :
    listFoldedTests (.branch test operands yes no :: is) =
      listFoldedTests yes ++ listFoldedTests no ++ listFoldedTests is := by
  rw [listFoldedTests, foldedTests, if_neg htest, List.nil_append]

theorem listFoldedTests_condition {outcome : Outcome} {test : Opcode}
    (htest : test ≠ .matchStringIc) {operands : List Operand} {yes no : List Instr}
    (hno : listFoldedTests no = []) :
    listFoldedTests (condition outcome test operands yes no) =
      if outcome = .never then [] else listFoldedTests yes := by
  cases outcome <;> simp [condition, listFoldedTests_branch htest, hno]

mutual
theorem listOperands_foldedTests_subset (i : Instr) :
    listOperands (foldedTests i) ⊆ operands i := by
  cases i with
  | op code os => exact List.nil_subset _
  | branch test os yes no =>
      have hyes := listOperands_listFoldedTests_subset yes
      have hno := listOperands_listFoldedTests_subset no
      rw [foldedTests, listOperands_append, listOperands_append]
      refine List.append_subset.mpr ⟨List.append_subset.mpr ⟨?_, ?_⟩, ?_⟩
      · split
        · simp [operands]
        · exact List.nil_subset _
      · exact fun o ho => List.mem_append_left _ (List.mem_append_right _ (hyes ho))
      · exact fun o ho => List.mem_append_right _ (hno ho)
  | loop body => exact listOperands_listFoldedTests_subset body

theorem listOperands_listFoldedTests_subset (is : List Instr) :
    listOperands (listFoldedTests is) ⊆ listOperands is := by
  cases is with
  | nil => exact List.nil_subset _
  | cons i is =>
      rw [listFoldedTests, listOperands_append]
      exact List.append_subset.mpr
        ⟨fun o ho => List.mem_append_left _ (listOperands_foldedTests_subset i ho),
          fun o ho => List.mem_append_right _ (listOperands_listFoldedTests_subset is ho)⟩
end

end Instr

/-- The test for a literal without regard to case, the acceptance of it and its failure. -/
def foldedTest (value : String) : Instr :=
  .branch .matchStringIc [.symbol (.literal (Text.lowercase value))]
    [.op .acceptN [.count value.length]] [.op .fail [.symbol (.expectation (.literal value true))]]

/-- The literal that the instruction tests for without regard to case. -/
def Emission.foldedLiteral? (em : Emission) : Option String :=
  match em.opcode, em.site.node with
  | .matchStringIc, .leaf t (.literal value true) =>
      if value ≠ "" ∧ t.outcome = .sometimes then some value else none
  | _, _ => none

/-- The tests that are emitted for literals without regard to case. -/
def foldedTestsOf (es : List Emission) : List Instr :=
  (es.filterMap Emission.foldedLiteral?).map foldedTest

@[simp] theorem foldedTestsOf_nil : foldedTestsOf [] = [] := rfl

@[simp] theorem foldedTestsOf_append (es es' : List Emission) :
    foldedTestsOf (es ++ es') = foldedTestsOf es ++ foldedTestsOf es' := by
  simp [foldedTestsOf]

theorem foldedTestsOf_eq_nil {es : List Emission} (h : ∀ em ∈ es, em.foldedLiteral? = none) :
    foldedTestsOf es = [] := by
  rw [foldedTestsOf, List.filterMap_eq_nil_iff.mpr h, List.map_nil]

/-- Other instructions are no such tests. -/
theorem Emission.foldedLiteral?_eq_none {em : Emission} (h : em.opcode ≠ .matchStringIc) :
    em.foldedLiteral? = none := by
  unfold foldedLiteral?
  split
  · next hopcode _ => exact absurd hopcode h
  · rfl

section Leaves

variable {height : Nat} {s : Scope} (around : List Expr) (labels : List String)

/-- The code of a test with other conditions. -/
theorem foldedTests_test {outcome : Outcome} {test : Opcode} (htest : test ≠ .matchStringIc)
    {operands : List Operand} {accept : Instr} {e : Expectation}
    (haccept : listFoldedTests [accept] = []) :
    listFoldedTests (condition outcome test operands [accept] (failure outcome e).1) = [] := by
  have hfail : listFoldedTests (failure outcome e).1 = [] := by
    unfold failure
    split <;> rfl
  rw [listFoldedTests_condition htest hfail, haccept, ite_self]

theorem foldedTests_lowerLiteral (t : Tag) (value : String) :
    listFoldedTests (lowerLiteral t.outcome value true s).code =
      foldedTestsOf ((Expr.leaf t (.literal value true)).emissions around none labels) := by
  rw [lowerLiteral, Expr.emissions]
  by_cases hvalue : value = ""
  · subst hvalue
    rfl
  have hempty : value.isEmpty = false := by simpa [String.isEmpty_iff] using hvalue
  cases houtcome : t.outcome <;>
    simp [Leaf.opcodes, hempty, hvalue, houtcome, condition, failure, foldedTestsOf,
      Emission.foldedLiteral?, foldedTest, listFoldedTests, foldedTests]

theorem foldedTests_lowerLeaf (t : Tag) (l : Leaf) :
    listFoldedTests (lowerLeaf t l height s).code =
      foldedTestsOf ((Expr.leaf t l).emissions around none labels) := by
  by_cases hfolded : ∃ value, l = .literal value true
  · obtain ⟨value, rfl⟩ := hfolded
    exact foldedTests_lowerLiteral around labels t value
  have hemissions : foldedTestsOf ((Expr.leaf t l).emissions around none labels) = [] := by
    refine foldedTestsOf_eq_nil fun em hem => ?_
    obtain ⟨opcode, -, rfl⟩ := List.mem_map.mp hem
    unfold Emission.foldedLiteral?
    split
    · next value _ hnode => exact absurd ⟨value, (Expr.leaf.inj hnode).2⟩ hfolded
    · rfl
  rw [hemissions]
  cases l with
  | semanticAnd code | semanticNot code =>
      exact (listFoldedTests_condition (by decide) rfl).trans (ite_self _)
  | ruleRef name => rfl
  | literal value ignoreCase =>
      cases ignoreCase with
      | true => exact absurd ⟨value, rfl⟩ hfolded
      | false =>
          rw [lowerLeaf, lowerLiteral]
          split
          · rfl
          · exact foldedTests_test (by decide) rfl
  | charClass set => exact foldedTests_test (by decide) rfl
  | any => exact foldedTests_test (by decide) rfl

end Leaves

section Operators

variable {body : Lowered} {e : Expr} {height : Nat} {s : Scope}

/-- An operator tests for no literal by itself, and a repetition does so twice. -/
theorem foldedTests_lowered {t : Tag} {op : Operator} {inside : List Emission} (site : Site)
    (labels : List String) (hbody : listFoldedTests body.code = foldedTestsOf inside) :
    listFoldedTests (op.lowered t e height s body).code =
      foldedTestsOf (op.emissions t e site labels inside) := by
  -- what an operator emits for itself is a call or a failure
  have hown (c : Prop) [Decidable c] {opcode : Opcode} (hopcode : opcode ≠ .matchStringIc)
      (labels : List String) :
      foldedTestsOf (if c then [] else [⟨site, opcode, labels⟩]) = [] ∧
        foldedTestsOf (if c then [⟨site, opcode, labels⟩] else []) = [] := by
    have hnone : foldedTestsOf [⟨site, opcode, labels⟩] = [] :=
      foldedTestsOf_eq_nil (by simpa using Emission.foldedLiteral?_eq_none hopcode)
    constructor <;> split <;> first | rfl | exact hnone
  have hfail : Opcode.fail ≠ .matchStringIc := by decide
  have hcall : Opcode.call ≠ .matchStringIc := by decide
  cases op with
  | named name =>
      have hreport : listFoldedTests (if t.outcome = .sometimes then
          [.branch .ifError [] [.op .pop [], .op .fail [.symbol (.expectation (.rule name))]] []]
          else []) = [] := by
        split <;> rfl
      rw [Operator.emissions, foldedTestsOf_append, (hown _ hfail labels).2]
      simp only [Operator.lowered, lowerNamed, listFoldedTests_append, hreport]
      simpa using hbody
  | action code =>
      simp only [Operator.lowered, Operator.emissions]
      split
      · exact hbody
      · rw [foldedTestsOf_append, (hown _ hcall _).1]
        simp only [lowerAction, listFoldedTests_append]
        rw [listFoldedTests_condition (by decide) rfl]
        simpa [callOf] using hbody
  | labeled label location pick | group => exact hbody
  | text | simpleAnd | simpleNot | optional =>
      simp only [Operator.lowered, lowerText, lowerSimpleAnd, lowerSimpleNot, lowerOptional,
        listFoldedTests_append]
      rw [listFoldedTests_condition (by decide) rfl]
      simpa [Operator.emissions] using hbody
  | zeroOrMore =>
      simp only [Operator.lowered, lowerZeroOrMore, Operator.emissions, foldedTestsOf_append,
        listFoldedTests_append, appendLoop, listFoldedTests_loop, listFoldedTests_op,
        listFoldedTests_nil, hbody, List.nil_append, List.append_nil]
  | oneOrMore =>
      simp only [Operator.lowered, lowerOneOrMore, Operator.emissions, foldedTestsOf_append,
        listFoldedTests_append]
      rw [listFoldedTests_condition (by decide) rfl]
      simp only [appendLoop, listFoldedTests_loop, listFoldedTests_op, listFoldedTests_nil, hbody,
        List.nil_append, List.append_nil]
      split <;> rfl

end Operators

section Lists

variable {es : List Expr} {around : List Expr} {height : Nat} {s : Scope}

/-- Whether the tests that ignore case in the code of an expression are those that it emits. -/
def Expr.FoldsAsTold (e : Expr) : Prop :=
  ∀ around caller labels action height s,
    listFoldedTests (e.lower action height s).code =
      foldedTestsOf (e.emissions around caller labels)

theorem foldedTests_lowerAlternatives (hes : ∀ e ∈ es, e.FoldsAsTold) (labels : List String) :
    listFoldedTests (Expr.lowerAlternatives es height s).code =
      foldedTestsOf (Expr.emissionsOfChoice around labels es) := by
  induction es with
  | nil => rfl
  | cons e es ih =>
      obtain ⟨he, hes⟩ := List.forall_mem_cons.mp hes
      rw [Expr.lowerAlternatives, Expr.emissionsOfChoice, foldedTestsOf_append,
        ← he around none labels none height s.inner]
      dsimp only
      by_cases halways : e.outcome = .always
      · simp [halways]
      cases es with
      | nil => simp [Expr.emissionsOfChoice]
      | cons e' es =>
          rw [if_neg halways, ← ih hes]
          simp [halways, orElse, listFoldedTests_branch]

theorem foldedTests_unwind (n : Nat) : listFoldedTests (unwind n) = [] := by
  unfold unwind dropTop
  split <;> rfl

theorem foldedTests_sequenceEnd (caller : Option Site) (picked : Bool) (labels : List String)
    (action : Option String) (n : Nat) :
    listFoldedTests (sequenceEnd action n height s).code =
      foldedTestsOf (Expr.emissionsOfElements around caller picked labels []) := by
  have hcall : Opcode.call ≠ .matchStringIc := by decide
  have hemissions :
      foldedTestsOf (Expr.emissionsOfElements around caller picked labels []) = [] := by
    refine foldedTestsOf_eq_nil fun em hem => ?_
    rw [Expr.emissionsOfElements] at hem
    split at hem
    · cases hem
    · obtain ⟨site, -, rfl⟩ := List.mem_map.mp hem
      exact Emission.foldedLiteral?_eq_none hcall
  rw [hemissions]
  unfold sequenceEnd
  split
  · cases action <;> rfl
  · rfl

theorem foldedTests_lowerElements (hes : ∀ e ∈ es, e.FoldsAsTold) (caller : Option Site)
    (picked : Bool) (labels : List String) (action : Option String) (n : Nat) :
    listFoldedTests (Expr.lowerElements action n es height s).code =
      foldedTestsOf (Expr.emissionsOfElements around caller picked labels es) := by
  induction es generalizing picked labels n height s with
  | nil => exact foldedTests_sequenceEnd caller picked labels action n
  | cons e es ih =>
      obtain ⟨he, hes⟩ := List.forall_mem_cons.mp hes
      rw [Expr.lowerElements, Expr.emissionsOfElements, listFoldedTests_append,
        foldedTestsOf_append, he around none labels,
        listFoldedTests_condition (by decide) (foldedTests_unwind _),
        ih hes (picked || e.picks) (e.labelsBehind labels)]
      split <;> rfl

theorem Expr.foldsAsTold (e : Expr) : e.FoldsAsTold := by
  induction e with
  | choice t es ih =>
      intro around caller labels action height s
      exact foldedTests_lowerAlternatives ih labels
  | sequence t es ih =>
      intro around caller labels action height s
      exact foldedTests_lowerElements ih caller false labels action 0
  | apply t op e ih =>
      intro around caller labels action height s
      rw [lower_apply, emissions]
      exact foldedTests_lowered _ labels (ih _ _ _ _ _ _)
  | leaf t l =>
      intro around caller labels action height s
      exact foldedTests_lowerLeaf around labels t l

end Lists

/-! ## In the words of a rule -/

/-- The parts of a list of instructions that begin with a test that ignores case. -/
def foldedParts : List Instruction → List (List Instruction)
  | [] => []
  | i :: is => (if i.opcode = .matchStringIc then [i :: is] else []) ++ foldedParts is

theorem foldedParts_append (is js : List Instruction) :
    foldedParts (is ++ js) = (foldedParts is).map (· ++ js) ++ foldedParts js := by
  induction is with
  | nil => rfl
  | cons i is ih =>
      rw [List.cons_append, foldedParts, foldedParts, ih]
      split <;> simp

theorem foldedParts_cons_plain {i : Instruction} (hplain : i.isPlain) (is : List Instruction) :
    foldedParts (i :: is) = foldedParts is := by
  have hopcode : i.opcode ≠ .matchStringIc := by
    cases i with
    | branch test yes no => cases hplain
    | push value => cases value <;> nofun
    | _ => nofun
  rw [foldedParts, if_neg hopcode, List.nil_append]

section Words

variable {c : Constants} {names : List String}

theorem Spells.append {a b : List Instr} {is js : List Instruction} (ha : Spells c names a is)
    (hb : Spells c names b js) : Spells c names (a ++ b) (is ++ js) := by
  induction ha with
  | nil => exact hb
  | op hplain hopcode hoperands _ ih => exact .op hplain hopcode hoperands ih
  | branch hopcode hoperands hyes hno _ _ _ ih =>
      rw [List.cons_append, List.cons_append, List.append_assoc, List.append_assoc]
      exact .branch hopcode hoperands hyes hno ih
  | loop hbody _ _ ih =>
      rw [List.cons_append, List.cons_append, List.append_assoc]
      exact .loop hbody ih

/-- Whether the instructions begin with those of the test. -/
def Begins (c : Constants) (names : List String) (test : Instr) (part : List Instruction) : Prop :=
  ∃ rest, Spells c names (test :: rest) part

theorem Begins.append {test : Instr} {part : List Instruction} (h : Begins c names test part)
    {code : List Instr} {is : List Instruction} (hcode : Spells c names code is) :
    Begins c names test (part ++ is) := by
  obtain ⟨rest, hrest⟩ := h
  exact ⟨rest ++ code, hrest.append hcode⟩

/-- The tests of a block are followed by what is behind the block. -/
theorem forall₂_begins_append {tests : List Instr} {parts : List (List Instruction)}
    (h : List.Forall₂ (Begins c names) tests parts) {code : List Instr} {is : List Instruction}
    (hcode : Spells c names code is) :
    List.Forall₂ (Begins c names) tests (parts.map (· ++ is)) :=
  List.forall₂_map_right_iff.mpr (h.imp fun _ _ hpart => hpart.append hcode)

/-- The instructions that code is read as have the tests of the code. -/
theorem Spells.forall₂_begins {code : List Instr} {is : List Instruction}
    (h : Spells c names code is) :
    List.Forall₂ (Begins c names) (listFoldedTests code) (foldedParts is) := by
  induction h with
  | nil => exact .nil
  | op hplain _ _ _ ih =>
      rw [listFoldedTests_op, foldedParts_cons_plain hplain]
      exact ih
  | @branch code operands yes no rest test inYes inNo is hopcode hoperands hyes hno hrest ihyes
      ihno ih =>
      -- the test itself, then its blocks, each followed by all that stands behind it
      rw [listFoldedTests, foldedTests, foldedParts, foldedParts_append, foldedParts_append,
        List.append_assoc, List.append_assoc]
      refine List.rel_append ?_ (List.rel_append ?_ (List.rel_append ?_ ih))
      · rw [show (Instruction.branch test (Instruction.totalSize inYes)
            (Instruction.totalSize inNo)).opcode = code from hopcode]
        split
        · exact .cons ⟨rest, .branch hopcode hoperands hyes hno hrest⟩ .nil
        · exact .nil
      · exact forall₂_begins_append ihyes (hno.append hrest)
      · exact forall₂_begins_append ihno hrest
  | @loop body rest inBody is hbody hrest ihbody ih =>
      rw [listFoldedTests_loop, foldedParts, foldedParts_append]
      exact List.rel_append (forall₂_begins_append ihbody hrest) ih

theorem Spells.exists_of_op {code : Opcode} {operands : List Operand} {is : List Instruction}
    (h : Spells c names [.op code operands] is) :
    ∃ i, is = [i] ∧ i.opcode = code ∧ i.operands = operands.map (Operand.word c names) := by
  cases h with
  | @op _ _ _ i _ _ hopcode hoperands hrest =>
      cases hrest
      exact ⟨i, rfl, hopcode, hoperands⟩

theorem Instruction.eq_acceptN {i : Instruction} {n : UInt32} (hopcode : i.opcode = .acceptN)
    (hoperands : i.operands = [n]) : i = .acceptN n := by
  cases i with
  | acceptN m => exact congrArg acceptN (List.cons.inj hoperands).1
  | push value => cases value <;> cases hopcode
  | branch test yes no => cases test <;> cases hopcode
  | _ => cases hopcode

theorem Instruction.eq_fail {i : Instruction} {index : UInt32} (hopcode : i.opcode = .fail)
    (hoperands : i.operands = [index]) : i = .fail index := by
  cases i with
  | fail other => exact congrArg fail (List.cons.inj hoperands).1
  | push value => cases value <;> cases hopcode
  | branch test yes no => cases test <;> cases hopcode
  | _ => cases hopcode

theorem Test.eq_hasLiteralIgnoringCase {test : Test} {index : UInt32}
    (hopcode : test.opcode = .matchStringIc) (hoperands : test.operands = [index]) :
    test = .hasLiteralIgnoringCase index := by
  cases test with
  | hasLiteralIgnoringCase other =>
      exact congrArg hasLiteralIgnoringCase (List.cons.inj hoperands).1
  | _ => cases hopcode

/-- The test for a literal is followed by the acceptance of as many characters as it has. -/
theorem Begins.exists_eq {value : String} {part : List Instruction}
    (h : Begins c names (foldedTest value) part) :
    ∃ index behind, part =
      .branch (.hasLiteralIgnoringCase
          ((Operand.symbol (.literal (Text.lowercase value))).word c names)) 2 2 ::
        .acceptN (UInt32.ofNat value.length) :: .fail index :: behind := by
  obtain ⟨rest, hspells⟩ := h
  cases hspells with
  | @branch _ _ _ _ _ test inYes inNo behind hopcode hoperands hyes hno hrest =>
      obtain ⟨accept, rfl, haccept, hcount⟩ := hyes.exists_of_op
      obtain ⟨fail, rfl, hfail, hindex⟩ := hno.exists_of_op
      obtain rfl := Instruction.eq_acceptN haccept hcount
      obtain rfl := Instruction.eq_fail hfail hindex
      obtain rfl := Test.eq_hasLiteralIgnoringCase hopcode hoperands
      exact ⟨_, behind, rfl⟩

end Words

/-! ## Rules -/

/-- The literals that the code of a rule tests for without regard to case. -/
def Rule.comparedLiterals (r : Rule) : List String :=
  r.emissions.filterMap Emission.foldedLiteral?

/-- Whether a node of the rule is that literal without regard to case, and may or may not match. -/
def Rule.Tests (r : Rule) (value : String) : Prop :=
  ∃ t around, (Site.mk (.leaf t (.literal value true)) around).Of r.body ∧
    t.outcome = .sometimes ∧ value ≠ ""

theorem Rule.tests_of_mem_comparedLiterals {r : Rule} {value : String}
    (h : value ∈ r.comparedLiterals) : r.Tests value := by
  obtain ⟨⟨⟨node, around⟩, opcode, labels⟩, hem, hvalue⟩ := List.mem_filterMap.mp h
  have hsite := r.site_of_emissions _ hem
  unfold Emission.foldedLiteral? at hvalue
  split at hvalue
  · next t literal _ hnode =>
      obtain rfl : node = .leaf t (.literal literal true) := hnode
      simp only [Option.ite_none_right_eq_some, Option.some.injEq] at hvalue
      obtain ⟨⟨hne, houtcome⟩, rfl⟩ := hvalue
      exact ⟨t, around, hsite, houtcome, hne⟩
  · cases hvalue

/-- The number of characters of a literal in a word is that of its lower case form just if it fits
and no character becomes two. -/
theorem Text.toNat_length_eq_iff (value : String) :
    (UInt32.ofNat value.length).toNat = (lowercase value).length ↔
      value.length < UInt32.size ∧ 'İ' ∉ value.toList := by
  rw [length_lowercase, ← List.count_eq_zero]
  have hlt := (UInt32.ofNat value.length).toNat_lt
  constructor
  · intro h
    have hlength : value.length < UInt32.size := by
      change _ < UInt32.size at hlt
      omega
    rw [UInt32.toNat_ofNat_of_lt' hlength] at h
    exact ⟨hlength, by omega⟩
  · rintro ⟨hlength, hcount⟩
    rw [UInt32.toNat_ofNat_of_lt' hlength, hcount, Nat.add_zero]

/-- Whether the instructions in the code of a rule that compare without regard to case are those for
literals of the rule. Each compares the lower case form and accepts as many characters as the
literal has, which are as many just if no character becomes two. -/
def Rule.Compares (c : Constants) (r : Rule) (code : List UInt32) : Prop :=
  ∃ is : List Instruction, is.flatMap Instruction.words = code ∧
    (code.length < UInt32.size → (instructions 0 code).map (·.2) = is) ∧
    List.Forall₂ (fun value part => r.Tests value ∧ ∃ i n index behind,
        part = .branch (.hasLiteralIgnoringCase i) 2 2 :: .acceptN n :: .fail index :: behind ∧
        c.literals.Locates (Text.lowercase value) i ∧
        (n.toNat = (Text.lowercase value).length ↔
          value.length < UInt32.size ∧ 'İ' ∉ value.toList))
      r.comparedLiterals (foldedParts is)

theorem Rule.compares_assemble {g : Grammar} (hrefs : RefsDefined g.rules) {r : Rule}
    (hr : r ∈ g.rules) :
    r.Compares (ruleConstants g.rules) (r.assemble (ruleConstants g.rules) g.ruleNames) := by
  obtain ⟨is, his, hwords, hread⟩ := r.exists_read (ruleConstants g.rules) g.ruleNames
  have htests : listFoldedTests r.lower.code = r.comparedLiterals.map foldedTest :=
    r.body.foldsAsTold [] none [] none 0 .empty
  have hparts : List.Forall₂ (fun value => Begins (ruleConstants g.rules) g.ruleNames
      (foldedTest value)) r.comparedLiterals (foldedParts is) := by
    rw [← List.forall₂_map_left_iff, ← htests]
    exact his.forall₂_begins
  have hliterals : ∀ value ∈ r.comparedLiterals,
      .symbol (.literal (Text.lowercase value)) ∈ Instr.listOperands r.lower.code := by
    intro value hvalue
    refine listOperands_listFoldedTests_subset _ ?_
    rw [htests]
    obtain ⟨before, behind, hsplit⟩ := List.append_of_mem (List.mem_map_of_mem hvalue)
    rw [hsplit]
    simp [foldedTest]
  refine ⟨is, hwords, hread, ?_⟩
  refine ((List.forall₂_and_left _ _).mpr ⟨fun value hvalue => hvalue, hparts⟩).imp ?_
  rintro value part ⟨hvalue, hbegins⟩
  obtain ⟨index, behind, rfl⟩ := hbegins.exists_eq
  have hlocates :
      (Symbol.literal (Text.lowercase value)).Locates (ruleConstants g.rules) g.rules _ :=
    Symbol.locates_word (Grammar.known_of_mem_operands hrefs hr (hliterals value hvalue))
  exact ⟨Rule.tests_of_mem_comparedLiterals hvalue, _, _, index, behind, rfl, hlocates,
    Text.toNat_length_eq_iff value⟩

/-- In the code of a generated grammar a literal is compared without regard to case by its lower
case form in the table, and accepted by its own length. Both are the same number of characters just
for literals without the letter that lower case makes longer. -/
theorem accepted_as_compared {g : Grammar} (hrefs : RefsDefined g.rules) :
    ∃ g' c, g.generate = .ok g' ∧ g'.constants = some c ∧
      List.Forall₂ (fun r r' => ∃ code, r'.bytecode = some code ∧ r.Compares c code)
        g.rules g'.rules := by
  refine ⟨g.assembled, ruleConstants g.rules, Grammar.generate_of_refsDefined hrefs, rfl, ?_⟩
  refine List.forall₂_map_right_iff.mpr (List.forall₂_same.mpr fun r hr => ?_)
  exact ⟨_, rfl, r.compares_assemble hrefs hr⟩

open Build in
/-- A keyword, and a word that may be written with a dotted `I`. -/
def caselessWords : Grammar :=
  grammar [rule "words" (choice [literalIgnoringCase "ELSE", ruleRef "word"]),
    rule "word" (zeroOrMore (literalIgnoringCase "İf"))]

theorem caselessWords_accepted :
    RefsDefined caselessWords.rules ∧
    caselessWords.rules.map (·.comparedLiterals) = [["ELSE"], ["İf", "İf"]] ∧
    ∃ g' c, caselessWords.generate = .ok g' ∧ g'.constants = some c ∧
      List.Forall₂ (fun r r' => ∃ code, r'.bytecode = some code ∧ r.Compares c code)
        caselessWords.rules g'.rules := by
  have hrefs : RefsDefined caselessWords.rules := by
    rw [← Grammar.undefinedRule?_eq_none_iff]
    decide +kernel
  exact ⟨hrefs, by decide +kernel, accepted_as_compared hrefs⟩

/-- The lower case form of a dotted `I` is two characters, of which one is accepted. -/
theorem dotted_literal_accepts_less :
    (runPasses .standard (foldedLiteral "İ") [.inferMatchResults, .generateBytecode]).map
      (fun g => (g.rules.map fun r => (r.outcome, r.bytecode),
        g.constants.map (·.literals.values))) =
      .ok ([(some .sometimes, some (List.flatMap Instruction.words
          [.branch (.hasLiteralIgnoringCase 0) 2 2, .acceptN 1, .fail 0]))],
        some [Text.lowercase "İ"]) ∧
    (Text.lowercase "İ").length = 2 ∧ (1 : UInt32).toNat ≠ 2 :=
  ⟨eq_ok_of_toOption (by decide +kernel), by decide +kernel, by decide⟩

end PegCompiler
