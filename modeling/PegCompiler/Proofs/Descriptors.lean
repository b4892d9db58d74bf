import PegCompiler.Proofs.Preservation
import PegCompiler.Proofs.Sweeps

/-!
# Constants describe nodes

While code is generated for one rule after another the tables of all of them grow, and what has a
position in a table keeps it. So in the words of each rule an operand that stands for a constant is
a position in a table, and in the tables of the finished grammar there is what describes the node
that the instruction was emitted for; the operand of a call is the position of the first rule of its
name.
-/

namespace PegCompiler

/-- Whether the word is a position in the pool, and that of `a` if words can count the pool. -/
def Pool.Locates {α : Type} (p : Pool α) (a : α) (w : UInt32) : Prop :=
  w.toNat < p.size ∧ (p.size ≤ UInt32.size → p.get? w.toNat = some a)

theorem Pool.locates_index {α : Type} [DecidableEq α] {p : Pool α} {a : α} (h : a ∈ p.values) :
    p.Locates a (UInt32.ofNat (p.index a)) := by
  have hlt := index_lt_size h
  constructor
  · rw [UInt32.toNat_ofNat']
    exact Nat.lt_of_le_of_lt (Nat.mod_le _ _) hlt
  · intro hsize
    rw [UInt32.toNat_ofNat_of_lt' (Nat.lt_of_lt_of_le hlt hsize)]
    exact get?_index h

/-- Whether the word is the position of the first rule of that name, if words can count the rules,
and the position of some rule in any case. -/
def RuleRef.Locates (rules : List Rule) (ref : RuleRef) (w : UInt32) : Prop :=
  w.toNat < rules.length ∧
    (rules.length ≤ UInt32.size → ruleIndex? rules ref.name = some w.toNat)

theorem RuleRef.locates_idxOf {rules : List Rule} {ref : RuleRef}
    (h : ref.name ∈ rules.map (·.name)) :
    ref.Locates rules (UInt32.ofNat ((rules.map (·.name)).idxOf ref.name)) := by
  have hlt := toNat_index_lt h
  rw [List.length_map] at hlt
  refine ⟨hlt, fun hsize => ?_⟩
  obtain ⟨i, hi⟩ := Option.isSome_iff_exists.mp (Inference.ruleIndex?_isSome_iff.mpr h)
  have hlt := List.idxOf_lt_length_of_mem h
  rw [List.length_map] at hlt
  rw [UInt32.toNat_ofNat_of_lt' (Nat.lt_of_lt_of_le hlt hsize), idxOf_eq_ruleIndex? hi, hi]

/-- Whether the word stands for what the symbol names. -/
def Symbol.Locates (c : Constants) (rules : List Rule) (s : Symbol) (w : UInt32) : Prop :=
  match s with
  | literal value => c.literals.Locates value w
  | charClass set => c.classes.Locates set w
  | expectation e => c.expectations.Locates e w
  | function f => c.functions.Locates f w
  | rule ref => ref.Locates rules w

theorem Symbol.locates_word {c : Constants} {rules : List Rule} {s : Symbol}
    (h : s.Known c (rules.map (·.name))) :
    s.Locates c rules ((Operand.symbol s).word c (rules.map (·.name))) := by
  cases s with
  | rule ref => exact RuleRef.locates_idxOf h
  | _ => exact Pool.locates_index h

/-- Whether an instruction of this kind can have the symbol for its constant. -/
def Symbol.IsFor (s : Symbol) (code : Opcode) : Prop :=
  match s with
  | literal _ => code = .matchString ∨ code = .matchStringIc ∨ code = .acceptString
  | charClass _ => code = .matchCharClass
  | expectation _ => code = .fail
  | function _ => code = .call
  | rule _ => code = .rule

theorem Emission.symbol?_isFor {em : Emission} {s : Symbol} (h : em.symbol? = some s) :
    s.IsFor em.opcode := by
  unfold symbol? at h
  split at h
  case h_13 => cases h
  all_goals
    obtain rfl := Option.some.inj h
    simp_all [Symbol.IsFor]

/-- Whether the code of a rule is made of instructions of which those with constants are the ones
that the rule emits, each with the position of what describes the node that it is emitted for. -/
def Rule.Describes (c : Constants) (rules : List Rule) (r : Rule) (code : List UInt32) : Prop :=
  ∃ is : List Instruction, is.flatMap Instruction.words = code ∧
    (code.length < UInt32.size → (instructions 0 code).map (·.2) = is) ∧
    List.Forall₂ (fun em i => em.site.Of r.body ∧ i.opcode = em.opcode ∧
        ∃ s w, em.symbol? = some s ∧ s.IsFor i.opcode ∧ i.operands.head? = some w ∧
          s.Locates c rules w)
      r.emissions (is.filter (·.opcode.takesConstant))

/-- The code of a rule is read as the instructions that its symbolic code is spelled by. -/
theorem Rule.exists_read (r : Rule) (c : Constants) (names : List String) :
    ∃ is, Spells c names r.lower.code is ∧ is.flatMap Instruction.words = r.assemble c names ∧
      ((r.assemble c names).length < UInt32.size →
        (instructions 0 (r.assemble c names)).map (·.2) = is) := by
  obtain ⟨is, his⟩ := r.exists_spells c names
  refine ⟨is, his, his.listWords_eq.symm, fun hlength => ?_⟩
  rw [assemble, his.listWords_eq] at hlength ⊢
  rw [Instruction.length_flatMap_words] at hlength
  rw [instructions_flatMap 0 0 (his.encodable hlength), List.map_map]
  exact map_instruction_marks 0 0 is

theorem Rule.describes_assemble {g : Grammar} (hrefs : RefsDefined g.rules) {r : Rule}
    (hr : r ∈ g.rules) :
    r.Describes (ruleConstants g.rules) g.rules
      (r.assemble (ruleConstants g.rules) g.ruleNames) := by
  obtain ⟨is, his, hwords, hread⟩ := r.exists_read (ruleConstants g.rules) g.ruleNames
  refine ⟨is, hwords, hread, ?_⟩
  have hlocates : ∀ s, .symbol s ∈ Instr.listOperands r.lower.code →
      s.Locates (ruleConstants g.rules) g.rules
        ((Operand.symbol s).word (ruleConstants g.rules) g.ruleNames) :=
    fun s hs => Symbol.locates_word (Grammar.known_of_mem_operands hrefs hr hs)
  have hcarriers : is.filter (·.opcode.takesConstant) =
      (carriers (marks 0 0 is)).map (·.instruction) := by
    conv_lhs => rw [← map_instruction_marks 0 0 is, List.filter_map]
    rfl
  rw [hcarriers, List.forall₂_map_right_iff]
  have hmarked := r.emits.marked his hlocates 0
  refine ((List.forall₂_and_left _ _).mpr ⟨r.site_of_emissions, hmarked⟩).imp ?_
  rintro em mark ⟨hsite, hopcode, -, s, w, hsymbol, hhead, hs⟩
  have hfor : s.IsFor mark.instruction.opcode := by
    rw [hopcode]
    exact Emission.symbol?_isFor hsymbol
  exact ⟨hsite, hopcode, s, w, hsymbol, hfor, hhead, hs⟩

/-- Every constant operand of a generated grammar is a position in its table, and the tables of the
finished grammar have there what describes the node that the instruction was emitted for. -/
theorem constants_describe_nodes {g : Grammar} (hrefs : RefsDefined g.rules) :
    ∃ g' c, g.generate = .ok g' ∧ g'.constants = some c ∧
      List.Forall₂ (fun r r' => ∃ code, r'.bytecode = some code ∧ r.Describes c g.rules code)
        g.rules g'.rules := by
  refine ⟨g.assembled, ruleConstants g.rules, Grammar.generate_of_refsDefined hrefs, rfl, ?_⟩
  refine List.forall₂_map_right_iff.mpr (List.forall₂_same.mpr fun r hr => ?_)
  exact ⟨_, rfl, r.describes_assemble hrefs hr⟩

open Build in
/-- Two rules with the same literal, of which the second has the name of a third one. -/
def sharedTables : Grammar :=
  grammar
    [rule "list" (action (sequence [labeled "first" (ruleRef "item"),
        labeled "rest" (zeroOrMore (ruleRef "item")), semanticAnd "first"]) "return rest;"),
      rule "item" (named "item" (choice [literalIgnoringCase "Let", literal "let",
        charClass [.range 'a' 'z'] false true])),
      rule "item" (literal "let")]

theorem sharedTables_describe_nodes :
    RefsDefined sharedTables.rules ∧
    sharedTables.rules.map (·.emissions.map fun em => (em.opcode, em.symbol?)) =
      [[(.rule, some (.rule ⟨"item", .unknown⟩)), (.rule, some (.rule ⟨"item", .unknown⟩)),
          (.rule, some (.rule ⟨"item", .unknown⟩)),
          (.call, some (.function ⟨true, ["first", "rest"], "first"⟩)),
          (.call, some (.function ⟨false, ["first", "rest"], "return rest;"⟩))],
        [(.matchStringIc, some (.literal "let")),
          (.fail, some (.expectation (.literal "Let" true))),
          (.matchString, some (.literal "let")), (.acceptString, some (.literal "let")),
          (.fail, some (.expectation (.literal "let" false))),
          (.matchCharClass, some (.charClass ⟨[.range 'a' 'z'], false, true⟩)),
          (.fail, some (.expectation (.charClass ⟨[.range 'a' 'z'], false, true⟩))),
          (.fail, some (.expectation (.rule "item")))],
        [(.matchString, some (.literal "let")), (.acceptString, some (.literal "let")),
          (.fail, some (.expectation (.literal "let" false)))]] ∧
    ∃ g' c, sharedTables.generate = .ok g' ∧ g'.constants = some c ∧
      c.literals.values = ["let"] ∧ c.expectations.size = 4 ∧
      List.Forall₂ (fun r r' => ∃ code, r'.bytecode = some code ∧
        r.Describes c sharedTables.rules code) sharedTables.rules g'.rules := by
  have hrefs : RefsDefined sharedTables.rules := by
    rw [← Grammar.undefinedRule?_eq_none_iff]
    decide +kernel
  obtain ⟨g', c, hgenerate, hconstants, hdescribed⟩ := constants_describe_nodes hrefs
  have htables : sharedTables.generate.toOption.bind (·.constants.map fun c =>
      (c.literals.values, c.expectations.size)) = some (["let"], 4) := by
    decide +kernel
  rw [hgenerate] at htables
  simp only [Except.toOption, Option.bind_some, hconstants, Option.map_some,
    Option.some.injEq, Prod.mk.injEq] at htables
  obtain ⟨hliterals, hexpectations⟩ := htables
  exact ⟨hrefs, by decide +kernel, g', c, hgenerate, hconstants, hliterals, hexpectations,
    hdescribed⟩

end PegCompiler
