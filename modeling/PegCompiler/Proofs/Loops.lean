import PegCompiler.Proofs.Agreement
import PegCompiler.Proofs.Exits

/-!
# Loops can be left

Every loop of a rule is that of a repetition, and its body is the code of what is repeated. After
inference this may fail, whatever rules it leads to, so the loop does not go on by its code alone.
-/

namespace PegCompiler

variable {rules : List Rule}

namespace Instr

mutual
/-- The bodies of all loops, those inside of blocks and loops included. -/
def loops : Instr → List (List Instr)
  | op _ _ => []
  | branch _ _ yes no => listLoops yes ++ listLoops no
  | loop body => body :: listLoops body

def listLoops : List Instr → List (List Instr)
  | [] => []
  | i :: is => loops i ++ listLoops is
end

@[simp] theorem listLoops_nil : listLoops [] = [] := rfl

@[simp] theorem listLoops_op (code : Opcode) (operands : List Operand) (is : List Instr) :
    listLoops (.op code operands :: is) = listLoops is := rfl

@[simp] theorem listLoops_branch (test : Opcode) (operands : List Operand)
    (yes no is : List Instr) : listLoops (.branch test operands yes no :: is) =
      listLoops yes ++ listLoops no ++ listLoops is := rfl

@[simp] theorem listLoops_loop (body is : List Instr) :
    listLoops (.loop body :: is) = body :: (listLoops body ++ listLoops is) := rfl

@[simp] theorem listLoops_append (a b : List Instr) :
    listLoops (a ++ b) = listLoops a ++ listLoops b := by
  induction a with
  | nil => rfl
  | cons i is ih => rw [List.cons_append, listLoops, ih, listLoops, List.append_assoc]

theorem listLoops_condition_subset (outcome : Outcome) (test : Opcode) (operands : List Operand)
    (yes no : List Instr) :
    listLoops (condition outcome test operands yes no) ⊆ listLoops yes ++ listLoops no := by
  cases outcome <;> simp [condition]

end Instr

open Instr

section Loops

variable {outcome : Outcome} {height : Nat} {s : Scope}

/-- Blocks without loops have none together. -/
theorem listLoops_condition_eq_nil {test : Opcode} {operands : List Operand} {yes no : List Instr}
    (hyes : listLoops yes = []) (hno : listLoops no = []) :
    listLoops (condition outcome test operands yes no) = [] := by
  cases outcome <;> simp [condition, hyes, hno]

theorem listLoops_failure (e : Expectation) : listLoops (failure outcome e).1 = [] := by
  unfold failure
  split <;> rfl

theorem listLoops_lowerLeaf (t : Tag) (l : Leaf) :
    listLoops (lowerLeaf t l height s).code = [] := by
  cases l with
  | semanticAnd code | semanticNot code =>
      exact listLoops_condition_eq_nil rfl rfl
  | ruleRef name => rfl
  | literal value ignoreCase =>
      rw [lowerLeaf, lowerLiteral]
      split
      · rfl
      · refine listLoops_condition_eq_nil ?_ (listLoops_failure _)
        cases ignoreCase <;> rfl
  | charClass set => exact listLoops_condition_eq_nil rfl (listLoops_failure _)
  | any => exact listLoops_condition_eq_nil rfl (listLoops_failure _)

theorem listLoops_dropTop (n : Nat) (is : List Instr) :
    listLoops (dropTop n :: is) = listLoops is := by
  unfold dropTop
  split <;> rfl

theorem listLoops_sequenceEnd (action : Option String) (n : Nat) :
    listLoops (sequenceEnd action n height s).code = [] := by
  unfold sequenceEnd
  split
  · cases action <;> rfl
  · rfl

/-- An operator adds no loop but that of a repetition. -/
theorem mem_loops_lowered {t : Tag} {op : Operator} {e : Expr} {body : Lowered}
    {code : List Instr} (h : code ∈ listLoops (op.lowered t e height s body).code) :
    code ∈ listLoops body.code ∨
      op.repetition?.isSome ∧ code = .op .append [] :: body.code := by
  cases op with
  | named name =>
      have hreport : listLoops (if t.outcome = .sometimes then
          [.branch .ifError [] [.op .pop [], .op .fail [.symbol (.expectation (.rule name))]] []]
          else []) = [] := by
        split <;> rfl
      simp only [Operator.lowered, lowerNamed, listLoops_append, hreport] at h
      exact .inl (by simpa using h)
  | action code =>
      by_cases hcalls : e.callsAction
      · simp only [Operator.lowered, if_pos hcalls] at h
        exact .inl h
      · simp only [Operator.lowered, if_neg hcalls, lowerAction, listLoops_append] at h
        rw [listLoops_condition_eq_nil rfl rfl] at h
        exact .inl (by simpa using h)
  | text | simpleAnd | simpleNot | optional =>
      simp only [Operator.lowered, lowerText, lowerSimpleAnd, lowerSimpleNot, lowerOptional,
        listLoops_append] at h
      rw [listLoops_condition_eq_nil rfl rfl] at h
      exact .inl (by simpa using h)
  | zeroOrMore =>
      simp only [Operator.lowered, lowerZeroOrMore, listLoops_append, appendLoop,
        listLoops_loop] at h
      rcases (by simpa using h : code ∈ listLoops body.code ∨ code = _ ∨ _) with h | h | h
      · exact .inl h
      · exact .inr ⟨rfl, h⟩
      · exact .inl h
  | oneOrMore =>
      simp only [Operator.lowered, lowerOneOrMore, listLoops_append] at h
      rcases List.mem_append.mp h with h | h
      · exact .inl (by simpa using h)
      · have h := listLoops_condition_subset _ _ _ _ _ h
        rw [appendLoop] at h
        rcases (by simpa using h : code = _ ∨ _) with h | h
        · exact .inr ⟨rfl, h⟩
        · exact .inl h
  | labeled label location pick | group => exact .inl h

/-- Whether the code is the body of the loop for a repetition inside of the expression. -/
def Expr.HasLoop (e : Expr) (code : List Instr) : Prop :=
  ∃ t op n height s, .apply t op n ∈ e.nodes ∧ op.repetition?.isSome ∧
    code = .op .append [] :: (n.lower none height s).code

theorem Expr.HasLoop.of_mem_nodes {e n : Expr} {code : List Instr} (h : n.HasLoop code)
    (hn : n ∈ e.nodes) : e.HasLoop code := by
  obtain ⟨t, op, m, height, s, hm, hop, hcode⟩ := h
  exact ⟨t, op, m, height, s, mem_nodes_trans hm hn, hop, hcode⟩

theorem hasLoop_of_lowerAlternatives {es : List Expr}
    (hes : ∀ e ∈ es, ∀ action height s, ∀ code ∈ listLoops (e.lower action height s).code,
      e.HasLoop code) {code : List Instr}
    (hcode : code ∈ listLoops (Expr.lowerAlternatives es height s).code) :
    ∃ e ∈ es, e.HasLoop code := by
  induction es with
  | nil => cases hcode
  | cons e es ih =>
      obtain ⟨he, hes⟩ := List.forall_mem_cons.mp hes
      rw [Expr.lowerAlternatives] at hcode
      dsimp only at hcode
      split at hcode
      · exact ⟨e, List.mem_cons_self, he _ _ _ _ hcode⟩
      · simp only [listLoops_append, orElse, listLoops_branch, listLoops_op, listLoops_nil,
          List.append_nil] at hcode
        rcases List.mem_append.mp hcode with hcode | hcode
        · exact ⟨e, List.mem_cons_self, he _ _ _ _ hcode⟩
        · obtain ⟨n, hn, hloop⟩ := ih hes hcode
          exact ⟨n, List.mem_cons_of_mem e hn, hloop⟩

theorem hasLoop_of_lowerElements {es : List Expr}
    (hes : ∀ e ∈ es, ∀ action height s, ∀ code ∈ listLoops (e.lower action height s).code,
      e.HasLoop code) {action : Option String} {n : Nat} {code : List Instr}
    (hcode : code ∈ listLoops (Expr.lowerElements action n es height s).code) :
    ∃ e ∈ es, e.HasLoop code := by
  induction es generalizing n height s with
  | nil =>
      rw [Expr.lowerElements, listLoops_sequenceEnd] at hcode
      cases hcode
  | cons e es ih =>
      obtain ⟨he, hes⟩ := List.forall_mem_cons.mp hes
      rw [Expr.lowerElements, listLoops_append] at hcode
      rcases List.mem_append.mp hcode with hcode | hcode
      · exact ⟨e, List.mem_cons_self, he _ _ _ _ hcode⟩
      · have hcode := listLoops_condition_subset _ _ _ _ _ hcode
        rw [unwind, listLoops_dropTop] at hcode
        obtain ⟨m, hm, hloop⟩ := ih hes (by simpa using hcode)
        exact ⟨m, List.mem_cons_of_mem e hm, hloop⟩

/-- Every loop is that of a repetition. -/
theorem Expr.hasLoop_of_mem_loops {e : Expr} {action : Option String} {code : List Instr}
    (hcode : code ∈ listLoops (e.lower action height s).code) : e.HasLoop code := by
  induction e generalizing action height s code with
  | choice t es ih =>
      obtain ⟨e, he, hloop⟩ := hasLoop_of_lowerAlternatives
        (fun e he _ _ _ _ hcode => ih e he hcode) hcode
      exact hloop.of_mem_nodes (mem_nodes_choice.mpr (.inr ⟨e, he, e.self_mem_nodes⟩))
  | sequence t es ih =>
      obtain ⟨e, he, hloop⟩ := hasLoop_of_lowerElements
        (fun e he _ _ _ _ hcode => ih e he hcode) hcode
      exact hloop.of_mem_nodes (mem_nodes_sequence.mpr (.inr ⟨e, he, e.self_mem_nodes⟩))
  | apply t op e ih =>
      rw [lower_apply] at hcode
      rcases mem_loops_lowered hcode with hcode | ⟨hop, rfl⟩
      · exact (ih hcode).of_mem_nodes (mem_nodes_apply.mpr (.inr e.self_mem_nodes))
      · have hcalled : op.called? e = none := by
          cases op <;> first | rfl | cases hop
        rw [hcalled]
        exact ⟨t, op, e, _, _, self_mem_nodes _, hop, rfl⟩
  | leaf t l =>
      rw [lower, listLoops_lowerLeaf] at hcode
      cases hcode

end Loops

/-- Whether a loop with this body may end behind one more round, on top of the array that it fills
and a value that is no failure. -/
def Leavable (rules : List Rule) (body : List Instr) : Prop :=
  ∀ below, MayRun rules body (false :: false :: below) (true :: false :: below)

theorem leavable_of_mayFail {code : List Instr} (hbody : MayFail rules code) :
    Leavable rules (.op .append [] :: code) :=
  fun _ => .op rfl rfl (hbody _)

/-! ## Repetition after inference -/

open Inference

/-- A rule that consumes is not said to match always. -/
theorem outcome_ne_always_of_ruleConsumes {rules rules' : List Rule} (h : Progress rules rules')
    (hnone : ∀ r ∈ rules, r.outcome = none) (hsome : ∀ r ∈ rules', r.outcome.isSome)
    (hchoices : ∀ r ∈ rules, r.body.ChoicesNonempty) {name : String} {r : Rule}
    (hr : findRule? rules' name = some r) (hc : ruleConsumes rules' name) :
    r.outcome ≠ some .always := by
  intro halways
  have hlookup : lookup rules' name = some .always := by
    rw [lookup_eq_findRule?, hr]
    exact halways
  exact (consistent_known h hnone hsome).ne_always
    (choicesNonempty_of_progress h hnone hsome hchoices) hc (known_of_lookup hlookup)

/-- After inference no expression that consumes is said to match always, and what was repeated still
consumes. So where repetition is accepted, the body of none is said to match always, and every loop
that is made of one can be left. -/
theorem repetition_bodies_may_fail {o : Options} {g g' : Grammar}
    (hnone : ∀ r ∈ g.rules, r.outcome = none) (hchoices : ∀ r ∈ g.rules, r.body.ChoicesNonempty)
    (h : Pass.inferMatchResults.run o g = (g', .ok ())) :
    (∀ r ∈ g'.rules, ∀ n ∈ r.body.nodes, n.consumes g'.rules → n.outcome ≠ .always) ∧
    (Pass.reportInfiniteRepetition.Accepts o g' ↔ Pass.reportInfiniteRepetition.Accepts o g) ∧
    (Pass.reportInfiniteRepetition.Accepts o g → ∀ r ∈ g'.rules,
      (∀ t op e, .apply t op e ∈ r.body.nodes → op.repetition?.isSome → e.outcome ≠ .always) ∧
      ∀ body ∈ listLoops r.lower.code, r.body.HasLoop body ∧ Leavable g'.rules body) := by
  have hinfer : inferOutcomes g.rules = (g'.rules, .ok ()) := by
    simp only [Pass.run, Prod.mk.injEq] at h
    exact Prod.ext (congrArg Grammar.rules h.1) h.2
  obtain ⟨hprog, hsome⟩ : Progress g.rules g'.rules ∧ ∀ r ∈ g'.rules, r.outcome.isSome := by
    rcases inferOutcomes_spec g.rules with ⟨rules', hok, hprog, hsome⟩ | ⟨rules', d, herror, -⟩
    · obtain rfl : rules' = g'.rules := (Prod.mk.inj (hok.symm.trans hinfer)).1
      exact ⟨hprog, hsome⟩
    · cases herror.symm.trans hinfer
  have hchoices' := choicesNonempty_of_progress hprog hnone hsome hchoices
  have hnodes : ∀ r ∈ g'.rules, ∀ n ∈ r.body.nodes, n.consumes g'.rules →
      n.outcome ≠ .always := by
    intro r hr n hn hc halways
    -- an outcome other than `sometimes` is the one that follows from the outcomes of the rules
    have hbelow := outcome_below_known hprog hnone hsome hr hn
    refine (consistent_known hprog hnone hsome).outcomeGiven_ne_always hchoices' ?_ hc
      ((hbelow.eq_of_ne (by simp [halways])).trans halways)
    exact fun t ht => hchoices' r hr t (Expr.mem_nodes_trans ht hn)
  have hrepetition : Pass.reportInfiniteRepetition.Accepts o g' ↔
      Pass.reportInfiniteRepetition.Accepts o g := by
    rw [Pass.accepts_reportInfiniteRepetition, Pass.accepts_reportInfiniteRepetition]
    exact hprog.endlessRepetition?_eq_none_iff hnone hsome
  refine ⟨hnodes, hrepetition, fun haccepts r hr => ?_⟩
  have hrep := Grammar.endlessRepetition?_eq_none_iff.mp
    (Pass.accepts_reportInfiniteRepetition.mp (hrepetition.mpr haccepts))
  -- references are defined, since inference has followed each of them
  have hstop : r.body.MayStop g'.rules :=
    ⟨hchoices' r hr, ⟨hprog.refsDefined_of_settled hnone hsome r hr, hrep r hr⟩, hnodes r hr⟩
  have hconsumes {t : Tag} {op : Operator} {e : Expr} (hn : .apply t op e ∈ r.body.nodes)
      (hop : op.repetition?.isSome) : e.MayStop g'.rules ∧ e.consumes g'.rules :=
    ⟨hstop.of_mem_nodes (Expr.mem_nodes_trans
      (Expr.mem_nodes_apply.mpr (.inr e.self_mem_nodes)) hn),
      (hstop.of_mem_nodes hn).guarded.consumes_of_repetition hop⟩
  constructor
  · intro t op e hn hop
    obtain ⟨he, hc⟩ := hconsumes hn hop
    exact he.outcome_self hc
  · intro body hbody
    have hloop : r.body.HasLoop body := Expr.hasLoop_of_mem_loops hbody
    refine ⟨hloop, ?_⟩
    obtain ⟨t, op, e, height, s, hn, hop, rfl⟩ := hloop
    obtain ⟨he, hc⟩ := hconsumes hn hop
    refine leavable_of_mayFail ((Expr.lower_runs he (fun name r hr hrule => ?_) _ _ _).mayFail hc)
    exact outcome_ne_always_of_ruleConsumes hprog hnone hsome hchoices hr hrule

open Build in
/-- Calls that are repeated inside of each call. -/
def callChains : Grammar :=
  grammar
    [rule "calls" (zeroOrMore (ruleRef "call")),
      rule "call" (sequence [literal "(", ruleRef "calls", optional (ruleRef "call")])]

/-- The repeated rule leads back to the loop, which can be left. -/
theorem callChains_leavable :
    (∀ r ∈ callChains.rules, r.outcome = none) ∧
    (∀ r ∈ callChains.rules, r.body.ChoicesNonempty) ∧
    Pass.reportInfiniteRepetition.Accepts .standard callChains ∧
    ∃ g', Pass.inferMatchResults.run .standard callChains = (g', .ok ()) ∧
      g'.rules.map (·.outcome) = [some .always, some .sometimes] ∧
      ∃ r ∈ g'.rules, ∃ body ∈ listLoops r.lower.code, Leavable g'.rules body := by
  have hnone : ∀ r ∈ callChains.rules, r.outcome = none := by
    simp [callChains, Build.grammar, Build.rule]
  have hchoices : ∀ r ∈ callChains.rules, r.body.ChoicesNonempty := by
    simp [callChains, Build.grammar, Build.rule, Build.sequence, Build.optional, Build.zeroOrMore,
      Build.apply, Build.literal, Build.ruleRef, Build.leaf]
  have hrepetition : Pass.reportInfiniteRepetition.Accepts .standard callChains := by
    decide +kernel
  have hok : Pass.inferMatchResults.Accepts .standard callChains := by decide +kernel
  have hrun : Pass.inferMatchResults.run .standard callChains =
      ((Pass.inferMatchResults.run .standard callChains).1, .ok ()) := Prod.ext rfl hok
  have houtcomes : (Pass.inferMatchResults.run .standard callChains).1.rules.map (·.outcome) =
      [some .always, some .sometimes] := by decide +kernel
  have hloops : (Pass.inferMatchResults.run .standard callChains).1.rules.head?.map
      (fun r => (listLoops r.lower.code).length) = some 1 := by decide +kernel
  refine ⟨hnone, hchoices, hrepetition, _, hrun, houtcomes, ?_⟩
  obtain ⟨r, hr, hlength⟩ := Option.map_eq_some_iff.mp hloops
  obtain ⟨body, hbody⟩ := List.length_eq_one_iff.mp hlength
  have hmem : body ∈ listLoops r.lower.code := hbody ▸ List.mem_singleton_self body
  exact ⟨r, List.mem_of_head? hr, body, hmem,
    ((repetition_bodies_may_fail hnone hchoices hrun).2.2 hrepetition r
      (List.mem_of_head? hr)).2 body hmem |>.2⟩

end PegCompiler
