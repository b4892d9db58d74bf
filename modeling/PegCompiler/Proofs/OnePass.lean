import PegCompiler.Proofs.Pools
import PegCompiler.Proofs.Symbols
import PegCompiler.Proofs.Words

/-!
# Generation in one pass

The words of all rules can be written in one pass, while the tables grow: what comes up is given its
position at once. No position changes later on, so these are the words that are assembled with the
finished tables. A reference to no rule ends the pass where it comes up, which is the first of them.
-/

namespace PegCompiler

/-! ## Words -/

abbrev Words := List UInt32

def Words.branch (test yes no : Words) : Words :=
  test ++ [.ofNat yes.length, .ofNat no.length] ++ yes ++ no

/-- Only the words of the branch that `outcome` allows, or those of both behind the test. -/
def Words.condition (outcome : Outcome) (test yes no : Words) : Words :=
  match outcome with
  | .always => yes
  | .never => no
  | .sometimes => branch test yes no

def Words.loop (body : Words) : Words :=
  [Opcode.whileNotError.value, .ofNat body.length] ++ body

def Words.appendLoop (body : Words) : Words :=
  loop ([Opcode.append.value] ++ body)

def Words.offsets (height : Nat) (slots : List Nat) : Words :=
  slots.map fun slot : Nat => .ofInt ((height : Int) - 1 - slot)

def Words.call (function : UInt32) (n height : Nat) (s : Scope) : Words :=
  [Opcode.call.value, function, .ofNat n, .ofNat s.slots.length] ++ offsets height s.slots

def Words.dropTop (n : Nat) : Words :=
  if n = 1 then [Opcode.pop.value] else [Opcode.popN.value, .ofNat n]

/-! ## Writing them -/

/-- What is written with the tables as they are by then, up to the first defect. -/
abbrev Writing := StateT Constants (Except Defect)

namespace Writing

/-- The word for what `s` names, which gets its position now unless it has one. -/
def place (rules : List Rule) : Symbol → Writing UInt32
  | .literal value => modifyGet fun c =>
      let (i, literals) := c.literals.place value
      (.ofNat i, { c with literals })
  | .charClass set => modifyGet fun c =>
      let (i, classes) := c.classes.place set
      (.ofNat i, { c with classes })
  | .expectation e => modifyGet fun c =>
      let (i, expectations) := c.expectations.place e
      (.ofNat i, { c with expectations })
  | .function f => modifyGet fun c =>
      let (i, functions) := c.functions.place f
      (.ofNat i, { c with functions })
  | .rule ref =>
      match ruleIndex? rules ref.name with
      | some i => pure (.ofNat i)
      | none => throw (.undefinedRule ref)

def placeIf (rules : List Rule) (needed : Bool) (s : Symbol) : Writing (Option UInt32) :=
  if needed then some <$> place rules s else pure none

/-- An instruction with a constant, left away where the constant is not needed. -/
def withConstant (code : Opcode) (constant : Option UInt32) : Words :=
  match constant with
  | some i => [code.value, i]
  | none => []

/-- How a literal of `n` characters is compared and what is done when it is there. -/
def onMatch (n : Nat) (ignoreCase : Bool) (stored : Option UInt32) : Opcode × Words :=
  match ignoreCase, stored with
  | false, some i => (.matchString, [Opcode.acceptString.value, i])
  | _, _ => (.matchStringIc, [Opcode.acceptN.value, .ofNat n])

section Leaves

variable (rules : List Rule) (outcome : Outcome) (s : Scope)

def semanticPredicate (code : Code) (onTrue onFalse : Opcode) (height : Nat) :
    Writing (Words × Scope) := do
  let f ← place rules (.function ⟨true, s.names, code.text⟩)
  return ([Opcode.updateSavedPos.value] ++ Words.call f 0 height s ++
    Words.condition outcome [Opcode.ifTrue.value] [Opcode.pop.value, onTrue.value]
      [Opcode.pop.value, onFalse.value], s)

def literal (value : String) (ignoreCase : Bool) : Writing (Words × Scope) := do
  if value.isEmpty then
    return ([Opcode.pushEmptyString.value], s)
  else do
    let needed := match outcome with
      | .always => !ignoreCase
      | .sometimes => true
      | .never => false
    let stored ← placeIf rules needed
      (.literal (if ignoreCase then Text.lowercase value else value))
    let expected ← placeIf rules (outcome ≠ .always) (.expectation (.literal value ignoreCase))
    let found := onMatch value.length ignoreCase stored
    return (Words.condition outcome (withConstant found.1 stored) found.2
      (withConstant .fail expected), s)

def charClass (set : CharClass) : Writing (Words × Scope) := do
  let stored ← placeIf rules (outcome = .sometimes) (.charClass set)
  let expected ← placeIf rules (outcome ≠ .always) (.expectation (.charClass set))
  return (Words.condition outcome (withConstant .matchCharClass stored)
    [Opcode.acceptN.value, 1] (withConstant .fail expected), s)

def any : Writing (Words × Scope) := do
  let expected ← placeIf rules (outcome ≠ .always) (.expectation .any)
  return (Words.condition outcome [Opcode.matchAny.value] [Opcode.acceptN.value, 1]
    (withConstant .fail expected), s)

def sequenceEnd (action : Option String) (n height : Nat) : Writing (Words × Scope) := do
  if s.picked.isEmpty then
    match action with
    | some body => do
        let f ← place rules (.function ⟨false, s.names, body⟩)
        return ([Opcode.loadSavedPos.value, .ofNat n] ++ Words.call f (n + 1) height s, s)
    | none => return ([Opcode.wrap.value, .ofNat n, Opcode.nip.value], s)
  else
    return ([Opcode.pluck.value, .ofNat (n + 1), .ofNat s.picked.length] ++
      Words.offsets height s.picked, s)

end Leaves

def leaf (rules : List Rule) (t : Tag) (l : Leaf) (height : Nat) (s : Scope) :
    Writing (Words × Scope) :=
  match l with
  | .semanticAnd code => semanticPredicate rules t.outcome s code .pushUndefined .pushFailed height
  | .semanticNot code => semanticPredicate rules t.outcome s code .pushFailed .pushUndefined height
  | .ruleRef name => do
      let i ← place rules (.rule ⟨name, t.location⟩)
      return ([Opcode.rule.value, i], s)
  | .literal value ignoreCase => literal rules t.outcome s value ignoreCase
  | .charClass set => charClass rules t.outcome s set
  | .any => any rules t.outcome s

mutual
/-- Writes the code of an expression that runs on top of `height` occupied slots. -/
def expr (rules : List Rule) (action : Option String) :
    Expr → Nat → Scope → Writing (Words × Scope)
  | .choice _ es, height, s => alternatives rules es height s
  | .sequence _ es, height, s => do
      let (inside, scope) ← elements rules action 0 es (height + 1) s.inner
      return ([Opcode.pushCurrPos.value] ++ inside, ⟨scope.labels, s.picked⟩)
  | .apply t op e, height, s =>
      match op with
      | .named name => do
          let expected ← placeIf rules (t.outcome = .sometimes) (.expectation (.rule name))
          let (body, scope) ← expr rules none e height s
          let report := match expected with
            | some i => Words.branch [Opcode.ifError.value]
                [Opcode.pop.value, Opcode.fail.value, i] []
            | none => []
          return ([Opcode.silentFailsOn.value] ++ body ++ [Opcode.silentFailsOff.value] ++ report,
            scope)
      | .action code =>
          if e.callsAction then do
            let (body, _) ← expr rules (some code.text) e height s.inner
            return (body, s)
          else do
            let (body, scope) ← expr rules none e (height + 1) s.inner
            let f ← placeIf rules (e.outcome ≠ .never)
              (.function ⟨false, scope.names, code.text⟩)
            let call := match f with
              | some f => [Opcode.loadSavedPos.value, 1] ++ Words.call f 1 (height + 2) scope
              | none => []
            return ([Opcode.pushCurrPos.value] ++ body ++
              Words.condition e.outcome [Opcode.ifNotError.value] call [] ++ [Opcode.nip.value], s)
      | .labeled label _ pick => do
          let (body, _) ← expr rules none e height s.inner
          return (body, s.mark label pick height)
      | .text => do
          let (body, _) ← expr rules none e (height + 1) s.inner
          return ([Opcode.pushCurrPos.value] ++ body ++
            Words.condition t.outcome [Opcode.ifNotError.value]
              [Opcode.pop.value, Opcode.text.value] [Opcode.nip.value], s)
      | .simpleAnd => do
          let (body, _) ← expr rules none e (height + 1) s.inner
          return ([Opcode.pushCurrPos.value, Opcode.silentFailsOn.value] ++ body ++
            [Opcode.silentFailsOff.value] ++ Words.condition e.outcome [Opcode.ifNotError.value]
              [Opcode.pop.value, Opcode.popCurrPos.value, Opcode.pushUndefined.value]
              [Opcode.pop.value, Opcode.pop.value, Opcode.pushFailed.value], s)
      | .simpleNot => do
          let (body, _) ← expr rules none e (height + 1) s.inner
          return ([Opcode.pushCurrPos.value, Opcode.silentFailsOn.value] ++ body ++
            [Opcode.silentFailsOff.value] ++ Words.condition e.outcome.invert [Opcode.ifError.value]
              [Opcode.pop.value, Opcode.pop.value, Opcode.pushUndefined.value]
              [Opcode.pop.value, Opcode.popCurrPos.value, Opcode.pushFailed.value], s)
      | .optional => do
          let (body, _) ← expr rules none e height s.inner
          return (body ++ Words.condition e.outcome.invert [Opcode.ifError.value]
            [Opcode.pop.value, Opcode.pushNull.value] [], s)
      | .zeroOrMore => do
          let (body, _) ← expr rules none e (height + 1) s.inner
          return ([Opcode.pushEmptyArray.value] ++ body ++ Words.appendLoop body ++
            [Opcode.pop.value], s)
      | .oneOrMore => do
          let (body, _) ← expr rules none e (height + 1) s.inner
          return ([Opcode.pushEmptyArray.value] ++ body ++
            Words.condition e.outcome [Opcode.ifNotError.value]
              (Words.appendLoop body ++ [Opcode.pop.value])
              [Opcode.pop.value, Opcode.pop.value, Opcode.pushFailed.value], s)
      | .group => do
          let (body, _) ← expr rules none e height s.inner
          return (body, s)
  | .leaf t l, height, s => leaf rules t l height s

def alternatives (rules : List Rule) : List Expr → Nat → Scope → Writing (Words × Scope)
  | [], _, s => return ([], s)
  | e :: es, height, s => do
      let (first, _) ← expr rules none e height s.inner
      if e.outcome = .always || es.isEmpty then
        return (first, s)
      else do
        let (rest, _) ← alternatives rules es height s
        return (first ++ Words.branch [Opcode.ifError.value] ([Opcode.pop.value] ++ rest) [], s)

/-- The elements of a sequence behind the first `n`, whose values are on the stack. -/
def elements (rules : List Rule) (action : Option String) (n : Nat) :
    List Expr → Nat → Scope → Writing (Words × Scope)
  | [], height, s => sequenceEnd rules s action n height
  | e :: es, height, s => do
      let (first, scope) ← expr rules none e height s
      let (rest, scope) ← elements rules action (n + 1) es (height + 1) scope
      return (first ++ Words.condition e.outcome [Opcode.ifNotError.value] rest
        (Words.dropTop (n + 1) ++ [Opcode.popCurrPos.value, Opcode.pushFailed.value]), scope)
end

def rule (rules : List Rule) (r : Rule) : Writing Words := do
  let (words, _) ← expr rules none r.body 0 .empty
  return words

end Writing

/-- Writes the code of one rule after another. -/
def Grammar.generateInOnePass (g : Grammar) : Except Defect Grammar := do
  let (codes, constants) ← (g.rules.mapM (Writing.rule g.rules)).run .empty
  return { g with
    rules := g.rules.zipWith (fun r code => { r with bytecode := some code }) codes
    constants := some constants }

/-! ## What is written -/

/-- Adds all that `symbols` name, unless one of them refers to no rule. -/
def Constants.addAll (rules : List Rule) (symbols : List Symbol) (c : Constants) :
    Except Defect Constants :=
  match symbols.findSome? (Symbol.defect? rules) with
  | some defect => .error defect
  | none => .ok (symbols.foldl Constants.add c)

theorem Constants.addAll_append (rules : List Rule) (xs ys : List Symbol) (c : Constants) :
    c.addAll rules (xs ++ ys) = c.addAll rules xs >>= fun c => c.addAll rules ys := by
  rw [addAll, addAll, List.findSome?_append, List.foldl_append]
  cases xs.findSome? (Symbol.defect? rules) <;> rfl

theorem Constants.eq_foldl_of_addAll {rules : List Rule} {symbols : List Symbol} {c c' : Constants}
    (h : c.addAll rules symbols = .ok c') : c' = symbols.foldl add c := by
  unfold addAll at h
  split at h
  · cases h
  · exact (Except.ok.inj h).symm

/-- Whether `m` brings up `symbols` in that order and ends with what `result` is for the tables by
then, which does not change when more is added to them. -/
structure Writes {α : Type} (rules : List Rule) (m : Writing α) (symbols : List Symbol)
    (result : Constants → α) : Prop where
  run : ∀ c : Constants, m.run c = (c.addAll rules symbols).map fun c' => (result c', c')
  stable : ∀ c c' : Constants, c.addAll rules symbols = .ok c' → ∀ more : List Symbol,
    result (more.foldl Constants.add c') = result c'

theorem Pool.index_add_of_mem {α : Type} [DecidableEq α] {p : Pool α} {a : α}
    (h : a ∈ p.values) (b : α) : (p.add b).index a = p.index a :=
  index_placeAll_of_mem h [b]

theorem Symbol.index_add {c : Constants} {names : List String} {s : Symbol} (h : s.Known c names)
    (t : Symbol) : s.index (c.add t) names = s.index c names := by
  cases t <;> cases s <;> first | rfl | exact Pool.index_add_of_mem h _

theorem Symbol.index_foldl_add {c : Constants} {names : List String} {s : Symbol}
    (h : s.Known c names) (more : List Symbol) :
    s.index (more.foldl Constants.add c) names = s.index c names := by
  induction more generalizing c with
  | nil => rfl
  | cons t ts ih => rw [List.foldl_cons, ih (h.add t), index_add h]

namespace Writes

variable {α β : Type} {rules : List Rule} {m : Writing α} {k : α → Writing β}
  {xs ys : List Symbol} {r : Constants → α} {q : α → Constants → β}

theorem pure (rules : List Rule) (a : α) : Writes rules (pure a) [] fun _ => a :=
  ⟨fun _ => rfl, fun _ _ _ _ => rfl⟩

theorem bind (h : Writes rules m xs r) (hk : ∀ c, Writes rules (k (r c)) ys (q (r c))) :
    Writes rules (m >>= k) (xs ++ ys) fun c => q (r c) c := by
  constructor
  · intro c
    rw [StateT.run_bind, h.run, Constants.addAll_append]
    cases hc : c.addAll rules xs with
    | error defect => rfl
    | ok c' =>
        change (k (r c')).run c' = (c'.addAll rules ys).map _
        rw [(hk c').run]
        cases hc' : c'.addAll rules ys with
        | error defect => rfl
        | ok c'' =>
            obtain rfl := Constants.eq_foldl_of_addAll hc'
            simp only [Except.map, h.stable c c' hc ys]
  · intro c c'' hc'' more
    rw [Constants.addAll_append] at hc''
    cases hc : c.addAll rules xs with
    | error defect =>
        rw [hc] at hc''
        cases hc''
    | ok c' =>
        rw [hc] at hc''
        change c'.addAll rules ys = .ok c'' at hc''
        obtain rfl := Constants.eq_foldl_of_addAll hc''
        have hlast := (hk c').stable c' _ hc'' more
        rw [← List.foldl_append] at hlast ⊢
        rw [h.stable c c' hc, h.stable c c' hc, hlast]

theorem andThen (h : Writes rules m xs r) (hk : ∀ a, Writes rules (k a) ys (q a)) :
    Writes rules (m >>= k) (xs ++ ys) fun c => q (r c) c :=
  h.bind fun c => hk (r c)

theorem map (h : Writes rules m xs r) (f : α → β) :
    Writes rules (do let a ← m; return f a) xs fun c => f (r c) := by
  have hbind := h.andThen fun a => .pure rules (f a)
  rwa [List.append_nil] at hbind

/-- The word for a constant is the same before and behind its addition. -/
theorem place_constant {s : Symbol} (hs : ∀ ref, s ≠ .rule ref)
    (hrun : ∀ c : Constants, (Writing.place rules s).run c =
      .ok (.ofNat (s.index c (rules.map (·.name))), c.add s))
    (hself : ∀ c : Constants, s.index (c.add s) (rules.map (·.name)) =
      s.index c (rules.map (·.name))) :
    Writes rules (Writing.place rules s) [s] fun c => .ofNat (s.index c (rules.map (·.name))) := by
  have hadd (c : Constants) : c.addAll rules [s] = .ok (c.add s) := by
    cases s with
    | rule ref => exact absurd rfl (hs ref)
    | _ => rfl
  constructor
  · intro c
    rw [hrun, hadd, ← hself]
    rfl
  · intro c c' hc more
    obtain rfl := Constants.eq_foldl_of_addAll hc
    have hknown : s.Known (c.add s) (rules.map (·.name)) :=
      Symbol.known_add_self fun ref href => absurd href (hs ref)
    exact congrArg UInt32.ofNat (Symbol.index_foldl_add hknown more)

theorem place_rule (rules : List Rule) (ref : RuleRef) :
    Writes rules (Writing.place rules (.rule ref)) [.rule ref] fun _ =>
      .ofNat ((rules.map (·.name)).idxOf ref.name) := by
  have hdefined : ref.isDefined rules = (ruleIndex? rules ref.name).isSome := by
    rw [Bool.eq_iff_iff, Inference.isDefined_iff_mem, Inference.ruleIndex?_isSome_iff]
  refine ⟨fun c => ?_, fun _ _ _ _ => rfl⟩
  cases hi : ruleIndex? rules ref.name with
  | some i =>
      rw [hi] at hdefined
      rw [idxOf_eq_ruleIndex? hi]
      simp only [Writing.place, hi, Constants.addAll, List.findSome?_cons, List.findSome?_nil,
        Symbol.defect?, RuleRef.defect?, hdefined]
      rfl
  | none =>
      rw [hi] at hdefined
      simp only [Writing.place, hi, Constants.addAll, List.findSome?_cons, List.findSome?_nil,
        Symbol.defect?, RuleRef.defect?, hdefined]
      rfl

theorem place (rules : List Rule) (s : Symbol) :
    Writes rules (Writing.place rules s) [s] fun c => .ofNat (s.index c (rules.map (·.name))) := by
  cases s with
  | rule ref => exact place_rule rules ref
  | _ => exact place_constant (by simp) (fun c => rfl) fun c => Pool.index_add_self _ _

theorem placeIf (rules : List Rule) (needed : Bool) (s : Symbol) :
    Writes rules (Writing.placeIf rules needed s) (if needed then [s] else [])
      fun c => if needed then some (.ofNat (s.index c (rules.map (·.name)))) else none := by
  cases needed with
  | false => exact .pure rules none
  | true =>
      rw [Writing.placeIf, if_pos rfl, map_eq_pure_bind]
      exact (place rules s).map some

end Writes

/-! ## Written code -/

section Words

variable (c : Constants) (names : List String)

@[simp] theorem listWords_nil : Instr.listWords c names [] = [] := rfl

@[simp] theorem listWords_op (code : Opcode) (os : List Operand) (is : List Instr) :
    Instr.listWords c names (.op code os :: is) =
      code.value :: os.map (Operand.word c names) ++ Instr.listWords c names is := rfl

@[simp] theorem listWords_branch (test : Opcode) (os : List Operand) (yes no is : List Instr) :
    Instr.listWords c names (.branch test os yes no :: is) =
      Words.branch (test.value :: os.map (Operand.word c names)) (Instr.listWords c names yes)
        (Instr.listWords c names no) ++ Instr.listWords c names is := by
  simp [Instr.listWords, Instr.words, Words.branch]

@[simp] theorem listWords_append (first rest : List Instr) :
    Instr.listWords c names (first ++ rest) =
      Instr.listWords c names first ++ Instr.listWords c names rest := by
  induction first with
  | nil => rfl
  | cons i is ih => rw [List.cons_append, Instr.listWords, ih, Instr.listWords, List.append_assoc]

@[simp] theorem listWords_condition (outcome : Outcome) (test : Opcode) (os : List Operand)
    (yes no : List Instr) :
    Instr.listWords c names (condition outcome test os yes no) =
      Words.condition outcome (test.value :: os.map (Operand.word c names))
        (Instr.listWords c names yes) (Instr.listWords c names no) := by
  cases outcome <;> simp [condition, Words.condition]

@[simp] theorem listWords_callOf (f : HostFunction) (n height : Nat) (s : Scope)
    (is : List Instr) :
    Instr.listWords c names (callOf f n height s :: is) =
      Words.call (.ofNat (c.functions.index f)) n height s ++ Instr.listWords c names is := by
  simp [callOf, Words.call, Words.offsets, Operand.word, Symbol.index, offsetFrom]

@[simp] theorem listWords_appendLoop (body is : List Instr) :
    Instr.listWords c names (appendLoop body :: is) =
      Words.appendLoop (Instr.listWords c names body) ++ Instr.listWords c names is := by
  simp [appendLoop, Instr.listWords, Instr.words, Words.appendLoop, Words.loop]

@[simp] theorem listWords_orElse (rest is : List Instr) :
    Instr.listWords c names (orElse rest :: is) = Words.branch [Opcode.ifError.value]
      ([Opcode.pop.value] ++ Instr.listWords c names rest) [] ++ Instr.listWords c names is := by
  simp [orElse]

@[simp] theorem listWords_unwind (n : Nat) :
    Instr.listWords c names (unwind n) =
      Words.dropTop n ++ [Opcode.popCurrPos.value, Opcode.pushFailed.value] := by
  by_cases hn : n = 1 <;>
    simp [unwind, dropTop, Words.dropTop, hn, Instr.words, Instr.listWords, Operand.word]

end Words

/-- Whether `m` writes the code of `l` and ends in its scope. -/
def WritesCode (rules : List Rule) (m : Writing (Words × Scope)) (l : Lowered) : Prop :=
  Writes rules m l.symbols fun c => (Instr.listWords c (rules.map (·.name)) l.code, l.scope)

theorem Writes.code {rules : List Rule} {m : Writing (Words × Scope)} {xs : List Symbol}
    {r : Constants → Words × Scope} {l : Lowered} (h : Writes rules m xs r)
    (hsymbols : xs = l.symbols)
    (hwords : ∀ c, r c = (Instr.listWords c (rules.map (·.name)) l.code, l.scope)) :
    WritesCode rules m l := by
  rw [WritesCode, ← hsymbols, ← funext hwords]
  exact h

/-- What follows written code gets its words and works in its scope. -/
theorem WritesCode.andThen {α : Type} {rules : List Rule} {m : Writing (Words × Scope)}
    {k : Words × Scope → Writing α} {l : Lowered} {ys : List Symbol} {q : Words → Constants → α}
    (h : WritesCode rules m l) (hk : ∀ words, Writes rules (k (words, l.scope)) ys (q words)) :
    Writes rules (m >>= k) (l.symbols ++ ys)
      fun c => q (Instr.listWords c (rules.map (·.name)) l.code) c :=
  h.bind (q := fun a => q a.1) fun _ => hk _

/-- Nothing more is brought up by code around written code. -/
theorem WritesCode.andReturn {rules : List Rule} {m : Writing (Words × Scope)}
    {k : Words × Scope → Writing (Words × Scope)} {l l' : Lowered} {f : Words → Words × Scope}
    (h : WritesCode rules m l) (hk : ∀ words, k (words, l.scope) = pure (f words))
    (hsymbols : l.symbols = l'.symbols)
    (hwords : ∀ c, f (Instr.listWords c (rules.map (·.name)) l.code) =
      (Instr.listWords c (rules.map (·.name)) l'.code, l'.scope)) :
    WritesCode rules (m >>= k) l' := by
  have hrest (words : Words) : Writes rules (k (words, l.scope)) [] fun _ => f words := by
    rw [hk]
    exact .pure rules (f words)
  exact Writes.code (h.andThen hrest) ((List.append_nil _).trans hsymbols) hwords

namespace Writing

section Leaves

variable (rules : List Rule) (outcome : Outcome) (s : Scope)

theorem semanticPredicate_writes (code : Code) (onTrue onFalse : Opcode) (height : Nat) :
    WritesCode rules (semanticPredicate rules outcome s code onTrue onFalse height)
      (PegCompiler.semanticPredicate outcome code onTrue onFalse height s) := by
  refine ((Writes.place rules _).map _).code rfl fun c => ?_
  simp [PegCompiler.semanticPredicate, Symbol.index]

theorem literal_writes (value : String) (ignoreCase : Bool) :
    WritesCode rules (literal rules outcome s value ignoreCase)
      (lowerLiteral outcome value ignoreCase s) := by
  unfold literal lowerLiteral
  split
  · exact (Writes.pure rules _).code rfl fun c => rfl
  · refine ((Writes.placeIf rules _ _).andThen fun i =>
      (Writes.placeIf rules _ _).map _).code ?_ ?_
    · cases outcome <;> cases ignoreCase <;> simp [failure]
    · intro c
      cases outcome <;> cases ignoreCase <;>
        simp [condition, Words.condition, Words.branch, failure, withConstant, onMatch,
          Operand.word]

theorem charClass_writes (set : CharClass) :
    WritesCode rules (charClass rules outcome s set) (lowerCharClass outcome set s) := by
  refine ((Writes.placeIf rules _ _).andThen fun i => (Writes.placeIf rules _ _).map _).code ?_ ?_
  · cases outcome <;> simp [lowerCharClass, failure]
  · intro c
    cases outcome <;>
      simp [lowerCharClass, condition, Words.condition, Words.branch, failure, withConstant,
        Operand.word]

theorem any_writes : WritesCode rules (any rules outcome s) (lowerAny outcome s) := by
  refine ((Writes.placeIf rules _ _).map _).code ?_ ?_
  · cases outcome <;> simp [lowerAny, failure]
  · intro c
    cases outcome <;>
      simp [lowerAny, condition, Words.condition, Words.branch, failure, withConstant, Operand.word]

theorem sequenceEnd_writes (action : Option String) (n height : Nat) :
    WritesCode rules (sequenceEnd rules s action n height)
      (PegCompiler.sequenceEnd action n height s) := by
  unfold sequenceEnd PegCompiler.sequenceEnd
  split
  · cases action with
    | some body =>
        refine ((Writes.place rules _).map _).code rfl fun c => ?_
        simp [Operand.word, Symbol.index]
    | none => exact (Writes.pure rules _).code rfl fun c => rfl
  · refine (Writes.pure rules _).code rfl fun c => ?_
    simp [Operand.word, Words.offsets, offsetFrom]

end Leaves

theorem leaf_writes (rules : List Rule) (t : Tag) (l : Leaf) (height : Nat) (s : Scope) :
    WritesCode rules (leaf rules t l height s) (lowerLeaf t l height s) := by
  cases l with
  | semanticAnd code => exact semanticPredicate_writes ..
  | semanticNot code => exact semanticPredicate_writes ..
  | ruleRef name => exact ((Writes.place rules _).map _).code rfl fun c => rfl
  | literal value ignoreCase => exact literal_writes ..
  | charClass set => exact charClass_writes ..
  | any => exact any_writes ..

section Expressions

variable {rules : List Rule}

theorem alternatives_writes {es : List Expr}
    (hes : ∀ e ∈ es, ∀ action height s,
      WritesCode rules (expr rules action e height s) (e.lower action height s))
    (height : Nat) (s : Scope) :
    WritesCode rules (alternatives rules es height s) (Expr.lowerAlternatives es height s) := by
  induction es with
  | nil => exact (Writes.pure rules _).code rfl fun c => rfl
  | cons e es ih =>
      obtain ⟨he, hes⟩ := List.forall_mem_cons.mp hes
      have hfirst := he none height s.inner
      rw [alternatives, Expr.lowerAlternatives]
      by_cases hlast : (e.outcome = .always || es.isEmpty) = true
      · simp only [hlast, if_true]
        exact hfirst.andReturn (fun words => rfl) rfl fun c => rfl
      · simp only [hlast]
        refine Writes.code
          (hfirst.andThen fun words => (ih hes).andThen fun rest => .pure rules _) ?_ fun c => ?_
        · simp
        · simp

theorem elements_writes {es : List Expr}
    (hes : ∀ e ∈ es, ∀ action height s,
      WritesCode rules (expr rules action e height s) (e.lower action height s))
    (action : Option String) (n height : Nat) (s : Scope) :
    WritesCode rules (elements rules action n es height s)
      (Expr.lowerElements action n es height s) := by
  induction es generalizing n height s with
  | nil => exact sequenceEnd_writes ..
  | cons e es ih =>
      obtain ⟨he, hes⟩ := List.forall_mem_cons.mp hes
      rw [elements, Expr.lowerElements]
      refine Writes.code ((he none height s).andThen fun words =>
        (ih hes (n + 1) (height + 1) _).andThen fun rest => .pure rules _) ?_ fun c => ?_
      · simp
      · simp [listWords_unwind]

theorem expr_writes (e : Expr) (action : Option String) (height : Nat) (s : Scope) :
    WritesCode rules (expr rules action e height s) (e.lower action height s) := by
  induction e generalizing action height s with
  | choice t es ih =>
      rw [expr]
      exact alternatives_writes ih height s
  | sequence t es ih =>
      rw [expr]
      have hinside := elements_writes ih action 0 (height + 1) s.inner
      exact hinside.andReturn (fun words => rfl) rfl fun c => rfl
  | apply t op e ih =>
      cases op with
      | named name =>
          rw [expr]
          refine Writes.code ((Writes.placeIf rules _ _).andThen fun i =>
            (ih none height s).andThen fun words => .pure rules _) ?_ fun c => ?_
          · simp [Expr.lower, lowerNamed]
          · by_cases ht : t.outcome = .sometimes <;>
              simp [Expr.lower, lowerNamed, ht, Words.branch, Operand.word]
      | action code =>
          rw [expr, Expr.lower]
          by_cases hcalls : e.callsAction = true
          · simp only [hcalls, if_true]
            have hbody := ih (some code.text) height s.inner
            exact hbody.andReturn (fun words => rfl) rfl fun c => rfl
          · simp only [hcalls]
            have hbody := ih none (height + 1) s.inner
            have hcall := Writes.placeIf rules (e.outcome ≠ .never)
              (.function ⟨false, (e.lower none (height + 1) s.inner).scope.names, code.text⟩)
            refine Writes.code
              (hbody.andThen fun words => hcall.andThen fun f => .pure rules _) ?_ fun c => ?_
            · simp [lowerAction]
            · cases ho : e.outcome <;>
                simp [lowerAction, condition, Words.condition, Operand.word, Symbol.index]
      | labeled label location pick =>
          rw [expr]
          exact (ih none height s.inner).andReturn (fun words => rfl) rfl fun c => rfl
      | text =>
          rw [expr]
          have hbody := ih none (height + 1) s.inner
          refine hbody.andReturn (fun words => rfl) rfl fun c => ?_
          simp [Expr.lower, lowerText]
      | simpleAnd =>
          rw [expr]
          have hbody := ih none (height + 1) s.inner
          refine hbody.andReturn (fun words => rfl) rfl fun c => ?_
          simp [Expr.lower, lowerSimpleAnd]
      | simpleNot =>
          rw [expr]
          have hbody := ih none (height + 1) s.inner
          refine hbody.andReturn (fun words => rfl) rfl fun c => ?_
          simp [Expr.lower, lowerSimpleNot]
      | optional =>
          rw [expr]
          have hbody := ih none height s.inner
          refine hbody.andReturn (fun words => rfl) rfl fun c => ?_
          simp [Expr.lower, lowerOptional]
      | zeroOrMore =>
          rw [expr]
          have hbody := ih none (height + 1) s.inner
          refine hbody.andReturn (fun words => rfl) rfl fun c => ?_
          simp [Expr.lower, lowerZeroOrMore]
      | oneOrMore =>
          rw [expr]
          have hbody := ih none (height + 1) s.inner
          refine hbody.andReturn (fun words => rfl) rfl fun c => ?_
          simp [Expr.lower, lowerOneOrMore]
      | group =>
          rw [expr]
          exact (ih none height s.inner).andReturn (fun words => rfl) rfl fun c => rfl
  | leaf t l => exact leaf_writes ..

theorem rule_writes (r : Rule) :
    Writes rules (rule rules r) r.lower.symbols fun c => r.assemble c (rules.map (·.name)) := by
  rw [← List.append_nil r.lower.symbols, rule]
  exact WritesCode.andThen (q := fun words _ => words) (expr_writes r.body none 0 .empty)
    fun words => .pure rules words

theorem rules_writes (rs : List Rule) :
    Writes rules (rs.mapM (rule rules)) (ruleSymbols rs)
      fun c => rs.map (Rule.assemble c (rules.map (·.name))) := by
  induction rs with
  | nil => exact .pure rules []
  | cons r rs ih =>
      rw [List.mapM_cons]
      have hrest (words : Words) := ih.map fun codes => words :: codes
      exact (rule_writes r).andThen hrest

end Expressions

end Writing

/-- Writing the code of all rules while the tables grow gives the grammar with the same words and
tables, or the same defect, as assembling it with the finished tables. -/
theorem Grammar.generateInOnePass_eq (g : Grammar) : g.generateInOnePass = g.generate := by
  rw [generateInOnePass, (Writing.rules_writes g.rules).run, generate, Constants.addAll]
  cases (ruleSymbols g.rules).findSome? (Symbol.defect? g.rules) with
  | some defect => rfl
  | none =>
      simp only [Except.map, Constants.ofSymbols, ruleNames]
      change Except.ok _ = Except.ok _
      rw [List.zipWith_map_right, List.zipWith_self]

end PegCompiler
