import PegCompiler.Bytecode.Instr
import PegCompiler.Grammar.Basic
import PegCompiler.Text.Lowercase

/-!
# Lowering

The code of an expression pushes exactly one value, its result or the failure mark. A branch that
the known outcome of an expression rules out is left away.

While code is generated the number of occupied slots below it is known, so labels and picked values
are just the slots that hold them.
-/

namespace PegCompiler

/-- What a sequence keeps account of: its labels in the order of their first use, each with the
slot of its value, and the slots of picked values. -/
structure Scope where
  labels : List (String × Nat)
  picked : List Nat
  deriving Repr

namespace Scope

def empty : Scope := ⟨[], []⟩

/-- The scope of an expression whose labels and picks stay inside of it. -/
def inner (s : Scope) : Scope := ⟨s.labels, []⟩

def names (s : Scope) : List String := s.labels.map (·.1)

def slots (s : Scope) : List Nat := s.labels.map (·.2)

/-- Gives the label a slot. A label that is there already keeps its place. -/
def bind (labels : List (String × Nat)) (label : String) (slot : Nat) : List (String × Nat) :=
  match labels with
  | [] => [(label, slot)]
  | (l, n) :: rest => if l = label then (l, slot) :: rest else (l, n) :: bind rest label slot

/-- The scope behind a labeled expression with its value in `slot`. -/
def mark (s : Scope) (label : Option String) (pick : Bool) (slot : Nat) : Scope :=
  ⟨match label with | some l => bind s.labels l slot | none => s.labels,
    if pick then s.picked ++ [slot] else s.picked⟩

end Scope

/-- The code of an expression, the symbols it brought up in that order, and the scope behind it. The
symbols of code that was left away are among them. -/
structure Lowered where
  code : List Instr
  symbols : List Symbol
  scope : Scope

/-- How far `slot` lies below the top of `height` occupied slots. -/
def offsetFrom (height slot : Nat) : Operand :=
  .offset ((height : Int) - 1 - slot)

/-- Only the branch that `outcome` allows, or both behind the test. -/
def condition (outcome : Outcome) (test : Opcode) (operands : List Operand)
    (yes no : List Instr) : List Instr :=
  match outcome with
  | .always => yes
  | .never => no
  | .sometimes => [.branch test operands yes no]

/-- Replaces the `n` values on top of `height` slots by the result of `f` for the labels of the
scope. -/
def callOf (f : HostFunction) (n height : Nat) (s : Scope) : Instr :=
  .op .call ([.symbol (.function f), .count n, .count s.slots.length] ++
    s.slots.map (offsetFrom height))

def dropTop (n : Nat) : Instr :=
  if n = 1 then .op .pop [] else .op .popN [.count n]

/-- What becomes of the `n` values of a sequence and the position below them: the picked ones, the
result of the action around it, or all of them. -/
def sequenceEnd (action : Option String) (n height : Nat) (s : Scope) : Lowered :=
  if s.picked.isEmpty then
    match action with
    | some body =>
        let f : HostFunction := ⟨false, s.names, body⟩
        ⟨[.op .loadSavedPos [.count n], callOf f (n + 1) height s], [.function f], s⟩
    | none => ⟨[.op .wrap [.count n], .op .nip []], [], s⟩
  else
    ⟨[.op .pluck ([.count (n + 1), .count s.picked.length] ++ s.picked.map (offsetFrom height))],
      [], s⟩

def semanticPredicate (outcome : Outcome) (code : Code) (onTrue onFalse : Opcode)
    (height : Nat) (s : Scope) : Lowered :=
  let f : HostFunction := ⟨true, s.names, code.text⟩
  ⟨[.op .updateSavedPos [], callOf f 0 height s] ++
      condition outcome .ifTrue [] [.op .pop [], .op onTrue []] [.op .pop [], .op onFalse []],
    [.function f], s⟩

/-- The failure to match what is expected; nothing fails that always matches. -/
def failure (outcome : Outcome) (e : Expectation) : List Instr × List Symbol :=
  if outcome = .always then ([], [])
  else ([.op .fail [.symbol (.expectation e)]], [.expectation e])

def lowerLiteral (outcome : Outcome) (value : String) (ignoreCase : Bool) (s : Scope) : Lowered :=
  if value.isEmpty then ⟨[.op .pushEmptyString []], [], s⟩
  else
    let stored : Symbol := .literal (if ignoreCase then Text.lowercase value else value)
    let test : Opcode := if ignoreCase then .matchStringIc else .matchString
    let accept : Instr :=
      if ignoreCase then .op .acceptN [.count value.length] else .op .acceptString [.symbol stored]
    let (fail, expected) := failure outcome (.literal value ignoreCase)
    let symbols := match outcome with
      | .always => if ignoreCase then [] else [stored]
      | .sometimes => [stored]
      | .never => []
    ⟨condition outcome test [.symbol stored] [accept] fail, symbols ++ expected, s⟩

def lowerCharClass (outcome : Outcome) (set : CharClass) (s : Scope) : Lowered :=
  let (fail, expected) := failure outcome (.charClass set)
  let symbols := if outcome = .sometimes then [.charClass set] else []
  ⟨condition outcome .matchCharClass [.symbol (.charClass set)] [.op .acceptN [.count 1]] fail,
    symbols ++ expected, s⟩

def lowerAny (outcome : Outcome) (s : Scope) : Lowered :=
  let (fail, expected) := failure outcome .any
  ⟨condition outcome .matchAny [] [.op .acceptN [.count 1]] fail, expected, s⟩

def lowerLeaf (t : Tag) (l : Leaf) (height : Nat) (s : Scope) : Lowered :=
  match l with
  | .semanticAnd code => semanticPredicate t.outcome code .pushUndefined .pushFailed height s
  | .semanticNot code => semanticPredicate t.outcome code .pushFailed .pushUndefined height s
  | .ruleRef name =>
      let symbol : Symbol := .rule ⟨name, t.location⟩
      ⟨[.op .rule [.symbol symbol]], [symbol], s⟩
  | .literal value ignoreCase => lowerLiteral t.outcome value ignoreCase s
  | .charClass set => lowerCharClass t.outcome set s
  | .any => lowerAny t.outcome s

def lowerNamed (outcome : Outcome) (name : String) (body : Lowered) : Lowered :=
  let expected : Symbol := .expectation (.rule name)
  let reported := outcome = .sometimes
  ⟨[.op .silentFailsOn []] ++ body.code ++ [.op .silentFailsOff []] ++
      (if reported then
        [.branch .ifError [] [.op .pop [], .op .fail [.symbol expected]] []] else []),
    (if reported then [expected] else []) ++ body.symbols, body.scope⟩

/-- The code around that of the body of an action, when the body is not a sequence that does the
call itself. -/
def lowerAction (outcome : Outcome) (code : String) (height : Nat) (body : Lowered) (s : Scope) :
    Lowered :=
  let f : HostFunction := ⟨false, body.scope.names, code⟩
  let call := [.op .loadSavedPos [.count 1], callOf f 1 (height + 2) body.scope]
  ⟨[.op .pushCurrPos []] ++ body.code ++ condition outcome .ifNotError [] call [] ++ [.op .nip []],
    body.symbols ++ (if outcome = .never then [] else [.function f]), s⟩

def lowerText (outcome : Outcome) (body : Lowered) (s : Scope) : Lowered :=
  ⟨[.op .pushCurrPos []] ++ body.code ++
      condition outcome .ifNotError [] [.op .pop [], .op .text []] [.op .nip []],
    body.symbols, s⟩

/-- Looks ahead: whatever the body consumed is given back. -/
def lowerSimpleAnd (outcome : Outcome) (body : Lowered) (s : Scope) : Lowered :=
  ⟨[.op .pushCurrPos [], .op .silentFailsOn []] ++ body.code ++ [.op .silentFailsOff []] ++
      condition outcome .ifNotError []
        [.op .pop [], .op .popCurrPos [], .op .pushUndefined []]
        [.op .pop [], .op .pop [], .op .pushFailed []],
    body.symbols, s⟩

def lowerSimpleNot (outcome : Outcome) (body : Lowered) (s : Scope) : Lowered :=
  ⟨[.op .pushCurrPos [], .op .silentFailsOn []] ++ body.code ++ [.op .silentFailsOff []] ++
      condition outcome.invert .ifError []
        [.op .pop [], .op .pop [], .op .pushUndefined []]
        [.op .pop [], .op .popCurrPos [], .op .pushFailed []],
    body.symbols, s⟩

def lowerOptional (outcome : Outcome) (body : Lowered) (s : Scope) : Lowered :=
  ⟨body.code ++ condition outcome.invert .ifError [] [.op .pop [], .op .pushNull []] [],
    body.symbols, s⟩

/-- Appends values to the array below the top until one is failed. -/
def appendLoop (body : List Instr) : Instr :=
  .loop (.op .append [] :: body)

def lowerZeroOrMore (body : Lowered) (s : Scope) : Lowered :=
  ⟨[.op .pushEmptyArray []] ++ body.code ++ [appendLoop body.code, .op .pop []], body.symbols, s⟩

def lowerOneOrMore (outcome : Outcome) (body : Lowered) (s : Scope) : Lowered :=
  ⟨[.op .pushEmptyArray []] ++ body.code ++
      condition outcome .ifNotError [] [appendLoop body.code, .op .pop []]
        [.op .pop [], .op .pop [], .op .pushFailed []],
    body.symbols, s⟩

/-- What follows the first alternative of a choice; `rest` is the code of those behind it. -/
def orElse (rest : List Instr) : Instr :=
  .branch .ifError [] (.op .pop [] :: rest) []

/-- The failure of a sequence after `n` elements. -/
def unwind (n : Nat) : List Instr :=
  [dropTop n, .op .popCurrPos [], .op .pushFailed []]

namespace Expr

/-- A sequence with elements calls the action around it by itself. -/
def callsAction : Expr → Bool
  | sequence _ (_ :: _) => true
  | _ => false

mutual
/-- The code of an expression that runs on top of `height` occupied slots. The `action` is the one
that a sequence has to call. -/
def lower (action : Option String) : Expr → Nat → Scope → Lowered
  | choice _ es, height, s => lowerAlternatives es height s
  | sequence _ es, height, s =>
      let inside := lowerElements action 0 es (height + 1) s.inner
      ⟨[.op .pushCurrPos []] ++ inside.code, inside.symbols, ⟨inside.scope.labels, s.picked⟩⟩
  | apply t op e, height, s =>
      match op with
      | .named name => lowerNamed t.outcome name (lower none e height s)
      | .action code =>
          if e.callsAction then
            let body := lower (some code.text) e height s.inner
            ⟨body.code, body.symbols, s⟩
          else lowerAction e.outcome code.text height (lower none e (height + 1) s.inner) s
      | .labeled label _ pick =>
          let body := lower none e height s.inner
          ⟨body.code, body.symbols, s.mark label pick height⟩
      | .text => lowerText t.outcome (lower none e (height + 1) s.inner) s
      | .simpleAnd => lowerSimpleAnd e.outcome (lower none e (height + 1) s.inner) s
      | .simpleNot => lowerSimpleNot e.outcome (lower none e (height + 1) s.inner) s
      | .optional => lowerOptional e.outcome (lower none e height s.inner) s
      | .zeroOrMore => lowerZeroOrMore (lower none e (height + 1) s.inner) s
      | .oneOrMore => lowerOneOrMore e.outcome (lower none e (height + 1) s.inner) s
      | .group =>
          let body := lower none e height s.inner
          ⟨body.code, body.symbols, s⟩
  | leaf t l, height, s => lowerLeaf t l height s

/-- Tries one alternative after the other. Those behind one that always matches cannot be reached;
those behind one that never does still may run host code. -/
def lowerAlternatives : List Expr → Nat → Scope → Lowered
  | [], _, s => ⟨[], [], s⟩
  | e :: es, height, s =>
      let first := lower none e height s.inner
      if e.outcome = .always || es.isEmpty then ⟨first.code, first.symbols, s⟩
      else
        let rest := lowerAlternatives es height s
        ⟨first.code ++ [orElse rest.code], first.symbols ++ rest.symbols, s⟩

/-- The elements of a sequence behind the first `n`, whose values are on the stack. -/
def lowerElements (action : Option String) (n : Nat) : List Expr → Nat → Scope → Lowered
  | [], height, s => sequenceEnd action n height s
  | e :: es, height, s =>
      let first := lower none e height s
      let rest := lowerElements action (n + 1) es (height + 1) first.scope
      ⟨first.code ++ condition e.outcome .ifNotError [] rest.code (unwind (n + 1)),
        first.symbols ++ rest.symbols, rest.scope⟩
end

end Expr

/-- The code of a rule runs on a stack of its own. -/
def Rule.lower (r : Rule) : Lowered :=
  r.body.lower none 0 .empty

end PegCompiler
