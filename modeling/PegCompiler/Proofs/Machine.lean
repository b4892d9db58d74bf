import PegCompiler.Bytecode.Decode
import PegCompiler.Proofs.Evaluation

/-!
# The parsing machine

The machine runs bytecode on a stack of values. It reads a word with its operands, looks up the
constants that they stand for, and either does what the instruction says or runs one of its blocks.
The code of a rule runs on a stack of its own and has to leave one value there.
-/

namespace PegCompiler

/-- A value on the stack. An action may answer with any value of the host. -/
inductive Value (α : Type) where
  | failed
  | undefined
  | null
  | bool (b : Bool)
  | position (p : Nat)
  | text (s : String)
  | array (vs : List (Value α))
  | host (a : α)

namespace Value

variable {α : Type}

def isFailed : Value α → Bool
  | failed => true
  | _ => false

def isTrue : Value α → Bool
  | bool b => b
  | _ => false

@[simp] theorem isFailed_eq_false {v : Value α} : v.isFailed = false ↔ v ≠ failed := by
  cases v <;> simp [isFailed]

end Value

/-- The host functions that bytecode calls. -/
structure Host (α : Type) where
  /-- The answer of an action for its arguments, the saved position and the current one. -/
  action : HostFunction → List (Value α) → Nat → Nat → Value α
  /-- The truth of a predicate for its arguments and the current position. -/
  predicate : HostFunction → List (Value α) → Nat → Bool

structure State (α : Type) where
  position : Nat
  savedPosition : Nat
  /-- Failures are reported while this is zero. -/
  silentFails : Int
  reports : List (Nat × Expectation)
  /-- The top comes first. -/
  stack : List (Value α)

namespace State

variable {α : Type}

def push (v : Value α) (s : State α) : State α :=
  { s with stack := v :: s.stack }

/-- Pushes `v` in place of the `n` values on top. -/
def replace (n : Nat) (v : Value α) (s : State α) : State α :=
  { s with stack := v :: s.stack.drop n }

end State

def Plain.value (position : Nat) : Plain → Value α
  | emptyString => .text ""
  | undefined => .undefined
  | null => .null
  | failed => .failed
  | emptyArray => .array []
  | currPos => .position position

/-- What an instruction without blocks does, with the constants in place of their indices. -/
inductive Effect where
  | push (value : Plain)
  | pop
  | popCurrPos
  | popN (n : Nat)
  | nip
  | append
  | wrap (n : Nat)
  | text
  | pluck (n : Nat) (offsets : List Nat)
  | acceptN (n : Nat)
  | acceptString (value : String)
  | fail (e : Expectation)
  | loadSavedPos (offset : Nat)
  | updateSavedPos
  | call (f : HostFunction) (n : Nat) (offsets : List Nat)
  | silentFailsOn
  | silentFailsOff

/-- One value as it is, several as an array. -/
def Value.ofList : List (Value α) → Value α
  | [v] => v
  | vs => .array vs

namespace Effect

variable {α : Type}

/-- The state behind the effect, unless the stack does not hold what is needed. A label that has no
slot any more stands for an undefined argument. -/
def apply (σ : Setting) (h : Host α) (s : State α) : Effect → Option (State α)
  | push value => some (s.push (value.value s.position))
  | pop => match s.stack with
      | _ :: vs => some { s with stack := vs }
      | _ => none
  | popCurrPos => match s.stack with
      | .position p :: vs => some { s with position := p, stack := vs }
      | _ => none
  | popN n => if n ≤ s.stack.length then some { s with stack := s.stack.drop n } else none
  | nip => match s.stack with
      | v :: _ :: vs => some { s with stack := v :: vs }
      | _ => none
  | append => match s.stack with
      | v :: .array vs :: rest => some { s with stack := .array (vs ++ [v]) :: rest }
      | _ => none
  | wrap n =>
      if n ≤ s.stack.length then some (s.replace n (.array (s.stack.take n).reverse)) else none
  | text => match s.stack with
      | .position p :: vs =>
          some { s with stack := .text (String.ofList ((σ.input.take s.position).drop p)) :: vs }
      | _ => none
  | pluck n offsets =>
      if n ≤ s.stack.length then
        (offsets.mapM (s.stack[·]?)).map fun vs => s.replace n (.ofList vs)
      else none
  | acceptN n =>
      let accepted := String.ofList ((σ.input.drop s.position).take n)
      some { s.push (.text accepted) with position := s.position + n }
  | acceptString value => some { s.push (.text value) with position := s.position + value.length }
  | fail e =>
      let reports := if s.silentFails = 0 then s.reports ++ [(s.position, e)] else s.reports
      some { s.push .failed with reports }
  | loadSavedPos offset => match s.stack[offset]? with
      | some (.position p) => some { s with savedPosition := p }
      | _ => none
  | updateSavedPos => some { s with savedPosition := s.position }
  | call f n offsets =>
      let args := offsets.map fun o => s.stack[o]?.getD .undefined
      let answer := if f.predicate then .bool (h.predicate f args s.position)
        else h.action f args s.savedPosition s.position
      if n ≤ s.stack.length then some (s.replace n answer) else none
  | silentFailsOn => some { s with silentFails := s.silentFails + 1 }
  | silentFailsOff => some { s with silentFails := s.silentFails - 1 }

end Effect

/-- What decides between two blocks, with the constants in place of their indices. -/
inductive Condition where
  | isTrue
  | isFailed
  | isNotFailed
  | hasInput
  | hasLiteral (value : String)
  | hasLiteralIgnoringCase (value : String)
  | hasClass (set : CharClass)

/-- The truth of a condition. To ignore case, as many characters as the literal has are brought to
lower case, or what is left of the input. -/
def Condition.holds? (σ : Setting) (s : State α) : Condition → Option Bool
  | isTrue => s.stack.head?.map Value.isTrue
  | isFailed => s.stack.head?.map Value.isFailed
  | isNotFailed => s.stack.head?.map (!·.isFailed)
  | hasInput => some (s.position < σ.input.length)
  | hasLiteral value => some (value.toList.isPrefixOf (σ.input.drop s.position))
  | hasLiteralIgnoringCase value =>
      some (Text.lowercase (String.ofList ((σ.input.drop s.position).take value.length)) = value)
  | hasClass set => some (σ.input[s.position]?.any (σ.inClass set))

def Test.condition? (c : Constants) : Test → Option Condition
  | isTrue => some .isTrue
  | isFailed => some .isFailed
  | isNotFailed => some .isNotFailed
  | hasInput => some .hasInput
  | hasLiteral i => (c.literals.get? i.toNat).map .hasLiteral
  | hasLiteralIgnoringCase i => (c.literals.get? i.toNat).map .hasLiteralIgnoringCase
  | hasClass i => (c.classes.get? i.toNat).map .hasClass

/-- The effect of an instruction without blocks. -/
def Instruction.effect? (c : Constants) : Instruction → Option Effect
  | push value => some (.push value)
  | pop => some .pop
  | popCurrPos => some .popCurrPos
  | popN n => some (.popN n.toNat)
  | nip => some .nip
  | append => some .append
  | wrap n => some (.wrap n.toNat)
  | text => some .text
  | pluck n offsets => some (.pluck n.toNat (offsets.map UInt32.toNat))
  | branch _ _ _ => none
  | loop _ => none
  | acceptN n => some (.acceptN n.toNat)
  | acceptString i => (c.literals.get? i.toNat).map .acceptString
  | fail i => (c.expectations.get? i.toNat).map .fail
  | loadSavedPos offset => some (.loadSavedPos offset.toNat)
  | updateSavedPos => some .updateSavedPos
  | call f n offsets =>
      (c.functions.get? f.toNat).map fun f => .call f n.toNat (offsets.map UInt32.toNat)
  | rule _ => none
  | silentFailsOn => some .silentFailsOn
  | silentFailsOff => some .silentFailsOff

section Runs

variable {α : Type} (σ : Setting) (h : Host α) (rules : List Rule) (c : Constants)

/-- Runs an instruction with `left` behind it, and leaves blocks, rules and what follows to `run`. A
loop goes on with `again`. -/
def Instruction.run (run : List UInt32 → State α → Option (State α)) (again left : List UInt32)
    (s : State α) (i : Instruction) : Option (State α) :=
  match i with
  | branch test yes no =>
      if left.length < yes + no then none
      else (test.condition? c).bind fun condition => (condition.holds? σ s).bind fun b =>
        (run (if b then left.take yes else (left.drop yes).take no) s).bind
          (run (left.drop (yes + no)))
  | loop body =>
      if left.length < body then none
      else (Condition.isNotFailed.holds? σ s).bind fun b =>
        if b then (run (left.take body) s).bind (run again) else run (left.drop body) s
  | rule i =>
      (rules[i.toNat]?.bind (·.bytecode)).bind fun code =>
        (run code { s with stack := [] }).bind fun t =>
          match t.stack with
          | [v] => run left { t with stack := v :: s.stack }
          | _ => none
  | i => (i.effect? c).bind fun effect => (effect.apply σ h s).bind (run left)

/-- Runs code to its end in a program with these rules and constants. There is no state behind it
when an instruction cannot be run, or `fuel` does not suffice. -/
def runWords : Nat → List UInt32 → State α → Option (State α)
  | 0, _, _ => none
  | _ + 1, [], s => some s
  | fuel + 1, w :: rest, s =>
      match Instruction.decode 0 w rest with
      | .error _ => none
      | .ok (i, left) => i.run σ h rules c (runWords fuel) (w :: rest) left s

variable {σ : Setting} {h : Host α} {rules : List Rule} {c : Constants}

theorem runWords_of_decode {fuel : Nat} {w : UInt32} {rest left : List UInt32} {i : Instruction}
    (hdecode : Instruction.decode 0 w rest = .ok (i, left)) (s : State α) :
    runWords σ h rules c (fuel + 1) (w :: rest) s =
      i.run σ h rules c (runWords σ h rules c fuel) (w :: rest) left s := by
  rw [runWords, hdecode]

end Runs

/-- Runs `code` with the rules and constants of the grammar. -/
def Grammar.runCode (g : Grammar) (σ : Setting) (h : Host α) (fuel : Nat) (code : List UInt32)
    (s : State α) : Option (State α) :=
  g.constants.bind fun c => runWords σ h g.rules c fuel code s

end PegCompiler
