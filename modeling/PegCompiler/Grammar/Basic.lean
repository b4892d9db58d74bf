import PegCompiler.Location
import PegCompiler.Bytecode.Constants

/-!
# Grammars

A grammar is a list of named rules over parsing expressions. An expression is a choice, a sequence,
an operator applied to one expression, or a leaf. Every node carries its place in the source and
what is known about its outcome.
-/

namespace PegCompiler

/-- What is known of an expression before it is run. -/
inductive Outcome where
  | always
  | sometimes
  | never
  deriving DecidableEq, Repr

namespace Outcome

instance : Inhabited Outcome := ⟨sometimes⟩

def invert : Outcome → Outcome
  | always => never
  | sometimes => sometimes
  | never => always

@[simp] theorem invert_invert (o : Outcome) : o.invert.invert = o := by
  cases o <;> rfl

end Outcome

structure Code where
  text : String
  location : Location
  deriving DecidableEq, Repr

inductive Operator where
  /-- An expression that fails under a name of its own. -/
  | named (name : String)
  | action (code : Code)
  /-- A value that gets a label, or is picked as the value of the sequence around it, or both. -/
  | labeled (label : Option String) (location : Location) (pick : Bool)
  /-- The text that was matched instead of the value. -/
  | text
  | simpleAnd
  | simpleNot
  | optional
  | zeroOrMore
  | oneOrMore
  | group
  deriving DecidableEq, Repr

inductive Leaf where
  | semanticAnd (code : Code)
  | semanticNot (code : Code)
  | ruleRef (name : String)
  | literal (value : String) (ignoreCase : Bool)
  | charClass (set : CharClass)
  | any
  deriving DecidableEq, Repr

/-- What stands beside a node: its place, and its outcome as far as it is known. -/
structure Tag where
  location : Location
  outcome : Outcome
  deriving DecidableEq, Repr

inductive Expr where
  | choice (tag : Tag) (alternatives : List Expr)
  | sequence (tag : Tag) (elements : List Expr)
  | apply (tag : Tag) (op : Operator) (body : Expr)
  | leaf (tag : Tag) (leaf : Leaf)
  deriving Repr

structure Rule where
  name : String
  nameLocation : Location
  body : Expr
  location : Location
  /-- The outcome of the body, once it is settled. -/
  outcome : Option Outcome
  bytecode : Option (List UInt32)

structure Grammar where
  topLevelInitializer : Option Code
  initializer : Option Code
  rules : List Rule
  location : Location
  constants : Option Constants

namespace Expr

def tag : Expr → Tag
  | choice t _ => t
  | sequence t _ => t
  | apply t _ _ => t
  | leaf t _ => t

def withTag (tag : Tag) : Expr → Expr
  | choice _ es => choice tag es
  | sequence _ es => sequence tag es
  | apply _ op e => apply tag op e
  | leaf _ l => leaf tag l

def outcome (e : Expr) : Outcome := e.tag.outcome

def location (e : Expr) : Location := e.tag.location

def withOutcome (o : Outcome) (e : Expr) : Expr :=
  e.withTag { e.tag with outcome := o }

def children : Expr → List Expr
  | choice _ es => es
  | sequence _ es => es
  | apply _ _ e => [e]
  | leaf _ _ => []

@[simp] theorem tag_withTag (t : Tag) (e : Expr) : (e.withTag t).tag = t := by
  cases e <;> rfl

@[simp] theorem outcome_withOutcome (o : Outcome) (e : Expr) : (e.withOutcome o).outcome = o := by
  simp [outcome, withOutcome]

@[simp] theorem location_withOutcome (o : Outcome) (e : Expr) :
    (e.withOutcome o).location = e.location := by
  simp [location, withOutcome]

end Expr

/-- The rule that the body of this one refers to, when the body is nothing but a reference. -/
def Rule.target? (r : Rule) : Option String :=
  match r.body with
  | .leaf _ (.ruleRef name) => some name
  | _ => none

def Grammar.ruleNames (g : Grammar) : List String :=
  g.rules.map (·.name)

/-- The first rule of that name; later ones cannot be reached. -/
def findRule? (rules : List Rule) (name : String) : Option Rule :=
  rules.find? (·.name = name)

theorem mem_of_findRule? {rules : List Rule} {name : String} {r : Rule}
    (h : findRule? rules name = some r) : r ∈ rules :=
  List.mem_of_find?_eq_some h

theorem name_of_findRule? {rules : List Rule} {name : String} {r : Rule}
    (h : findRule? rules name = some r) : r.name = name := by
  simpa using List.find?_some h

def ruleIndex? (rules : List Rule) (name : String) : Option Nat :=
  rules.findIdx? (·.name = name)

end PegCompiler
