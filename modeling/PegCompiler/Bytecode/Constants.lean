import PegCompiler.Json.Value
import PegCompiler.Bytecode.Pool

/-!
# Constants

The bytecode of all rules shares four tables: literals, character classes, what to report as
expected after a failure, and the host functions that are called.
-/

namespace PegCompiler

inductive ClassPart where
  | char (c : Char)
  | range (first last : Char)
  deriving DecidableEq, Repr

structure CharClass where
  parts : List ClassPart
  inverted : Bool
  ignoreCase : Bool
  deriving DecidableEq, Repr

inductive Expectation where
  | literal (value : String) (ignoreCase : Bool)
  | charClass (set : CharClass)
  | rule (name : String)
  | any
  deriving DecidableEq, Repr

/-- An action or predicate, called with the values of its parameters. -/
structure HostFunction where
  predicate : Bool
  params : List String
  body : String
  deriving DecidableEq, Repr

structure Constants where
  literals : Pool String
  classes : Pool CharClass
  expectations : Pool Expectation
  functions : Pool HostFunction
  deriving Inhabited

def Constants.empty : Constants := ⟨.empty, .empty, .empty, .empty⟩

namespace ClassPart

def toJson : ClassPart → Json
  | char c => .str (String.singleton c)
  | range first last => .arr [.str (String.singleton first), .str (String.singleton last)]

def scalar? (s : String) : Option Char :=
  match s.toList with
  | [c] => some c
  | _ => none

def ofJson? : Json → Option ClassPart
  | .str s => (scalar? s).map char
  | .arr [.str first, .str last] => do return range (← scalar? first) (← scalar? last)
  | _ => none

@[simp] theorem scalar?_singleton (c : Char) : scalar? (String.singleton c) = some c := by
  simp [scalar?]

@[simp] theorem ofJson?_toJson (p : ClassPart) : ofJson? p.toJson = some p := by
  cases p <;> simp [ofJson?, toJson]

end ClassPart

def CharClass.toJson (set : CharClass) : Json :=
  .obj [("parts", .ofList ClassPart.toJson set.parts), ("inverted", .bool set.inverted),
    ("ignoreCase", .bool set.ignoreCase)]

def Expectation.toJson : Expectation → Json
  | literal value ignoreCase =>
      .obj [("type", .str "literal"), ("value", .str value), ("ignoreCase", .bool ignoreCase)]
  | charClass set =>
      .obj [("type", .str "class"), ("value", .ofList ClassPart.toJson set.parts),
        ("inverted", .bool set.inverted), ("ignoreCase", .bool set.ignoreCase)]
  | rule name => .obj [("type", .str "rule"), ("value", .str name)]
  | any => .obj [("type", .str "any")]

def HostFunction.toJson (f : HostFunction) : Json :=
  .obj [("predicate", .bool f.predicate), ("params", .ofList .str f.params),
    ("body", .str f.body)]

def Pool.toJson (write : α → Json) (p : Pool α) : Json :=
  .ofList write p.values

/-- The four tables as fields of the object that holds them. -/
def Constants.fields (c : Constants) : List (String × Json) :=
  [("literals", c.literals.toJson .str), ("classes", c.classes.toJson CharClass.toJson),
    ("expectations", c.expectations.toJson Expectation.toJson),
    ("functions", c.functions.toJson HostFunction.toJson)]

def Constants.toJson (c : Constants) : Json :=
  .obj c.fields

end PegCompiler
