import PegCompiler.Grammar.Basic

/-!
# Grammars as JSON

Every node is an object with its kind under `type`. Writing leaves nothing out but the constants
and what a rule has not got yet; reading takes defaults for most fields and passes over keys it
does not know.
-/

namespace PegCompiler

namespace Outcome

def name : Outcome → String
  | always => "always"
  | sometimes => "sometimes"
  | never => "never"

def ofName? (s : String) : Option Outcome :=
  if s = "always" then some always
  else if s = "sometimes" then some sometimes
  else if s = "never" then some never
  else none

def toJson (o : Outcome) : Json := .str o.name

/-- A name stands for itself or for an object with this one key and the value `null`. -/
def ofJson? : Json → Option Outcome
  | .str s => ofName? s
  | .obj [(s, .null)] => ofName? s
  | _ => none

@[simp] theorem ofJson?_toJson (o : Outcome) : ofJson? o.toJson = some o := by
  cases o <;> rfl

end Outcome

namespace Code

def fields (c : Code) : List (String × Json) :=
  [("code", .str c.text), ("codeLocation", c.location.toJson)]

def toJson (c : Code) : Json := .obj c.fields

def ofJson? (j : Json) : Option Code :=
  match j.record? ["code", "codeLocation"] with
  | some [some text, location] => do
      return ⟨← text.str?, ← Json.orDefault .unknown Location.ofJson? location⟩
  | _ => none

end Code

namespace Operator

def kind : Operator → String
  | named _ => "named"
  | action _ => "action"
  | labeled _ _ _ => "labeled"
  | text => "text"
  | simpleAnd => "simple_and"
  | simpleNot => "simple_not"
  | optional => "optional"
  | zeroOrMore => "zero_or_more"
  | oneOrMore => "one_or_more"
  | group => "group"

def fields : Operator → List (String × Json)
  | named name => [("name", .str name)]
  | action code => code.fields
  | labeled label location pick =>
      [("label", .ofOption .str label), ("labelLocation", location.toJson), ("pick", .bool pick)]
  | _ => []

def readNamed? (j : Json) : Option Operator :=
  match j.record? ["name"] with
  | some [some name] => name.str?.map named
  | _ => none

def readLabeled? (j : Json) : Option Operator :=
  match j.record? ["label", "labelLocation", "pick"] with
  | some [label, location, pick] => do
      return labeled (← Json.orDefault none (Json.nullable? Json.str?) label)
        (← Json.orDefault .unknown Location.ofJson? location)
        (← Json.orDefault false Json.bool? pick)
  | _ => none

/-- The operator of a node of this kind, from the other fields of the node. -/
def ofJson? (kind : String) (j : Json) : Option Operator :=
  if kind = "named" then readNamed? j
  else if kind = "action" then (Code.ofJson? j).map action
  else if kind = "labeled" then readLabeled? j
  else if kind = "text" then some text
  else if kind = "simple_and" then some simpleAnd
  else if kind = "simple_not" then some simpleNot
  else if kind = "optional" then some optional
  else if kind = "zero_or_more" then some zeroOrMore
  else if kind = "one_or_more" then some oneOrMore
  else if kind = "group" then some group
  else none

end Operator

namespace Leaf

def kind : Leaf → String
  | semanticAnd _ => "semantic_and"
  | semanticNot _ => "semantic_not"
  | ruleRef _ => "rule_ref"
  | literal _ _ => "literal"
  | charClass _ => "class"
  | any => "any"

def fields : Leaf → List (String × Json)
  | semanticAnd code => code.fields
  | semanticNot code => code.fields
  | ruleRef name => [("name", .str name)]
  | literal value ignoreCase => [("value", .str value), ("ignoreCase", .bool ignoreCase)]
  | charClass set =>
      [("parts", .ofList ClassPart.toJson set.parts), ("inverted", .bool set.inverted),
        ("ignoreCase", .bool set.ignoreCase)]
  | any => []

def readRuleRef? (j : Json) : Option Leaf :=
  match j.record? ["name"] with
  | some [some name] => name.str?.map ruleRef
  | _ => none

def readLiteral? (j : Json) : Option Leaf :=
  match j.record? ["value", "ignoreCase"] with
  | some [some value, ignoreCase] => do
      return literal (← value.str?) (← Json.orDefault false Json.bool? ignoreCase)
  | _ => none

def readCharClass? (j : Json) : Option Leaf :=
  match j.record? ["parts", "inverted", "ignoreCase"] with
  | some [some parts, inverted, ignoreCase] => do
      return charClass ⟨← parts.list? ClassPart.ofJson?,
        ← Json.orDefault false Json.bool? inverted, ← Json.orDefault false Json.bool? ignoreCase⟩
  | _ => none

def ofJson? (kind : String) (j : Json) : Option Leaf :=
  if kind = "semantic_and" then (Code.ofJson? j).map semanticAnd
  else if kind = "semantic_not" then (Code.ofJson? j).map semanticNot
  else if kind = "rule_ref" then readRuleRef? j
  else if kind = "literal" then readLiteral? j
  else if kind = "class" then readCharClass? j
  else if kind = "any" then some any
  else none

end Leaf

namespace Tag

def fields (t : Tag) : List (String × Json) :=
  [("location", t.location.toJson), ("match", t.outcome.toJson)]

def ofJson? (j : Json) : Option Tag :=
  match j.record? ["location", "match"] with
  | some [location, outcome] => do
      return ⟨← Json.orDefault .unknown Location.ofJson? location,
        ← Json.orDefault .sometimes Outcome.ofJson? outcome⟩
  | _ => none

end Tag

namespace Expr

def kind : Expr → String
  | choice _ _ => "choice"
  | sequence _ _ => "sequence"
  | apply _ op _ => op.kind
  | leaf _ l => l.kind

mutual
def toJson : Expr → Json
  | choice t es =>
      .obj ([("type", .str "choice"), ("alternatives", .arr (listToJson es))] ++ t.fields)
  | sequence t es =>
      .obj ([("type", .str "sequence"), ("elements", .arr (listToJson es))] ++ t.fields)
  | apply t op e =>
      .obj ([("type", .str op.kind), ("expression", toJson e)] ++ op.fields ++ t.fields)
  | leaf t l => .obj ([("type", .str l.kind)] ++ l.fields ++ t.fields)

def listToJson : List Expr → List Json
  | [] => []
  | e :: es => toJson e :: listToJson es
end

def kinds : List String :=
  ["named", "choice", "action", "sequence", "labeled", "text", "simple_and", "simple_not",
    "optional", "zero_or_more", "one_or_more", "group", "semantic_and", "semantic_not",
    "rule_ref", "literal", "class", "any"]

/-- A kind is given by its name or by its position among all kinds. -/
def kindOfJson? : Json → Option String
  | .str s => some s
  | .int n => if 0 ≤ n then kinds[n.toNat]? else none
  | _ => none

/-- The value of one field, read as an expression and as a list of expressions. -/
structure Child where
  expr : Option Expr
  list : Option (List Expr)

def child? (children : List (String × Child)) (key : String) : Option Child :=
  match children.filter (·.1 = key) with
  | [field] => some field.2
  | _ => none

/-- The expression whose node is the object `j`, given what its fields are as expressions. -/
def assemble? (j : Json) (children : List (String × Child)) : Option Expr := do
  let t ← Tag.ofJson? j
  let kind ← match j.record? ["type"] with
    | some [some k] => kindOfJson? k
    | _ => none
  if kind = "choice" then return choice t (← (← child? children "alternatives").list)
  else if kind = "sequence" then return sequence t (← (← child? children "elements").list)
  else match Operator.ofJson? kind j with
    | some op => return apply t op (← (← child? children "expression").expr)
    | none => return leaf t (← Leaf.ofJson? kind j)

mutual
def ofJson? : Json → Option Expr
  | .obj fields => assemble? (.obj fields) (childrenOfJson fields)
  | _ => none

def listOfJson? : List Json → Option (List Expr)
  | [] => some []
  | j :: js => do return (← ofJson? j) :: (← listOfJson? js)

def childrenOfJson : List (String × Json) → List (String × Child)
  | [] => []
  | (key, .arr items) :: fields => (key, ⟨none, listOfJson? items⟩) :: childrenOfJson fields
  | (key, j) :: fields => (key, ⟨ofJson? j, none⟩) :: childrenOfJson fields
end

/-- Whether the body of a rule can be read at all: its fields are solid, apart from those of its
own tag that nobody asks for. -/
def isLegible : Json → Bool
  | .obj fields => fields.all fun (key, j) => key = "location" || key = "match" || j.isSolid
  | _ => false

end Expr

namespace Rule

def optionalField (key : String) (write : α → Json) : Option α → List (String × Json)
  | none => []
  | some a => [(key, write a)]

def toJson (r : Rule) : Json :=
  .obj ([("name", .str r.name), ("nameLocation", r.nameLocation.toJson),
      ("expression", r.body.toJson), ("location", r.location.toJson)] ++
    optionalField "match" Outcome.toJson r.outcome ++
    optionalField "bytecode" (Json.ofList Json.ofWord) r.bytecode)

def ofJson? (j : Json) : Option Rule :=
  match j.record? ["name", "nameLocation", "expression", "location", "match", "bytecode"] with
  | some [some name, nameLocation, some body, location, outcome, bytecode] =>
      if Expr.isLegible body then do
        return { name := ← name.str?
                 nameLocation := ← Json.orDefault .unknown Location.ofJson? nameLocation
                 body := ← Expr.ofJson? body
                 location := ← Json.orDefault .unknown Location.ofJson? location
                 outcome := ← Json.orDefault none (Json.nullable? Outcome.ofJson?) outcome
                 bytecode := ← Json.orDefault none
                   (Json.nullable? (Json.list? Json.word?)) bytecode }
      else none
  | _ => none

end Rule

namespace Grammar

def toJson (g : Grammar) : Json :=
  .obj [("topLevelInitializer", .ofOption Code.toJson g.topLevelInitializer),
    ("initializer", .ofOption Code.toJson g.initializer),
    ("rules", .ofList Rule.toJson g.rules), ("location", g.location.toJson)]

def ofJson? (j : Json) : Option Grammar :=
  match j.record? ["topLevelInitializer", "initializer", "rules", "location"] with
  | some [topLevelInitializer, initializer, some rules, location] => do
      return { topLevelInitializer :=
                 ← Json.orDefault none (Json.nullable? Code.ofJson?) topLevelInitializer
               initializer := ← Json.orDefault none (Json.nullable? Code.ofJson?) initializer
               rules := ← rules.list? Rule.ofJson?
               location := ← Json.orDefault .unknown Location.ofJson? location
               constants := none }
  | _ => none

end Grammar

end PegCompiler
