import PegCompiler.Grammar.Basic

/-!
# Building grammars by hand

Expressions, rules and grammars without places and without any known outcome.
-/

namespace PegCompiler

def Tag.blank : Tag := ⟨.unknown, .sometimes⟩

def Code.ofText (text : String) : Code := ⟨text, .unknown⟩

namespace Build

def choice (alternatives : List Expr) : Expr := .choice .blank alternatives

def sequence (elements : List Expr) : Expr := .sequence .blank elements

/-- Succeeds without consuming anything. -/
def empty : Expr := sequence []

def apply (op : Operator) (body : Expr) : Expr := .apply .blank op body

def named (name : String) (body : Expr) : Expr := apply (.named name) body

def action (body : Expr) (code : String) : Expr := apply (.action (.ofText code)) body

def labeled (label : String) (body : Expr) : Expr :=
  apply (.labeled (some label) .unknown false) body

/-- An expression with a label that is picked as well. -/
def picked (label : String) (body : Expr) : Expr :=
  apply (.labeled (some label) .unknown true) body

def pluck (body : Expr) : Expr := apply (.labeled none .unknown true) body

def text (body : Expr) : Expr := apply .text body

def simpleAnd (body : Expr) : Expr := apply .simpleAnd body

def simpleNot (body : Expr) : Expr := apply .simpleNot body

def optional (body : Expr) : Expr := apply .optional body

def zeroOrMore (body : Expr) : Expr := apply .zeroOrMore body

def oneOrMore (body : Expr) : Expr := apply .oneOrMore body

def group (body : Expr) : Expr := apply .group body

def leaf (l : Leaf) : Expr := .leaf .blank l

def semanticAnd (code : String) : Expr := leaf (.semanticAnd (.ofText code))

def semanticNot (code : String) : Expr := leaf (.semanticNot (.ofText code))

def ruleRef (name : String) : Expr := leaf (.ruleRef name)

def literal (value : String) : Expr := leaf (.literal value false)

def literalIgnoringCase (value : String) : Expr := leaf (.literal value true)

def charClass (parts : List ClassPart) (inverted ignoreCase : Bool) : Expr :=
  leaf (.charClass ⟨parts, inverted, ignoreCase⟩)

def any : Expr := leaf .any

def rule (name : String) (body : Expr) : Rule :=
  { name, nameLocation := .unknown, body, location := .unknown, outcome := none, bytecode := none }

def grammar (rules : List Rule) : Grammar :=
  { topLevelInitializer := none, initializer := none, rules, location := .unknown
    constants := none }

end Build

end PegCompiler
