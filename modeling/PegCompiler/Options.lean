import PegCompiler.Grammar.Json

/-!
# Options

The rules that a parser can start from, and the words that labels must avoid.
-/

namespace PegCompiler

structure Options where
  /-- The first rule of a grammar when unset. -/
  startRules : Option (List String)
  reservedWords : List String
  deriving DecidableEq, Repr

/-- Keywords of the language that parsers are generated in. -/
def hostKeywords : List String :=
  ["break", "case", "catch", "class", "const", "continue", "debugger", "default", "delete", "do",
    "else", "export", "extends", "finally", "for", "function", "if", "import", "in",
    "instanceof", "new", "return", "super", "switch", "this", "throw", "try", "typeof", "var",
    "void", "while", "with", "null", "true", "false", "enum", "implements", "interface", "let",
    "package", "private", "protected", "public", "static", "yield", "await"]

inductive OptionsError where
  | noRules
  | noStartRules
  | unknownStartRule (name : String)
  deriving DecidableEq, Repr

def OptionsError.message : OptionsError → String
  | noRules => "Grammar has no rules"
  | noStartRules => "Must have at least one start rule"
  | unknownStartRule name => "Unknown start rule \"" ++ name ++ "\""

namespace Options

def standard : Options := ⟨none, hostKeywords⟩

instance : Inhabited Options := ⟨standard⟩

/-- The declared start rules, none when unset. -/
def starts (o : Options) : List String := o.startRules.getD []

def isStart (o : Options) (name : String) : Bool := name ∈ o.starts

/-- The options with the start rules of `g` filled in. There must be some, and all must be rules
of the grammar. -/
def validate (o : Options) (g : Grammar) : Except OptionsError Options :=
  match g.rules with
  | [] => .error .noRules
  | first :: _ =>
      let starts := o.startRules.getD [first.name]
      if starts.isEmpty then .error .noStartRules
      else match starts.find? (· ∉ g.ruleNames) with
        | some name => .error (.unknownStartRule name)
        | none => .ok { o with startRules := some starts }

def ofJson? (j : Json) : Option Options :=
  match j.record? ["allowedStartRules", "reservedWords"] with
  | some [startRules, reservedWords] => do
      return ⟨← Json.orDefault none (Json.nullable? (Json.list? Json.str?)) startRules,
        ← Json.orDefault hostKeywords (Json.list? Json.str?) reservedWords⟩
  | _ => none

end Options

end PegCompiler
