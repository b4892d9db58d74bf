import PegCompiler.Compile
import PegCompiler.Json.Reader
import PegCompiler.Json.Writer

/-!
# Command line

The program reads a grammar file, and perhaps a file of options, compiles the grammar and writes it
out in one of four forms. How files are read is left open: what the program says and does follows
from its arguments and from the answers to its requests for files.
-/

namespace PegCompiler.CommandLine

inductive Emit where
  | outline
  | bytecode
  | listing
  | json
  deriving DecidableEq, Repr

structure Arguments where
  grammar : String
  options : Option String
  startRules : List String
  emit : Emit
  deriving Repr

def usage : String :=
  "usage: pegc <grammar.json> [--options FILE] [--start-rule NAME]... " ++
    "[--emit ast|bytecode|listing|json]"

inductive UsageError where
  | missingValue (flag : String)
  | unknownEmit (form : String)
  | unknownFlag (flag : String)
  | secondGrammar
  | noGrammar
  deriving DecidableEq, Repr

def UsageError.message : UsageError → String
  | missingValue flag => "Expected an argument to " ++ flag
  | unknownEmit form =>
      "Unknown output kind `" ++ form ++ "`, expected one of ast, bytecode, listing, json"
  | unknownFlag flag => "Unknown flag `" ++ flag ++ "`\n" ++ usage
  | secondGrammar => "Only one grammar may be provided"
  | noGrammar => "No grammar provided\n" ++ usage

inductive Request where
  | help
  | compile (arguments : Arguments)
  | mistake (e : UsageError)
  deriving Repr

def Emit.ofName? (s : String) : Option Emit :=
  if s = "ast" then some outline
  else if s = "bytecode" then some bytecode
  else if s = "listing" then some listing
  else if s = "json" then some json
  else none

/-- The arguments so far; the grammar may still be missing. -/
structure Draft where
  grammar : Option String
  options : Option String
  startRules : List String
  emit : Emit

def Draft.finish (p : Draft) : Request :=
  match p.grammar with
  | some grammar => .compile ⟨grammar, p.options, p.startRules, p.emit⟩
  | none => .mistake .noGrammar

/-- Reads arguments from left to right; a later value for a flag replaces an earlier one, and start
rules add up. -/
def parseFrom (p : Draft) : List String → Request
  | [] => p.finish
  | "--options" :: path :: args => parseFrom { p with options := some path } args
  | "--start-rule" :: name :: args => parseFrom { p with startRules := p.startRules ++ [name] } args
  | "--emit" :: form :: args =>
      match Emit.ofName? form with
      | some emit => parseFrom { p with emit } args
      | none => .mistake (.unknownEmit form)
  | arg :: args =>
      if arg = "--options" ∨ arg = "--start-rule" ∨ arg = "--emit" then
        .mistake (.missingValue arg)
      else if arg = "-h" ∨ arg = "--help" then .help
      else if arg.startsWith "--" then .mistake (.unknownFlag arg)
      else if p.grammar.isSome then .mistake .secondGrammar
      else parseFrom { p with grammar := some arg } args

def parse (args : List String) : Request :=
  parseFrom ⟨none, none, [], .json⟩ args

/-- What the program writes and the code it ends with. -/
structure Result where
  code : UInt32
  stdout : String
  stderr : String
  deriving DecidableEq, Repr

def Result.success (stdout : String) : Result := ⟨0, stdout, ""⟩

def Result.failure (message : String) : Result := ⟨1, "", message ++ "\n"⟩

/-- What a code generator needs to know: the bytecode of every rule and the tables. -/
def output (g : Grammar) (c : Constants) : Json :=
  .obj (("rules", .ofList (fun r => .obj [("name", .str r.name),
    ("bytecode", .ofList .ofWord (r.bytecode.getD []))]) g.rules) :: c.fields)

def bytecodeLine (r : Rule) : String :=
  r.name ++ ": [" ++
    ", ".intercalate ((r.bytecode.getD []).map fun w => toString w.toNat) ++ "]\n"

def reportOf (defect : Defect) : Result :=
  .failure (Text.trimEnd defect.report.render)

/-- The listings of all rules, up to the first that has none. -/
def listings (g : Grammar) : List Rule → String → Result
  | [], written => .success written
  | r :: rs, written =>
      match g.list r with
      | .ok listing => listings g rs (written ++ listing.text ++ "\n\n")
      | .error defect => { reportOf defect with stdout := written }

def emit (g : Grammar) : Emit → Result
  | .outline => .success g.outline
  | .bytecode => .success (String.join (g.rules.map bytecodeLine))
  | .listing => listings g g.rules ""
  | .json =>
      match g.constants with
      | some c => .success ((output g c).indented 0 ++ "\n")
      | none => .failure "The pipeline produced no constants"

/-- Compiles the grammar; start rules among the arguments replace those of the options. -/
def compileAndEmit (arguments : Arguments) (g : Grammar) (o : Options) : Result :=
  let o := if arguments.startRules.isEmpty then o
    else { o with startRules := some arguments.startRules }
  match compile g .standard o with
  | .ok g => emit g arguments.emit
  | .error (.options e) => .failure ("Invalid options: " ++ e.message)
  | .error (.grammar defect) => reportOf defect

section

variable {m : Type → Type} [Monad m]

def nestingLimit : Nat := 127

/-- Reads and decodes one file, which messages call `what`. -/
def load (readFile : String → m (Option String)) (what kind path : String)
    (decode : Json → Option α) : m (Except String α) := do
  match ← readFile path with
  | none => return .error ("Failed to read " ++ what ++ "`" ++ path ++ "`")
  | some text =>
      match ((Json.read? text).map (Json.prune nestingLimit)).bind decode with
      | some a => return .ok a
      | none => return .error ("Failed to parse " ++ kind ++ " `" ++ path ++ "`")

def loadOptions (readFile : String → m (Option String)) :
    Option String → m (Except String Options)
  | none => return .ok .standard
  | some path => load readFile "options " "options" path Options.ofJson?

def perform (readFile : String → m (Option String)) : Request → m Result
  | .help => return .success (usage ++ "\n")
  | .mistake e => return .failure e.message
  | .compile arguments => do
      match ← load readFile "" "grammar" arguments.grammar Grammar.ofJson? with
      | .error message => return .failure message
      | .ok g =>
          match ← loadOptions readFile arguments.options with
          | .error message => return .failure message
          | .ok o => return compileAndEmit arguments g o

def logLevels : List String := ["off", "error", "warn", "info", "debug", "trace"]

def logComplaint (level : Option String) : String :=
  match level with
  | none => ""
  | some level =>
      if level.map Char.toLower ∈ logLevels then ""
      else "Invalid RUST_LOG level `" ++ level ++ "`\n"

/-- The whole program, given its arguments and the requested log level. -/
def run (readFile : String → m (Option String)) (level : Option String) (args : List String) :
    m Result := do
  let result ← perform readFile (parse args)
  return { result with stderr := logComplaint level ++ result.stderr }

end

end PegCompiler.CommandLine
