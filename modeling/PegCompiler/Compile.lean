import PegCompiler.Bytecode.Assembly
import PegCompiler.Bytecode.Listing
import PegCompiler.Check.Labels
import PegCompiler.Check.LeftRecursion
import PegCompiler.Check.Plucking
import PegCompiler.Check.Repetition
import PegCompiler.Grammar.Inference
import PegCompiler.Grammar.Redirect
import PegCompiler.Options

/-!
# Compiling grammars

A grammar is checked, transformed and turned into bytecode by single passes in three stages. A pass
either succeeds or ends the compilation with a defect.
-/

namespace PegCompiler

inductive Pass where
  | reportUndefinedRules
  | reportDuplicateRules
  | reportDuplicateLabels
  | reportReservedLabels
  | reportInfiniteRecursion
  | reportInfiniteRepetition
  | reportIncorrectPlucking
  | removeProxyRules
  | inferMatchResults
  | generateBytecode
  | verifyBytecode
  deriving DecidableEq, Repr

namespace Pass

def name : Pass → String
  | reportUndefinedRules => "report_undefined_rules"
  | reportDuplicateRules => "report_duplicate_rules"
  | reportDuplicateLabels => "report_duplicate_labels"
  | reportReservedLabels => "report_reserved_labels"
  | reportInfiniteRecursion => "report_infinite_recursion"
  | reportInfiniteRepetition => "report_infinite_repetition"
  | reportIncorrectPlucking => "report_incorrect_plucking"
  | removeProxyRules => "remove_proxy_rules"
  | inferMatchResults => "infer_match_results"
  | generateBytecode => "generate_bytecode"
  | verifyBytecode => "verify_bytecode"

def all : List Pass :=
  [reportUndefinedRules, reportDuplicateRules, reportDuplicateLabels, reportReservedLabels,
    reportInfiniteRecursion, reportInfiniteRepetition, reportIncorrectPlucking, removeProxyRules,
    inferMatchResults, generateBytecode, verifyBytecode]

def ofName? (s : String) : Option Pass :=
  all.find? (·.name = s)

/-- The outcome of a check that leaves the grammar alone. -/
def check (g : Grammar) : Option Defect → Grammar × Except Defect Unit
  | none => (g, .ok ())
  | some defect => (g, .error defect)

/-- The grammar that a pass leaves behind, and its defect if there is one. -/
def run (o : Options) (g : Grammar) : Pass → Grammar × Except Defect Unit
  | reportUndefinedRules => check g g.undefinedRule?
  | reportDuplicateRules => check g g.duplicateRule?
  | reportDuplicateLabels => check g g.duplicateLabel?
  | reportReservedLabels => check g (g.reservedLabel? o.reservedWords)
  | reportInfiniteRecursion => check g g.leftRecursion?
  | reportInfiniteRepetition => check g g.endlessRepetition?
  | reportIncorrectPlucking => check g g.pluckInAction?
  | removeProxyRules => (g.removeProxies o.isStart, .ok ())
  | inferMatchResults =>
      let (rules, found) := inferOutcomes g.rules
      ({ g with rules }, found)
  | generateBytecode =>
      match g.generate with
      | .ok g => (g, .ok ())
      | .error defect => (g, .error defect)
  | verifyBytecode => check g g.unlisted?

end Pass

structure Passes where
  check : List Pass
  transform : List Pass
  generate : List Pass
  deriving Repr

namespace Passes

def standard : Passes where
  check := [.reportUndefinedRules, .reportDuplicateRules, .reportDuplicateLabels,
    .reportReservedLabels, .reportInfiniteRecursion, .reportInfiniteRepetition,
    .reportIncorrectPlucking]
  transform := [.removeProxyRules, .inferMatchResults]
  generate := [.generateBytecode, .verifyBytecode]

def toList (p : Passes) : List Pass :=
  p.check ++ p.transform ++ p.generate

end Passes

def runPasses (o : Options) (g : Grammar) : List Pass → Except Defect Grammar
  | [] => .ok g
  | pass :: passes =>
      match pass.run o g with
      | (g, .ok _) => runPasses o g passes
      | (_, .error defect) => .error defect

inductive CompileError where
  | options (e : OptionsError)
  | grammar (defect : Defect)
  deriving DecidableEq, Repr

/-- Fills in the start rules and runs all passes. -/
def compile (g : Grammar) (passes : Passes) (o : Options) : Except CompileError Grammar :=
  match o.validate g with
  | .error e => .error (.options e)
  | .ok o =>
      match runPasses o g passes.toList with
      | .error defect => .error (.grammar defect)
      | .ok g => .ok g

end PegCompiler
