import PegCompiler.Bytecode.Lowering
import PegCompiler.Check.Rules

/-!
# Assembly

The rules are lowered in order. What their code names ends up in tables that all of them share; a
reference to no rule is a defect, and then nothing is generated.
-/

namespace PegCompiler

def Symbol.defect? (rules : List Rule) : Symbol → Option Defect
  | rule ref => ref.defect? rules
  | _ => none

/-- All that the code of the rules names, in the order in which it comes up. -/
def ruleSymbols (rules : List Rule) : List Symbol :=
  rules.flatMap (·.lower.symbols)

def Rule.assemble (c : Constants) (names : List String) (r : Rule) : List UInt32 :=
  Instr.listWords c names r.lower.code

namespace Grammar

def generate (g : Grammar) : Except Defect Grammar :=
  let symbols := ruleSymbols g.rules
  match symbols.findSome? (Symbol.defect? g.rules) with
  | some defect => .error defect
  | none =>
      let c := Constants.ofSymbols symbols
      .ok { g with
        rules := g.rules.map fun r => { r with bytecode := some (r.assemble c g.ruleNames) }
        constants := some c }

end Grammar

end PegCompiler
