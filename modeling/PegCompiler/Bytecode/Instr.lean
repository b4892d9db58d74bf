import PegCompiler.Bytecode.Constants
import PegCompiler.Bytecode.Opcode
import PegCompiler.Defect

/-!
# Symbolic instructions

Code is first made of instructions whose operands name their constants by value and whose blocks are
nested. Assembly writes it as words: constants become positions in their tables, and every block is
preceded by its length.
-/

namespace PegCompiler

inductive Symbol where
  | literal (value : String)
  | charClass (set : CharClass)
  | expectation (e : Expectation)
  | function (f : HostFunction)
  | rule (ref : RuleRef)
  deriving DecidableEq, Repr

inductive Operand where
  | count (n : Nat)
  /-- How far a slot lies below the top. -/
  | offset (d : Int)
  | symbol (s : Symbol)
  deriving DecidableEq, Repr

inductive Instr where
  | op (code : Opcode) (operands : List Operand)
  | branch (test : Opcode) (operands : List Operand) (yes no : List Instr)
  | loop (body : List Instr)
  deriving Repr

/-- Adds what `s` names to its table; rules are no constants. -/
def Constants.add (c : Constants) : Symbol → Constants
  | .literal value => { c with literals := c.literals.add value }
  | .charClass set => { c with classes := c.classes.add set }
  | .expectation e => { c with expectations := c.expectations.add e }
  | .function f => { c with functions := c.functions.add f }
  | .rule _ => c

/-- The tables of all that `symbols` name, in the order of first mention. -/
def Constants.ofSymbols (symbols : List Symbol) : Constants :=
  symbols.foldl Constants.add .empty

/-- The position of what `s` names; a rule has its position among `names`. -/
def Symbol.index (c : Constants) (names : List String) : Symbol → Nat
  | literal value => c.literals.index value
  | charClass set => c.classes.index set
  | expectation e => c.expectations.index e
  | function f => c.functions.index f
  | rule ref => names.idxOf ref.name

def Operand.word (c : Constants) (names : List String) : Operand → UInt32
  | count n => UInt32.ofNat n
  | offset d => UInt32.ofInt d
  | symbol s => UInt32.ofNat (s.index c names)

namespace Instr

mutual
def words (c : Constants) (names : List String) : Instr → List UInt32
  | op code operands => code.value :: operands.map (Operand.word c names)
  | branch test operands yes no =>
      let yes := listWords c names yes
      let no := listWords c names no
      test.value :: operands.map (Operand.word c names) ++
        [UInt32.ofNat yes.length, UInt32.ofNat no.length] ++ yes ++ no
  | loop body =>
      let body := listWords c names body
      [Opcode.whileNotError.value, UInt32.ofNat body.length] ++ body

def listWords (c : Constants) (names : List String) : List Instr → List UInt32
  | [] => []
  | i :: is => words c names i ++ listWords c names is
end

end Instr

end PegCompiler
