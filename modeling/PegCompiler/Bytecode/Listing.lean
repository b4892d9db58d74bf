import PegCompiler.Bytecode.Decode
import PegCompiler.Bytecode.Slots
import PegCompiler.Defect
import PegCompiler.Grammar.Outline

/-!
# Listings

Bytecode is read back as a readable function while the stack is followed through it. Code that does
not decode, or does not keep its stack even, has no listing.
-/

namespace PegCompiler

structure Listing where
  rule : String
  /-- The declaration of the slots that are used. -/
  defines : String
  statements : List String
  /-- The slot with the value of the rule. -/
  result : String
  highest : Int

namespace Listing

def text (l : Listing) : String :=
  "function parse_" ++ l.rule ++ "() \x7b\n" ++
    (if l.defines.isEmpty then "" else "  " ++ l.defines ++ "\n\n") ++
    String.join (l.statements.map (· ++ "\n")) ++
    "\n  return " ++ l.result ++ ";\n\x7d"

def line (depth : Nat) (statement : String) : String :=
  indentation depth ++ statement

def array (names : List String) : String :=
  "[" ++ ", ".intercalate names ++ "]"

end Listing

def Plain.text : Plain → String
  | emptyString => "\"\""
  | undefined => "undefined"
  | null => "null"
  | failed => "FAILED"
  | emptyArray => "[]"
  | currPos => "curr_pos"

def Test.text : Test → Tracked String
  | isTrue => Slots.topName
  | isFailed => do return (← Slots.topName) ++ " === FAILED"
  | isNotFailed => do return (← Slots.topName) ++ " !== FAILED"
  | hasInput => return "input.length > curr_pos"
  | hasLiteral i => return s!"input.startsWith(literals[{i.toNat}], curr_pos)"
  | hasLiteralIgnoringCase i =>
      return s!"input.substr(curr_pos, literals[{i.toNat}].length).toLowerCase()" ++
        s!" === literals[{i.toNat}]"
  | hasClass i => return s!"classes[{i.toNat}].test(input.charAt(curr_pos))"

namespace Instruction

/-- The statements of an instruction that has no blocks, in a grammar with rules of these
`names`. -/
def statements (names : List String) : Instruction → Tracked (List String)
  | push value => do return [← Slots.push value.text]
  | pop => do
      let _ ← (Slots.pop : Tracked String)
      return []
  | popCurrPos => do return ["curr_pos = " ++ (← Slots.pop) ++ ";"]
  | popN n => do
      let _ ← (Slots.popMany n : Tracked (List String))
      return []
  | nip => do
      let value ← Slots.pop
      let _ ← (Slots.pop : Tracked String)
      return [← Slots.push value]
  | append => do
      let value ← Slots.pop
      return [(← Slots.topName) ++ ".push(" ++ value ++ ");"]
  | wrap n => do
      let values ← Slots.popMany n
      return [← Slots.push (Listing.array values)]
  | text => do
      let value ← Slots.pop
      return [← Slots.push ("input.substring(" ++ value ++ ", curr_pos)")]
  | pluck n offsets => do
      let values ← offsets.mapM Slots.index
      let _ ← (Slots.popMany n : Tracked (List String))
      return [← Slots.push (match values with
        | [value] => value
        | _ => Listing.array values)]
  | acceptN n =>
      if n = 1 then do return [← Slots.push "input.charAt(curr_pos)", "curr_pos++;"]
      else do
        return [← Slots.push s!"input.substr(curr_pos, {n.toNat})", s!"curr_pos += {n.toNat};"]
  | acceptString i => do
      return [← Slots.push s!"literals[{i.toNat}]", s!"curr_pos += literals[{i.toNat}].length;"]
  | fail i => do
      return [← Slots.push "FAILED",
        "if (silent_fails === 0) \x7b fail(expectations[" ++ toString i.toNat ++ "]); \x7d"]
  | loadSavedPos offset => do return ["saved_pos = " ++ (← Slots.index offset) ++ ";"]
  | updateSavedPos => return ["saved_pos = curr_pos;"]
  | call f n offsets => do
      let args ← offsets.mapM Slots.index
      let _ ← (Slots.popMany n : Tracked (List String))
      return [← Slots.push (s!"functions[{f.toNat}](" ++ ", ".intercalate args ++ ")")]
  | rule i =>
      match names[i.toNat]? with
      | some name => do return [← Slots.push ("parse_" ++ name ++ "()")]
      | none => throw (.missingRule i)
  | silentFailsOn => return ["silent_fails++;"]
  | silentFailsOff => return ["silent_fails--;"]
  | branch _ _ _ => return []
  | loop _ => return []

end Instruction

/-- The statements of the block `code` that starts at `position`, `depth` blocks deep. -/
def listBlock (names : List String) (depth position : Nat) (code : List UInt32) :
    Tracked (List String) :=
  match code with
  | [] => return []
  | w :: rest =>
    match h : Instruction.decode position w rest with
    | .error fault => throw fault
    | .ok (i, left) =>
      have := Instruction.length_of_decode h
      let next := position + i.size
      match i with
      | .branch test yes no => do
          let condition ← test.text
          if left.length < yes + no then throw (.longBranches position)
          let (ifPart, elsePart) ← Slots.checkedIf position
            (listBlock names (depth + 1) next (left.take yes))
            (listBlock names (depth + 1) (next + yes) ((left.drop yes).take no))
          let after ← listBlock names depth (next + yes + no) (left.drop (yes + no))
          return Listing.line depth ("if (" ++ condition ++ ") \x7b") :: ifPart ++
            (if no = 0 then [] else Listing.line depth "\x7d else \x7b" :: elsePart) ++
            Listing.line depth "\x7d" :: after
      | .loop body => do
          let condition ← Test.isNotFailed.text
          if left.length < body then throw (.longLoop position)
          let part ← Slots.checkedLoop position
            (listBlock names (depth + 1) next (left.take body))
          let after ← listBlock names depth (next + body) (left.drop body)
          return Listing.line depth ("while (" ++ condition ++ ") \x7b") :: part ++
            Listing.line depth "\x7d" :: after
      | i => do
          let statements ← i.statements names
          let after ← listBlock names depth next left
          return statements.map (Listing.line depth) ++ after
termination_by code.length
decreasing_by all_goals simp only [List.length_take, List.length_drop, List.length_cons]; omega

def listCode (names : List String) (name : String) (code : List UInt32) : Tracked Listing := do
  let statements ← listBlock names 1 0 code
  let s ← get
  if s.top ≠ 0 then throw (.unevenRule s.top)
  return { rule := name, defines := s.defines, statements, result := ← Slots.result
           highest := s.highest }

/-- The listing of a rule, where `names` are those of all rules. -/
def Rule.list (names : List String) (r : Rule) : Except Defect Listing :=
  match r.bytecode with
  | none => .error (.noBytecode r.name r.location)
  | some code =>
      match ((listCode names r.name code).exec .empty).1 with
      | .ok listing => .ok listing
      | .error fault => .error (.faulty r.name r.location fault)

namespace Grammar

def list (g : Grammar) (r : Rule) : Except Defect Listing :=
  r.list g.ruleNames

def unlisted? (g : Grammar) : Option Defect :=
  g.rules.findSome? fun r =>
    match g.list r with
    | .ok _ => none
    | .error defect => some defect

end Grammar

end PegCompiler
