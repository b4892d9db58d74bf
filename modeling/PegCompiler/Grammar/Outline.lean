import PegCompiler.Grammar.Json
import PegCompiler.Text.Blank
import PegCompiler.Text.Quoted

/-!
# Outlines of grammars

An outline has a line for each node, indented below its parent, with the outcome where it is known.
-/

namespace PegCompiler

def ClassPart.text : ClassPart → String
  | char c => Text.escapeChar c
  | range first last => Text.escapeChar first ++ "-" ++ Text.escapeChar last

def classText (parts : List ClassPart) (inverted : Bool) : String :=
  "[" ++ (if inverted then "^" else "") ++ String.join (parts.map ClassPart.text) ++ "]"

/-- The code without blanks around it, on one line in braces. -/
def Code.summary (c : Code) : String :=
  "\x7b" ++ Text.quoted "" (Text.trim c.text) ++ "\x7d"

def caseMark (ignoreCase : Bool) : String :=
  if ignoreCase then "i" else ""

def Operator.summary (op : Operator) : String :=
  op.kind ++ match op with
    | named name => " " ++ Text.quoted "\"" name
    | action code => " " ++ code.summary
    | labeled label _ pick =>
        (if pick then " @" else "") ++ (match label with | some l => " " ++ l | none => "")
    | _ => ""

def Leaf.summary (l : Leaf) : String :=
  l.kind ++ match l with
    | semanticAnd code => " " ++ code.summary
    | semanticNot code => " " ++ code.summary
    | ruleRef name => " " ++ name
    | literal value ignoreCase => " " ++ Text.quoted "\"" value ++ caseMark ignoreCase
    | charClass set => " " ++ classText set.parts set.inverted ++ caseMark set.ignoreCase
    | any => ""

def Outcome.remark : Outcome → String
  | always => " (always)"
  | sometimes => ""
  | never => " (never)"

def indentation (depth : Nat) : String :=
  String.join (List.replicate depth "  ")

namespace Expr

def summary : Expr → String
  | choice _ _ => "choice"
  | sequence _ _ => "sequence"
  | apply _ op _ => op.summary
  | leaf _ l => l.summary

def line (depth : Nat) (e : Expr) : String :=
  indentation depth ++ e.summary ++ e.outcome.remark ++ "\n"

mutual
def outline (depth : Nat) : Expr → String
  | choice t es => line depth (choice t es) ++ outlineList (depth + 1) es
  | sequence t es => line depth (sequence t es) ++ outlineList (depth + 1) es
  | apply t op e => line depth (apply t op e) ++ outline (depth + 1) e
  | leaf t l => line depth (leaf t l)

def outlineList (depth : Nat) : List Expr → String
  | [] => ""
  | e :: es => outline depth e ++ outlineList depth es
end

end Expr

def Rule.outline (r : Rule) : String :=
  r.name ++ (r.outcome.map Outcome.remark).getD "" ++ ":\n" ++ r.body.outline 1

def Grammar.outline (g : Grammar) : String :=
  String.join (g.rules.map Rule.outline)

end PegCompiler
