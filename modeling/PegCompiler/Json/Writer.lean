import PegCompiler.Json.Value

/-!
# Writing JSON

A value has a compact form without any blanks and an indented form with one item or field on each
line. Only quotes, backslashes and control characters are escaped.
-/

namespace PegCompiler.Json

def escapeChar (c : Char) : String :=
  if c = '"' then "\\\""
  else if c = '\\' then "\\\\"
  else if c = '\x08' then "\\b"
  else if c = '\t' then "\\t"
  else if c = '\n' then "\\n"
  else if c = '\x0c' then "\\f"
  else if c = '\r' then "\\r"
  else if c.toNat < 0x10 then "\\u000" ++ String.ofList (Nat.toDigits 16 c.toNat)
  else if c.toNat < 0x20 then "\\u00" ++ String.ofList (Nat.toDigits 16 c.toNat)
  else c.toString

def quote (s : String) : String :=
  "\"" ++ String.join (s.toList.map escapeChar) ++ "\""

mutual
def compact : Json → String
  | .null => "null"
  | .bool true => "true"
  | .bool false => "false"
  | .int n => toString n
  | .real written => written
  | .str s => quote s
  | .arr items => "[" ++ ",".intercalate (compactItems items) ++ "]"
  | .obj fields => "\x7b" ++ ",".intercalate (compactFields fields) ++ "\x7d"
  | .void => "null"

def compactItems : List Json → List String
  | [] => []
  | j :: js => compact j :: compactItems js

def compactFields : List (String × Json) → List String
  | [] => []
  | (key, j) :: fields => (quote key ++ ":" ++ compact j) :: compactFields fields
end

def newline (depth : Nat) : String :=
  "\n" ++ String.join (List.replicate depth "  ")

/-- The parts of a bracket, one on each line; nothing goes inside an empty one. -/
def bracketed (depth : Nat) (left right : String) (parts : List String) : String :=
  if parts.isEmpty then left ++ right
  else left ++ newline (depth + 1) ++ ("," ++ newline (depth + 1)).intercalate parts ++
    newline depth ++ right

mutual
/-- The value over several lines, inside `depth` brackets. -/
def indented (depth : Nat) : Json → String
  | .null => "null"
  | .bool true => "true"
  | .bool false => "false"
  | .int n => toString n
  | .real written => written
  | .str s => quote s
  | .arr items => bracketed depth "[" "]" (indentedItems (depth + 1) items)
  | .obj fields => bracketed depth "\x7b" "\x7d" (indentedFields (depth + 1) fields)
  | .void => "null"

def indentedItems (depth : Nat) : List Json → List String
  | [] => []
  | j :: js => indented depth j :: indentedItems depth js

def indentedFields (depth : Nat) : List (String × Json) → List String
  | [] => []
  | (key, j) :: fields => (quote key ++ ": " ++ indented depth j) :: indentedFields depth fields
end

end PegCompiler.Json
