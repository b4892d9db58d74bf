import PegCompiler.Text.Printable

/-!
# Quoted text

Text is shown on one line: a few characters have short escapes, every other character that would
not show is written by its scalar value.
-/

namespace PegCompiler.Text

/-- The scalar value of `c` in lower case hexadecimal, without leading zeros. -/
def hexDigits (c : Char) : String :=
  String.ofList (Nat.toDigits 16 c.toNat)

def escapeChar (c : Char) : String :=
  if c = '\x00' then "\\0"
  else if c = '\t' then "\\t"
  else if c = '\r' then "\\r"
  else if c = '\n' then "\\n"
  else if c = '\\' then "\\\\"
  else if c = '\'' then "\\'"
  else if c = '"' then "\\\""
  else if shows c then c.toString
  else "\\u\x7b" ++ hexDigits c ++ "\x7d"

def escape (s : String) : String :=
  String.join (s.toList.map escapeChar)

def quoted (mark s : String) : String :=
  mark ++ escape s ++ mark

end PegCompiler.Text
