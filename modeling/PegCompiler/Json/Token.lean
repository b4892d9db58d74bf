import PegCompiler.Json.Value

/-!
# JSON tokens

A text is cut into punctuation, quoted strings and bare words. The tokens of a text are all of it
but the blanks between them.
-/

namespace PegCompiler.Json

inductive Token where
  | openArr
  | closeArr
  | openObj
  | closeObj
  | comma
  | colon
  /-- A quoted string, `none` where it holds half of a surrogate pair. -/
  | text (value : Option String)
  /-- A number or one of the three words of the language. -/
  | bare (value : Json)

/-- Splits at the quote that ends a string; escapes stay as they are. -/
def splitQuoted : List Char → Option (List Char × List Char)
  | [] => none
  | '"' :: cs => some ([], cs)
  | '\\' :: c :: cs => (splitQuoted cs).map fun (body, rest) => ('\\' :: c :: body, rest)
  | c :: cs =>
      if c.toNat < 0x20 then none
      else (splitQuoted cs).map fun (body, rest) => (c :: body, rest)

theorem splitQuoted_length {cs body rest : List Char} (h : splitQuoted cs = some (body, rest)) :
    rest.length < cs.length := by
  fun_induction splitQuoted cs generalizing body with
  | case1 => simp at h
  | case2 cs => simp_all
  | case3 c cs ih =>
    obtain ⟨⟨body', rest'⟩, hs, he⟩ := Option.map_eq_some_iff.mp h
    cases he
    have := ih hs
    simp only [List.length_cons]
    omega
  | case4 => simp at h
  | case5 c cs _ _ _ ih =>
    obtain ⟨⟨body', rest'⟩, hs, he⟩ := Option.map_eq_some_iff.mp h
    cases he
    have := ih hs
    simp only [List.length_cons]
    omega

def hexValue? (c : Char) : Option Nat :=
  if '0' ≤ c ∧ c ≤ '9' then some (c.toNat - 48)
  else if 'a' ≤ c ∧ c ≤ 'f' then some (c.toNat - 87)
  else if 'A' ≤ c ∧ c ≤ 'F' then some (c.toNat - 55)
  else none

def hexUnit? (a b c d : Char) : Option Nat := do
  let a ← hexValue? a
  let b ← hexValue? b
  let c ← hexValue? c
  let d ← hexValue? d
  return ((a * 16 + b) * 16 + c) * 16 + d

def simpleEscape? : Char → Option Char
  | '"' => some '"'
  | '\\' => some '\\'
  | '/' => some '/'
  | 'b' => some '\x08'
  | 'f' => some '\x0c'
  | 'n' => some '\n'
  | 'r' => some '\r'
  | 't' => some '\t'
  | _ => none

/-- A piece of a string body: a character or a code unit written in hexadecimal. -/
inductive Piece where
  | char (c : Char)
  | unit (n : Nat)

def pieces? : List Char → Option (List Piece)
  | [] => some []
  | '\\' :: 'u' :: a :: b :: c :: d :: cs => do
      let n ← hexUnit? a b c d
      return .unit n :: (← pieces? cs)
  | '\\' :: c :: cs => do
      let c ← simpleEscape? c
      return .char c :: (← pieces? cs)
  | c :: cs => if c = '\\' then none else (pieces? cs).map (.char c :: ·)

/-- Joins surrogate pairs; `none` where a half is left over. -/
def joinUnits? : List Piece → Option (List Char)
  | [] => some []
  | .char c :: ps => (joinUnits? ps).map (c :: ·)
  | .unit n :: ps =>
      if 0xD800 ≤ n ∧ n < 0xDC00 then
        match ps with
        | .unit m :: ps =>
            if 0xDC00 ≤ m ∧ m < 0xE000 then
              (joinUnits? ps).map (Char.ofNat (0x10000 + (n - 0xD800) * 0x400 + (m - 0xDC00)) :: ·)
            else none
        | _ => none
      else if 0xDC00 ≤ n ∧ n < 0xE000 then none
      else (joinUnits? ps).map (Char.ofNat n :: ·)

def textToken? (cs : List Char) : Option Token :=
  (pieces? cs).map fun ps => .text ((joinUnits? ps).map String.ofList)

def isDigit (c : Char) : Bool :=
  '0' ≤ c && c ≤ '9'

def digitsValue (ds : List Char) : Nat :=
  ds.foldl (fun n d => n * 10 + (d.toNat - 48)) 0

/-- The parts of a number: digits before the point, digits after it, and the exponent. -/
structure Numeral where
  negative : Bool
  whole : List Char
  fraction : Option (List Char)
  exponent : Option (Bool × List Char)

def nonemptyDigits? (cs : List Char) : Option (List Char × List Char) :=
  let ds := cs.takeWhile isDigit
  if ds.isEmpty then none else some (ds, cs.dropWhile isDigit)

def fraction? : List Char → Option (Option (List Char) × List Char)
  | '.' :: cs => (nonemptyDigits? cs).map fun (ds, rest) => (some ds, rest)
  | cs => some (none, cs)

def exponent? : List Char → Option (Option (Bool × List Char) × List Char)
  | c :: cs =>
      if c = 'e' ∨ c = 'E' then
        match cs with
        | '-' :: cs => (nonemptyDigits? cs).map fun (ds, rest) => (some (true, ds), rest)
        | '+' :: cs => (nonemptyDigits? cs).map fun (ds, rest) => (some (false, ds), rest)
        | cs => (nonemptyDigits? cs).map fun (ds, rest) => (some (false, ds), rest)
      else some (none, c :: cs)
  | [] => some (none, [])

/-- A minus sign, digits without a leading zero, a fraction and an exponent, the whole of `cs`. -/
def Numeral.ofChars? (cs : List Char) : Option Numeral := do
  let (negative, cs) := match cs with
    | '-' :: cs => (true, cs)
    | cs => (false, cs)
  let (whole, cs) ← nonemptyDigits? cs
  if whole.head? = some '0' ∧ whole.length ≠ 1 then none
  else
    let (fraction, cs) ← fraction? cs
    let (exponent, cs) ← exponent? cs
    if cs.isEmpty then some ⟨negative, whole, fraction, exponent⟩ else none

/-- The least number that is taken for infinite: half a step of the double floats below the
first power of two that is none of them. -/
def firstInfinite : Nat :=
  1 <<< 1024 - 1 <<< 970

/-- Whether the number lies beyond every double float. -/
def Numeral.isHuge (n : Numeral) : Bool :=
  let fraction := n.fraction.getD []
  let digits := (n.whole ++ fraction).dropWhile (· = '0')
  let (down, shift) := match n.exponent with
    | none => (false, 0)
    | some (down, ds) => (down, digitsValue ds)
  let zeros : Int := (if down then -(shift : Int) else shift) - fraction.length
  let places := digits.length + zeros
  if digits.isEmpty || places < 309 then false
  else if 309 < places then true
  else if 0 ≤ zeros then firstInfinite ≤ digitsValue digits * Nat.pow 10 zeros.toNat
  else firstInfinite * Nat.pow 10 (-zeros).toNat ≤ digitsValue digits

def Numeral.toJson (n : Numeral) (written : List Char) : Json :=
  if n.isHuge then .void
  else if n.fraction.isNone && n.exponent.isNone && !(n.negative && n.whole == ['0']) then
    let value : Int := digitsValue n.whole
    .int (if n.negative then -value else value)
  else .real (String.ofList written)

def bareToken? (cs : List Char) : Option Token :=
  if cs = "null".toList then some (.bare .null)
  else if cs = "true".toList then some (.bare (.bool true))
  else if cs = "false".toList then some (.bare (.bool false))
  else (Numeral.ofChars? cs).map fun n => .bare (n.toJson cs)

def isSpace (c : Char) : Bool :=
  c = ' ' || c = '\n' || c = '\t' || c = '\r'

def isBare (c : Char) : Bool :=
  c.isAlphanum || c = '-' || c = '+' || c = '.'

def mark? : Char → Option Token
  | '[' => some .openArr
  | ']' => some .closeArr
  | '\x7b' => some .openObj
  | '\x7d' => some .closeObj
  | ',' => some .comma
  | ':' => some .colon
  | _ => none

def tokens? : List Char → Option (List Token)
  | [] => some []
  | c :: cs =>
      if isSpace c then tokens? cs
      else if c = '"' then
        match h : splitQuoted cs with
        | none => none
        | some (body, rest) => do
            have := splitQuoted_length h
            let t ← textToken? body
            return t :: (← tokens? rest)
      else if isBare c then do
        have := (List.dropWhile_sublist isBare (l := cs)).length_le
        let t ← bareToken? (c :: cs.takeWhile isBare)
        return t :: (← tokens? (cs.dropWhile isBare))
      else do
        let t ← mark? c
        return t :: (← tokens? cs)
termination_by cs => cs.length
decreasing_by all_goals simp only [List.length_cons]; omega

end PegCompiler.Json
