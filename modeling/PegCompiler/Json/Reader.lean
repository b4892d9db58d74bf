import PegCompiler.Json.Token

/-!
# Reading JSON

The tokens of a text drive a stack of open brackets. Nothing may follow the value.
-/

namespace PegCompiler.Json

/-- An open bracket with what was read inside it, last first. -/
inductive Open where
  | arr (items : List Json)
  | obj (fields : List (Option String × Json))
  /-- The key of the field whose value comes next. -/
  | field (key : Option String) (fields : List (Option String × Json))

/-- What may come next. -/
inductive Expect where
  | value
  | valueOrClose
  | separator
  | key
  | keyOrClose
  | colon
  | nothing

/-- The object with these fields, last first; void where a key cannot be read. -/
def ofFields (fields : List (Option String × Json)) : Json :=
  match fields.reverse.mapM fun field => field.1.map (·, field.2) with
  | some fields => .obj fields
  | none => .void

/-- The state of a reader: the open brackets, innermost first, the value once it is complete, and
what may come next. -/
structure Reader where
  opened : List Open
  done : Json
  expect : Expect

/-- A complete value goes to the innermost open bracket. -/
def Reader.give (opened : List Open) (j : Json) : Option Reader :=
  match opened with
  | [] => some ⟨[], j, .nothing⟩
  | .arr items :: outer => some ⟨.arr (j :: items) :: outer, .null, .separator⟩
  | .field key fields :: outer => some ⟨.obj ((key, j) :: fields) :: outer, .null, .separator⟩
  | .obj _ :: _ => none

def Reader.closeArr (opened : List Open) : Option Reader :=
  match opened with
  | .arr items :: outer => Reader.give outer (.arr items.reverse)
  | _ => none

def Reader.closeObj (opened : List Open) : Option Reader :=
  match opened with
  | .obj fields :: outer => Reader.give outer (ofFields fields)
  | _ => none

def Reader.enter (opened : List Open) : Token → Option Reader
  | .openArr => some ⟨.arr [] :: opened, .null, .valueOrClose⟩
  | .openObj => some ⟨.obj [] :: opened, .null, .keyOrClose⟩
  | .text (some s) => Reader.give opened (.str s)
  | .text none => Reader.give opened .void
  | .bare j => Reader.give opened j
  | _ => none

def Reader.key (opened : List Open) : Token → Option Reader
  | .text key => match opened with
      | .obj fields :: outer => some ⟨.field key fields :: outer, .null, .colon⟩
      | _ => none
  | _ => none

def Reader.step (r : Reader) (t : Token) : Option Reader :=
  match r.expect, t with
  | .nothing, _ => none
  | .value, t => Reader.enter r.opened t
  | .valueOrClose, .closeArr => Reader.closeArr r.opened
  | .valueOrClose, t => Reader.enter r.opened t
  | .keyOrClose, .closeObj => Reader.closeObj r.opened
  | .keyOrClose, t => Reader.key r.opened t
  | .key, t => Reader.key r.opened t
  | .colon, .colon => some { r with expect := .value }
  | .colon, _ => none
  | .separator, .closeArr => Reader.closeArr r.opened
  | .separator, .closeObj => Reader.closeObj r.opened
  | .separator, .comma => match r.opened with
      | .arr _ :: _ => some { r with expect := .value }
      | .obj _ :: _ => some { r with expect := .key }
      | _ => none
  | .separator, _ => none

def read? (text : String) : Option Json := do
  let ts ← tokens? text.toList
  let r ← ts.foldlM Reader.step ⟨[], .null, .value⟩
  match r.expect with
  | .nothing => some r.done
  | _ => none

end PegCompiler.Json
