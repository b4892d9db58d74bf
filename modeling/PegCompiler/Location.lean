import PegCompiler.Json.Value

/-!
# Places in a grammar file

A place is a stretch of text between two cursors, in a named source or in none. Lines and columns
count from one; all numbers are zero where nothing is known.
-/

namespace PegCompiler

structure Cursor where
  offset : UInt32
  line : UInt32
  column : UInt32
  deriving DecidableEq, Repr

structure Location where
  source : Option String
  start : Cursor
  stop : Cursor
  deriving DecidableEq, Repr

def Location.unknown : Location := ⟨none, ⟨0, 0, 0⟩, ⟨0, 0, 0⟩⟩

instance : Inhabited Location := ⟨Location.unknown⟩

/-- Source, line and column of the first character. -/
def Location.text (l : Location) : String :=
  let place := toString l.start.line.toNat ++ ":" ++ toString l.start.column.toNat
  match l.source with
  | some source => source ++ ":" ++ place
  | none => place

def Cursor.toJson (c : Cursor) : Json :=
  .obj [("offset", .ofWord c.offset), ("line", .ofWord c.line), ("column", .ofWord c.column)]

def Cursor.ofJson? (j : Json) : Option Cursor :=
  match j.record? ["offset", "line", "column"] with
  | some [some offset, some line, some column] => do
      return ⟨← offset.word?, ← line.word?, ← column.word?⟩
  | _ => none

@[simp] theorem Cursor.ofJson?_toJson (c : Cursor) : ofJson? c.toJson = some c := by
  simp [ofJson?, toJson, Json.record?]

def Location.toJson (l : Location) : Json :=
  .obj [("source", .ofOption .str l.source), ("start", l.start.toJson), ("end", l.stop.toJson)]

/-- The source may be left out. -/
def Location.ofJson? (j : Json) : Option Location :=
  match j.record? ["source", "start", "end"] with
  | some [source, some start, some stop] => do
      return ⟨← Json.orDefault none (Json.nullable? Json.str?) source,
        ← Cursor.ofJson? start, ← Cursor.ofJson? stop⟩
  | _ => none

@[simp] theorem Location.ofJson?_toJson (l : Location) : ofJson? l.toJson = some l := by
  rcases l with ⟨source, start, stop⟩
  cases source <;> simp [ofJson?, toJson, Json.record?, Json.ofOption, Json.nullable?]

end PegCompiler
