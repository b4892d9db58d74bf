import PegCompiler.Location

/-!
# Reports

A report says what is wrong with a grammar and where, with notes on other places that matter.
-/

namespace PegCompiler

structure Note where
  message : String
  location : Location
  deriving DecidableEq, Repr

structure Report where
  message : String
  location : Location
  notes : List Note
  deriving DecidableEq, Repr

def Note.render (n : Note) : String :=
  "note: " ++ n.message ++ " (" ++ n.location.text ++ ")\n"

/-- One line for the message, one for its place and one for each note. -/
def Report.render (r : Report) : String :=
  "error: " ++ r.message ++ "\n --> " ++ r.location.text ++ "\n" ++
    String.join (r.notes.map Note.render)

end PegCompiler
