import PegCompiler.Bytecode.Slots

/-!
# Scripts of tracker operations

A script runs operations one after another and logs each with the tracker behind it. Inside of a
block a fault ends the block and the condition or loop that it belongs to; at the top level the
next operation runs on the tracker as the fault left it.
-/

namespace PegCompiler.Slots

inductive Step where
  | push (value : String)
  | pop
  | popMany (n : UInt32)
  | top
  | index (offset : UInt32)
  | name (slot : Int)
  | result
  | defines
  | branch (position : Nat) (yes no : List Step)
  | loop (position : Nat) (body : List Step)

inductive Answer where
  | text (s : String)
  | names (ss : List String)
  | branch
  | loop
  deriving Repr

structure Entry where
  answer : Except Fault Answer
  after : Slots

/-- Computations that follow the stack and keep a log, which no fault takes back. -/
abbrev Logged := ExceptT Fault (StateT Slots (StateM (List Entry)))

def log (answer : Except Fault Answer) : Logged Unit := do
  let s ← getThe Slots
  modifyThe (List Entry) (· ++ [⟨answer, s⟩])

def logged (operation : Logged Answer) : Logged Unit := do
  match ← (tryCatch (Except.ok <$> operation) fun fault => pure (.error fault) :
      Logged (Except Fault Answer)) with
  | .ok answer => log (.ok answer)
  | .error fault => do
      log (.error fault)
      throw fault

namespace Step

mutual
def run : Step → Logged Unit
  | push value => logged (.text <$> Slots.push value)
  | pop => logged (.text <$> Slots.pop)
  | popMany n => logged (.names <$> Slots.popMany n)
  | top => logged (.text <$> Slots.topName)
  | index offset => logged (.text <$> Slots.index offset)
  | name slot => logged (.text <$> Slots.name slot)
  | result => logged (.text <$> Slots.result)
  | defines => logged (do return .text (← getThe Slots).defines)
  | branch position yes no => logged do
      let _ ← Slots.checkedIf position (runList yes) (runList no)
      return .branch
  | loop position body => logged do
      Slots.checkedLoop position (runList body)
      return .loop

def runList : List Step → Logged Unit
  | [] => return ()
  | step :: steps => do
      run step
      runList steps
end

def logFrom (s : Slots) : List Step → List Entry
  | [] => []
  | step :: steps =>
      let ((_, s), entries) := (run step).run.run s |>.run []
      entries ++ logFrom s steps

end Step

end PegCompiler.Slots
