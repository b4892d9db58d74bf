/-!
# JSON values

Objects keep their fields in order, repeated keys included. Numbers that are not plain integers are
kept as they are written, since nothing in a grammar file is a fraction.
-/

namespace PegCompiler

inductive Json where
  | null
  | bool (value : Bool)
  | int (value : Int)
  /-- A number written with a fraction or an exponent, or the integer `-0`. -/
  | real (written : String)
  | str (value : String)
  | arr (items : List Json)
  | obj (fields : List (String × Json))
  /-- Text that is well formed and yet names no value: a number beyond every float, half of a
  surrogate pair, or brackets nested too deep. Harmless as long as nobody asks for it. -/
  | void
  deriving Inhabited, Repr

namespace Json

/-- A word is an unsigned number of 32 bits. -/
def word? : Json → Option UInt32
  | .int n => if 0 ≤ n ∧ n < UInt32.size then some (UInt32.ofNat n.toNat) else none
  | _ => none

def str? : Json → Option String
  | .str s => some s
  | _ => none

def bool? : Json → Option Bool
  | .bool b => some b
  | _ => none

def list? (read : Json → Option α) : Json → Option (List α)
  | .arr items => items.mapM read
  | _ => none

/-- `null` stands for the absence of a value. -/
def nullable? (read : Json → Option α) : Json → Option (Option α)
  | .null => some none
  | j => (read j).map some

def ofWord (w : UInt32) : Json :=
  .int w.toNat

def ofNat (n : Nat) : Json :=
  .int n

/-- The absence of a value is written as `null`. -/
def ofOption (write : α → Json) : Option α → Json
  | none => .null
  | some a => write a

def ofList (write : α → Json) (as : List α) : Json :=
  .arr (as.map write)

@[simp] theorem word?_ofWord (w : UInt32) : (ofWord w).word? = some w := by
  have h := w.toNat_lt_size
  simp only [ofWord, word?, Int.natCast_nonneg, Int.toNat_natCast, UInt32.ofNat_toNat, true_and]
  exact if_pos (by omega)

@[simp] theorem str?_str (s : String) : (str s).str? = some s := rfl

@[simp] theorem bool?_bool (b : Bool) : (bool b).bool? = some b := rfl

theorem list?_ofList {read : Json → Option α} {write : α → Json}
    (h : ∀ a, read (write a) = some a) (as : List α) : (ofList write as).list? read = some as := by
  induction as with
  | nil => rfl
  | cons a as ih =>
    have ih : (as.map write).mapM read = some as := ih
    simp [ofList, list?, h, ih]

mutual
/-- Whether no part of the value is void. -/
def isSolid : Json → Bool
  | .void => false
  | .arr items => allSolid items
  | .obj fields => fieldsSolid fields
  | _ => true

def allSolid : List Json → Bool
  | [] => true
  | j :: js => isSolid j && allSolid js

def fieldsSolid : List (String × Json) → Bool
  | [] => true
  | (_, j) :: fields => isSolid j && fieldsSolid fields
end

mutual
/-- The value with everything void that is nested in more than `depth` brackets. -/
def prune : Nat → Json → Json
  | 0, .arr _ => .void
  | 0, .obj _ => .void
  | depth + 1, .arr items => .arr (pruneList depth items)
  | depth + 1, .obj fields => .obj (pruneFields depth fields)
  | _, j => j

def pruneList (depth : Nat) : List Json → List Json
  | [] => []
  | j :: js => prune depth j :: pruneList depth js

def pruneFields (depth : Nat) : List (String × Json) → List (String × Json)
  | [] => []
  | (key, j) :: fields => (key, prune depth j) :: pruneFields depth fields
end

/-- The fields of a record under `keys`, in that order, each absent or present once. A record is an
object, where other keys are passed over, or the array of its values with any number of them left
out at the end. -/
def record? (keys : List String) : Json → Option (List (Option Json))
  | .obj fields => keys.mapM fun key =>
      match fields.filter (·.1 = key) with
      | [] => some none
      | [field] => some (some field.2)
      | _ => none
  | .arr items =>
      if items.length ≤ keys.length then
        some ((items.map some) ++ List.replicate (keys.length - items.length) none)
      else none
  | _ => none

/-- The value of an optional field, `default` where the field is left out. -/
def orDefault (default : α) (read : Json → Option α) : Option Json → Option α
  | none => some default
  | some j => read j

@[simp] theorem orDefault_none (default : α) (read : Json → Option α) :
    orDefault default read none = some default := rfl

@[simp] theorem orDefault_some (default : α) (read : Json → Option α) (j : Json) :
    orDefault default read (some j) = read j := rfl

end Json

end PegCompiler
