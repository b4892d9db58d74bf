import PegCompiler.Defect
import PegCompiler.Grammar.Basic

/-!
# Plucking

A sequence cannot both pick values of its elements and hand them to an action. The closest action
around an expression counts, unless a labeled expression stands between.
-/

namespace PegCompiler

namespace Expr

mutual
/-- The first picked value below an action; `action` is where the closest one stands. -/
def pluckInAction? (action : Option Location) : Expr → Option Defect
  | choice _ es => pluckInActionList? action es
  | sequence _ es => pluckInActionList? action es
  | apply _ op e =>
      match op with
      | .action code => pluckInAction? (some code.location) e
      | .labeled _ location true =>
          match action with
          | some action => some (.pluckInAction location action)
          | none => pluckInAction? none e
      | .labeled _ _ false => pluckInAction? none e
      | _ => pluckInAction? action e
  | leaf _ _ => none

def pluckInActionList? (action : Option Location) : List Expr → Option Defect
  | [] => none
  | e :: es =>
      match pluckInAction? action e with
      | some defect => some defect
      | none => pluckInActionList? action es
end

end Expr

def Grammar.pluckInAction? (g : Grammar) : Option Defect :=
  g.rules.findSome? (·.body.pluckInAction? none)

end PegCompiler
