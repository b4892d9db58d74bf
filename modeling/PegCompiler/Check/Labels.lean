import PegCompiler.Defect
import PegCompiler.Grammar.Traversal

/-!
# Labels

Labels must be unique in their scope and must not be words of the host language. A rule opens a
scope, and so does each alternative, each action and each unary operator, with a copy of what is in
scope around it. Sequences, named and labeled expressions share the scope around them.
-/

namespace PegCompiler

/-- The labels in scope with their places, latest first. -/
abbrev LabelScope := List (String × Location)

/-- Whether the labels inside of the operand go out of scope with it. -/
def Operator.isScoped : Operator → Bool
  | named _ => false
  | labeled _ _ _ => false
  | _ => true

namespace Expr

mutual
/-- The scope after the expression, when no label in it was there before. -/
def labelScope (scope : LabelScope) : Expr → Except Defect LabelScope
  | choice _ es => do
      checkAlternatives scope es
      return scope
  | sequence _ es => labelScopeList scope es
  | apply _ (.labeled (some label) location _) e =>
      match scope.lookup label with
      | some first => throw (.duplicateLabel label location first)
      | none => do
          let inside ← labelScope scope e
          return (label, location) :: inside
  | apply _ op e => do
      let inside ← labelScope scope e
      return if op.isScoped then scope else inside
  | leaf _ _ => return scope

def labelScopeList (scope : LabelScope) : List Expr → Except Defect LabelScope
  | [] => return scope
  | e :: es => do
      let next ← labelScope scope e
      labelScopeList next es

def checkAlternatives (scope : LabelScope) : List Expr → Except Defect Unit
  | [] => return ()
  | e :: es => do
      let _ ← labelScope scope e
      checkAlternatives scope es
end

def reservedLabel? (words : List String) : Expr → Option Defect
  | apply _ (.labeled (some label) location _) _ =>
      if label ∈ words then some (.reservedLabel label location) else none
  | _ => none

end Expr

def Rule.duplicateLabel? (r : Rule) : Option Defect :=
  match r.body.labelScope [] with
  | .ok _ => none
  | .error defect => some defect

namespace Grammar

def duplicateLabel? (g : Grammar) : Option Defect :=
  g.rules.findSome? Rule.duplicateLabel?

def reservedLabel? (words : List String) (g : Grammar) : Option Defect :=
  g.findInExprs? (Expr.reservedLabel? words)

end Grammar

end PegCompiler
