import PegCompiler.Defect
import PegCompiler.Grammar.Build

/-!
# Inference of outcomes

Every node gets the outcome that follows from those of its children. The outcome of a rule starts
as `sometimes` and is settled by going over its body until nothing changes; a reference met on the
way settles the rule it names first, unless that rule has an outcome already, settled or not. A body
is taken out of the rules while it is gone over, and put back with its new outcomes.

A defect ends the inference where it is met. What was found out before stays.
-/

namespace PegCompiler

namespace Outcome

/-- A choice succeeds always if each alternative does, and never if each one never does. -/
def ofChoice (os : List Outcome) : Outcome :=
  if os.all (· = always) then always
  else if os.all (· = never) then never
  else sometimes

/-- A sequence succeeds always if each element does, and never if some element never does. -/
def ofSequence (os : List Outcome) : Outcome :=
  if os.all (· = always) then always
  else if os.any (· = never) then never
  else sometimes

end Outcome

def Operator.outcome (op : Operator) (body : Outcome) : Outcome :=
  match op with
  | simpleNot => body.invert
  | optional => .always
  | zeroOrMore => .always
  | _ => body

def Leaf.outcome : Leaf → Outcome
  | literal value _ => if value.isEmpty then .always else .sometimes
  | charClass set => if set.parts.isEmpty then .never else .sometimes
  | _ => .sometimes

/-- What a visit leaves behind: the tree with new outcomes, the rules, and either what was found
out about the tree or the defect that ended the visit. -/
structure Visit (α β : Type) where
  tree : α
  rules : List Rule
  found : Except Defect β

namespace Visit

/-- The visit of a node, given that of its children. -/
def node (v : Visit α β) (build : α → Expr) (outcome : β → Outcome) : Visit Expr Outcome :=
  match v.found with
  | .ok b => ⟨(build v.tree).withOutcome (outcome b), v.rules, .ok (outcome b)⟩
  | .error defect => ⟨build v.tree, v.rules, .error defect⟩

/-- The visit of a list, given that of its first element and the way to visit the rest. -/
def cons (v : Visit Expr Outcome) (es : List Expr)
    (next : List Rule → Visit (List Expr) (List Outcome)) : Visit (List Expr) (List Outcome) :=
  match v.found with
  | .ok o =>
      let w := next v.rules
      ⟨v.tree :: w.tree, w.rules, w.found.map (o :: ·)⟩
  | .error defect => ⟨v.tree :: es, v.rules, .error defect⟩

end Visit

/-- How to find the outcome of the rule that a reference names. -/
abbrev Resolver := RuleRef → List Rule → List Rule × Except Defect Outcome

namespace Expr

mutual
/-- Gives every node its outcome, children first. -/
def infer (resolve : Resolver) : Expr → List Rule → Visit Expr Outcome
  | choice t es, rules => (inferList resolve es rules).node (choice t) Outcome.ofChoice
  | sequence t es, rules => (inferList resolve es rules).node (sequence t) Outcome.ofSequence
  | apply t op e, rules => (infer resolve e rules).node (apply t op) op.outcome
  | leaf t (.ruleRef name), rules =>
      let (rules, found) := resolve ⟨name, t.location⟩ rules
      Visit.node ⟨(), rules, found⟩ (fun _ => leaf t (.ruleRef name)) id
  | leaf t l, rules => Visit.node ⟨(), rules, .ok l.outcome⟩ (fun _ => leaf t l) id

def inferList (resolve : Resolver) : List Expr → List Rule → Visit (List Expr) (List Outcome)
  | [], rules => ⟨[], rules, .ok []⟩
  | e :: es, rules => (infer resolve e rules).cons es (inferList resolve es)
end

end Expr

namespace Inference

def outcomeAt? (rules : List Rule) (i : Nat) : Option Outcome :=
  rules[i]?.bind (·.outcome)

def setOutcome (i : Nat) (o : Outcome) (rules : List Rule) : List Rule :=
  rules.modify i fun r => { r with outcome := some o }

def setBody (i : Nat) (body : Expr) (rules : List Rule) : List Rule :=
  rules.modify i fun r => { r with body }

/-- The rules while the body of the `i`th one is gone over: it counts as `sometimes`, and its body
is taken out of them. -/
def opened (i : Nat) (rules : List Rule) : List Rule :=
  setBody i Build.empty (setOutcome i .sometimes rules)

/-- How often a body may be gone over again before its rule is given up. -/
def maxRepeats : Nat := 6

/-- The defect of the `i`th rule when it does not settle. -/
def unsettled (rules : List Rule) (i : Nat) : Defect :=
  .unsettled ((rules[i]?.map (·.location)).getD .unknown)

/-- Goes over the body of the `i`th rule until its outcome is the one it had before, starting over
at most `repeats` times. -/
def settle (resolve : Resolver) (i : Nat) (repeats : Nat) (body : Expr) (rules : List Rule) :
    Visit Expr Outcome :=
  let before := (outcomeAt? rules i).getD .sometimes
  let v := body.infer resolve rules
  match v.found with
  | .error defect => ⟨v.tree, v.rules, .error defect⟩
  | .ok o =>
      let rules := setOutcome i o v.rules
      match repeats with
      | 0 => ⟨v.tree, rules, .error (unsettled rules i)⟩
      | repeats + 1 =>
          if o = before then ⟨v.tree, rules, .ok o⟩
          else settle resolve i repeats v.tree rules

/-- Finds the outcome of the `i`th rule. At most `unknown` rules have none yet. -/
def inferRule : Nat → Nat → List Rule → List Rule × Except Defect Outcome
  | unknown, i, rules =>
    match outcomeAt? rules i with
    | some o => (rules, .ok o)
    | none =>
      match unknown, rules[i]? with
      | unknown + 1, some r =>
        let resolve : Resolver := fun ref rules =>
          match ruleIndex? rules ref.name with
          | some j => inferRule unknown j rules
          | none => (rules, .error (.undefinedRule ref))
        let v := settle resolve i maxRepeats r.body (opened i rules)
        (setBody i v.tree v.rules, v.found)
      | _, _ => (rules, .ok .sometimes)

/-- Finds the outcomes of the rules at `indices`, up to the first defect. -/
def inferRules : List Nat → List Rule → List Rule × Except Defect Unit
  | [], rules => (rules, .ok ())
  | i :: is, rules =>
      match inferRule rules.length i rules with
      | (rules, .ok _) => inferRules is rules
      | (rules, .error defect) => (rules, .error defect)

end Inference

def inferOutcomes (rules : List Rule) : List Rule × Except Defect Unit :=
  Inference.inferRules (List.range rules.length) rules

end PegCompiler
