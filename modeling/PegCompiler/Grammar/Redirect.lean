import PegCompiler.Grammar.Traversal

/-!
# Proxy rules

A proxy is a rule whose body is nothing but a reference. References to it may as well name what it
refers to, and unless it is a start rule it can go.
-/

namespace PegCompiler

def Leaf.rename (f : String → String) : Leaf → Leaf
  | ruleRef name => ruleRef (f name)
  | l => l

/-- What is named in place of `name` when `target` takes the place of `proxy`. -/
def replaceName (proxy target name : String) : String :=
  if name = proxy then target else name

/-- Goes through all nodes and puts `f name` in place of every reference to `name`. -/
def Editor.renaming (f : String → String) : Editor Unit Empty where
  look _ s := (s, none)
  rewriting := .ofLeaf (Leaf.rename f)

def Grammar.rename (f : String → String) (g : Grammar) : Grammar :=
  (g.edit (.renaming f) ()).value

/-- The grammar while its proxies are taken one after another, and where those stand that are to be
removed in the end. -/
structure ProxyState where
  grammar : Grammar
  removed : List Nat

/-- Takes the rule at `index` as it is by now, and if it is a proxy redirects the references to it
in all rules. -/
def ProxyState.step (isStart : String → Bool) (s : ProxyState) (index : Nat) : ProxyState :=
  match s.grammar.rules[index]? with
  | none => s
  | some r =>
      match r.target? with
      | none => s
      | some target =>
          { grammar := s.grammar.rename (replaceName r.name target)
            removed := if isStart r.name then s.removed else s.removed ++ [index] }

/-- Removes the elements at the positions in `indices`, the last of them first. -/
def eraseAll (indices : List Nat) (xs : List α) : List α :=
  indices.foldr (fun index xs => xs.eraseIdx index) xs

/-- The grammar without the proxies that are no start rule, and without references to proxies. -/
def Grammar.removeProxies (isStart : String → Bool) (g : Grammar) : Grammar :=
  let s := (List.range g.rules.length).foldl (ProxyState.step isStart) ⟨g, []⟩
  { s.grammar with rules := eraseAll s.removed s.grammar.rules }

end PegCompiler
