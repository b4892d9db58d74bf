import PegCompiler.Proofs.Logs
import PegCompiler.Proofs.Offsets

/-!
# Emissions

Some instructions have a constant, or call a rule. An expression tells which of these it is turned
into, in the order of the code: a node emits them for itself, the body of a loop is there twice, and
what a known outcome rules out is not there at all. The expression tells as well what the constants
are, and how many nodes around one keep failures from being reported.
-/

namespace PegCompiler

namespace Expr

/-- Whether what fails inside of the expression is not reported. -/
def silences : Expr → Bool
  | apply _ (.named _) _ | apply _ .simpleAnd _ | apply _ .simpleNot _ => true
  | _ => false

/-- Whether the sequence around the expression has something to pick. -/
def picks : Expr → Bool
  | apply _ (.named _) e => picks e
  | apply _ (.labeled _ _ pick) _ => pick
  | _ => false

mutual
/-- The labels in scope behind the expression. -/
def labelsBehind (labels : List String) : Expr → List String
  | sequence _ es => labelsBehindAll labels es
  | apply _ (.named _) e => labelsBehind labels e
  | apply _ (.labeled (some label) _ _) _ =>
      if label ∈ labels then labels else labels ++ [label]
  | _ => labels

def labelsBehindAll (labels : List String) : List Expr → List String
  | [] => labels
  | e :: es => labelsBehindAll (labelsBehind labels e) es
end

end Expr

/-- The number of nodes around a site that keep failures from being reported. -/
def Site.silenced (s : Site) : Nat :=
  s.around.countP Expr.silences

/-- An instruction that a node emits for itself, and the labels in scope there. -/
structure Emission where
  site : Site
  opcode : Opcode
  labels : List String

namespace Emission

/-- What the instruction names: it describes the node. -/
def symbol? (em : Emission) : Option Symbol :=
  match em.opcode, em.site.node with
  | .matchString, .leaf _ (.literal value false) => some (.literal value)
  | .matchStringIc, .leaf _ (.literal value true) => some (.literal (Text.lowercase value))
  | .acceptString, .leaf _ (.literal value false) => some (.literal value)
  | .matchCharClass, .leaf _ (.charClass set) => some (.charClass set)
  | .fail, .leaf _ (.literal value ignoreCase) => some (.expectation (.literal value ignoreCase))
  | .fail, .leaf _ (.charClass set) => some (.expectation (.charClass set))
  | .fail, .leaf _ .any => some (.expectation .any)
  | .fail, .apply _ (.named name) _ => some (.expectation (.rule name))
  | .call, .leaf _ (.semanticAnd code) => some (.function ⟨true, em.labels, code.text⟩)
  | .call, .leaf _ (.semanticNot code) => some (.function ⟨true, em.labels, code.text⟩)
  | .call, .apply _ (.action code) _ => some (.function ⟨false, em.labels, code.text⟩)
  | .rule, .leaf t (.ruleRef name) => some (.rule ⟨name, t.location⟩)
  | _, _ => none

end Emission

/-- The instructions with constants that a leaf is turned into. -/
def Leaf.opcodes (outcome : Outcome) : Leaf → List Opcode
  | semanticAnd _ | semanticNot _ => [.call]
  | ruleRef _ => [.rule]
  | literal value ignoreCase =>
      if value.isEmpty then []
      else match outcome, ignoreCase with
        | .always, false => [.acceptString]
        | .always, true => []
        | .sometimes, false => [.matchString, .acceptString, .fail]
        | .sometimes, true => [.matchStringIc, .fail]
        | .never, _ => [.fail]
  | charClass _ =>
      match outcome with
      | .always => []
      | .sometimes => [.matchCharClass, .fail]
      | .never => [.fail]
  | any => if outcome = .always then [] else [.fail]

namespace Operator

variable (t : Tag) (op : Operator) (e : Expr) (site : Site) (labels : List String)

/-- The site of an action that leaves its call to the operand. -/
def caller? : Option Site :=
  match op with
  | action _ => if e.callsAction then some site else none
  | _ => none

/-- What an operator is turned into, given that for its operand. -/
def emissions (inside : List Emission) : List Emission :=
  match op with
  | named _ => inside ++ if t.outcome = .sometimes then [⟨site, .fail, labels⟩] else []
  | action _ =>
      if e.callsAction then inside
      else inside ++ if e.outcome = .never then [] else [⟨site, .call, e.labelsBehind labels⟩]
  | zeroOrMore => inside ++ inside
  | oneOrMore => inside ++ if e.outcome = .never then [] else inside
  | _ => inside

end Operator

namespace Expr

mutual
/-- The instructions with constants that an expression is turned into. A sequence makes the call for
the action at `caller`. -/
def emissions (around : List Expr) (caller : Option Site) (labels : List String) :
    Expr → List Emission
  | choice t es => emissionsOfChoice (choice t es :: around) labels es
  | sequence t es => emissionsOfElements (sequence t es :: around) caller false labels es
  | apply t op e =>
      let site : Site := ⟨apply t op e, around⟩
      op.emissions t e site labels
        (emissions (apply t op e :: around) (op.caller? e site) labels e)
  | leaf t l => (l.opcodes t.outcome).map (⟨⟨leaf t l, around⟩, ·, labels⟩)

/-- Alternatives behind one that always matches are left away. -/
def emissionsOfChoice (around : List Expr) (labels : List String) : List Expr → List Emission
  | [] => []
  | e :: es =>
      emissions around none labels e ++
        if e.outcome = .always then [] else emissionsOfChoice around labels es

/-- Elements behind one that never matches are left away. A call at the end gives way to a pick. -/
def emissionsOfElements (around : List Expr) (caller : Option Site) (picked : Bool)
    (labels : List String) : List Expr → List Emission
  | [] => if picked then [] else caller.toList.map (⟨·, .call, labels⟩)
  | e :: es =>
      emissions around none labels e ++
        if e.outcome = .never then []
        else emissionsOfElements around caller (picked || e.picks) (e.labelsBehind labels) es
end

end Expr

def Rule.emissions (r : Rule) : List Emission :=
  r.body.emissions [] none []

/-! ## Scopes -/

theorem names_lowerElements {es : List Expr}
    (hes : ∀ e ∈ es, ∀ action height (s : Scope),
      (e.lower action height s).scope.names = e.labelsBehind s.names)
    (action : Option String) (n height : Nat) (s : Scope) :
    (Expr.lowerElements action n es height s).scope.names = Expr.labelsBehindAll s.names es := by
  induction es generalizing n height s with
  | nil => rw [Expr.lowerElements, scope_sequenceEnd, Expr.labelsBehindAll]
  | cons e es ih =>
      obtain ⟨he, hes⟩ := List.forall_mem_cons.mp hes
      rw [Expr.lowerElements, Expr.labelsBehindAll, ← he none height]
      exact ih hes (n + 1) (height + 1) _

namespace Expr

theorem names_lower (e : Expr) (action : Option String) (height : Nat) (s : Scope) :
    (e.lower action height s).scope.names = e.labelsBehind s.names := by
  induction e generalizing action height s with
  | choice t es _ => rw [lower, scope_lowerAlternatives, labelsBehind] <;> simp
  | sequence t es ih => exact names_lowerElements ih action 0 (height + 1) s.inner
  | apply t op e ih =>
      cases op with
      | named name => exact ih none height s
      | action code =>
          rw [lower]
          dsimp only
          split <;> rfl
      | labeled label location pick =>
          cases label with
          | none => rfl
          | some label => exact s.names_mark_some label pick height
      | _ => rfl
  | leaf t l => rw [lower, scope_lowerLeaf, labelsBehind] <;> simp

/-- A scope has something picked if it had before, or if the expression picks. -/
theorem isEmpty_picked_lower (e : Expr) (action : Option String) (height : Nat) (s : Scope) :
    (e.lower action height s).scope.picked.isEmpty = (s.picked.isEmpty && !e.picks) := by
  induction e generalizing action height s with
  | choice t es _ => simp [lower, scope_lowerAlternatives, picks]
  | sequence t es _ => simp [lower, picks]
  | apply t op e ih =>
      cases op with
      | named name => exact ih none height s
      | action code =>
          rw [lower]
          dsimp only
          split <;> exact (Bool.and_true _).symm
      | labeled label location pick => cases pick <;> simp [lower, Scope.mark, picks]
      | _ => exact (Bool.and_true _).symm
  | leaf t l => simp [lower, scope_lowerLeaf, picks]

end Expr

/-! ## Sites -/

/-- Whether all that an expression emits comes from sites of `root`, if the expression does. -/
def Expr.EmitsWithin (e root : Expr) : Prop :=
  ∀ around caller labels, (Site.mk e around).Of root → (∀ site ∈ caller, site.Of root) →
    ∀ em ∈ e.emissions around caller labels, em.site.Of root

section Sites

variable {root : Expr} {es : List Expr} {around : List Expr}

theorem emitsWithin_choice (hes : ∀ e ∈ es, e.EmitsWithin root)
    (hsites : ∀ e ∈ es, (Site.mk e around).Of root) (labels : List String) :
    ∀ em ∈ Expr.emissionsOfChoice around labels es, em.site.Of root := by
  induction es with
  | nil => simp [Expr.emissionsOfChoice]
  | cons e es ih =>
      obtain ⟨he, hes⟩ := List.forall_mem_cons.mp hes
      obtain ⟨hsite, hsites⟩ := List.forall_mem_cons.mp hsites
      have hfirst := he around none labels hsite (by simp)
      have hrest := ih hes hsites
      rw [Expr.emissionsOfChoice]
      split
      · simpa using hfirst
      · exact List.forall_mem_append.mpr ⟨hfirst, hrest⟩

theorem emitsWithin_elements (hes : ∀ e ∈ es, e.EmitsWithin root)
    (hsites : ∀ e ∈ es, (Site.mk e around).Of root) {caller : Option Site}
    (hcaller : ∀ site ∈ caller, site.Of root) (picked : Bool) (labels : List String) :
    ∀ em ∈ Expr.emissionsOfElements around caller picked labels es, em.site.Of root := by
  induction es generalizing picked labels with
  | nil =>
      intro em hem
      rw [Expr.emissionsOfElements] at hem
      split at hem
      · cases hem
      · obtain ⟨site, hsite, rfl⟩ := List.mem_map.mp hem
        exact hcaller site (Option.mem_toList.mp hsite)
  | cons e es ih =>
      obtain ⟨he, hes⟩ := List.forall_mem_cons.mp hes
      obtain ⟨hsite, hsites⟩ := List.forall_mem_cons.mp hsites
      have hfirst := he around none labels hsite (by simp)
      have hrest := ih hes hsites (picked || e.picks) (e.labelsBehind labels)
      rw [Expr.emissionsOfElements]
      split
      · simpa using hfirst
      · exact List.forall_mem_append.mpr ⟨hfirst, hrest⟩

end Sites

/-- An operator emits for itself or has its operand do so, once more or not. -/
theorem Operator.mem_emissions {op : Operator} {t : Tag} {e : Expr} {site : Site}
    {labels : List String} {inside : List Emission} {em : Emission}
    (h : em ∈ op.emissions t e site labels inside) : em ∈ inside ∨ em.site = site := by
  cases op with
  | named name =>
      refine (List.mem_append.mp h).imp_right fun h => ?_
      split at h
      · rw [List.mem_singleton.mp h]
      · cases h
  | action code =>
      rw [emissions] at h
      split at h
      · exact .inl h
      · refine (List.mem_append.mp h).imp_right fun h => ?_
        split at h
        · cases h
        · rw [List.mem_singleton.mp h]
  | zeroOrMore => exact .inl ((List.mem_append.mp h).elim id id)
  | oneOrMore =>
      refine .inl ((List.mem_append.mp h).elim id fun h => ?_)
      split at h
      · cases h
      · exact h
  | _ => exact .inl h

theorem Expr.emitsWithin (e root : Expr) : e.EmitsWithin root := by
  induction e with
  | choice t es ih =>
      intro around caller labels hsite _
      exact emitsWithin_choice ih (fun e he => hsite.child he) labels
  | sequence t es ih =>
      intro around caller labels hsite hcaller
      exact emitsWithin_elements ih (fun e he => hsite.child he) hcaller false labels
  | apply t op e ih =>
      intro around caller labels hsite _ em hem
      have hcaller : ∀ site ∈ op.caller? e ⟨apply t op e, around⟩, site.Of root := by
        intro site hsite'
        unfold Operator.caller? at hsite'
        split at hsite'
        · split at hsite'
          · rwa [← Option.some.inj hsite']
          · cases hsite'
        · cases hsite'
      rcases Operator.mem_emissions hem with hem | hem
      · exact ih _ _ labels (hsite.child (List.mem_singleton.mpr rfl)) hcaller em hem
      · rwa [hem]
  | leaf t l =>
      intro around caller labels hsite _ em hem
      obtain ⟨opcode, -, rfl⟩ := List.mem_map.mp hem
      exact hsite

theorem Rule.site_of_emissions (r : Rule) : ∀ em ∈ r.emissions, em.site.Of r.body :=
  r.body.emitsWithin r.body [] none [] .root (by simp)

end PegCompiler
