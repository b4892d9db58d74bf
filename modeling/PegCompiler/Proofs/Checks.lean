import PegCompiler.Compile
import PegCompiler.Proofs.Trees

/-!
# Accepted grammars

What a grammar is like when a check accepts it: its references are defined, its names distinct, and
what it repeats consumes.
-/

namespace PegCompiler

theorem eq_ok_of_toOption {ε β : Type} {x : Except ε β} {b : β} (h : x.toOption = some b) :
    x = .ok b := by
  cases x with
  | error e => cases h
  | ok c =>
      obtain rfl := Option.some.inj h
      rfl

/-- Whether the pass finds no defect. -/
def Pass.Accepts (o : Options) (g : Grammar) (pass : Pass) : Prop :=
  (pass.run o g).2 = .ok ()

namespace Pass

theorem check_eq_ok_iff {g : Grammar} {found : Option Defect} :
    (check g found).2 = .ok () ↔ found = none := by
  cases found <;> simp [check]

theorem check_eq_error_iff {g : Grammar} {found : Option Defect} {defect : Defect} :
    (check g found).2 = .error defect ↔ found = some defect := by
  cases found <;> simp [check]

instance decidableAccepts (o : Options) (g : Grammar) (pass : Pass) :
    Decidable (pass.Accepts o g) :=
  match h : (pass.run o g).2 with
  | .ok () => .isTrue h
  | .error defect => .isFalse (by simp [Accepts, h])

variable {o : Options} {g : Grammar}

theorem accepts_reportUndefinedRules :
    reportUndefinedRules.Accepts o g ↔ g.undefinedRule? = none :=
  check_eq_ok_iff

theorem accepts_reportDuplicateRules :
    reportDuplicateRules.Accepts o g ↔ g.duplicateRule? = none :=
  check_eq_ok_iff

theorem accepts_reportInfiniteRecursion :
    reportInfiniteRecursion.Accepts o g ↔ g.leftRecursion? = none :=
  check_eq_ok_iff

theorem accepts_reportInfiniteRepetition :
    reportInfiniteRepetition.Accepts o g ↔ g.endlessRepetition? = none :=
  check_eq_ok_iff

end Pass

/-- Whether every reference inside of the rules names one of them. -/
def RefsDefined (rules : List Rule) : Prop :=
  ∀ r ∈ rules, ∀ ref ∈ r.body.refs, ref.isDefined rules

theorem RuleRef.defect?_eq_none_iff {rules : List Rule} {ref : RuleRef} :
    ref.defect? rules = none ↔ ref.isDefined rules := by
  simp [defect?]

namespace Grammar

variable {g : Grammar}

theorem undefinedRule?_eq_none_iff : g.undefinedRule? = none ↔ RefsDefined g.rules := by
  simp only [undefinedRule?, findInExprs?_eq, nodes, List.findSome?_eq_none_iff, List.mem_flatMap,
    Expr.undefinedRule?, Option.bind_eq_none_iff, RuleRef.defect?_eq_none_iff]
  constructor
  · intro h r hr ref href
    obtain ⟨n, hn, href⟩ := List.mem_filterMap.mp href
    exact h n ⟨r, hr, hn⟩ ref href
  · rintro h n ⟨r, hr, hn⟩ ref href
    exact h r hr ref (List.mem_filterMap.mpr ⟨n, hn, href⟩)

theorem endlessRepetition?_eq_none_iff :
    g.endlessRepetition? = none ↔
      ∀ r ∈ g.rules, ∀ n ∈ r.body.nodes, n.endlessRepetition? g.rules = none := by
  simp only [endlessRepetition?, findInExprs?_eq, nodes, List.findSome?_eq_none_iff,
    List.mem_flatMap]
  constructor
  · intro h r hr n hn
    exact h n ⟨r, hr, hn⟩
  · rintro h n ⟨r, hr, hn⟩
    exact h r hr n hn

theorem findRule?_eq_none_iff {rules : List Rule} {name : String} :
    findRule? rules name = none ↔ name ∉ rules.map (·.name) := by
  simp [findRule?]

theorem run_noteRule (r : Rule) (earlier : List Rule) :
    (Item.noteRule (.rule r)).run earlier =
      match findRule? earlier r.name with
      | some first => .error (.duplicateRule r.name r.nameLocation first.nameLocation)
      | none => .ok ((), earlier ++ [r]) := by
  cases hr : findRule? earlier r.name <;> simp [Item.noteRule, hr] <;> rfl

/-- Of all items only the rules are noted. -/
theorem visit_noteRule : g.visit Item.noteRule = forM g.rules fun r => Item.noteRule (.rule r) := by
  have hbody (e : Expr) : e.visit (Item.noteRule ∘ .expr) = pure () := by
    rw [Expr.visit_eq_forM]
    induction e.nodes with
    | nil => rfl
    | cons n ns ih => rw [List.forM_cons, ih]; rfl
  rw [visit]
  cases g.topLevelInitializer <;> cases g.initializer <;> simp [hbody, Item.noteRule]

theorem noteRules_eq_none_iff {earlier rules : List Rule} :
    breakOf? ((forM rules fun r => Item.noteRule (.rule r)).run earlier) = none ↔
      (rules.map (·.name)).Nodup ∧
        ∀ r ∈ rules, r.name ∉ earlier.map (·.name) := by
  induction rules generalizing earlier with
  | nil => exact ⟨fun _ => by simp, fun _ => rfl⟩
  | cons r rs ih =>
      rw [List.forM_cons, StateT.run_bind, run_noteRule]
      cases hr : findRule? earlier r.name with
      | some first =>
          have hmem : r.name ∈ earlier.map (·.name) :=
            List.mem_map.mpr ⟨first, mem_of_findRule? hr, name_of_findRule? hr⟩
          simp only [breakOf?_error_bind, reduceCtorEq, false_iff, not_and]
          exact fun _ h => h r (List.mem_cons_self ..) hmem
      | none =>
          have hnot := findRule?_eq_none_iff.mp hr
          simp only [breakOf?_ok_bind, ih, List.map_append, List.map_cons, List.map_nil,
            List.mem_append, List.nodup_cons, List.mem_cons, List.not_mem_nil, or_false, not_or]
          constructor
          · rintro ⟨hnodup, h⟩
            refine ⟨⟨fun hmem => ?_, hnodup⟩, ?_⟩
            · obtain ⟨s, hs, hname⟩ := List.mem_map.mp hmem
              exact (h s hs).2 hname
            · rintro s (rfl | hs)
              · exact hnot
              · exact (h s hs).1
          · rintro ⟨⟨hr, hnodup⟩, h⟩
            exact ⟨hnodup, fun s hs => ⟨h s (.inr hs), fun hname =>
              hr (List.mem_map.mpr ⟨s, hs, hname⟩)⟩⟩

theorem duplicateRule?_eq_none_iff : g.duplicateRule? = none ↔ g.ruleNames.Nodup := by
  simp [duplicateRule?, visit_noteRule, noteRules_eq_none_iff, ruleNames]

end Grammar

end PegCompiler
