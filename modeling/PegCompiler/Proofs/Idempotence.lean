import Mathlib.Order.WellFounded
import PegCompiler.Proofs.Resolution
import PegCompiler.Proofs.Revision

/-!
# Compiled grammars are compiled already

What the passes leave behind is a revision of the rules that stay, and none of them has anything to
do when it is met again. The references name no proxies any more, so those that are left as start
rules stand in nobody's way; every rule has its outcome; and code depends on bodies alone. That the
checks accept the revision rests on two facts: a redirected reference consumes if the old one did,
and a left call of a revised rule is a chain of left calls by way of proxies.
-/

namespace PegCompiler

open Relation

/-! ## Left recursion -/

section LeftRecursion

variable {rules : List Rule}

/-- Without an endless descent the search finds no left recursion: whatever it meets has been called
by all rules that it entered. -/
theorem leftRecursionFrom?_eq_none (hwf : WellFounded fun b a => LeftCalls rules a b)
    {path : List String} {steps refs : List RuleRef}
    (h : ∀ a ∈ path, ∀ ref ∈ refs, TransGen (fun b a => LeftCalls rules a b) ref.name a) :
    leftRecursionFrom? rules path steps refs = none := by
  fun_induction leftRecursionFrom? rules path steps refs with
  | case1 path steps refs ih =>
      rw [List.findSome?_eq_none_iff]
      intro ref href
      split
      · rfl
      · next r hr =>
          split
          · next hpath => exact absurd (h _ hpath ref href) (hwf.transGen.irrefl.irrefl _)
          · next hpath =>
              refine ih ref r hr hpath fun a ha next hnext => ?_
              have hcall : LeftCalls rules ref.name next.name := ⟨r, hr, next, hnext, rfl⟩
              rcases List.mem_append.mp ha with ha | ha
              · exact .head hcall (h a ha ref href)
              · obtain rfl := List.mem_singleton.mp ha
                exact .single hcall

theorem Grammar.leftRecursion?_eq_none_iff {g : Grammar} (hnodup : g.ruleNames.Nodup) :
    g.leftRecursion? = none ↔ WellFounded fun b a => LeftCalls g.rules a b := by
  constructor
  · exact wellFounded_leftCalls
  · intro hwf
    rw [leftRecursion?, List.findSome?_eq_none_iff]
    intro r hr
    refine leftRecursionFrom?_eq_none hwf fun a ha ref href => ?_
    obtain rfl := List.mem_singleton.mp ha
    exact .single ⟨r, findRule?_of_mem hnodup hr, ref, href, rfl⟩

end LeftRecursion

/-! ## Redirects -/

section Redirects

variable {rules : List Rule} {name : String} {r : Rule} (hnodup : (rules.map (·.name)).Nodup)
  (hwf : WellFounded fun b a => LeftCalls rules a b) (hrefs : RefsDefined rules)

include hnodup hwf

theorem wellFounded_forwards : WellFounded fun b a => Forwards rules a b :=
  Subrelation.wf (fun h => h.leftCalls hnodup) hwf

include hrefs

theorem redirect_eq_self (hr : findRule? rules name = some r) (htarget : r.target? = none) :
    redirect rules name = name := by
  have hname : name ∈ rules.map (·.name) :=
    List.mem_map.mpr ⟨r, mem_of_findRule? hr, name_of_findRule? hr⟩
  exact (resolves_redirect hnodup (wellFounded_forwards hnodup hwf) hrefs hname).unique
    (.here r hr htarget)

/-- A proxy is redirected to where its target is. -/
theorem redirect_eq_redirect {target : String} (hr : findRule? rules name = some r)
    (htarget : r.target? = some target) : redirect rules name = redirect rules target := by
  have hname : name ∈ rules.map (·.name) :=
    List.mem_map.mpr ⟨r, mem_of_findRule? hr, name_of_findRule? hr⟩
  have hforwards : Forwards rules name target :=
    ⟨r, mem_of_findRule? hr, name_of_findRule? hr, htarget⟩
  have hlast := resolves_redirect hnodup (wellFounded_forwards hnodup hwf) hrefs
    (hforwards.mem_names hrefs)
  exact (resolves_redirect hnodup (wellFounded_forwards hnodup hwf) hrefs hname).unique
    (.step r hr htarget hlast)

end Redirects

/-! ## Revised rules -/

/-- Whether `s` is the rule `r` with other outcomes and code and with renamed references. -/
def Rule.Revises (f : String → String) (r s : Rule) : Prop :=
  s.name = r.name ∧ ∃ m, s.body = r.body.revise m f

theorem Rule.Revises.target?_eq {f : String → String} {r s : Rule} (h : r.Revises f s) :
    s.target? = r.target?.map f := by
  obtain ⟨-, m, hbody⟩ := h
  rw [target?, target?, hbody]
  cases r.body with
  | leaf t l => cases l <;> rfl
  | _ => rfl

/-- Whether the rules are what the passes leave of others: those that stay, redirected, and with
their outcomes known. -/
structure Transformed (isStart : String → Bool) (rules rules' : List Rule) : Prop where
  names : rules'.map (·.name) = (lastingRules isStart rules).map (·.name)
  source : ∀ s ∈ rules', ∃ r ∈ lastingRules isStart rules, r.Revises (redirect rules) s
  settled : ∀ s ∈ rules', s.outcome.isSome

namespace Transformed

section Accepted

variable {isStart : String → Bool} {rules rules' : List Rule} (h : Transformed isStart rules rules')
  (hnodup : (rules.map (·.name)).Nodup)

include h hnodup

theorem nodup : (rules'.map (·.name)).Nodup := by
  rw [h.names]
  exact hnodup.sublist (List.filter_sublist.map _)

/-- A rule that stays is still found under its name. -/
theorem exists_revised {name : String} {r : Rule} (hr : findRule? rules name = some r)
    (hlasts : r.lasts isStart) :
    ∃ s, findRule? rules' name = some s ∧ r.Revises (redirect rules) s := by
  have hmem : r ∈ lastingRules isStart rules := List.mem_filter.mpr ⟨mem_of_findRule? hr, hlasts⟩
  have hname : name ∈ rules'.map (·.name) := by
    rw [h.names]
    exact List.mem_map.mpr ⟨r, hmem, name_of_findRule? hr⟩
  obtain ⟨s, hs, rfl⟩ := List.mem_map.mp hname
  obtain ⟨r', hr', hrevises⟩ := h.source s hs
  have hfind := findRule?_of_mem hnodup (List.mem_filter.mp hr').1
  rw [← hrevises.1, hr] at hfind
  obtain rfl := Option.some.inj hfind
  exact ⟨s, findRule?_of_mem (h.nodup hnodup) hs, hrevises⟩

/-- What is found under a name was found there before. -/
theorem exists_source_of_findRule? {name : String} {s : Rule}
    (hs : findRule? rules' name = some s) :
    ∃ r, findRule? rules name = some r ∧ r.Revises (redirect rules) s := by
  obtain ⟨r, hr, hrevises⟩ := h.source s (mem_of_findRule? hs)
  refine ⟨r, ?_, hrevises⟩
  rw [← name_of_findRule? hs, hrevises.1]
  exact findRule?_of_mem hnodup (List.mem_filter.mp hr).1

variable (hwf : WellFounded fun b a => LeftCalls rules a b) (hrefs : RefsDefined rules)

include hwf hrefs

/-- What is named in place of a reference is a rule that is left and no proxy. -/
theorem exists_redirected {name : String} (hname : name ∈ rules.map (·.name)) :
    ∃ s, findRule? rules' (redirect rules name) = some s ∧ s.target? = none := by
  obtain ⟨r, hr, hrname, htarget⟩ :=
    PegCompiler.exists_redirected (wellFounded_forwards hnodup hwf) hrefs hname
  have hfind := findRule?_of_mem hnodup hr
  rw [hrname] at hfind
  obtain ⟨s, hs, hrevises⟩ := h.exists_revised hnodup hfind (by simp [Rule.lasts, htarget])
  exact ⟨s, hs, by rw [hrevises.target?_eq, htarget, Option.map_none]⟩

theorem exists_of_ref {s : Rule} (hs : s ∈ rules') {ref : RuleRef} (href : ref ∈ s.body.refs) :
    ∃ t, findRule? rules' ref.name = some t ∧ t.target? = none := by
  obtain ⟨r, hr, -, m, hbody⟩ := h.source s hs
  rw [hbody, Expr.refs_revise] at href
  obtain ⟨ref', href', rfl⟩ := List.mem_map.mp href
  exact h.exists_redirected hnodup hwf hrefs
    (Inference.isDefined_iff_mem.mp (hrefs r (List.mem_filter.mp hr).1 ref' href'))

theorem refsDefined : RefsDefined rules' := by
  intro s hs ref href
  obtain ⟨t, ht, -⟩ := h.exists_of_ref hnodup hwf hrefs hs href
  rw [RuleRef.isDefined, ht]
  rfl

/-- What a reference leads to consumes if it did before. A proxy consumes when its target does, and
is redirected to where that one is. -/
theorem ruleConsumes_redirect {name : String} (hc : ruleConsumes rules name) :
    ruleConsumes rules' (redirect rules name) := by
  refine of_ruleConsumes (k := ruleConsumes rules' ∘ redirect rules) (fun name r hr hbody => ?_)
    (fun _ _ h => h) hc
  cases htarget : r.target? with
  | none =>
      obtain ⟨s, hs, -, m, hsbody⟩ :=
        h.exists_revised hnodup hr (by simp [Rule.lasts, htarget])
      have hvalue : ruleConsumes rules' name = s.body.consumes rules' := by
        rw [ruleConsumes_eq, ruleValue, hs]
      rw [Function.comp_apply, redirect_eq_self hnodup hwf hrefs hr htarget, hvalue, Expr.consumes,
        hsbody, Expr.consumesGiven_revise]
      exact hbody
  | some target =>
      obtain ⟨t, ht⟩ := exists_ref_of_target? htarget
      rw [ht] at hbody
      rw [Function.comp_apply, redirect_eq_redirect hnodup hwf hrefs hr htarget]
      exact hbody

/-- A left call leads to where a chain of left calls led: the old call and proxies behind it. -/
theorem transGen_of_leftCalls {a b : String} (hcall : LeftCalls rules' a b) :
    TransGen (fun b a => LeftCalls rules a b) b a := by
  obtain ⟨s, hs, ref, href, rfl⟩ := hcall
  obtain ⟨r, hr, -, m, hbody⟩ := h.exists_source_of_findRule? hnodup hs
  rw [hbody] at href
  obtain ⟨ref', href', hname⟩ := Expr.exists_leftRef_of_revise
    (fun _ => h.ruleConsumes_redirect hnodup hwf hrefs) href
  have hfirst : LeftCalls rules a ref'.name := ⟨r, hr, ref', href', rfl⟩
  rw [hname]
  rcases (redirect_redirects (wellFounded_forwards hnodup hwf)).leads ref'.name with heq | hleads
  · rw [← heq]
    exact .single hfirst
  · have hcalls : ∀ b a, Forwards rules a b → LeftCalls rules a b :=
      fun _ _ hforwards => hforwards.leftCalls hnodup
    exact (TransGen.mono hcalls _ _ hleads).tail hfirst

theorem wellFounded_leftCalls : WellFounded fun b a => LeftCalls rules' a b :=
  Subrelation.wf (fun hcall => h.transGen_of_leftCalls hnodup hwf hrefs hcall) hwf.transGen

/-! ### Nothing left to do -/

theorem withoutProxies_eq_self : withoutProxies isStart rules' = rules' := by
  have hlasting : lastingRules isStart rules' = rules' := by
    rw [lastingRules, List.filter_eq_self]
    intro s hs
    obtain ⟨r, hr, hrevises⟩ := h.source s hs
    have hlasts := (List.mem_filter.mp hr).2
    rw [Rule.lasts] at hlasts ⊢
    rwa [hrevises.1, hrevises.target?_eq, Option.isNone_map]
  rw [withoutProxies, hlasting]
  refine (List.map_congr_left fun s hs => ?_).trans (List.map_id _)
  have hbody : s.body.rename (redirect rules') = s.body := by
    refine Expr.rename_eq_self fun ref href => ?_
    obtain ⟨t, ht, htarget⟩ := h.exists_of_ref hnodup hwf hrefs hs href
    exact redirect_eq_self (h.nodup hnodup) (h.wellFounded_leftCalls hnodup hwf hrefs)
      (h.refsDefined hnodup hwf hrefs) ht htarget
  rw [Rule.rename, hbody]
  rfl

end Accepted

end Transformed

theorem Inference.inferRules_of_settled {rules : List Rule} (h : ∀ r ∈ rules, r.outcome.isSome)
    {is : List Nat} (his : ∀ i ∈ is, i < rules.length) :
    inferRules is rules = (rules, .ok ()) := by
  induction is with
  | nil => rfl
  | cons i is ih =>
      obtain ⟨hi, his⟩ := List.forall_mem_cons.mp his
      obtain ⟨o, ho⟩ := Option.isSome_iff_exists.mp (h _ (List.getElem_mem hi))
      have hat : outcomeAt? rules i = some o := by
        rw [outcomeAt?, List.getElem?_eq_getElem hi, Option.bind_some, ho]
      rw [inferRules, inferRule_of_some hat]
      exact ih his

/-- Inference leaves alone what it knows. -/
theorem inferOutcomes_of_settled {rules : List Rule} (h : ∀ r ∈ rules, r.outcome.isSome) :
    inferOutcomes rules = (rules, .ok ()) :=
  Inference.inferRules_of_settled h fun _ hi => List.mem_range.mp hi

/-- Code and constants depend on bodies only. -/
theorem Grammar.assembled_assembled (g : Grammar) : g.assembled.assembled = g.assembled := by
  have hconstants : ruleConstants g.assembled.rules = ruleConstants g.rules := by
    rw [ruleConstants, ruleSymbols, assembled, PegCompiler.assembled, List.flatMap_map]
    rfl
  have hrules : PegCompiler.assembled (ruleConstants g.rules) g.assembled.rules =
      g.assembled.rules := by
    rw [PegCompiler.assembled]
    exact (List.map_congr_left fun s hs => by
      obtain ⟨r, -, rfl⟩ := List.mem_map.mp hs
      rw [assembled, names_assembled]
      rfl).trans (List.map_id _)
  rw [assembled, hconstants, hrules]
  rfl

/-! ## The passes, twice -/

section Running

variable {o o' : Options} {g g' : Grammar}

theorem accepts_of_runPasses {passes rest : List Pass}
    (hkeeps : ∀ pass ∈ passes, (pass.run o g).1 = g)
    (h : runPasses o g (passes ++ rest) = .ok g') :
    (∀ pass ∈ passes, pass.Accepts o g) ∧ runPasses o g rest = .ok g' := by
  induction passes with
  | nil => exact ⟨by simp, h⟩
  | cons pass passes ih =>
      obtain ⟨hkeep, hkeeps⟩ := List.forall_mem_cons.mp hkeeps
      rw [List.cons_append, runPasses] at h
      split at h
      · next g₁ found hrun =>
          rw [hrun] at hkeep
          obtain rfl : g₁ = g := hkeep
          obtain ⟨haccepts, hrest⟩ := ih hkeeps h
          have hpass : pass.Accepts o g₁ := by
            rw [Pass.Accepts, hrun]
          exact ⟨List.forall_mem_cons.mpr ⟨hpass, haccepts⟩, hrest⟩
      · cases h

theorem Options.validate_eq_ok_iff :
    o.validate g = .ok o' ↔ ∃ first rest, g.rules = first :: rest ∧
      o' = { o with startRules := some (o.startRules.getD [first.name]) } ∧ o'.starts ≠ [] ∧
        ∀ name ∈ o'.starts, name ∈ g.ruleNames := by
  cases hrules : g.rules with
  | nil => simp [validate, hrules]
  | cons first rest =>
      have hfound {starts : List String} :
          starts.find? (· ∉ g.ruleNames) = none ↔ ∀ name ∈ starts, name ∈ g.ruleNames := by
        simp
      simp only [validate, hrules]
      constructor
      · intro h
        split at h
        · cases h
        · next hsome =>
            split at h
            · cases h
            · next hnone =>
                obtain rfl := Except.ok.inj h
                exact ⟨first, rest, rfl, rfl, by simpa [starts] using hsome, hfound.mp hnone⟩
      · rintro ⟨first', rest', hcons, rfl, hsome, hmem⟩
        obtain ⟨rfl, rfl⟩ := List.cons.inj hcons
        have hnone := hfound.mpr hmem
        rw [starts, Option.getD_some] at hnone
        rw [if_neg (by simpa [starts] using hsome), hnone]

end Running

section Compiled

variable {o o' : Options} {g g' : Grammar}

/-- What a compilation was made of: the checks accept the grammar, and what is left of it has been
transformed and has code that the last pass accepts. -/
structure Grammar.CompilesTo (o : Options) (g g' : Grammar) : Prop where
  checks : ∀ pass ∈ Passes.standard.check, pass.Accepts o g
  transformed : Transformed o.isStart g.rules g'.rules
  assembled : g'.assembled = g'
  verified : g'.unlisted? = none

theorem transformed_of_progress {isStart : String → Bool} {rules rules' : List Rule}
    (h : Inference.Progress (withoutProxies isStart rules) rules')
    (hsome : ∀ r ∈ rules', r.outcome.isSome) : Transformed isStart rules rules' := by
  refine ⟨h.names.trans names_withoutProxies, fun s hs => ?_, hsome⟩
  obtain ⟨r', hr', hstep⟩ := h.exists_source hs
  rw [withoutProxies] at hr'
  obtain ⟨r, hr, rfl⟩ := List.mem_map.mp hr'
  refine ⟨r, hr, ?_⟩
  rcases hstep with rfl | ⟨-, k, -, rfl⟩
  · exact ⟨rfl, _, r.body.rename_eq_revise _⟩
  · exact ⟨rfl, _, Expr.annotate_rename_eq_revise k _ r.body⟩

theorem Transformed.assembled {isStart : String → Bool} {rules rules' : List Rule}
    (h : Transformed isStart rules rules') (c : Constants) :
    Transformed isStart rules (assembled c rules') := by
  constructor
  · rw [names_assembled, h.names]
  · intro s hs
    obtain ⟨s', hs', rfl⟩ := List.mem_map.mp hs
    exact h.source s' hs'
  · intro s hs
    obtain ⟨s', hs', rfl⟩ := List.mem_map.mp hs
    exact h.settled s' hs'

theorem compilesTo_of_runPasses (h : runPasses o g Passes.standard.toList = .ok g') :
    g.CompilesTo o g' := by
  have hall : Passes.standard.toList = Passes.standard.check ++
      (Passes.standard.transform ++ [.generateBytecode] ++ [.verifyBytecode]) := rfl
  rw [hall] at h
  obtain ⟨hchecks, h⟩ := accepts_of_runPasses (fun _ hpass => Pass.fst_run_of_check hpass) h
  have hrefs : RefsDefined g.rules := Grammar.undefinedRule?_eq_none_iff.mp
    (Pass.accepts_reportUndefinedRules.mp (hchecks _ (by simp [Passes.standard])))
  have hnodup : g.ruleNames.Nodup := Grammar.duplicateRule?_eq_none_iff.mp
    (Pass.accepts_reportDuplicateRules.mp (hchecks _ (by simp [Passes.standard])))
  have hwf := wellFounded_leftCalls
    (Pass.accepts_reportInfiniteRecursion.mp (hchecks _ (by simp [Passes.standard])))
  obtain ⟨rules', hprog, hsome, hrun⟩ := Grammar.exists_transformed o hnodup hwf hrefs
  rw [runPasses_append_of_ok hrun] at h
  have hkeeps : ∀ pass ∈ [Pass.verifyBytecode],
      (pass.run o (Grammar.assembled { g with rules := rules' })).1 =
        Grammar.assembled { g with rules := rules' } := by
    simp [Pass.run, Pass.fst_check]
  obtain ⟨hverified, hg'⟩ := accepts_of_runPasses hkeeps h
  obtain rfl := Except.ok.inj hg'
  exact ⟨hchecks, (transformed_of_progress hprog hsome).assembled _, Grammar.assembled_assembled _,
    Pass.check_eq_ok_iff.mp (hverified _ (List.mem_singleton_self _))⟩

namespace Grammar.CompilesTo

variable (h : g.CompilesTo o g')

include h

theorem names_nodup : g.ruleNames.Nodup :=
  duplicateRule?_eq_none_iff.mp
    (Pass.accepts_reportDuplicateRules.mp (h.checks _ (by simp [Passes.standard])))

theorem refsDefined : RefsDefined g.rules :=
  undefinedRule?_eq_none_iff.mp
    (Pass.accepts_reportUndefinedRules.mp (h.checks _ (by simp [Passes.standard])))

theorem wellFounded : WellFounded fun b a => LeftCalls g.rules a b :=
  wellFounded_leftCalls
    (Pass.accepts_reportInfiniteRecursion.mp (h.checks _ (by simp [Passes.standard])))

theorem refsDefined' : RefsDefined g'.rules :=
  h.transformed.refsDefined h.names_nodup h.wellFounded h.refsDefined

/-- What a check finds in no rule it finds in no revision, when it finds nothing in the revision of
a rule without defects. -/
theorem findSome?_eq_none {find find' : Rule → Option Defect}
    (hfind : ∀ r s, r.Revises (redirect g.rules) s → find r = none → find' s = none)
    (hnone : g.rules.findSome? find = none) : g'.rules.findSome? find' = none := by
  rw [List.findSome?_eq_none_iff] at hnone ⊢
  intro s hs
  obtain ⟨r, hr, hrevises⟩ := h.transformed.source s hs
  exact hfind r s hrevises (hnone r (List.mem_filter.mp hr).1)

theorem findInExprs?_eq_none {find find' : Expr → Option Defect}
    (hfind : ∀ m n, find n = none → find' (n.revise m (redirect g.rules)) = none)
    (hnone : g.findInExprs? find = none) : g'.findInExprs? find' = none := by
  rw [findInExprs?_eq, List.findSome?_eq_none_iff] at hnone ⊢
  intro n' hn'
  obtain ⟨s, hs, hn'⟩ := List.mem_flatMap.mp hn'
  obtain ⟨r, hr, -, m, hbody⟩ := h.transformed.source s hs
  rw [hbody, Expr.nodes_revise] at hn'
  obtain ⟨n, hn, rfl⟩ := List.mem_map.mp hn'
  exact hfind m n (hnone n (List.mem_flatMap.mpr ⟨r, (List.mem_filter.mp hr).1, hn⟩))

theorem duplicateLabel?_eq_none : g'.duplicateLabel? = none := by
  refine h.findSome?_eq_none (fun r s hrevises hnone => ?_)
    (Pass.check_eq_ok_iff.mp (h.checks .reportDuplicateLabels (by simp [Passes.standard])))
  obtain ⟨-, m, hbody⟩ := hrevises
  rw [Rule.duplicateLabel?, hbody, Expr.labelScope_revise]
  exact hnone

theorem reservedLabel?_eq_none : g'.reservedLabel? o.reservedWords = none :=
  h.findInExprs?_eq_none (fun m n hnone => by rwa [Expr.reservedLabel?_revise])
    (Pass.check_eq_ok_iff.mp (h.checks .reportReservedLabels (by simp [Passes.standard])))

theorem endlessRepetition?_eq_none : g'.endlessRepetition? = none :=
  h.findInExprs?_eq_none
    (fun m n hnone => Expr.endlessRepetition?_revise (fun _ =>
      h.transformed.ruleConsumes_redirect h.names_nodup h.wellFounded h.refsDefined) hnone)
    (Pass.check_eq_ok_iff.mp (h.checks .reportInfiniteRepetition (by simp [Passes.standard])))

theorem pluckInAction?_eq_none : g'.pluckInAction? = none := by
  refine h.findSome?_eq_none (fun r s hrevises hnone => ?_)
    (Pass.check_eq_ok_iff.mp (h.checks .reportIncorrectPlucking (by simp [Passes.standard])))
  obtain ⟨-, m, hbody⟩ := hrevises
  rw [hbody, Expr.pluckInAction?_revise]
  exact hnone

theorem leftRecursion?_eq_none : g'.leftRecursion? = none :=
  (leftRecursion?_eq_none_iff (h.transformed.nodup h.names_nodup)).mpr
    (h.transformed.wellFounded_leftCalls h.names_nodup h.wellFounded h.refsDefined)

/-- No pass changes what has been compiled, and none finds a defect in it. -/
theorem run_eq_self {pass : Pass} (hpass : pass ∈ Passes.standard.toList) :
    pass.run o g' = (g', .ok ()) := by
  simp only [Passes.toList, Passes.standard, List.cons_append, List.nil_append, List.mem_cons,
    List.not_mem_nil, or_false] at hpass
  rcases hpass with rfl | rfl | rfl | rfl | rfl | rfl | rfl | rfl | rfl | rfl | rfl
  · rw [Pass.run, undefinedRule?_eq_none_iff.mpr h.refsDefined', Pass.check]
  · rw [Pass.run, duplicateRule?_eq_none_iff.mpr (h.transformed.nodup h.names_nodup), Pass.check]
  · rw [Pass.run, h.duplicateLabel?_eq_none, Pass.check]
  · rw [Pass.run, h.reservedLabel?_eq_none, Pass.check]
  · rw [Pass.run, h.leftRecursion?_eq_none, Pass.check]
  · rw [Pass.run, h.endlessRepetition?_eq_none, Pass.check]
  · rw [Pass.run, h.pluckInAction?_eq_none, Pass.check]
  · rw [Pass.run_removeProxyRules,
      h.transformed.withoutProxies_eq_self h.names_nodup h.wellFounded h.refsDefined]
  · rw [Pass.run, inferOutcomes_of_settled h.transformed.settled]
  · rw [Pass.run, generate_of_refsDefined h.refsDefined', h.assembled]
  · rw [Pass.run, h.verified, Pass.check]

theorem runPasses_eq_self : runPasses o g' Passes.standard.toList = .ok g' :=
  runPasses_of_accepts (fun _ hpass => congrArg Prod.fst (h.run_eq_self hpass))
    fun _ hpass => congrArg Prod.snd (h.run_eq_self hpass)

/-- The start rules are completed as they were: the first rule is a start rule when they are unset,
and stays the first. -/
theorem validate_eq {o₀ : Options} (hoptions : o₀.validate g = .ok o) :
    o₀.validate g' = .ok o := by
  obtain ⟨first, rest, hrules, ho, hsome, hmem⟩ := Options.validate_eq_ok_iff.mp hoptions
  have hnames : ∀ name ∈ o.starts, name ∈ g'.ruleNames := by
    intro name hname
    have hstart : name ∈ (withoutProxies o.isStart g.rules).map (·.name) :=
      start_mem_withoutProxies (hmem name hname) (decide_eq_true hname)
    rwa [names_withoutProxies, ← h.transformed.names] at hstart
  have hfirst : ∃ first' rest', g'.rules = first' :: rest' ∧
      o₀.startRules.getD [first'.name] = o₀.startRules.getD [first.name] := by
    cases hunset : o₀.startRules with
    | some starts =>
        obtain ⟨name, hname⟩ := List.exists_mem_of_ne_nil _ hsome
        obtain ⟨first', rest', hrules'⟩ := List.exists_cons_of_ne_nil (l := g'.rules) fun hnil => by
          simpa [Grammar.ruleNames, hnil] using hnames name hname
        exact ⟨first', rest', hrules', rfl⟩
    | none =>
        have hstart : first.lasts o.isStart := by
          simp [Rule.lasts, Options.isStart, Options.starts, ho, hunset]
        have hnames' := h.transformed.names
        rw [hrules, lastingRules, List.filter_cons_of_pos hstart, List.map_cons] at hnames'
        obtain ⟨first', rest', hrules', hname, -⟩ := List.map_eq_cons_iff.mp hnames'
        exact ⟨first', rest', hrules', by rw [hname]⟩
  obtain ⟨first', rest', hrules', hstarts⟩ := hfirst
  exact Options.validate_eq_ok_iff.mpr ⟨first', rest', hrules', hstarts ▸ ho, hsome, hnames⟩

end Grammar.CompilesTo

theorem compilesTo_of_compile {o : Options} (h : compile g .standard o = .ok g') :
    ∃ o', o.validate g = .ok o' ∧ g.CompilesTo o' g' := by
  rw [compile] at h
  split at h
  · cases h
  · next o' hoptions =>
      split at h
      · cases h
      · next g₁ hrun =>
          obtain rfl : g₁ = g' := Except.ok.inj h
          exact ⟨o', hoptions, compilesTo_of_runPasses hrun⟩

/-- To compile what was compiled changes nothing. -/
theorem compile_idempotent (h : compile g .standard o = .ok g') :
    compile g' .standard o = .ok g' := by
  obtain ⟨o', hoptions, hcompiled⟩ := compilesTo_of_compile h
  exact compile_of_runPasses (hcompiled.validate_eq hoptions) hcompiled.runPasses_eq_self

open Build in
/-- A start rule that is a proxy, behind another one that goes. -/
def negations : Grammar :=
  grammar
    [rule "start" (ruleRef "number"),
      rule "number" (ruleRef "value"),
      rule "value" (choice [action (sequence [literal "-", labeled "n" (ruleRef "number")])
        "return -n;", oneOrMore (ruleRef "digit")]),
      rule "digit" (charClass [.range '0' '9'] false false)]

theorem negations_compile_twice :
    ∃ g', compile negations .standard .standard = .ok g' ∧
      g'.ruleNames = ["start", "value", "digit"] ∧ g'.constants.isSome ∧
        compile g' .standard .standard = .ok g' := by
  have hcompiled : (compile negations .standard .standard).toOption.map
      (fun g => (g.ruleNames, g.constants.isSome)) = some (["start", "value", "digit"], true) := by
    decide +kernel
  obtain ⟨g', hg', hmap⟩ := Option.map_eq_some_iff.mp hcompiled
  obtain ⟨hnames, hconstants⟩ := Prod.mk.inj hmap
  have hok := eq_ok_of_toOption hg'
  exact ⟨g', hok, hnames, hconstants, compile_idempotent hok⟩

end Compiled

end PegCompiler
