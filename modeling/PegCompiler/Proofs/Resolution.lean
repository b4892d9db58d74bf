import PegCompiler.Proofs.Completeness

/-!
# Resolution of proxies

A name resolves to the first rule that is no proxy along the chain of proxies that begins with it.
The removal of proxies puts in place of every name what it resolves to, in whatever order the rules
of a chain are declared.
-/

namespace PegCompiler

/-- Whether the chain of proxies that begins with one rule ends with another, which is no proxy. -/
inductive Resolves (rules : List Rule) : String → String → Prop where
  | here {a : String} (r : Rule) (hfind : findRule? rules a = some r) (htarget : r.target? = none) :
      Resolves rules a a
  | step {a b c : String} (r : Rule) (hfind : findRule? rules a = some r)
      (htarget : r.target? = some b) (h : Resolves rules b c) : Resolves rules a c

variable {rules : List Rule} {a b c : String}

namespace Resolves

theorem unique (hb : Resolves rules a b) (hc : Resolves rules a c) : b = c := by
  induction hb with
  | here r hfind htarget =>
      cases hc with
      | here => rfl
      | step s hfind' htarget' =>
          obtain rfl := Option.some.inj (hfind.symm.trans hfind')
          cases htarget.symm.trans htarget'
  | step r hfind htarget _ ih =>
      cases hc with
      | here s hfind' htarget' =>
          obtain rfl := Option.some.inj (hfind.symm.trans hfind')
          cases htarget.symm.trans htarget'
      | step s hfind' htarget' hrest =>
          obtain rfl := Option.some.inj (hfind.symm.trans hfind')
          obtain rfl := Option.some.inj (htarget.symm.trans htarget')
          exact ih hrest

theorem exists_findRule? (h : Resolves rules a b) :
    ∃ r, findRule? rules b = some r ∧ r.target? = none := by
  induction h with
  | here r hfind htarget => exact ⟨r, hfind, htarget⟩
  | step _ _ _ _ ih => exact ih

end Resolves

theorem Leads.resolves (hnodup : (rules.map (·.name)).Nodup) (h : Leads rules a b)
    (hlast : Resolves rules b b) : Resolves rules a b := by
  rcases h with rfl | h
  · exact hlast
  · induction h with
    | single hab =>
        obtain ⟨r, hr, rfl, htarget⟩ := hab
        exact .step r (findRule?_of_mem hnodup hr) htarget hlast
    | tail _ hac ih =>
        obtain ⟨r, hr, rfl, htarget⟩ := hac
        exact .step r (findRule?_of_mem hnodup hr) htarget ih

theorem resolves_redirect (hnodup : (rules.map (·.name)).Nodup)
    (hwf : WellFounded fun b a => Forwards rules a b) (hrefs : RefsDefined rules)
    (ha : a ∈ rules.map (·.name)) : Resolves rules a (redirect rules a) := by
  obtain ⟨r, hr, hname, htarget⟩ := exists_redirected hwf hrefs ha
  refine ((redirect_redirects hwf).leads a).resolves hnodup ?_
  rw [← hname]
  exact .here r (findRule?_of_mem hnodup hr) htarget

/-- What a redirected reference names is no proxy. -/
theorem target?_of_redirected (hnodup : (rules.map (·.name)).Nodup)
    (hwf : WellFounded fun b a => Forwards rules a b) (hrefs : RefsDefined rules)
    {isStart : String → Bool} {r : Rule} (hr : r ∈ withoutProxies isStart rules) {ref : RuleRef}
    (href : ref ∈ r.body.refs) {s : Rule} (hs : s ∈ rules) (hname : s.name = ref.name) :
    s.target? = none := by
  obtain ⟨r', hr', rfl⟩ := exists_of_mem_withoutProxies hr
  obtain ⟨ref', href', hrename⟩ := Expr.exists_ref_of_rename href
  have hmem := Inference.isDefined_iff_mem.mp (hrefs r' hr' ref' href')
  obtain ⟨last, hlast, htarget⟩ :=
    (resolves_redirect hnodup hwf hrefs hmem).exists_findRule?
  have hfind := findRule?_of_mem hnodup hs
  rw [hname, hrename, hlast] at hfind
  rw [← Option.some.inj hfind, htarget]

/-- What is left behind the checks of rules and references are the rules that are no proxies and the
start rules, in their order. All that changes in them are the names of references, each into what it
resolves to. So every reference names a rule that is left, and no proxy. -/
theorem removeProxyRules_resolves {g : Grammar} {o : Options}
    (hchecks : ∀ pass ∈
      [Pass.reportUndefinedRules, .reportDuplicateRules, .reportInfiniteRecursion],
      pass.Accepts o g) :
    ∃ resolve : String → String,
      (∀ name ∈ g.ruleNames, ∀ last, Resolves g.rules name last ↔ last = resolve name) ∧
      ∃ rules', Pass.removeProxyRules.run o g = ({ g with rules := rules' }, .ok ()) ∧
        rules' = (g.rules.filter fun r => r.target?.isNone || o.isStart r.name).map
          (Rule.rename resolve) ∧
        ∀ r ∈ rules', ∀ ref ∈ r.body.refs, ∃ s ∈ rules', s.name = ref.name ∧
          ∀ t ∈ g.rules ++ rules', t.name = ref.name → t.target? = none := by
  have hrefs : RefsDefined g.rules := Grammar.undefinedRule?_eq_none_iff.mp
    (Pass.accepts_reportUndefinedRules.mp (hchecks _ (by simp)))
  have hnodup : g.ruleNames.Nodup := Grammar.duplicateRule?_eq_none_iff.mp
    (Pass.accepts_reportDuplicateRules.mp (hchecks _ (by simp)))
  have hcalls := wellFounded_leftCalls
    (Pass.accepts_reportInfiniteRecursion.mp (hchecks _ (by simp)))
  have hwf : WellFounded fun b a => Forwards g.rules a b :=
    Subrelation.wf (fun h => h.leftCalls hnodup) hcalls
  have hresolves : ∀ name ∈ g.ruleNames, Resolves g.rules name (redirect g.rules name) :=
    fun name hname => resolves_redirect hnodup hwf hrefs hname
  refine ⟨redirect g.rules, fun name hname last => ?_, withoutProxies o.isStart g.rules,
    Pass.run_removeProxyRules o g, rfl, fun r hr ref href => ?_⟩
  · constructor
    · intro h
      exact h.unique (hresolves name hname)
    · rintro rfl
      exact hresolves name hname
  · have hdefined := refsDefined_withoutProxies hnodup hcalls hrefs r hr ref href
    obtain ⟨s, hs, hname⟩ := List.mem_map.mp (Inference.isDefined_iff_mem.mp hdefined)
    have hnot : ∀ t ∈ g.rules, t.name = ref.name → t.target? = none :=
      fun t ht htname => target?_of_redirected hnodup hwf hrefs hr href ht htname
    refine ⟨s, hs, hname, fun t ht htname => ?_⟩
    rcases List.mem_append.mp ht with ht | ht
    · exact hnot t ht htname
    · obtain ⟨t', ht', rfl⟩ := exists_of_mem_withoutProxies ht
      rw [Rule.target?_rename, hnot t' ht' htname, Option.map_none]

open Build in
/-- A chain of proxies, the last link of which is declared first. -/
def aliases : Grammar :=
  grammar
    [rule "b" (ruleRef "c"),
      rule "start" (choice [ruleRef "a", sequence [ruleRef "b", ruleRef "c"]]),
      rule "a" (ruleRef "b"),
      rule "other" (ruleRef "a"),
      rule "c" (literal "x")]

theorem aliases_resolve :
    (∀ pass ∈ [Pass.reportUndefinedRules, .reportDuplicateRules, .reportInfiniteRecursion],
      pass.Accepts ⟨some ["start", "other"], hostKeywords⟩ aliases) ∧
    ∃ resolve : String → String, resolve "a" = "c" ∧
      (Pass.removeProxyRules.run ⟨some ["start", "other"], hostKeywords⟩ aliases).1.rules =
        [Build.rule "start" (Build.choice [Build.ruleRef "c",
            Build.sequence [Build.ruleRef "c", Build.ruleRef "c"]]),
          Build.rule "other" (Build.ruleRef "c"),
          Build.rule "c" (Build.literal "x")] := by
  have hchecks : ∀ pass ∈ [Pass.reportUndefinedRules, .reportDuplicateRules,
      .reportInfiniteRecursion], pass.Accepts ⟨some ["start", "other"], hostKeywords⟩ aliases := by
    decide +kernel
  obtain ⟨resolve, hresolve, -⟩ := removeProxyRules_resolves hchecks
  have hlast : Resolves aliases.rules "c" "c" := .here _ rfl rfl
  have ha : Resolves aliases.rules "a" "c" := .step _ rfl rfl (.step _ rfl rfl hlast)
  refine ⟨hchecks, resolve, ((hresolve "a" (by decide) "c").mp ha).symm, ?_⟩
  rfl

end PegCompiler
