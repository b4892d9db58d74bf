import PegCompiler.Proofs.Renaming
import PegCompiler.Proofs.Settling
import PegCompiler.Proofs.Termination

/-!
# Removal of proxies

References are redirected along chains of proxies. Without left recursion no chain comes back to a
proxy, so once all proxies were taken no reference names one of them: what is removed is not needed
any more. Rules that can be started from stay.
-/

namespace PegCompiler

open Relation

/-- Whether a proxy named `a` refers to `b`. -/
def Forwards (rules : List Rule) (a b : String) : Prop :=
  ∃ r ∈ rules, r.name = a ∧ r.target? = some b

theorem findRule?_of_mem {rules : List Rule} (hnodup : (rules.map (·.name)).Nodup) {r : Rule}
    (hr : r ∈ rules) : findRule? rules r.name = some r := by
  induction rules with
  | nil => cases hr
  | cons s rs ih =>
      obtain ⟨hs, hnodup⟩ := List.nodup_cons.mp hnodup
      rcases List.mem_cons.mp hr with rfl | hr
      · simp [findRule?]
      · have hne : s.name ≠ r.name := by
          intro heq
          exact hs (List.mem_map.mpr ⟨r, hr, heq.symm⟩)
        have hrest := ih hnodup hr
        simpa [findRule?, hne] using hrest

section Chains

variable {rules : List Rule} {a b : String}

theorem exists_ref_of_target? {r : Rule} (h : r.target? = some b) :
    ∃ t, r.body = .leaf t (.ruleRef b) := by
  unfold Rule.target? at h
  split at h
  · next t name hbody =>
      obtain rfl := Option.some.inj h
      exact ⟨t, hbody⟩
  · cases h

theorem Forwards.leftCalls (hnodup : (rules.map (·.name)).Nodup) (h : Forwards rules a b) :
    LeftCalls rules a b := by
  obtain ⟨r, hr, rfl, htarget⟩ := h
  obtain ⟨t, hbody⟩ := exists_ref_of_target? htarget
  refine ⟨r, findRule?_of_mem hnodup hr, ⟨b, t.location⟩, ?_, rfl⟩
  simp [hbody, Expr.leftRefs]

theorem Forwards.mem_names (hrefs : RefsDefined rules) (h : Forwards rules a b) :
    b ∈ rules.map (·.name) := by
  obtain ⟨r, hr, -, htarget⟩ := h
  obtain ⟨t, hbody⟩ := exists_ref_of_target? htarget
  have href : (⟨b, t.location⟩ : RuleRef) ∈ r.body.refs := by
    simp [hbody, Expr.refs, Expr.nodes, Expr.ref?]
  exact Inference.isDefined_iff_mem.mp (hrefs r hr _ href)

/-- Whether a chain of proxies leads from `a` to `b`. -/
def Leads (rules : List Rule) (a b : String) : Prop :=
  a = b ∨ TransGen (fun b a => Forwards rules a b) b a

theorem Leads.mem_names (hrefs : RefsDefined rules) (h : Leads rules a b)
    (ha : a ∈ rules.map (·.name)) : b ∈ rules.map (·.name) := by
  rcases h with rfl | h
  · exact ha
  · clear ha
    induction h with
    | single h => exact h.mem_names hrefs
    | tail _ _ ih => exact ih

theorem Leads.trans_forwards {c d : String} (h : Leads rules a b) (hbc : Forwards rules b c)
    (hcd : Leads rules c d) : TransGen (fun b a => Forwards rules a b) d a := by
  have hbd : TransGen (fun b a => Forwards rules a b) d b := by
    rcases hcd with rfl | hcd
    · exact .single hbc
    · exact hcd.trans (.single hbc)
  rcases h with rfl | h
  · exact hbd
  · exact hbd.trans h

/-- No chain of proxies comes back to where it began. -/
theorem not_leads_back (hwf : WellFounded fun b a => Forwards rules a b) :
    ¬TransGen (fun b a => Forwards rules a b) a a := by
  intro h
  induction a using hwf.transGen.induction with
  | _ a ih => exact ih a h h

end Chains

section Redirecting

variable {rules : List Rule}

/-- What a redirect does once the proxies in `taken` were taken. -/
structure Redirects (rules taken : List Rule) (f : String → String) : Prop where
  leads : ∀ name, Leads rules name (f name)
  avoids : ∀ r ∈ taken, r.target?.isSome → ∀ name, f name ≠ r.name

theorem Redirects.step (hwf : WellFounded fun b a => Forwards rules a b) {taken : List Rule}
    {f : String → String} (h : Redirects rules taken f) {r : Rule} (hr : r ∈ rules) :
    Redirects rules (taken ++ [r]) (redirectTo f r) := by
  cases htarget : r.target? with
  | none =>
      have hsame : redirectTo f r = f := by
        rw [redirectTo, htarget]
      rw [hsame]
      refine ⟨h.leads, fun s hs hsome => ?_⟩
      rcases List.mem_append.mp hs with hs | hs
      · exact h.avoids s hs hsome
      · obtain rfl := List.mem_singleton.mp hs
        simp [htarget] at hsome
  | some target =>
      have hforwards : Forwards rules r.name target := ⟨r, hr, rfl, htarget⟩
      have hne : f target ≠ r.name := by
        intro heq
        have hback := Leads.trans_forwards (.inl rfl) hforwards (h.leads target)
        rw [heq] at hback
        exact not_leads_back hwf hback
      have hredirect : ∀ name,
          redirectTo f r name = if f name = r.name then f target else f name := by
        intro name
        rw [redirectTo, htarget]
      constructor
      · intro name
        rw [hredirect]
        split
        · next hname =>
            have hleads := h.leads name
            rw [hname] at hleads
            exact .inr (hleads.trans_forwards hforwards (h.leads target))
        · exact h.leads name
      · intro s hs hsome name
        rw [hredirect]
        rcases List.mem_append.mp hs with hs | hs
        · split
          · exact h.avoids s hs hsome target
          · exact h.avoids s hs hsome name
        · obtain rfl := List.mem_singleton.mp hs
          split
          · exact hne
          · assumption

theorem Redirects.foldl (hwf : WellFounded fun b a => Forwards rules a b) {taken left : List Rule}
    {f : String → String} (h : Redirects rules taken f) (hleft : ∀ r ∈ left, r ∈ rules) :
    Redirects rules (taken ++ left) (left.foldl redirectTo f) := by
  induction left generalizing taken f with
  | nil => simpa using h
  | cons r rs ih =>
      obtain ⟨hr, hrs⟩ := List.forall_mem_cons.mp hleft
      have hrest := ih (h.step hwf hr) hrs
      rwa [List.append_assoc] at hrest

theorem redirect_redirects (hwf : WellFounded fun b a => Forwards rules a b) :
    Redirects rules rules (redirect rules) := by
  have hid : Redirects rules [] id := ⟨fun _ => .inl rfl, by simp⟩
  exact hid.foldl hwf fun _ hr => hr

/-- Where a reference is redirected to is a rule that is no proxy. -/
theorem exists_redirected (hwf : WellFounded fun b a => Forwards rules a b)
    (hrefs : RefsDefined rules) {name : String} (hname : name ∈ rules.map (·.name)) :
    ∃ r ∈ rules, r.name = redirect rules name ∧ r.target? = none := by
  have hredirects := redirect_redirects hwf
  obtain ⟨r, hr, hrname⟩ := List.mem_map.mp ((hredirects.leads name).mem_names hrefs hname)
  refine ⟨r, hr, hrname, ?_⟩
  rw [← Option.not_isSome_iff_eq_none]
  intro hsome
  exact hredirects.avoids r hr hsome name hrname.symm

theorem redirect_mem_lastingRules (hwf : WellFounded fun b a => Forwards rules a b)
    (hrefs : RefsDefined rules) {isStart : String → Bool} {name : String}
    (hname : name ∈ rules.map (·.name)) :
    redirect rules name ∈ (lastingRules isStart rules).map (·.name) := by
  obtain ⟨r, hr, hrname, hnone⟩ := exists_redirected hwf hrefs hname
  exact List.mem_map.mpr ⟨r, List.mem_filter.mpr ⟨hr, by simp [Rule.lasts, hnone]⟩, hrname⟩

end Redirecting

/-! ## What is left -/

section Removed

variable {rules : List Rule} {isStart : String → Bool}

theorem Pass.run_removeProxyRules (o : Options) (g : Grammar) :
    removeProxyRules.run o g = ({ g with rules := withoutProxies o.isStart g.rules }, .ok ()) := by
  rw [run, Grammar.removeProxies_eq]

theorem names_withoutProxies :
    (withoutProxies isStart rules).map (·.name) = (lastingRules isStart rules).map (·.name) := by
  rw [withoutProxies, List.map_map]
  rfl

theorem exists_of_mem_withoutProxies {r : Rule} (h : r ∈ withoutProxies isStart rules) :
    ∃ s ∈ rules, r = s.rename (redirect rules) := by
  rw [withoutProxies] at h
  obtain ⟨s, hs, rfl⟩ := List.mem_map.mp h
  exact ⟨s, (List.mem_filter.mp hs).1, rfl⟩

theorem start_mem_withoutProxies {name : String} (hname : name ∈ rules.map (·.name))
    (hstart : isStart name) : name ∈ (withoutProxies isStart rules).map (·.name) := by
  obtain ⟨r, hr, rfl⟩ := List.mem_map.mp hname
  rw [names_withoutProxies]
  exact List.mem_map.mpr ⟨r, List.mem_filter.mpr ⟨hr, by simp [Rule.lasts, hstart]⟩, rfl⟩

/-- No reference is left without a rule. -/
theorem refsDefined_withoutProxies (hnodup : (rules.map (·.name)).Nodup)
    (hwf : WellFounded fun b a => LeftCalls rules a b) (hrefs : RefsDefined rules) :
    RefsDefined (withoutProxies isStart rules) := by
  have hforwards : WellFounded fun b a => Forwards rules a b :=
    Subrelation.wf (fun h => h.leftCalls hnodup) hwf
  intro r hr ref href
  obtain ⟨s, hs, rfl⟩ := exists_of_mem_withoutProxies hr
  obtain ⟨ref', href', hname⟩ := Expr.exists_ref_of_rename href
  rw [Inference.isDefined_iff_mem, hname, names_withoutProxies]
  exact redirect_mem_lastingRules hforwards hrefs
    (Inference.isDefined_iff_mem.mp (hrefs s hs ref' href'))

end Removed

end PegCompiler
