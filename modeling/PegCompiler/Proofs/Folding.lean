import PegCompiler.Text.Lowercase

/-!
# Texts that differ in case only

Lower case makes `İ` longer by one character and keeps the length of all else. So a text can be
longer than another that differs from it in case only, but no two parts in front of one text have
the same lower case form. Where a literal has a stable case, all texts that differ from it in case
only have one length.
-/

namespace PegCompiler.Text

theorem length_lowerChar (c : Char) : (lowerChar c).length = 1 + [c].count 'İ' := by
  by_cases h : c = 'İ' <;> simp [lowerChar, h]

theorem length_lowerAfter (before cs : List Char) :
    (lowerAfter before cs).length = cs.length + cs.count 'İ' := by
  induction cs generalizing before with
  | nil => rfl
  | cons c cs ih =>
      have hc : (if c = 'Σ' then [if meetsCased before && !meetsCased cs then 'ς' else 'σ']
          else lowerChar c).length = 1 + [c].count 'İ' := by
        split
        · next h => simp [h]
        · exact length_lowerChar c
      have hcount : (c :: cs).count 'İ' = [c].count 'İ' + cs.count 'İ' := by
        simp [List.count_cons, Nat.add_comm]
      rw [lowerAfter, List.length_append, hc, ih, List.length_cons, hcount]
      omega

theorem length_lowercase (s : String) :
    (lowercase s).length = s.length + s.toList.count 'İ' := by
  rw [lowercase, String.length_ofList, length_lowerAfter, String.length_toList]

theorem lowercase_ne_empty {s : String} (h : s ≠ "") : lowercase s ≠ "" := by
  intro hs
  have hl := length_lowercase s
  rw [hs, String.length_empty] at hl
  exact h (String.length_eq_zero_iff.mp (by omega))

/-- Of two parts in front of a text the longer one has the longer lower case form. -/
theorem length_lowercase_take_lt {cs : List Char} {k l : Nat} (hkl : k < l) (hl : l ≤ cs.length) :
    (lowercase (String.ofList (cs.take k))).length <
      (lowercase (String.ofList (cs.take l))).length := by
  have hcount : (cs.take k).count 'İ' ≤ (cs.take l).count 'İ' :=
    (List.take_sublist_take_left (Nat.le_of_lt hkl)).count_le _
  simp only [length_lowercase, String.length_ofList, String.toList_ofList, List.length_take]
  omega

theorem lowercase_take_inj {cs : List Char} {k l : Nat} (hk : k ≤ cs.length) (hl : l ≤ cs.length)
    (h : lowercase (String.ofList (cs.take k)) = lowercase (String.ofList (cs.take l))) :
    k = l := by
  rcases Nat.lt_trichotomy k l with hkl | rfl | hlk
  · exact absurd (h ▸ length_lowercase_take_lt hkl hl) (Nat.lt_irrefl _)
  · rfl
  · exact absurd (h ▸ length_lowercase_take_lt hlk hk) (Nat.lt_irrefl _)

/-- The length of the part in front of `cs` that differs from `value` in case only. -/
def foldedLength? (value : String) (cs : List Char) : Option Nat :=
  (List.range (cs.length + 1)).find? fun k =>
    lowercase (String.ofList (cs.take k)) = lowercase value

theorem foldedLength?_eq_some_iff {value : String} {cs : List Char} {k : Nat} :
    foldedLength? value cs = some k ↔
      k ≤ cs.length ∧ lowercase (String.ofList (cs.take k)) = lowercase value := by
  constructor
  · intro h
    have hk := List.mem_of_find?_eq_some h
    exact ⟨Nat.le_of_lt_succ (List.mem_range.mp hk), by simpa using List.find?_some h⟩
  · rintro ⟨hk, hv⟩
    have hsome : (foldedLength? value cs).isSome := by
      rw [foldedLength?, List.find?_isSome]
      exact ⟨k, List.mem_range.mpr (Nat.lt_succ_of_le hk), by simpa using hv⟩
    obtain ⟨l, hl⟩ := Option.isSome_iff_exists.mp hsome
    have hmem := List.mem_range.mp (List.mem_of_find?_eq_some hl)
    have hlv : lowercase (String.ofList (cs.take l)) = lowercase value := by
      simpa using List.find?_some hl
    rw [hl, lowercase_take_inj (Nat.le_of_lt_succ hmem) hk (hlv.trans hv.symm)]

theorem foldedLength?_pos {value : String} {cs : List Char} {k : Nat} (hv : value ≠ "")
    (h : foldedLength? value cs = some k) : 0 < k := by
  obtain ⟨-, hk⟩ := foldedLength?_eq_some_iff.mp h
  rcases k with _ | k
  · exact absurd hk.symm (lowercase_ne_empty hv)
  · exact Nat.succ_pos k

@[simp] theorem foldedLength?_empty (cs : List Char) : foldedLength? "" cs = some 0 :=
  foldedLength?_eq_some_iff.mpr ⟨Nat.zero_le _, rfl⟩

/-- Whether all texts that differ from `value` in case only are as long as its lower case form. -/
def CaseStable (value : String) : Prop :=
  ∀ s, lowercase s = lowercase value → s.length = (lowercase value).length

theorem CaseStable.length_eq {value : String} (h : CaseStable value) :
    value.length = (lowercase value).length :=
  h value rfl

/-- To look for a literal of stable case it is enough to compare as many characters as its lower
case form has. -/
theorem CaseStable.foldedLength?_eq {value : String} (h : CaseStable value) (cs : List Char) :
    foldedLength? value cs =
      if lowercase (String.ofList (cs.take (lowercase value).length)) = lowercase value then
        some value.length
      else none := by
  split
  · next hv =>
      have hlen := h _ hv
      rw [String.length_ofList, List.length_take] at hlen
      exact foldedLength?_eq_some_iff.mpr ⟨by rw [h.length_eq]; omega, by rw [h.length_eq, hv]⟩
  · next hv =>
      refine Option.eq_none_iff_forall_ne_some.mpr fun k hk => hv ?_
      obtain ⟨hk, hkv⟩ := foldedLength?_eq_some_iff.mp hk
      have hlen := h _ hkv
      rw [String.length_ofList, List.length_take, Nat.min_eq_left hk] at hlen
      rwa [← hlen]

theorem dotted_infix_of_mem {before cs : List Char} (h : 'İ' ∈ cs) :
    ['i', '\u0307'] <:+: lowerAfter before cs := by
  induction cs generalizing before with
  | nil => simp at h
  | cons c cs ih =>
      rw [lowerAfter]
      rcases List.mem_cons.mp h with rfl | h
      · exact (List.prefix_append ['i', '\u0307'] _).isInfix
      · exact (ih h).trans (List.suffix_append _ _).isInfix

/-- Only a literal with a dotted `i` in its lower case form is not of stable case. -/
theorem caseStable_of_not_dotted {value : String}
    (h : ¬['i', '\u0307'] <:+: (lowercase value).toList) : CaseStable value := by
  intro s hs
  have hcount : s.toList.count 'İ' = 0 := by
    refine List.count_eq_zero.mpr fun hmem => h ?_
    rw [← hs, lowercase, String.toList_ofList]
    exact dotted_infix_of_mem hmem
  rw [← hs, length_lowercase, hcount, Nat.add_zero]

end PegCompiler.Text
