import TerraformDocs.Proofs.Version.Choice
import TerraformDocs.Proofs.Version.Expression
import TerraformDocs.Proofs.Version.Order

/-!
# Oldest and middle versions

Of several literals, `low` takes the oldest version among those that are versions, and `middle` one
with about as many versions above it as below.  Both depend on the set of literals alone, so the
clauses that name them may come in any order, and `low` never lies above `middle`
(`resolve_low_middle`).
-/

namespace TerraformDocs

/-! ## Literals -/

namespace Version

theorem literals_perm {expression other : String}
    (h : ∀ literal, literal ∈ literals expression ↔ literal ∈ literals other) :
    (literals expression).Perm (literals other) :=
  (List.perm_ext_iff_of_nodup (nodup_eraseDups _) (nodup_eraseDups _)).mpr h

/-! ## Places in a descending list -/

section Descending

variable {versions : List Version} (h : versions.Pairwise fun a b => b ≤ a)

include h

theorem le_of_getLast? {oldest version : Version} (hlast : versions.getLast? = some oldest)
    (hmem : version ∈ versions) : oldest ≤ version := by
  obtain ⟨front, rfl⟩ := List.getLast?_eq_some_iff.mp hlast
  obtain ⟨-, -, hfront⟩ := List.pairwise_append.mp h
  rcases List.mem_append.mp hmem with hmem | hmem
  · exact hfront version hmem oldest (by simp)
  · obtain rfl := List.mem_singleton.mp hmem
    exact le_refl version

theorem countP_of_getElem? {place : Nat} {version : Version}
    (hplace : versions[place]? = some version) :
    versions.countP (version < ·) ≤ place ∧ place + 1 ≤ versions.countP (version ≤ ·) := by
  obtain ⟨hlt, hversion⟩ := List.getElem?_eq_some_iff.mp hplace
  have hsplit : versions.take place ++ version :: versions.drop (place + 1) = versions := by
    rw [← hversion, List.getElem_cons_drop, List.take_append_drop]
  have hlength : (versions.take place).length = place := List.length_take_of_le hlt.le
  rw [← hsplit] at h
  obtain ⟨-, hback, hfront⟩ := List.pairwise_append.mp h
  rw [← hsplit, List.countP_append, List.countP_append]
  constructor
  · have hnewer : (version :: versions.drop (place + 1)).countP (version < ·) = 0 := by
      rw [List.countP_eq_zero]
      intro other hother
      rw [decide_eq_true_iff]
      rcases List.mem_cons.mp hother with rfl | hother
      · exact not_lt_of_le (le_refl other)
      · exact not_lt_of_le ((List.pairwise_cons.mp hback).1 other hother)
    have hfew := List.countP_le_length (p := (version < ·)) (l := versions.take place)
    omega
  · have holder : (versions.take place).countP (version ≤ ·) = (versions.take place).length := by
      rw [List.countP_eq_length]
      intro other hother
      simpa using hfront other hother version List.mem_cons_self
    rw [List.countP_cons_of_pos (by simp)]
    omega

end Descending

end Version

namespace Strategy

variable {strategy : Strategy} {locked : String} {constraints others : Option String}

/-! ## Picks -/

theorem pick?_low_ranked {literals : List String}
    (h : literals.filterMap Version.ofString? ≠ []) :
    ∃ oldest ∈ literals.filterMap Version.ofString?,
      (∀ version ∈ literals.filterMap Version.ofString?, oldest ≤ version) ∧
        low.pick? (ranked literals) = some oldest := by
  have hperm := Version.ranked_perm literals
  have hne : ranked literals ≠ [] := by
    intro hnil
    rw [hnil] at hperm
    exact h hperm.nil_eq.symm
  obtain ⟨oldest, hlast⟩ := Option.isSome_iff_exists.mp (List.getLast?_isSome.mpr hne)
  refine ⟨oldest, hperm.mem_iff.mp (List.mem_of_getLast? hlast), fun version hversion => ?_, hlast⟩
  exact Version.le_of_getLast? (Version.ranked_descending literals) hlast
    (hperm.mem_iff.mpr hversion)

theorem pick?_middle_ranked {literals : List String}
    (h : literals.filterMap Version.ofString? ≠ []) :
    let versions := literals.filterMap Version.ofString?
    ∃ middling ∈ versions, versions.countP (middling < ·) ≤ versions.length / 2 ∧
      versions.length / 2 + 1 ≤ versions.countP (middling ≤ ·) ∧
        middle.pick? (ranked literals) = some middling := by
  intro versions
  have hperm := Version.ranked_perm literals
  have hlt : (ranked literals).length / 2 < (ranked literals).length := by
    have hpos := List.length_pos_iff.mpr h
    rw [hperm.length_eq]
    omega
  have hplace := List.getElem?_eq_getElem hlt
  have hcounts := Version.countP_of_getElem? (Version.ranked_descending literals) hplace
  refine ⟨_, hperm.mem_iff.mp (List.getElem_mem hlt), ?_, ?_, hplace⟩
  · rw [← hperm.countP_eq, ← hperm.length_eq]
    exact hcounts.1
  · rw [← hperm.countP_eq, ← hperm.length_eq]
    exact hcounts.2

theorem ranked_eq_of_perm {literals texts : List String} (h : literals.Perm texts) :
    ranked literals = ranked texts := by
  rw [Version.ranked_eq_reverse, Version.ranked_eq_reverse,
    Version.sortedOf_eq_sortedOf_iff.mpr (h.filterMap _)]

/-! ## Choices -/

theorem resolve_eq_of_perm (strategy : Strategy) (locked : String)
    (h : (named constraints).Perm (named others)) :
    strategy.resolve locked constraints = strategy.resolve locked others := by
  by_cases hhigh : strategy = high
  · rw [resolve_eq, resolve_eq, if_pos hhigh, if_pos hhigh]
  · by_cases hsole : ∃ literal, named constraints = [literal]
    · obtain ⟨literal, hliteral⟩ := hsole
      have hother : named others = [literal] := by
        rw [hliteral] at h
        exact List.perm_singleton.mp h.symm
      rw [resolve_of_sole hhigh hliteral, resolve_of_sole hhigh hother]
    · rw [not_exists] at hsole
      have hother : ∀ literal, named others ≠ [literal] := by
        intro literal hliteral
        rw [hliteral] at h
        exact hsole literal (List.perm_singleton.mp h)
      rw [resolve_of_not_sole hsole, resolve_of_not_sole hother, ranked_eq_of_perm h]

theorem low_resolve_le {literal : String} {version : Version} (hmem : literal ∈ named constraints)
    (hversion : Version.ofString? literal = some version) :
    ∃ chosen, Version.ofString? (low.resolve locked constraints) = some chosen ∧
      chosen ≤ version := by
  by_cases hsole : ∃ only, named constraints = [only]
  · obtain ⟨only, honly⟩ := hsole
    rw [honly] at hmem
    obtain rfl := List.mem_singleton.mp hmem
    rw [resolve_of_sole (by decide) honly]
    exact ⟨version, hversion, Version.le_refl version⟩
  · rw [not_exists] at hsole
    have hranked : version ∈ (named constraints).filterMap Version.ofString? :=
      List.mem_filterMap.mpr ⟨literal, hmem, hversion⟩
    obtain ⟨oldest, holdest, hleast, hpick⟩ := pick?_low_ranked (List.ne_nil_of_mem hranked)
    obtain ⟨other, -, hother⟩ := List.mem_filterMap.mp holdest
    rw [resolve_of_not_sole hsole, hpick]
    exact ⟨oldest, Version.ofString?_text_of_ofString? hother, hleast version hranked⟩

theorem low_le_middle {lowest middling : Version}
    (hlow : Version.ofString? (low.resolve locked constraints) = some lowest)
    (hmiddle : Version.ofString? (middle.resolve locked constraints) = some middling) :
    lowest ≤ middling := by
  have hsame (h : low.resolve locked constraints = middle.resolve locked constraints) :
      lowest ≤ middling := by
    rw [h, hmiddle] at hlow
    cases hlow
    exact Version.le_refl _
  by_cases hsole : ∃ literal, named constraints = [literal]
  · obtain ⟨literal, hliteral⟩ := hsole
    exact hsame (by rw [resolve_of_sole (by decide) hliteral, resolve_of_sole (by decide) hliteral])
  · rw [not_exists] at hsole
    by_cases hnone : (named constraints).filterMap Version.ofString? = []
    · have hranked : ranked (named constraints) = [] := by
        have hperm := Version.ranked_perm (named constraints)
        rw [hnone] at hperm
        exact hperm.eq_nil
      exact hsame (by rw [resolve_of_not_sole hsole, resolve_of_not_sole hsole, hranked]; rfl)
    · obtain ⟨other, hother, -, -, hpick⟩ := pick?_middle_ranked hnone
      obtain ⟨literal, hmem, hliteral⟩ := List.mem_filterMap.mp hother
      obtain ⟨chosen, hchosen, hle⟩ : ∃ chosen, _ = some chosen ∧ chosen ≤ other :=
        low_resolve_le hmem hliteral
      rw [hlow] at hchosen
      rw [resolve_of_not_sole hsole, hpick, Option.map_some, Option.getD_some,
        Version.ofString?_text_of_ofString? hliteral] at hmiddle
      cases hchosen
      cases hmiddle
      exact hle

/--
Of several literals some of which are versions, `low` takes a version that is older than no other,
and `middle` one with at most half of the versions above it and more than half not below it.  Every
strategy looks at the set of literals alone, and `low` never chooses above `middle`.
-/
theorem resolve_low_middle (locked : String) :
    (∀ expression, 2 ≤ (Version.literals expression).length →
      let versions := (Version.literals expression).filterMap Version.ofString?
      versions ≠ [] →
        (∃ oldest ∈ versions, (∀ version ∈ versions, oldest ≤ version) ∧
          low.resolve locked (some expression) = oldest.text) ∧
        ∃ middling ∈ versions, versions.countP (middling < ·) ≤ versions.length / 2 ∧
          versions.length / 2 + 1 ≤ versions.countP (middling ≤ ·) ∧
            middle.resolve locked (some expression) = middling.text) ∧
      (∀ (strategy : Strategy) (expression other : String),
        (∀ literal, literal ∈ Version.literals expression ↔ literal ∈ Version.literals other) →
          strategy.resolve locked (some expression) = strategy.resolve locked (some other)) ∧
      ∀ (constraints : Option String) (lowest middling : Version),
        Version.ofString? (low.resolve locked constraints) = some lowest →
          Version.ofString? (middle.resolve locked constraints) = some middling →
            lowest ≤ middling := by
  refine ⟨?_, fun strategy expression other h => ?_,
    fun constraints lowest middling => low_le_middle⟩
  · intro expression hseveral versions hversions
    have hsole : ∀ literal, named (some expression) ≠ [literal] := by
      intro literal hliteral
      have hlength : (named (some expression)).length = 1 := by rw [hliteral]; rfl
      exact absurd (hlength ▸ hseveral : 2 ≤ 1) (by decide)
    obtain ⟨oldest, hmem, holdest, hlow⟩ := pick?_low_ranked hversions
    obtain ⟨middling, hother, hfew, hmany, hmiddle⟩ := pick?_middle_ranked hversions
    refine ⟨⟨oldest, hmem, holdest, ?_⟩, middling, hother, hfew, hmany, ?_⟩
    · rw [resolve_of_not_sole hsole]
      exact congrArg (fun picked => (picked.map Version.text).getD locked) hlow
    · rw [resolve_of_not_sole hsole]
      exact congrArg (fun picked => (picked.map Version.text).getD locked) hmiddle
  · exact resolve_eq_of_perm strategy locked (Version.literals_perm h)

theorem resolve_low_middle_shuffled :
    let expression := "~> 1.2.0, >= 1.10.0, < 1.02.0, 1.3.0, 1.10.0-rc, 99999999999999999999.0.0"
    let other := "99999999999999999999.0.0, != 1.3.0, 1.2.0, 1.10.0-rc, 1.3.0, 1.10.0, 1.02.0"
    low.resolve "9.9.9" (some expression) = "1.2.0" ∧
      middle.resolve "9.9.9" (some expression) = "1.3.0" ∧
      middle.resolve "9.9.9" (some other) = "1.3.0" ∧
      (⟨1, 2, 0, none⟩ : Version) ≤ ⟨1, 3, 0, none⟩ := by
  intro expression other
  obtain ⟨hpicks, hset, hle⟩ := resolve_low_middle "9.9.9"
  have hliterals : Version.literals expression =
      ["1.2.0", "1.10.0", "1.02.0", "1.3.0", "1.10.0-rc", "99999999999999999999.0.0"] := by
    decide +kernel
  have hother : Version.literals other =
      ["99999999999999999999.0.0", "1.3.0", "1.2.0", "1.10.0-rc", "1.10.0", "1.02.0"] := by
    decide +kernel
  have hversions : (Version.literals expression).filterMap Version.ofString? =
      [⟨1, 2, 0, none⟩, ⟨1, 10, 0, none⟩, ⟨1, 2, 0, none⟩, ⟨1, 3, 0, none⟩,
        ⟨1, 10, 0, some "rc"⟩] := by decide +kernel
  have hpicked := hpicks expression (by rw [hliterals]; decide) (by rw [hversions]; simp)
  simp only [hversions] at hpicked
  obtain ⟨⟨oldest, hmem, holdest, hlow⟩, middling, hmiddling, hfew, hmany, hmiddle⟩ := hpicked
  obtain rfl : oldest = ⟨1, 2, 0, none⟩ := by
    clear hlow
    revert oldest
    decide +kernel
  obtain rfl : middling = ⟨1, 3, 0, none⟩ := by
    clear hmiddle
    revert middling
    decide +kernel
  have hlow' : low.resolve "9.9.9" (some expression) = "1.2.0" := hlow.trans (by decide +kernel)
  have hmiddle' : middle.resolve "9.9.9" (some expression) = "1.3.0" :=
    hmiddle.trans (by decide +kernel)
  refine ⟨hlow', hmiddle', ?_, ?_⟩
  · have hperm : (Version.literals other).Perm (Version.literals expression) := by
      rw [hliterals, hother]
      decide
    rw [← hmiddle']
    exact hset middle _ _ fun _ => hperm.mem_iff
  · refine hle (some expression) _ _ ?_ ?_
    · rw [hlow']
      decide +kernel
    · rw [hmiddle']
      decide +kernel

end Strategy

end TerraformDocs
