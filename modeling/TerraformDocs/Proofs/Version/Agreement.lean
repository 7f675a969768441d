import TerraformDocs.Proofs.Version.Expression
import TerraformDocs.Proofs.Version.Readable

/-!
# Literals and versions agree

A literal is found by its shape and a version is read with the values of its components, so they can
differ in the digits only.  A literal is a version exactly if its three runs of digits are ASCII and
fit a component, and every version is the literal of a clause that has it at its end behind no other
digit (`literals_agree_with_versions`).
-/

namespace TerraformDocs.Version

open TerraformDocs.Text

structure HasNumbers (word major minor patch : List Char) : Prop where
  first : IsDigits major
  second : IsDigits minor
  third : IsDigits patch
  spelled : ∃ prerelease, (∀ tag ∈ prerelease, IsTag tag) ∧
    word = major ++ '.' :: (minor ++ '.' :: (patch ++ tagChars prerelease))

/-- Digits that a component can be read from: ASCII digits, with a value that fits 64 bits. -/
def IsReadableNumber (digits : List Char) : Prop :=
  (∀ c ∈ digits, c.isDigit = true) ∧ Nat.ofDigitChars 10 digits 0 < 2 ^ 64

instance (digits : List Char) : Decidable (IsReadableNumber digits) :=
  decidable_of_iff (digits.all Char.isDigit = true ∧ Nat.ofDigitChars 10 digits 0 < 2 ^ 64)
    (and_congr_left fun _ => List.all_eq_true)

/-! ## The numbers of a literal -/

theorem isLiteral_iff {word : List Char} :
    IsLiteral word ↔ ∃ major minor patch, HasNumbers word major minor patch := by
  constructor
  · rintro ⟨major, minor, patch, prerelease, hmajor, hminor, hpatch, htag, hword⟩
    exact ⟨major, minor, patch, hmajor, hminor, hpatch, prerelease, htag, hword⟩
  · rintro ⟨major, minor, patch, hmajor, hminor, hpatch, prerelease, htag, hword⟩
    exact ⟨major, minor, patch, prerelease, hmajor, hminor, hpatch, htag, hword⟩

theorem IsDigits.not_mem {digits : List Char} (h : IsDigits digits) {c : Char}
    (hc : isDecimalDigit c = false) : c ∉ digits := by
  intro hmem
  rw [h.2 c hmem] at hc
  cases hc

theorem IsDigits.eq_of_append_tagChars {digits other : List Char} (h : IsDigits digits)
    (hother : IsDigits other) {prerelease prerelease' : Option String}
    (heq : digits ++ tagChars prerelease = other ++ tagChars prerelease') : digits = other := by
  have hnone : ∀ c ∈ ([] : List Char).head?, isDecimalDigit c = false := by simp
  have hstop (prerelease : Option String) :
      ∀ c ∈ (tagChars prerelease).head?, isDecimalDigit c = false := by
    simpa using isDecimalDigit_of_head prerelease hnone
  have hdigits := (takeWhile_append_of_head h.2 (hstop prerelease)).1
  rw [heq, (takeWhile_append_of_head hother.2 (hstop prerelease')).1] at hdigits
  exact hdigits.symm

theorem HasNumbers.unique {word major minor patch major' minor' patch' : List Char}
    (h : HasNumbers word major minor patch) (h' : HasNumbers word major' minor' patch') :
    major = major' ∧ minor = minor' ∧ patch = patch' := by
  obtain ⟨hmajor, hminor, hpatch, prerelease, -, rfl⟩ := h
  obtain ⟨hmajor', hminor', hpatch', prerelease', -, hword⟩ := h'
  have hpoint : isDecimalDigit '.' = false := by decide
  obtain ⟨rfl, hrest⟩ :=
    eq_of_append_mark (hmajor.not_mem hpoint) (hmajor'.not_mem hpoint) hword
  obtain ⟨rfl, hlast⟩ :=
    eq_of_append_mark (hminor.not_mem hpoint) (hminor'.not_mem hpoint) hrest
  exact ⟨rfl, rfl, hpatch.eq_of_append_tagChars hpatch' hlast⟩

theorem isLiteral_of_mem_literals {expression literal : String}
    (h : literal ∈ literals expression) : IsLiteral literal.toList := by
  obtain ⟨clause, -, hread⟩ := mem_literals_iff.mp h
  obtain ⟨front, hfirst⟩ := firstLiteral?_eq_some_iff.mp hread
  exact hfirst.stands.1

/-! ## Reading a literal as a version -/

theorem isReadableNumber_iff {digits : List Char} (hne : digits ≠ []) :
    IsReadableNumber digits ↔ ∃ value, IsNumeral digits value := by
  constructor
  · rintro ⟨hdigits, hlt⟩
    exact ⟨_, hne, hdigits, rfl, hlt⟩
  · rintro ⟨value, h⟩
    exact ⟨h.isDigit, h.value_eq ▸ h.lt⟩

theorem isSome_ofString?_iff {literal : String} {major minor patch : List Char}
    (h : HasNumbers literal.toList major minor patch) :
    (ofString? literal).isSome ↔
      IsReadableNumber major ∧ IsReadableNumber minor ∧ IsReadableNumber patch := by
  have hliteral : IsLiteral literal.toList := isLiteral_iff.mpr ⟨major, minor, patch, h⟩
  rw [ofString?, trimChars_eq_self hliteral.isBlank_eq_false, Option.isSome_iff_exists,
    isReadableNumber_iff h.first.1, isReadableNumber_iff h.second.1, isReadableNumber_iff h.third.1]
  constructor
  · rintro ⟨v, hv⟩
    obtain ⟨htag, major', minor', patch', hmajor, hminor, hpatch, hword⟩ :=
      ofChars?_eq_some_iff.mp hv
    have hread : HasNumbers literal.toList major' minor' patch' :=
      ⟨hmajor.isDigits, hminor.isDigits, hpatch.isDigits, v.prerelease, htag, hword⟩
    obtain ⟨rfl, rfl, rfl⟩ := h.unique hread
    exact ⟨⟨_, hmajor⟩, ⟨_, hminor⟩, ⟨_, hpatch⟩⟩
  · rintro ⟨⟨first, hmajor⟩, ⟨second, hminor⟩, ⟨third, hpatch⟩⟩
    obtain ⟨prerelease, htag, hword⟩ := h.spelled
    exact ⟨⟨first, second, third, prerelease⟩, ofChars?_eq_some_iff.mpr
      ⟨htag, major, minor, patch, hmajor, hminor, hpatch, hword⟩⟩

/-! ## Finding a version as a literal -/

theorem literals_append_version {front text : String} {v : Version}
    (hfront : ∀ c ∈ front.toList, c ≠ ',' ∧ isDecimalDigit c = false)
    (h : ofString? text = some v) : literals (front ++ text) = [trim text] := by
  obtain ⟨before, spelling, behind, hbefore, hbehind, hspelling, htext⟩ :=
    ofString?_eq_some_iff.mp h
  have hclause : (front ++ text).toList = (front.toList ++ before) ++ (spelling ++ behind) := by
    rw [String.toList_append, htext, List.append_assoc]
  have hdigits : ∀ c ∈ front.toList ++ before, isDecimalDigit c = false := by
    rw [List.forall_mem_append]
    exact ⟨fun c hc => (hfront c hc).2, fun c hc => isDecimalDigit_of_isBlank (hbefore c hc)⟩
  have hcomma : ',' ∉ (front ++ text).toList := by
    have hblank : isBlank ',' = false := by decide
    rw [hclause]
    simp only [List.mem_append, not_or]
    refine ⟨⟨fun hc => (hfront _ hc).1 rfl, hbefore.not_mem hblank⟩, fun hc => ?_,
      hbehind.not_mem hblank⟩
    exact absurd (hspelling.isTagChar _ hc) (by decide)
  have htrim : trim text = String.ofList spelling := by
    rw [trim, htext,
      trimChars_append hbefore hbehind hspelling.ne_nil hspelling.isBlank_eq_false]
  rw [literals_of_clause hcomma, hclause, firstLiteral?_spelling hdigits hspelling hbehind, htrim]
  rfl

/--
A literal of an expression is read as a version exactly if its three numbers are ASCII digits and
are below `2 ^ 64` each.  A text that is read as a version is, without the blanks around it, the
only literal of a clause that ends with it and has no digit before it.
-/
theorem literals_agree_with_versions :
    (∀ expression literal : String, literal ∈ literals expression →
      ∃ major minor patch, HasNumbers literal.toList major minor patch ∧
        (∀ major' minor' patch', HasNumbers literal.toList major' minor' patch' →
          major' = major ∧ minor' = minor ∧ patch' = patch) ∧
        ((ofString? literal).isSome ↔
          IsReadableNumber major ∧ IsReadableNumber minor ∧ IsReadableNumber patch)) ∧
    ∀ front text : String, (ofString? text).isSome →
      (∀ c ∈ front.toList, c ≠ ',' ∧ isDecimalDigit c = false) →
        literals (front ++ text) = [trim text] := by
  constructor
  · intro expression literal h
    obtain ⟨major, minor, patch, hnumbers⟩ := isLiteral_iff.mp (isLiteral_of_mem_literals h)
    exact ⟨major, minor, patch, hnumbers, fun _ _ _ hother => hother.unique hnumbers,
      isSome_ofString?_iff hnumbers⟩
  · intro front text hsome hfront
    obtain ⟨v, hv⟩ := Option.isSome_iff_exists.mp hsome
    exact literals_append_version hfront hv

theorem literals_agree_with_versions_digits :
    let expression := ">= 18446744073709551616.0.0, != 1.\u0662.3-rc.1"
    literals expression = ["18446744073709551616.0.0", "1.\u0662.3-rc.1"] ∧
      ofString? "18446744073709551616.0.0" = none ∧ ofString? "1.\u0662.3-rc.1" = none ∧
      literals ("~> v" ++ " 01.2.3-rc.1 ") = ["01.2.3-rc.1"] := by
  intro expression
  obtain ⟨hread, hfound⟩ := literals_agree_with_versions
  have hliterals : literals expression = ["18446744073709551616.0.0", "1.\u0662.3-rc.1"] := by
    decide +kernel
  have htag : IsTag "rc.1" := by decide +kernel
  have hfront : ("~> v".toList.all fun c => c ≠ ',' ∧ isDecimalDigit c = false) = true := by
    decide +kernel
  refine ⟨hliterals, ?_, ?_, ?_⟩
  · obtain ⟨_, _, _, -, hnumbers, hsome⟩ :=
      hread expression "18446744073709551616.0.0" (by simp [hliterals])
    obtain ⟨rfl, rfl, rfl⟩ := hnumbers "18446744073709551616".toList "0".toList "0".toList
      ⟨by decide +kernel, by decide +kernel, by decide +kernel, none, by simp, by decide +kernel⟩
    rw [← Option.not_isSome_iff_eq_none, hsome]
    decide +kernel
  · obtain ⟨_, _, _, -, hnumbers, hsome⟩ :=
      hread expression "1.\u0662.3-rc.1" (by simp [hliterals])
    obtain ⟨rfl, rfl, rfl⟩ := hnumbers "1".toList "\u0662".toList "3".toList
      ⟨by decide +kernel, by decide +kernel, by decide +kernel, some "rc.1", by simpa using htag,
        by decide +kernel⟩
    rw [← Option.not_isSome_iff_eq_none, hsome]
    decide +kernel
  · rw [hfound "~> v" " 01.2.3-rc.1 " (by decide +kernel) (by simpa using hfront)]
    decide +kernel

end TerraformDocs.Version
