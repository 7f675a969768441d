import Mathlib.Algebra.Group.Nat.Defs
import TerraformDocs.Proofs.Text.Exact
import TerraformDocs.Version.Parser

/-!
# How versions are spelled

A version is spelled by three runs of ASCII digits with points between them and, if it is a
prerelease, a hyphen and its tag.  The texts that are read as a version are its spellings with
blanks around them (`ofString?_eq_some_iff`).
-/

namespace TerraformDocs.Version

open TerraformDocs.Text

/-! ## Characters -/

theorem isTagChar_of_isDigit {c : Char} (h : c.isDigit = true) : isTagChar c = true := by
  simp [isTagChar, Char.isAlphanum, h]

theorem toNat_of_isTagChar {c : Char} (h : isTagChar c = true) : 45 ≤ c.toNat ∧ c.toNat ≤ 122 := by
  simp only [isTagChar, Bool.or_eq_true, decide_eq_true_eq] at h
  rcases h with (h | rfl) | rfl
  · change ((c.isUpper || c.isLower) || c.isDigit) = true at h
    simp only [Bool.or_eq_true] at h
    rcases h with (hupper | hlower) | hdigit
    · have hrange : 65 ≤ c.toNat ∧ c.toNat ≤ 90 := of_decide_eq_true hupper
      omega
    · have hrange := toNat_of_isLower hlower
      omega
    · have hrange : 48 ≤ c.toNat ∧ c.toNat ≤ 57 := Char.isDigit_iff_toNat.mp hdigit
      omega
  · decide
  · decide

theorem isBlank_of_isTagChar {c : Char} (h : isTagChar c = true) : isBlank c = false := by
  obtain ⟨hlow, hhigh⟩ := toNat_of_isTagChar h
  exact isBlank_of_toNat hlow hhigh

/-! ## Components -/

/-- The digits of a component.  Leading zeros are allowed, but the value fits 64 bits. -/
structure IsNumeral (digits : List Char) (value : Nat) : Prop where
  ne_nil : digits ≠ []
  isDigit : ∀ c ∈ digits, c.isDigit = true
  value_eq : Nat.ofDigitChars 10 digits 0 = value
  lt : value < 2 ^ 64

theorem component?_eq_some_iff {cs rest : List Char} {value : Nat} :
    component? cs = some (value, rest) ↔
      ∃ digits, IsNumeral digits value ∧ (∀ c ∈ rest.head?, c.isDigit = false) ∧
        digits ++ rest = cs := by
  simp only [component?, Option.bind_eq_bind, Option.bind_eq_some_iff, Prod.exists]
  constructor
  · rintro ⟨digits, left, hrun, hvalue⟩
    obtain ⟨hne, hdigits, hrest, hcs⟩ := run?_eq_some_iff.mp hrun
    split at hvalue
    · next hlimit =>
      cases hvalue
      exact ⟨digits, ⟨hne, hdigits, rfl, hlimit⟩, hrest, hcs⟩
    · cases hvalue
  · rintro ⟨digits, ⟨hne, hdigits, rfl, hlimit⟩, hrest, hcs⟩
    exact ⟨digits, rest, run?_eq_some_iff.mpr ⟨hne, hdigits, hrest, hcs⟩, if_pos hlimit⟩

theorem IsNumeral.isTagChar {digits : List Char} {value : Nat} (h : IsNumeral digits value) :
    ∀ c ∈ digits, isTagChar c = true :=
  fun c hc => isTagChar_of_isDigit (h.isDigit c hc)

theorem isNumeral_repr {value : Nat} (h : value < componentLimit) :
    IsNumeral value.repr.toList value := by
  rw [Nat.toList_repr]
  exact ⟨Nat.toDigits_ne_nil, fun c => Nat.isDigit_of_mem_toDigits (by decide) (by decide),
    Nat.ofDigitChars_ten_toDigits, h⟩

/-! ## Tags -/

def IsTag (tag : String) : Prop := tag.toList ≠ [] ∧ ∀ c ∈ tag.toList, isTagChar c = true

instance (tag : String) : Decidable (IsTag tag) :=
  decidable_of_iff (tag.toList ≠ [] ∧ tag.toList.all isTagChar = true)
    (and_congr_right fun _ => List.all_eq_true)

def tagChars : Option String → List Char
  | none => []
  | some tag => '-' :: tag.toList

theorem tag?_eq_some_iff {cs : List Char} {prerelease : Option String} :
    tag? cs = some prerelease ↔ tagChars prerelease = cs ∧ ∀ tag ∈ prerelease, IsTag tag := by
  constructor
  · intro h
    unfold tag? at h
    split at h
    · cases h
      exact ⟨rfl, by simp⟩
    · next tag =>
      split at h
      · next htag =>
        cases h
        exact ⟨by simp [tagChars], by simpa [IsTag] using htag⟩
      · cases h
    · cases h
  · rintro ⟨rfl, htag⟩
    cases prerelease with
    | none => rfl
    | some tag =>
        have hall : tag.toList.all isTagChar = true := by simpa using (htag tag rfl).2
        simp [tagChars, tag?, (htag tag rfl).1, hall]

theorem head?_tagChars {prerelease : Option String} :
    ∀ c ∈ (tagChars prerelease).head?, c.isDigit = false := by
  cases prerelease with
  | none => simp [tagChars]
  | some tag =>
      intro c hc
      obtain rfl : '-' = c := by simpa [tagChars] using hc
      decide

theorem isTagChar_of_mem_tagChars {prerelease : Option String}
    (h : ∀ tag ∈ prerelease, IsTag tag) : ∀ c ∈ tagChars prerelease, isTagChar c = true := by
  cases prerelease with
  | none => simp [tagChars]
  | some tag =>
      have hhyphen : isTagChar '-' = true := by decide
      simpa [tagChars, hhyphen] using (h tag rfl).2

/-! ## Whole versions -/

structure IsSpelling (cs : List Char) (v : Version) : Prop where
  tag : ∀ tag ∈ v.prerelease, IsTag tag
  numerals : ∃ major minor patch, IsNumeral major v.major ∧ IsNumeral minor v.minor ∧
    IsNumeral patch v.patch ∧
      cs = major ++ '.' :: (minor ++ '.' :: (patch ++ tagChars v.prerelease))

theorem ofChars?_eq_some_iff {cs : List Char} {v : Version} :
    ofChars? cs = some v ↔ IsSpelling cs v := by
  constructor
  · intro h
    simp only [ofChars?, Option.bind_eq_bind, Option.bind_eq_some_iff, Prod.exists,
      Option.pure_def, Option.some.injEq] at h
    obtain ⟨_, _, hmajor, _, hfirst, _, _, hminor, _, hsecond, _, _, hpatch, _, htag, rfl⟩ := h
    obtain ⟨major, hmajorDigits, -, rfl⟩ := component?_eq_some_iff.mp hmajor
    obtain rfl := List.isPrefixOf?_eq_some_iff_append_eq.mp hfirst
    obtain ⟨minor, hminorDigits, -, rfl⟩ := component?_eq_some_iff.mp hminor
    obtain rfl := List.isPrefixOf?_eq_some_iff_append_eq.mp hsecond
    obtain ⟨patch, hpatchDigits, -, rfl⟩ := component?_eq_some_iff.mp hpatch
    obtain ⟨rfl, htagChars⟩ := tag?_eq_some_iff.mp htag
    exact ⟨htagChars, major, minor, patch, hmajorDigits, hminorDigits, hpatchDigits, rfl⟩
  · rintro ⟨htag, major, minor, patch, hmajor, hminor, hpatch, rfl⟩
    have hpoint (cs : List Char) : ∀ c ∈ ('.' :: cs).head?, c.isDigit = false := by simp
    have hcomponent {digits rest : List Char} {value : Nat} (h : IsNumeral digits value)
        (hrest : ∀ c ∈ rest.head?, c.isDigit = false) :
        component? (digits ++ rest) = some (value, rest) :=
      component?_eq_some_iff.mpr ⟨digits, h, hrest, rfl⟩
    have htag : tag? (tagChars v.prerelease) = some v.prerelease :=
      tag?_eq_some_iff.mpr ⟨rfl, htag⟩
    simp only [ofChars?, hcomponent hmajor (hpoint _), hcomponent hminor (hpoint _),
      hcomponent hpatch head?_tagChars, isPrefixOf?_mark, htag, Option.bind_eq_bind, Option.bind_some,
      Option.pure_def]

theorem IsSpelling.isTagChar {cs : List Char} {v : Version} (h : IsSpelling cs v) :
    ∀ c ∈ cs, isTagChar c = true := by
  obtain ⟨htag, major, minor, patch, hmajor, hminor, hpatch, rfl⟩ := h
  have hpoint : Version.isTagChar '.' = true := by decide
  simp only [List.forall_mem_append, List.forall_mem_cons]
  exact ⟨hmajor.isTagChar, hpoint, hminor.isTagChar, hpoint, hpatch.isTagChar,
    isTagChar_of_mem_tagChars htag⟩

theorem IsSpelling.isBlank_eq_false {cs : List Char} {v : Version} (h : IsSpelling cs v) :
    ∀ c ∈ cs, isBlank c = false :=
  fun c hc => isBlank_of_isTagChar (h.isTagChar c hc)

theorem IsSpelling.ne_nil {cs : List Char} {v : Version} (h : IsSpelling cs v) : cs ≠ [] := by
  obtain ⟨-, major, minor, patch, -, -, -, rfl⟩ := h
  simp

/-- The text is a spelling of the version with blanks around it. -/
def Spells (text : String) (v : Version) : Prop :=
  ∃ front spelling back, Blanks front ∧ Blanks back ∧ IsSpelling spelling v ∧
    text.toList = front ++ (spelling ++ back)

theorem ofString?_eq_some_iff {text : String} {v : Version} :
    ofString? text = some v ↔ Spells text v := by
  rw [ofString?, ofChars?_eq_some_iff]
  constructor
  · intro h
    obtain ⟨front, back, hfront, hback, htext⟩ := exists_blanks_trimChars text.toList
    exact ⟨front, _, back, hfront, hback, h, htext⟩
  · rintro ⟨front, spelling, back, hfront, hback, hspelling, htext⟩
    rwa [htext, trimChars_append hfront hback hspelling.ne_nil hspelling.isBlank_eq_false]

theorem ofString?_congr {text other : String} (h : trim text = trim other) :
    ofString? text = ofString? other := by
  have hchars : trimChars text.toList = trimChars other.toList := by
    simpa using congrArg String.toList h
  rw [ofString?, hchars, ofString?]

end TerraformDocs.Version
