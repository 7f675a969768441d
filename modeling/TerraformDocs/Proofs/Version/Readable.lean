import TerraformDocs.Proofs.Version.Spelling

/-!
# Readable versions

A version that has been read has components below `componentLimit` and, if any, a nonempty tag of
tag characters.  Its text is read back as the same version (`ofString?_text`), although it need not
be the text that was read: leading zeros and blanks around it are gone.
-/

namespace TerraformDocs.Version

open TerraformDocs.Text

structure IsReadable (v : Version) : Prop where
  major : v.major < componentLimit
  minor : v.minor < componentLimit
  patch : v.patch < componentLimit
  tag : ∀ tag ∈ v.prerelease, IsTag tag

theorem IsReadable.of_ofChars? {cs : List Char} {v : Version} (h : ofChars? cs = some v) :
    v.IsReadable := by
  obtain ⟨htag, _, _, _, hmajor, hminor, hpatch, -⟩ := ofChars?_eq_some_iff.mp h
  exact ⟨hmajor.lt, hminor.lt, hpatch.lt, htag⟩

theorem toList_text (v : Version) :
    v.text.toList = v.major.repr.toList ++ '.' :: (v.minor.repr.toList ++ '.' ::
      (v.patch.repr.toList ++ tagChars v.prerelease)) := by
  cases hprerelease : v.prerelease with
  | none => simp [text, hprerelease, tagChars]
  | some tag => simp [text, hprerelease, tagChars]

theorem isSpelling_text {v : Version} (h : v.IsReadable) : IsSpelling v.text.toList v :=
  ⟨h.tag, _, _, _, isNumeral_repr h.major, isNumeral_repr h.minor, isNumeral_repr h.patch,
    toList_text v⟩

theorem ofString?_text {v : Version} (h : v.IsReadable) : ofString? v.text = some v :=
  ofString?_eq_some_iff.mpr
    ⟨[], _, [], by simp [Blanks], by simp [Blanks], isSpelling_text h, by simp⟩

theorem ofString?_text_of_ofString? {text : String} {v : Version} (h : ofString? text = some v) :
    ofString? v.text = some v :=
  ofString?_text (.of_ofChars? h)

/-- The texts that are read as a version are its spellings between blanks.  Its own text is one of
them, and is no other version's. -/
theorem ofString?_exact :
    (∀ (text : String) (v : Version), ofString? text = some v ↔ Spells text v) ∧
      (∀ (text : String) (v : Version), ofString? text = some v → ofString? v.text = some v) ∧
      ∀ (text other : String) (v w : Version), ofString? text = some v →
        ofString? other = some w → (v.text = w.text ↔ v = w) := by
  refine ⟨fun _ _ => ofString?_eq_some_iff, fun _ _ => ofString?_text_of_ofString?, ?_⟩
  intro text other v w hv hw
  constructor
  · intro htext
    have hreadv := ofString?_text_of_ofString? hv
    rw [htext, ofString?_text_of_ofString? hw] at hreadv
    exact (Option.some.inj hreadv).symm
  · exact congrArg Version.text

theorem ofString?_exact_padded :
    ofString? " 01.2.3-rc-1\n" = some ⟨1, 2, 3, some "rc-1"⟩ ∧
      ofString? "1.2.3-rc-1" = some ⟨1, 2, 3, some "rc-1"⟩ := by
  obtain ⟨-, hagain, -⟩ := ofString?_exact
  have hread : ofString? " 01.2.3-rc-1\n" = some ⟨1, 2, 3, some "rc-1"⟩ := by decide +kernel
  have htext : (⟨1, 2, 3, some "rc-1"⟩ : Version).text = "1.2.3-rc-1" := by decide +kernel
  have hown := hagain _ _ hread
  rw [htext] at hown
  exact ⟨hread, hown⟩

end TerraformDocs.Version
