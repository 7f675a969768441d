import TerraformDocs.Version.Strategy

/-!
# The order of versions

The order is total, and nothing but a version itself compares equal to it.  Hence versions have
one ascending arrangement: sorting finds it in whatever order they come (`sortedOf_eq_iff`), and
the ranking that strategies choose from is the same arrangement read backwards.
-/

namespace TerraformDocs

namespace Version

/-! ## Tags -/

theorem compareTags_swap (a b : Option String) : compareTags a b = (compareTags b a).swap := by
  cases a with
  | none => cases b <;> rfl
  | some a =>
      cases b with
      | none => rfl
      | some b => exact Std.OrientedOrd.eq_swap

-- a release stands above all tags, so of three tags only the later ones can be absent
theorem compareTags_isLE_trans {a b c : Option String} (hab : (compareTags a b).isLE)
    (hbc : (compareTags b c).isLE) : (compareTags a c).isLE := by
  cases c with
  | none => cases a <;> rfl
  | some c =>
      cases b with
      | none => cases hbc
      | some b =>
          cases a with
          | none => cases hab
          | some a => exact Std.TransOrd.isLE_trans (α := String) hab hbc

instance : Std.TransCmp fun a b : Version => compareTags a.prerelease b.prerelease where
  eq_swap := compareTags_swap _ _
  isLE_trans := compareTags_isLE_trans

/-! ## Versions -/

theorem compare_eq_compareLex : (compare : Version → Version → Ordering) =
    compareLex (compareOn major) (compareLex (compareOn minor) (compareLex (compareOn patch)
      fun a b => compareTags a.prerelease b.prerelease)) := rfl

instance : Std.TransOrd Version := by
  rw [Std.TransOrd, compare_eq_compareLex]
  infer_instance

instance : Std.LawfulEqOrd Version where
  compare_self := compare_eq_iff.mpr rfl
  eq_of_compare := compare_eq_iff.mp

theorem le_refl (a : Version) : a ≤ a := Std.ReflCmp.isLE_rfl

theorem le_trans {a b c : Version} (hab : a ≤ b) (hbc : b ≤ c) : a ≤ c :=
  Std.TransOrd.isLE_trans hab hbc

theorem le_antisymm {a b : Version} (hab : a ≤ b) (hba : b ≤ a) : a = b :=
  Std.LawfulEqOrd.eq_of_compare (Std.OrientedCmp.isLE_antisymm hab hba)

theorem not_lt_of_le {a b : Version} (h : b ≤ a) : ¬ a < b := by
  intro hlt
  have hgt : compare b a = .gt := Std.OrientedCmp.gt_of_lt hlt
  have hle : (compare b a).isLE = true := h
  rw [hgt] at hle
  cases hle

/-! ## Arrangements -/

theorem isLE_or_isLE (a b : Version) : ((compare a b).isLE || (compare b a).isLE) = true := by
  rw [Std.OrientedOrd.eq_swap (a := b)]
  cases compare a b <;> rfl

theorem eq_of_perm_of_ascending {versions others : List Version} (hperm : versions.Perm others)
    (hversions : versions.Pairwise (· ≤ ·)) (hothers : others.Pairwise (· ≤ ·)) :
    versions = others :=
  hperm.eq_of_pairwise (fun _ _ _ _ => le_antisymm) hversions hothers

theorem sortedOf_perm (texts : List String) :
    (sortedOf texts).Perm (texts.filterMap ofString?) :=
  List.mergeSort_perm _ _

theorem sortedOf_ascending (texts : List String) : (sortedOf texts).Pairwise (· ≤ ·) := by
  refine List.pairwise_mergeSort ?_ isLE_or_isLE _
  intro a b c hab hbc
  exact le_trans hab hbc

theorem sortedOf_eq_iff {texts : List String} {versions : List Version} :
    sortedOf texts = versions ↔
      versions.Perm (texts.filterMap ofString?) ∧ versions.Pairwise (· ≤ ·) := by
  constructor
  · rintro rfl
    exact ⟨sortedOf_perm texts, sortedOf_ascending texts⟩
  · rintro ⟨hperm, hascending⟩
    exact eq_of_perm_of_ascending ((sortedOf_perm texts).trans hperm.symm)
      (sortedOf_ascending texts) hascending

theorem sortedOf_eq_sortedOf_iff {texts others : List String} :
    sortedOf texts = sortedOf others ↔
      (texts.filterMap ofString?).Perm (others.filterMap ofString?) := by
  rw [sortedOf_eq_iff]
  constructor
  · rintro ⟨hperm, -⟩
    exact (hperm.symm.trans (sortedOf_perm others))
  · intro hperm
    exact ⟨(sortedOf_perm others).trans hperm.symm, sortedOf_ascending others⟩

theorem ranked_perm (literals : List String) :
    (Strategy.ranked literals).Perm (literals.filterMap ofString?) :=
  List.mergeSort_perm _ _

theorem ranked_descending (literals : List String) :
    (Strategy.ranked literals).Pairwise fun a b => b ≤ a := by
  refine List.pairwise_mergeSort ?_ (fun a b => isLE_or_isLE b a) _
  intro a b c hba hcb
  exact le_trans hcb hba

theorem ranked_eq_reverse (literals : List String) :
    Strategy.ranked literals = (sortedOf literals).reverse := by
  have hsorted : sortedOf literals = (Strategy.ranked literals).reverse :=
    sortedOf_eq_iff.mpr ⟨(List.reverse_perm _).trans (ranked_perm literals),
      List.pairwise_reverse.mpr (ranked_descending literals)⟩
  rw [hsorted, List.reverse_reverse]

/-- The order is total, and sorting by it forgets the order in which versions came. -/
theorem order_total_and_arrangement_unique :
    (∀ a b : Version, compare b a = (compare a b).swap) ∧
      (∀ a b c : Version, a ≤ b → b ≤ c → a ≤ c) ∧
      (∀ a b : Version, compare a b = .eq ↔ a = b) ∧
      (∀ (texts : List String) (versions : List Version), sortedOf texts = versions ↔
        versions.Perm (texts.filterMap ofString?) ∧ versions.Pairwise (· ≤ ·)) ∧
      (∀ texts others : List String, sortedOf texts = sortedOf others ↔
        (texts.filterMap ofString?).Perm (others.filterMap ofString?)) ∧
      ∀ literals : List String, Strategy.ranked literals = (sortedOf literals).reverse :=
  ⟨fun _ _ => Std.OrientedOrd.eq_swap, fun _ _ _ => le_trans,
    fun _ _ => compare_eq_iff, fun _ _ => sortedOf_eq_iff, fun _ _ => sortedOf_eq_sortedOf_iff,
    ranked_eq_reverse⟩

theorem arrangement_of_shuffled :
    (⟨1, 9, 0, some "rc"⟩ : Version) ≤ ⟨1, 10, 0, none⟩ ∧
      sortedOf ["1.10.0", "1.9.0-rc", "1.x", "1.9.0"] =
        sortedOf ["1.9.0", "1.10.0", "1.9.0-rc"] := by
  obtain ⟨-, htrans, -, -, hsorted, -⟩ := order_total_and_arrangement_unique
  have htag : (⟨1, 9, 0, some "rc"⟩ : Version) ≤ ⟨1, 9, 0, none⟩ := by decide
  have hminor : (⟨1, 9, 0, none⟩ : Version) ≤ ⟨1, 10, 0, none⟩ := by decide
  exact ⟨htrans _ _ _ htag hminor, (hsorted _ _).mpr (by decide +kernel)⟩

end Version

end TerraformDocs
