import Mathlib.Order.Interval.Set.OrdConnected
import TerraformDocs.Proofs.Version.Order
import TerraformDocs.Proofs.Version.Spelling
import TerraformDocs.Text.Digit
import TerraformDocs.Version.Clause

/-!
# What a clause admits

A clause compares versions with its bound.  Terraform has eight comparisons, one of them without a
mark, and a clause can be read with one of them at most (`Reads.unique`).  All but `!=` are
understood: a version meets such a clause if it lies in the interval that the comparison describes.
Whatever else stands for a clause is met by the texts that are equal to it, between blanks
(`satisfies_exact`).
-/

namespace TerraformDocs.Version

open TerraformDocs.Text

/-! ## The linear order -/

theorem lt_iff_le_not_le (a b : Version) : a < b ↔ a ≤ b ∧ ¬ b ≤ a := by
  change compare a b = .lt ↔ (compare a b).isLE = true ∧ ¬ (compare b a).isLE = true
  rw [Std.OrientedOrd.eq_swap (a := b)]
  cases compare a b <;> simp

theorem compare_eq_compareOfLessAndEq (a b : Version) :
    compare a b = compareOfLessAndEq a b := by
  have hlt : a < b ↔ compare a b = .lt := Iff.rfl
  unfold compareOfLessAndEq
  simp only [hlt, ← compare_eq_iff]
  cases compare a b <;> simp

instance : LinearOrder Version where
  le_refl := le_refl
  le_trans _ _ _ := le_trans
  lt_iff_le_not_ge := lt_iff_le_not_le
  le_antisymm _ _ := le_antisymm
  le_total a b := (Bool.or_eq_true_iff ..).mp (isLE_or_isLE a b)
  toDecidableLE := inferInstance
  toDecidableEq := inferInstance
  toDecidableLT := inferInstance
  compare_eq_compareOfLessAndEq := compare_eq_compareOfLessAndEq

theorem major_le_of_le {a b : Version} (h : a ≤ b) : a.major ≤ b.major := by
  by_contra hlt
  have hgt : compare a.major b.major = .gt := Nat.compare_eq_gt.mpr (Nat.lt_of_not_le hlt)
  change (compare a b).isLE = true at h
  rw [compare_def, hgt] at h
  cases h

theorem minor_le_of_le {a b : Version} (h : a ≤ b) (hmajor : a.major = b.major) :
    a.minor ≤ b.minor := by
  by_contra hlt
  have heq : compare a.major b.major = .eq := Nat.compare_eq_eq.mpr hmajor
  have hgt : compare a.minor b.minor = .gt := Nat.compare_eq_gt.mpr (Nat.lt_of_not_le hlt)
  change (compare a b).isLE = true at h
  rw [compare_def, heq, hgt] at h
  cases h

/-! ## Comparisons -/

inductive Comparison where
  | bare
  | equal
  | unequal
  | above
  | atLeast
  | below
  | atMost
  | pessimistic
deriving DecidableEq, Repr

namespace Comparison

def mark : Comparison → String
  | bare => ""
  | equal => "="
  | unequal => "!="
  | above => ">"
  | atLeast => ">="
  | below => "<"
  | atMost => "<="
  | pessimistic => "~>"

def admitted (bound : Version) : Comparison → Set Version
  | bare | equal => {bound}
  | unequal => {bound}ᶜ
  | above => Set.Ioi bound
  | atLeast => Set.Ici bound
  | below => Set.Iio bound
  | atMost => Set.Iic bound
  | pessimistic => Set.Ici bound ∩ {v | v.major = bound.major ∧ v.minor = bound.minor}

def markChars : List Char := ['~', '>', '<', '=', '!']

theorem mem_markChars (comparison : Comparison) : ∀ c ∈ comparison.mark.toList, c ∈ markChars := by
  cases comparison <;> simp [mark, markChars]

theorem plain_of_mem_markChars {c : Char} (h : c ∈ markChars) :
    isBlank c = false ∧ isDecimalDigit c = false := by
  simp only [markChars, List.mem_cons, List.not_mem_nil, or_false] at h
  rcases h with rfl | rfl | rfl | rfl | rfl <;> decide

theorem eq_of_mark_eq {comparison other : Comparison} (h : comparison.mark = other.mark) :
    comparison = other := by
  cases comparison <;> cases other <;> first | rfl | exact absurd h (by decide)

theorem ordConnected_sameMinor (bound : Version) :
    {v : Version | v.major = bound.major ∧ v.minor = bound.minor}.OrdConnected := by
  refine ⟨fun a ha c hc b ⟨hab, hbc⟩ => ?_⟩
  obtain ⟨hmajorA, hminorA⟩ := ha
  obtain ⟨hmajorC, hminorC⟩ := hc
  have hlow := major_le_of_le hab
  have hhigh := major_le_of_le hbc
  have hmajor : b.major = bound.major := by omega
  have hlow := minor_le_of_le hab (by omega)
  have hhigh := minor_le_of_le hbc (by omega)
  have hminor : b.minor = bound.minor := by omega
  exact ⟨hmajor, hminor⟩

theorem ordConnected_admitted {comparison : Comparison} (h : comparison ≠ unequal)
    (bound : Version) : (comparison.admitted bound).OrdConnected := by
  cases comparison with
  | bare => exact Set.ordConnected_singleton
  | equal => exact Set.ordConnected_singleton
  | unequal => exact absurd rfl h
  | above => exact Set.ordConnected_Ioi
  | atLeast => exact Set.ordConnected_Ici
  | below => exact Set.ordConnected_Iio
  | atMost => exact Set.ordConnected_Iic
  | pessimistic => exact Set.ordConnected_Ici.inter (ordConnected_sameMinor bound)

theorem le_of_mem_admitted {comparison : Comparison} {bound candidate : Version}
    (hcomparison : comparison ∈ [atLeast, above, equal, pessimistic, bare])
    (h : candidate ∈ comparison.admitted bound) : bound ≤ candidate := by
  cases comparison with
  | bare => exact (Set.mem_singleton_iff.mp h).ge
  | equal => exact (Set.mem_singleton_iff.mp h).ge
  | above => exact le_of_lt h
  | atLeast => exact h
  | pessimistic => exact h.1
  | unequal => simp at hcomparison
  | below => simp at hcomparison
  | atMost => simp at hcomparison

/-- The operator that the comparison is taken for, if it is understood. -/
def operator? : Comparison → Option Operator
  | bare | equal => some .exactly
  | unequal => none
  | above => some .above
  | atLeast => some .atLeast
  | below => some .below
  | atMost => some .atMost
  | pessimistic => some .pessimistic

theorem operator?_eq_none_iff {comparison : Comparison} :
    comparison.operator? = none ↔ comparison = unequal := by
  cases comparison <;> decide

theorem holds_iff {comparison : Comparison} {op : Operator} (h : comparison.operator? = some op)
    {candidate bound : Version} :
    op.Holds candidate bound ↔ candidate ∈ comparison.admitted bound := by
  cases comparison <;> cases h <;> rfl

end Comparison

open Comparison

/-! ## Readings -/

variable {clause : List Char} {comparison other : Comparison} {bound limit candidate : Version}

/-- The clause is the mark of the comparison, blanks or none, and a text of the bound. -/
def Reads (clause : List Char) (comparison : Comparison) (bound : Version) : Prop :=
  ∃ gap operand, Blanks gap ∧ ofString? operand = some bound ∧
    trimChars clause = comparison.mark.toList ++ (gap ++ operand.toList)

theorem reads_iff : Reads clause comparison bound ↔
    ∃ rest, ofChars? (trimChars rest) = some bound ∧
      trimChars clause = comparison.mark.toList ++ rest := by
  constructor
  · rintro ⟨gap, operand, hgap, hoperand, hclause⟩
    refine ⟨_, ?_, hclause⟩
    rwa [trimChars_blanks_append hgap]
  · rintro ⟨rest, hrest, hclause⟩
    exact ⟨[], String.ofList rest, by simp [Blanks], by simpa [ofString?] using hrest,
      by simpa using hclause⟩

theorem not_mem_markChars {rest : List Char} (h : ofChars? (trimChars rest) = some bound) :
    ∀ c ∈ rest.head?, c ∉ markChars := by
  obtain ⟨front, back, hfront, -, hrest⟩ := exists_blanks_trimChars rest
  intro c hc hmem
  obtain ⟨hblank, hdigit⟩ := plain_of_mem_markChars hmem
  rw [hrest] at hc
  cases front with
  | cons d front =>
      obtain rfl : d = c := by simpa using hc
      exact hfront.not_mem hblank List.mem_cons_self
  | nil =>
      obtain ⟨-, major, _, _, hmajor, -, -, hspelling⟩ := ofChars?_eq_some_iff.mp h
      obtain ⟨d, major, rfl⟩ := List.exists_cons_of_ne_nil hmajor.ne_nil
      obtain rfl : d = c := by simpa [hspelling] using hc
      rw [isDecimalDigit_of_isDigit (hmajor.isDigit d List.mem_cons_self)] at hdigit
      cases hdigit

/-- The mark of a clause is the longest run of mark characters at its start. -/
theorem Reads.unique (h : Reads clause comparison bound) (hother : Reads clause other limit) :
    comparison = other ∧ bound = limit := by
  have hcut {comparison : Comparison} {bound : Version} (h : Reads clause comparison bound) :
      (trimChars clause).takeWhile (· ∈ markChars) = comparison.mark.toList ∧
        ofChars? (trimChars ((trimChars clause).dropWhile (· ∈ markChars))) = some bound := by
    obtain ⟨rest, hrest, hclause⟩ := reads_iff.mp h
    have hmark : ∀ c ∈ comparison.mark.toList, decide (c ∈ markChars) = true := by
      simpa using mem_markChars comparison
    have hstop : ∀ c ∈ rest.head?, decide (c ∈ markChars) = false := by
      simpa using not_mem_markChars hrest
    obtain ⟨htake, hdrop⟩ := takeWhile_append_of_head hmark hstop
    rw [hclause, htake, hdrop]
    exact ⟨rfl, hrest⟩
  obtain ⟨hmark, hbound⟩ := hcut h
  obtain ⟨hmarkOther, hlimit⟩ := hcut hother
  rw [hmark] at hmarkOther
  rw [hbound] at hlimit
  exact ⟨eq_of_mark_eq (String.toList_inj.mp hmarkOther), Option.some.inj hlimit⟩

theorem clauseParts_mark {op : Operator} (hop : comparison.operator? = some op) {rest : List Char}
    (hrest : ∀ c ∈ rest.head?, c ∉ markChars) (hbare : comparison = bare → trimChars rest = rest) :
    clauseParts (comparison.mark.toList ++ rest) = (op, trimChars rest) := by
  cases rest with
  | nil => cases comparison <;> cases hop <;> decide
  | cons c rest =>
      -- no mark character follows, so a longer mark of the table cannot be read here
      have hc : c ∉ markChars := hrest c rfl
      simp only [markChars, List.mem_cons, List.not_mem_nil, or_false, not_or,
        eq_comm (a := c)] at hc
      cases comparison <;> cases hop <;>
        simp [clauseParts, Operator.table, mark, List.isPrefixOf?, hc, hbare]

theorem Reads.clauseParts_eq (h : Reads clause comparison bound) {op : Operator}
    (hop : comparison.operator? = some op) :
    ∃ operand, clauseParts (trimChars clause) = (op, operand) ∧ ofChars? operand = some bound := by
  obtain ⟨rest, hrest, hclause⟩ := reads_iff.mp h
  refine ⟨trimChars rest, ?_, hrest⟩
  rw [hclause]
  refine clauseParts_mark hop (not_mem_markChars hrest) ?_
  rintro rfl
  have hwhole : trimChars clause = rest := hclause
  rw [← hwhole, trimChars_trimChars]

theorem exists_of_mem_table {word : String} {op : Operator} (h : (word, op) ∈ Operator.table) :
    ∃ comparison : Comparison, comparison.mark = word ∧ comparison.operator? = some op := by
  revert h
  simp only [Operator.table, List.mem_cons, List.not_mem_nil, or_false, Prod.mk.injEq]
  rintro (⟨rfl, rfl⟩ | ⟨rfl, rfl⟩ | ⟨rfl, rfl⟩ | ⟨rfl, rfl⟩ | ⟨rfl, rfl⟩ | ⟨rfl, rfl⟩)
  · exact ⟨pessimistic, rfl, rfl⟩
  · exact ⟨atLeast, rfl, rfl⟩
  · exact ⟨atMost, rfl, rfl⟩
  · exact ⟨above, rfl, rfl⟩
  · exact ⟨below, rfl, rfl⟩
  · exact ⟨equal, rfl, rfl⟩

theorem exists_reads {op : Operator} {operand : List Char}
    (hparts : clauseParts (trimChars clause) = (op, operand))
    (hoperand : ofChars? operand = some bound) :
    ∃ comparison : Comparison, comparison.operator? = some op ∧ Reads clause comparison bound := by
  simp only [clauseParts, Option.getD_eq_iff] at hparts
  rcases hparts with hfound | ⟨-, hwhole⟩
  · obtain ⟨⟨word, other⟩, hmem, hreading⟩ := List.exists_of_findSome?_eq_some hfound
    obtain ⟨rest, hrest, heq⟩ := Option.map_eq_some_iff.mp hreading
    obtain ⟨rfl, rfl⟩ := Prod.mk.inj heq
    obtain ⟨comparison, rfl, hop⟩ := exists_of_mem_table hmem
    have hclause := List.isPrefixOf?_eq_some_iff_append_eq.mp hrest
    exact ⟨comparison, hop, reads_iff.mpr ⟨rest, hoperand, hclause.symm⟩⟩
  · obtain ⟨rfl, rfl⟩ := Prod.mk.inj hwhole
    refine ⟨bare, rfl, reads_iff.mpr ⟨trimChars clause, ?_, rfl⟩⟩
    rwa [trimChars_trimChars]

/-! ## Satisfaction -/

theorem Reads.satisfies_iff {version clause : String} (h : Reads clause.toList comparison bound)
    (hcomparison : comparison ≠ unequal) (hversion : ofString? version = some candidate) :
    satisfies version clause = true ↔ candidate ∈ comparison.admitted bound := by
  obtain ⟨op, hop⟩ := Option.ne_none_iff_exists'.mp (mt operator?_eq_none_iff.mp hcomparison)
  obtain ⟨operand, hparts, hoperand⟩ := h.clauseParts_eq hop
  simp [satisfies, hparts, hversion, hoperand, holds_iff hop]

theorem satisfies_iff_trim_eq {version clause : String}
    (h : ofString? version = none ∨
      ∀ comparison bound, Reads clause.toList comparison bound → comparison = unequal) :
    satisfies version clause = true ↔ trim version = trim clause := by
  obtain ⟨op, operand, hparts⟩ :
      ∃ op operand, clauseParts (trimChars clause.toList) = (op, operand) := ⟨_, _, rfl⟩
  have htext : trim version = trim clause ↔
      trimChars version.toList = trimChars clause.toList := by
    rw [← String.toList_inj, toList_trim, toList_trim]
  rw [htext]
  cases hversion : ofString? version with
  | none => simp [satisfies, hversion]
  | some candidate =>
      cases hoperand : ofChars? operand with
      | none => simp [satisfies, hparts, hversion, hoperand]
      | some bound =>
          obtain ⟨comparison, hop, hreads⟩ := exists_reads hparts hoperand
          rw [hversion] at h
          rcases h with h | h
          · cases h
          · obtain rfl := h comparison bound hreads
            cases hop

theorem satisfies_iff_exists {version clause : String}
    (hversion : ofString? version = some candidate) :
    satisfies version clause = true ↔ ∃ comparison bound, comparison ≠ unequal ∧
      Reads clause.toList comparison bound ∧ candidate ∈ comparison.admitted bound := by
  constructor
  · intro h
    by_cases hunread : ∀ comparison bound, Reads clause.toList comparison bound →
        comparison = unequal
    · -- a clause that is equal to a version's text would be a bare bound
      have htext := (satisfies_iff_trim_eq (.inr hunread)).mp h
      have hchars : trimChars clause.toList = trimChars version.toList := by
        rw [← toList_trim, ← toList_trim, htext]
      have hbare : Reads clause.toList bare candidate := by
        refine reads_iff.mpr ⟨trimChars version.toList, ?_, hchars⟩
        rwa [trimChars_trimChars]
      exact absurd (hunread bare candidate hbare) (by decide)
    · push Not at hunread
      obtain ⟨comparison, bound, hreads, hcomparison⟩ := hunread
      exact ⟨comparison, bound, hcomparison, hreads,
        (hreads.satisfies_iff hcomparison hversion).mp h⟩
  · rintro ⟨comparison, bound, hcomparison, hreads, hadmitted⟩
    exact (hreads.satisfies_iff hcomparison hversion).mpr hadmitted

/--
A clause has one reading at most.  A version meets a clause that is understood if it lies among the
versions that the comparison asks for; anything else is compared as text, blanks around it apart.
-/
theorem satisfies_exact :
    (∀ (version clause : String) (candidate bound : Version) (comparison : Comparison),
      ofString? version = some candidate → Reads clause.toList comparison bound →
        comparison ≠ unequal →
          (satisfies version clause = true ↔ candidate ∈ comparison.admitted bound)) ∧
      (∀ (clause : String) (comparison other : Comparison) (bound limit : Version),
        Reads clause.toList comparison bound → Reads clause.toList other limit →
          comparison = other ∧ bound = limit) ∧
      ∀ version clause : String, (ofString? version = none ∨
        ∀ comparison bound, Reads clause.toList comparison bound → comparison = unequal) →
          (satisfies version clause = true ↔ trim version = trim clause) :=
  ⟨fun _ _ _ _ _ hversion hreads hcomparison => hreads.satisfies_iff hcomparison hversion,
    fun _ _ _ _ _ => Reads.unique, fun _ _ => satisfies_iff_trim_eq⟩

theorem satisfies_exact_padded :
    Reads " >=1.2.3-rc ".toList atLeast ⟨1, 2, 3, some "rc"⟩ ∧
      satisfies "1.2.3" " >=1.2.3-rc " = true ∧
      (∀ bound, ¬ Reads " >=1.2.3-rc ".toList above bound) ∧
      satisfies "latest" " latest" = true := by
  obtain ⟨hunderstood, hunique, htext⟩ := satisfies_exact
  have hreads : Reads " >=1.2.3-rc ".toList atLeast ⟨1, 2, 3, some "rc"⟩ :=
    ⟨[], "1.2.3-rc", by decide, by decide +kernel, by decide +kernel⟩
  have hversion : ofString? "1.2.3" = some ⟨1, 2, 3, none⟩ := by decide +kernel
  have hadmitted : (⟨1, 2, 3, none⟩ : Version) ∈ atLeast.admitted ⟨1, 2, 3, some "rc"⟩ := by
    change (⟨1, 2, 3, some "rc"⟩ : Version) ≤ ⟨1, 2, 3, none⟩
    decide
  refine ⟨hreads, (hunderstood _ _ _ _ _ hversion hreads (by decide)).mpr hadmitted, ?_, ?_⟩
  · intro bound habove
    cases (hunique _ _ _ _ _ hreads habove).1
  · exact (htext "latest" " latest" (.inl (by decide +kernel))).mpr (by decide +kernel)

end TerraformDocs.Version
