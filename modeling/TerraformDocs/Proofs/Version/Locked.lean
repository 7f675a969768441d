import TerraformDocs.Proofs.Version.Clause
import TerraformDocs.Proofs.Version.Literal
import TerraformDocs.Proofs.Version.Ranking

/-!
# Locked versions and their constraints

A locked version is held against the clauses that have a literal.  It passes such a clause only if
the clause is a comparison that is understood and asks for it.  So a lock that meets its constraints
passes unless they use `!=` (`lockedSatisfies_iff_meets`), and there are no gaps between the
versions that pass (`lockedSatisfies_between`).  The literal of a comparison is its bound, so `low`
does not choose above a lock that keeps to a bound from below (`low_resolve_le_locked`).
-/

namespace TerraformDocs

open TerraformDocs.Text

namespace Version

open Comparison

variable {clause : List Char} {comparison : Comparison} {bound candidate : Version}
  {locked expression : String}

/-! ## Clauses of an expression -/

theorem trimChars_of_mem_clauses {cs : List Char} (h : clause ∈ clauses cs) :
    trimChars clause = clause := by
  obtain ⟨piece, -, rfl⟩ := List.mem_map.mp h
  exact trimChars_trimChars piece

theorem Reads.exists_literal (h : Reads clause comparison bound) :
    ∃ literal, firstLiteral? (trimChars clause) = some literal ∧
      ofString? (String.ofList literal) = some bound := by
  obtain ⟨gap, operand, hgap, hoperand, hclause⟩ := h
  obtain ⟨front, spelling, back, hfront, hback, hspelling, htext⟩ :=
    ofString?_eq_some_iff.mp hoperand
  have hplain : ∀ c ∈ comparison.mark.toList ++ (gap ++ front), isDecimalDigit c = false := by
    simp only [List.forall_mem_append]
    exact ⟨fun c hc => (plain_of_mem_markChars (mem_markChars comparison c hc)).2,
      fun c hc => isDecimalDigit_of_isBlank (hgap c hc),
      fun c hc => isDecimalDigit_of_isBlank (hfront c hc)⟩
  refine ⟨spelling, ?_, ?_⟩
  · rw [hclause, htext]
    simpa using firstLiteral?_spelling hplain hspelling hback
  · rw [ofString?, String.toList_ofList, trimChars_eq_self hspelling.isBlank_eq_false]
    exact ofChars?_eq_some_iff.mpr hspelling

theorem Reads.namesLiteral (h : Reads clause comparison bound) :
    NamesLiteral (trimChars clause) := by
  obtain ⟨literal, hliteral, -⟩ := h.exists_literal
  exact isSome_firstLiteral?_iff.mp (Option.isSome_of_eq_some hliteral)

/-! ## Passing all clauses -/

theorem lockedSatisfies_iff : lockedSatisfies locked expression = true ↔
    ∀ clause ∈ clauses expression.toList, NamesLiteral clause →
      satisfies locked (String.ofList clause) = true := by
  simp only [lockedSatisfies, List.all_eq_true, List.mem_filter, and_imp, isSome_firstLiteral?_iff]

theorem lockedSatisfies_iff_exists (hlocked : ofString? locked = some candidate) :
    lockedSatisfies locked expression = true ↔
      ∀ clause ∈ clauses expression.toList, NamesLiteral clause →
        ∃ comparison bound, comparison ≠ unequal ∧ Reads clause comparison bound ∧
          candidate ∈ comparison.admitted bound := by
  simp only [lockedSatisfies_iff, satisfies_iff_exists hlocked, String.toList_ofList]

/-- Every clause is a comparison that asks for the version. -/
def Meets (candidate : Version) (expression : String) : Prop :=
  ∀ clause ∈ clauses expression.toList, ∃ comparison bound, Reads clause comparison bound ∧
    candidate ∈ comparison.admitted bound

/-- Of constraints that are all comparisons, those with `!=` are not understood. -/
theorem lockedSatisfies_iff_meets (hlocked : ofString? locked = some candidate)
    (hclauses : ∀ clause ∈ clauses expression.toList, ∃ comparison bound,
      Reads clause comparison bound) :
    lockedSatisfies locked expression = true ↔ Meets candidate expression ∧
      ∀ clause ∈ clauses expression.toList, ∀ bound, ¬ Reads clause unequal bound := by
  rw [lockedSatisfies_iff_exists hlocked]
  constructor
  · intro h
    have hpassed : ∀ clause ∈ clauses expression.toList, ∃ comparison bound,
        comparison ≠ unequal ∧ Reads clause comparison bound ∧
          candidate ∈ comparison.admitted bound := by
      intro clause hclause
      obtain ⟨comparison, bound, hreads⟩ := hclauses clause hclause
      have hliteral := hreads.namesLiteral
      rw [trimChars_of_mem_clauses hclause] at hliteral
      exact h clause hclause hliteral
    refine ⟨fun clause hclause => ?_, fun clause hclause limit hunequal => ?_⟩
    · obtain ⟨comparison, bound, -, hmet⟩ := hpassed clause hclause
      exact ⟨comparison, bound, hmet⟩
    · obtain ⟨comparison, bound, hcomparison, hreads, -⟩ := hpassed clause hclause
      exact hcomparison (hreads.unique hunequal).1
  · rintro ⟨hmeets, hunequal⟩ clause hclause -
    obtain ⟨comparison, bound, hreads, hadmitted⟩ := hmeets clause hclause
    refine ⟨comparison, bound, ?_, hreads, hadmitted⟩
    rintro rfl
    exact hunequal clause hclause bound hreads

theorem lockedSatisfies_iff_meets_release :
    Meets ⟨5, 31, 4, none⟩ ">=5.0.0-rc, ~> 5.31.0" ∧
      lockedSatisfies "5.31.4" ">=5.0.0-rc, ~> 5.31.0" = true := by
  have hlocked : ofString? "5.31.4" = some ⟨5, 31, 4, none⟩ := by decide +kernel
  have hclauses : clauses ">=5.0.0-rc, ~> 5.31.0".toList =
      [">=5.0.0-rc".toList, "~> 5.31.0".toList] := by decide +kernel
  have hlow : Reads ">=5.0.0-rc".toList atLeast ⟨5, 0, 0, some "rc"⟩ :=
    ⟨[], "5.0.0-rc", by decide, by decide +kernel, by decide +kernel⟩
  have hminor : Reads "~> 5.31.0".toList pessimistic ⟨5, 31, 0, none⟩ :=
    ⟨[' '], "5.31.0", by decide, by decide +kernel, by decide +kernel⟩
  have hmeets : Meets ⟨5, 31, 4, none⟩ ">=5.0.0-rc, ~> 5.31.0" := by
    rw [Meets, hclauses]
    simp only [List.forall_mem_cons, List.not_mem_nil, false_implies, implies_true, and_true]
    have hle : (⟨5, 0, 0, some "rc"⟩ : Version) ≤ ⟨5, 31, 4, none⟩ := by decide
    have hleMinor : (⟨5, 31, 0, none⟩ : Version) ≤ ⟨5, 31, 4, none⟩ := by decide
    exact ⟨⟨atLeast, _, hlow, hle⟩, pessimistic, _, hminor, hleMinor, rfl, rfl⟩
  refine ⟨hmeets, (lockedSatisfies_iff_meets hlocked fun clause hclause => ?_).mpr
    ⟨hmeets, fun clause hclause bound hunequal => ?_⟩⟩
  · obtain ⟨comparison, bound, hreads, -⟩ := hmeets clause hclause
    exact ⟨comparison, bound, hreads⟩
  · rw [hclauses] at hclause
    rcases List.mem_cons.mp hclause with rfl | hclause
    · cases (hlow.unique hunequal).1
    · obtain rfl := List.mem_singleton.mp hclause
      cases (hminor.unique hunequal).1

/-- A lock that meets its constraints does not pass if they use `!=`. -/
theorem not_lockedSatisfies_unequal :
    ofString? "5.31.0" = some ⟨5, 31, 0, none⟩ ∧ Meets ⟨5, 31, 0, none⟩ ">= 5.0.0, != 5.30.0" ∧
      lockedSatisfies "5.31.0" ">= 5.0.0, != 5.30.0" = false := by
  have hclauses : clauses ">= 5.0.0, != 5.30.0".toList =
      [">= 5.0.0".toList, "!= 5.30.0".toList] := by decide +kernel
  have hlow : Reads ">= 5.0.0".toList atLeast ⟨5, 0, 0, none⟩ :=
    ⟨[' '], "5.0.0", by decide, by decide +kernel, by decide +kernel⟩
  have hunequal : Reads "!= 5.30.0".toList unequal ⟨5, 30, 0, none⟩ :=
    ⟨[' '], "5.30.0", by decide, by decide +kernel, by decide +kernel⟩
  refine ⟨by decide +kernel, ?_, by decide +kernel⟩
  rw [Meets, hclauses]
  simp only [List.forall_mem_cons, List.not_mem_nil, false_implies, implies_true, and_true]
  have hle : (⟨5, 0, 0, none⟩ : Version) ≤ ⟨5, 31, 0, none⟩ := by decide
  have hne : (⟨5, 31, 0, none⟩ : Version) ≠ ⟨5, 30, 0, none⟩ := by decide
  exact ⟨⟨atLeast, _, hlow, hle⟩, unequal, _, hunequal, hne⟩

/-- Of the versions between two that pass, all pass. -/
theorem lockedSatisfies_between {lower middle upper : String} {a b c : Version}
    (hlower : ofString? lower = some a) (hmiddle : ofString? middle = some b)
    (hupper : ofString? upper = some c) (hab : a ≤ b) (hbc : b ≤ c)
    (hpassLower : lockedSatisfies lower expression = true)
    (hpassUpper : lockedSatisfies upper expression = true) :
    lockedSatisfies middle expression = true := by
  rw [lockedSatisfies_iff_exists hlower] at hpassLower
  rw [lockedSatisfies_iff_exists hupper] at hpassUpper
  rw [lockedSatisfies_iff_exists hmiddle]
  intro clause hclause hliteral
  obtain ⟨comparison, bound, hcomparison, hreads, ha⟩ := hpassLower clause hclause hliteral
  obtain ⟨other, limit, -, hother, hc⟩ := hpassUpper clause hclause hliteral
  -- both versions pass the clause by its one reading, which admits an interval
  obtain ⟨rfl, rfl⟩ := hreads.unique hother
  exact ⟨comparison, bound, hcomparison, hreads,
    (ordConnected_admitted hcomparison bound).out ha hc ⟨hab, hbc⟩⟩

theorem lockedSatisfies_between_tags :
    let expression := "~> 1.2.0-beta, != any, <= 1.2.9"
    (⟨1, 2, 0, some "beta"⟩ : Version) ≤ ⟨1, 2, 0, none⟩ ∧
      (⟨1, 2, 0, none⟩ : Version) ≤ ⟨1, 2, 9, some "rc"⟩ ∧
      lockedSatisfies "1.2.0-beta" expression = true ∧
      lockedSatisfies "1.2.9-rc" expression = true ∧
      lockedSatisfies "1.2.0" expression = true := by
  intro expression
  have hlower : ofString? "1.2.0-beta" = some ⟨1, 2, 0, some "beta"⟩ := by decide +kernel
  have hmiddle : ofString? "1.2.0" = some ⟨1, 2, 0, none⟩ := by decide +kernel
  have hupper : ofString? "1.2.9-rc" = some ⟨1, 2, 9, some "rc"⟩ := by decide +kernel
  have hab : (⟨1, 2, 0, some "beta"⟩ : Version) ≤ ⟨1, 2, 0, none⟩ := by decide
  have hbc : (⟨1, 2, 0, none⟩ : Version) ≤ ⟨1, 2, 9, some "rc"⟩ := by decide
  have hpassLower : lockedSatisfies "1.2.0-beta" expression = true := by decide +kernel
  have hpassUpper : lockedSatisfies "1.2.9-rc" expression = true := by decide +kernel
  exact ⟨hab, hbc, hpassLower, hpassUpper,
    lockedSatisfies_between hlower hmiddle hupper hab hbc hpassLower hpassUpper⟩

end Version

/-! ## The lowest choice -/

namespace Strategy

open Version

/-- If the lock passes a clause that bounds it from below, `low` chooses no version above it. -/
theorem low_resolve_le_locked {locked expression : String} {candidate bound : Version}
    {clause : List Char} {comparison : Comparison} (hlocked : ofString? locked = some candidate)
    (hclause : clause ∈ clauses expression.toList) (hreads : Reads clause comparison bound)
    (hcomparison : comparison ∈ [.atLeast, .above, .equal, .pessimistic, .bare])
    (hpass : satisfies locked (String.ofList clause) = true) :
    ∃ chosen, ofString? (low.resolve locked (some expression)) = some chosen ∧
      chosen ≤ candidate := by
  obtain ⟨other, limit, -, hother, hadmitted⟩ := (satisfies_iff_exists hlocked).mp hpass
  rw [String.toList_ofList] at hother
  obtain ⟨rfl, rfl⟩ := hreads.unique hother
  have hbelow : bound ≤ candidate := Comparison.le_of_mem_admitted hcomparison hadmitted
  obtain ⟨literal, hliteral, hbound⟩ := hreads.exists_literal
  rw [trimChars_of_mem_clauses hclause] at hliteral
  have hmem : String.ofList literal ∈ named (some expression) :=
    mem_literals_iff.mpr ⟨clause, hclause, by rw [hliteral, String.toList_ofList]⟩
  obtain ⟨chosen, hchosen, hle⟩ := low_resolve_le hmem hbound
  exact ⟨chosen, hchosen, Version.le_trans hle hbelow⟩

theorem low_resolve_le_locked_excluded :
    let expression := "!= 5.2.0, ~> 5.10.0-rc, < 6.0.0"
    satisfies "5.10.3" "~> 5.10.0-rc" = true ∧
      low.resolve "5.10.3" (some expression) = "5.2.0" ∧
      (⟨5, 2, 0, none⟩ : Version) ≤ ⟨5, 10, 3, none⟩ := by
  intro expression
  have hlocked : ofString? "5.10.3" = some ⟨5, 10, 3, none⟩ := by decide +kernel
  have hclause : "~> 5.10.0-rc".toList ∈ clauses expression.toList := by decide +kernel
  have hreads : Reads "~> 5.10.0-rc".toList .pessimistic ⟨5, 10, 0, some "rc"⟩ :=
    ⟨[' '], "5.10.0-rc", by decide, by decide +kernel, by decide +kernel⟩
  have hpass : satisfies "5.10.3" "~> 5.10.0-rc" = true := by decide +kernel
  have hnamed : named (some expression) = ["5.2.0", "5.10.0-rc", "6.0.0"] := by decide +kernel
  have hsorted : sortedOf ["5.2.0", "5.10.0-rc", "6.0.0"] =
      [⟨5, 2, 0, none⟩, ⟨5, 10, 0, some "rc"⟩, ⟨6, 0, 0, none⟩] :=
    sortedOf_eq_iff.mpr (by decide +kernel)
  have hlow : low.resolve "5.10.3" (some expression) = "5.2.0" := by
    rw [resolve_of_not_sole (by simp [hnamed]), hnamed, ranked_eq_reverse,
      hsorted]
    decide +kernel
  obtain ⟨chosen, hchosen, hle⟩ := low_resolve_le_locked hlocked hclause hreads (by decide) hpass
  rw [hlow] at hchosen
  obtain rfl : (⟨5, 2, 0, none⟩ : Version) = chosen :=
    Option.some.inj (Eq.trans (by decide +kernel) hchosen)
  exact ⟨hpass, hlow, hle⟩

end Strategy

end TerraformDocs
