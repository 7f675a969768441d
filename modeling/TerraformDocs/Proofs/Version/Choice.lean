import TerraformDocs.Proofs.Version.Readable
import TerraformDocs.Version.Strategy

/-!
# What a strategy chooses

A strategy other than `high` looks at the literals that the constraints name (`resolve_eq`).  Of
several it picks from the ranking of those that are versions, or keeps the locked version.  A
literal that stands alone is taken as it is, before anything else is considered: the strategy may
be unrecognized (`resolve_ofName_eq_locked_iff`), and the literal may be no version
(`choosesSoundly_iff`).
-/

namespace TerraformDocs

open TerraformDocs.Text

theorem Version.literals_eq_nil {expression : String} (h : trimChars expression.toList = []) :
    literals expression = [] := by
  have hcomma : ',' ∉ expression.toList := by
    intro hmem
    exact absurd (isBlank_of_trimChars_eq_nil h ',' hmem) (by decide)
  rw [literals, clauses, List.splitOn_eq_singleton hcomma, List.map_singleton, h]
  rfl

namespace Strategy

variable {strategy : Strategy} {locked : String} {constraints : Option String}

def named (constraints : Option String) : List String :=
  (constraints.map Version.literals).getD []

/-! ## The choice -/

theorem mem_ranked {literals : List String} {version : Version} :
    version ∈ ranked literals ↔
      ∃ literal ∈ literals, Version.ofString? literal = some version := by
  rw [ranked, List.mem_mergeSort, List.mem_filterMap]

theorem mem_of_pick? {versions : List Version} {version : Version}
    (h : strategy.pick? versions = some version) : version ∈ versions := by
  cases strategy with
  | low => exact List.mem_of_getLast? h
  | middle => exact List.mem_of_getElem? h
  | high => cases h
  | unrecognized name => cases h

theorem pick?_ranked_nil (strategy : Strategy) : strategy.pick? (ranked []) = none := by
  cases strategy <;> simp [ranked, pick?]

theorem resolve_eq (strategy : Strategy) (locked : String) (constraints : Option String) :
    strategy.resolve locked constraints =
      if strategy = high then locked
      else
        match named constraints with
        | [only] => only
        | literals => ((strategy.pick? (ranked literals)).map Version.text).getD locked := by
  cases constraints with
  | none => simp [resolve, named, pick?_ranked_nil]
  | some expression =>
      by_cases hhigh : strategy = high
      · simp [resolve, hhigh]
      · by_cases hblank : trimChars expression.toList = []
        · simp [resolve, named, hblank, Version.literals_eq_nil hblank, pick?_ranked_nil]
        · simp only [resolve, hblank, hhigh, or_self, if_false]
          rfl

theorem resolve_of_sole (hstrategy : strategy ≠ high) {literal : String}
    (h : named constraints = [literal]) : strategy.resolve locked constraints = literal := by
  rw [resolve_eq, if_neg hstrategy, h]

theorem resolve_of_not_sole (h : ∀ literal, named constraints ≠ [literal]) :
    strategy.resolve locked constraints =
      ((strategy.pick? (ranked (named constraints))).map Version.text).getD locked := by
  rw [resolve_eq]
  split
  · next hhigh => simp [hhigh, pick?]
  · split
    · next only heq => exact absurd heq (h only)
    · rfl

/-! ## Strategies by name -/

theorem ofName_eq_high_iff {name : String} : ofName name = high ↔ trim name = "high" := by
  unfold ofName
  split
  · next h => simp [h]
  · next h => simp [h]
  · next h => simp [h]
  · next hhigh _ _ => simpa using hhigh

theorem pick?_ofName {name : String} (hlow : trim name ≠ "low") (hmiddle : trim name ≠ "middle")
    (versions : List Version) : (ofName name).pick? versions = none := by
  unfold ofName
  split
  · rfl
  · next h => exact absurd h hlow
  · next h => exact absurd h hmiddle
  · rfl

/-- A name that is not `low` or `middle` leaves the locked version as it is, unless it is not
`high` either and the constraints name one literal, which is another text. -/
theorem resolve_ofName_eq_locked_iff {name : String} (hlow : trim name ≠ "low")
    (hmiddle : trim name ≠ "middle") (locked : String) (constraints : Option String) :
    (ofName name).resolve locked constraints = locked ↔
      trim name = "high" ∨ ∀ literal, named constraints = [literal] → literal = locked := by
  rw [← ofName_eq_high_iff]
  by_cases hhigh : ofName name = high
  · simp [hhigh, resolve_eq]
  · by_cases hsole : ∃ literal, named constraints = [literal]
    · obtain ⟨literal, hliteral⟩ := hsole
      rw [resolve_of_sole hhigh hliteral]
      simp [hhigh, hliteral]
    · rw [not_exists] at hsole
      rw [resolve_of_not_sole hsole, pick?_ofName hlow hmiddle]
      simp [hsole]

theorem resolve_ofName_newest_two :
    trim " newest" ≠ "low" ∧ trim " newest" ≠ "middle" ∧
      (ofName " newest").resolve "1.2.3" (some ">= 1.6.0, >= 1.7.0") = "1.2.3" := by
  have hlow : trim " newest" ≠ "low" := by decide +kernel
  have hmiddle : trim " newest" ≠ "middle" := by decide +kernel
  have htwo : named (some ">= 1.6.0, >= 1.7.0") = ["1.6.0", "1.7.0"] := by decide +kernel
  refine ⟨hlow, hmiddle, (resolve_ofName_eq_locked_iff hlow hmiddle _ _).mpr (.inr ?_)⟩
  rw [htwo]
  intro literal h
  cases h

/-- A literal that stands alone is taken even if the strategy is unrecognized. -/
theorem resolve_ofName_newest_one :
    trim "newest" ≠ "low" ∧ trim "newest" ≠ "middle" ∧
      (ofName "newest").resolve "5.31.0" (some "~> 5.0.0") ≠ "5.31.0" := by
  decide +kernel

/-! ## Choices that are versions -/

def IsGrounded (locked : String) (literals : List String) (chosen : String) : Prop :=
  chosen = locked ∨ ∃ literal ∈ literals, ∃ version,
    Version.ofString? literal = some version ∧ Version.ofString? chosen = some version

theorem IsGrounded.eq_locked {literals : List String} {chosen : String}
    (h : IsGrounded locked literals chosen)
    (hunread : ∀ literal ∈ literals, Version.ofString? literal = none) : chosen = locked := by
  rcases h with h | ⟨literal, hmem, version, hversion, -⟩
  · exact h
  · rw [hunread literal hmem] at hversion
    cases hversion

theorem isGrounded_singleton {literal : String} :
    IsGrounded locked [literal] literal ↔
      literal = locked ∨ (Version.ofString? literal).isSome := by
  simp [IsGrounded, Option.isSome_iff_exists]

-- The text of the picked version may differ from the literal, but it is read as the same version.
theorem isGrounded_pick? (strategy : Strategy) (locked : String) (literals : List String) :
    IsGrounded locked literals
      (((strategy.pick? (ranked literals)).map Version.text).getD locked) := by
  cases hpick : strategy.pick? (ranked literals) with
  | none => exact .inl rfl
  | some version =>
      obtain ⟨literal, hmem, hversion⟩ := mem_ranked.mp (mem_of_pick? hpick)
      exact .inr ⟨literal, hmem, version, hversion,
        Version.ofString?_text (.of_ofChars? hversion)⟩

/-- The choice is the locked version or one that a literal spells, and it is the locked version if
no literal is a version. -/
structure ChoosesSoundly (strategy : Strategy) (locked : String) (constraints : Option String) :
    Prop where
  isGrounded : IsGrounded locked (named constraints) (strategy.resolve locked constraints)
  eq_locked : (∀ literal ∈ named constraints, Version.ofString? literal = none) →
    strategy.resolve locked constraints = locked

theorem choosesSoundly_iff_isGrounded :
    strategy.ChoosesSoundly locked constraints ↔
      IsGrounded locked (named constraints) (strategy.resolve locked constraints) :=
  ⟨fun h => h.isGrounded, fun h => ⟨h, h.eq_locked⟩⟩

/-- Only a literal that stands alone can lead to a choice that is no version. -/
theorem choosesSoundly_iff (strategy : Strategy) (locked : String) (constraints : Option String) :
    strategy.ChoosesSoundly locked constraints ↔
      strategy = high ∨ ∀ literal, named constraints = [literal] →
        literal = locked ∨ (Version.ofString? literal).isSome := by
  rw [choosesSoundly_iff_isGrounded]
  by_cases hhigh : strategy = high
  · exact iff_of_true (.inl (by simp [resolve_eq, hhigh])) (.inl hhigh)
  · by_cases hsole : ∃ literal, named constraints = [literal]
    · obtain ⟨literal, hliteral⟩ := hsole
      rw [resolve_of_sole hhigh hliteral, hliteral, isGrounded_singleton]
      simp [hhigh]
    · rw [not_exists] at hsole
      rw [resolve_of_not_sole hsole]
      exact iff_of_true (isGrounded_pick? strategy locked _)
        (.inr fun literal hliteral => absurd hliteral (hsole literal))

theorem not_choosesSoundly_huge :
    ¬ low.ChoosesSoundly "1.2.3" (some ">= 99999999999999999999.0.0") := by
  intro h
  have hunread : ∀ literal ∈ named (some ">= 99999999999999999999.0.0"),
      Version.ofString? literal = none := by decide +kernel
  exact absurd (h.eq_locked hunread) (by decide +kernel)

end Strategy

end TerraformDocs
