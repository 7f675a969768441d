import TerraformDocs.Proofs.Version.Literal

/-!
# Literals of an expression

The literals of an expression are those of its clauses, each text where it first comes.  So an
expression with more clauses behind it keeps its literals and gains those that it did not have
(`literals_append`), and a single clause has its first literal or none (`literals_of_clause`).
-/

namespace TerraformDocs.Version

open TerraformDocs.Text

/-! ## First occurrences -/

section EraseDups

variable {α : Type} [DecidableEq α]

theorem nodup_eraseDups : ∀ xs : List α, xs.eraseDups.Nodup
  | [] => List.nodup_nil
  | x :: xs => by
      have hshorter := List.length_filter_le (fun y => !y == x) xs
      rw [List.eraseDups_cons, List.nodup_cons]
      exact ⟨by simp, nodup_eraseDups _⟩
termination_by xs => xs.length
decreasing_by exact Nat.lt_succ_of_le hshorter

theorem filter_eraseDups (p : α → Bool) :
    ∀ xs : List α, xs.eraseDups.filter p = (xs.filter p).eraseDups
  | [] => rfl
  | x :: xs => by
      have hshorter := List.length_filter_le (fun y => !y == x) xs
      have hothers := filter_eraseDups p (xs.filter fun y => !y == x)
      rw [List.eraseDups_cons, List.filter_cons, List.filter_cons, hothers, List.filter_filter]
      by_cases hx : p x = true
      · rw [if_pos hx, if_pos hx, List.eraseDups_cons, List.filter_filter]
        simp only [Bool.and_comm]
      · rw [if_neg hx, if_neg hx]
        congr 1
        apply List.filter_congr
        intro y _
        by_cases hy : y = x
        · simp [hy, hx]
        · simp [hy]
termination_by xs => xs.length
decreasing_by exact Nat.lt_succ_of_le hshorter

theorem eraseDups_append_filter (xs ys : List α) :
    (xs ++ ys).eraseDups = xs.eraseDups ++ ys.eraseDups.filter (· ∉ xs.eraseDups) := by
  rw [List.eraseDups_append, filter_eraseDups, List.removeAll]
  congr 2
  apply List.filter_congr
  intro y _
  simp

end EraseDups

/-! ## Clauses -/

theorem clauses_append (front back : List Char) :
    clauses (front ++ ',' :: back) = clauses front ++ clauses back := by
  rw [clauses, List.splitOn_append_cons_self, List.map_append, clauses, clauses]

theorem mem_literals_iff {expression literal : String} :
    literal ∈ literals expression ↔
      ∃ clause ∈ clauses expression.toList, firstLiteral? clause = some literal.toList := by
  simp only [literals, List.mem_eraseDups, List.mem_filterMap, Option.map_eq_some_iff]
  refine exists_congr fun clause => and_congr_right fun _ => ?_
  constructor
  · rintro ⟨word, hword, rfl⟩
    simpa using hword
  · intro h
    exact ⟨_, h, String.ofList_toList⟩

theorem literals_append (front back : String) :
    literals (front ++ "," ++ back) =
      literals front ++ (literals back).filter (· ∉ literals front) := by
  have hchars : (front ++ "," ++ back).toList = front.toList ++ ',' :: back.toList := by simp
  rw [literals, hchars, clauses_append, List.filterMap_append, eraseDups_append_filter, ← literals,
    ← literals]

theorem literals_of_clause {clause : String} (h : ',' ∉ clause.toList) :
    literals clause = ((firstLiteral? clause.toList).map String.ofList).toList := by
  rw [literals, clauses, List.splitOn_eq_singleton h, List.map_singleton]
  cases hread : firstLiteral? clause.toList with
  | none => simp [firstLiteral?_trimChars, hread]
  | some word => simp [firstLiteral?_trimChars, hread, List.eraseDups_cons]

/-- The literals of more clauses are added to those that are there already, without the ones that
are the same.  A single clause adds its leftmost and longest literal, if it has any. -/
theorem literals_clausewise :
    (∀ front back : String, literals (front ++ "," ++ back) =
        literals front ++ (literals back).filter (· ∉ literals front)) ∧
      (∀ expression : String, (literals expression).Nodup) ∧
      ∀ clause : String, ',' ∉ clause.toList →
        (literals clause = [] ∧ ¬ NamesLiteral clause.toList) ∨
          ∃ front word, literals clause = [String.ofList word] ∧
            IsFirstLongest clause.toList front word := by
  refine ⟨literals_append, fun expression => nodup_eraseDups _, fun clause hcomma => ?_⟩
  rw [literals_of_clause hcomma, ← isSome_firstLiteral?_iff]
  cases hread : firstLiteral? clause.toList with
  | none => exact .inl ⟨rfl, by simp⟩
  | some word =>
      obtain ⟨front, h⟩ := firstLiteral?_eq_some_iff.mp hread
      exact .inr ⟨front, word, rfl, h⟩

theorem literals_clausewise_tagged :
    let clause := "~> v1.22.333-rc.4.5.6-+7.8.9 "
    ',' ∉ clause.toList ∧ literals clause = ["1.22.333-rc.4.5.6-"] ∧
      (∃ front, IsFirstLongest clause.toList front "1.22.333-rc.4.5.6-".toList) ∧
      literals (">= 2.0.0" ++ "," ++ clause) = ["2.0.0", "1.22.333-rc.4.5.6-"] := by
  intro clause
  obtain ⟨happend, -, hclause⟩ := literals_clausewise
  have hcomma : ',' ∉ clause.toList := by decide +kernel
  have hone : literals clause = ["1.22.333-rc.4.5.6-"] := by decide +kernel
  refine ⟨hcomma, hone, ?_, ?_⟩
  · rcases hclause clause hcomma with ⟨hnone, -⟩ | ⟨front, word, hword, hfirst⟩
    · rw [hone] at hnone
      cases hnone
    · rw [hone] at hword
      have hchars : "1.22.333-rc.4.5.6-".toList = word := by
        rw [(List.cons.inj hword).1, String.toList_ofList]
      exact ⟨front, hchars ▸ hfirst⟩
  · rw [happend, hone]
    decide +kernel

end TerraformDocs.Version
