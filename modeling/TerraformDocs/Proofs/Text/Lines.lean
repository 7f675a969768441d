import TerraformDocs.Proofs.Text.Places

/-!
# Where a text is cut into lines

A text may be cut at the start of a line or within one.  At the start of a line, the lines of both
parts stand one behind the other (`lines_append`); within a line, the first part goes before the
first line of the second (`lines_append_within`).  A line holds no line feed, and there are as many
lines as line feeds if the last line ends with one.
-/

namespace TerraformDocs.Text

/-! ## Character by character -/

@[simp] theorem lines_nil : lines [] = [] := rfl

@[simp] theorem lines_feed (cs : List Char) : lines ('\n' :: cs) = [] :: lines cs :=
  linesOf_feed cs

@[simp] theorem lines_return_feed (cs : List Char) :
    lines ('\r' :: '\n' :: cs) = lines ('\n' :: cs) := by
  simp [lines, linesOf]

theorem lines_singleton {c : Char} (h : c ≠ '\n') : lines [c] = [[c]] :=
  linesOf_singleton h

theorem lines_cons_of_ne_nil {c : Char} {cs : List Char} (hfeed : c ≠ '\n')
    (hreturn : ¬ (c = '\r' ∧ cs.head? = some '\n')) (hcs : lines cs ≠ []) :
    lines (c :: cs) = (lines cs).modifyHead (c :: ·) := by
  obtain ⟨first, others, hlines⟩ := List.exists_cons_of_ne_nil hcs
  rw [hlines]
  simp only [lines] at hlines
  simp [lines, linesOf, hfeed, hreturn, hlines]

/-- Texts grow at their front in one of these ways: a line feed, a carriage return that belongs to
the next line feed, or a character that goes into the first line. -/
theorem lines_induction {motive : List Char → Prop} (nil : motive [])
    (feed : ∀ cs, motive cs → motive ('\n' :: cs))
    (ret : ∀ cs, motive ('\n' :: cs) → motive ('\r' :: '\n' :: cs))
    (last : ∀ c, c ≠ '\n' → motive [c])
    (within : ∀ c cs, c ≠ '\n' → ¬ (c = '\r' ∧ cs.head? = some '\n') → cs ≠ [] → motive cs →
      motive (c :: cs)) (cs : List Char) : motive cs := by
  induction cs with
  | nil => exact nil
  | cons c cs ih =>
      by_cases hfeed : c = '\n'
      · subst hfeed
        exact feed cs ih
      · by_cases hcs : cs = []
        · subst hcs
          exact last c hfeed
        · by_cases hreturn : c = '\r' ∧ cs.head? = some '\n'
          · obtain ⟨rfl, hhead⟩ := hreturn
            obtain ⟨others, rfl⟩ := List.head?_eq_some_iff.mp hhead
            exact ret others ih
          · exact within c cs hfeed hreturn hcs ih

theorem lines_ne_nil {cs : List Char} (h : cs ≠ []) : lines cs ≠ [] := by
  induction cs using lines_induction with
  | nil => exact absurd rfl h
  | feed cs ih => simp
  | ret cs ih => simp
  | last c hfeed => simp [lines_singleton hfeed]
  | within c cs hfeed hreturn hcs ih =>
      rw [lines_cons_of_ne_nil hfeed hreturn (ih hcs)]
      simpa using ih hcs

theorem lines_cons {c : Char} {cs : List Char} (hfeed : c ≠ '\n')
    (hreturn : ¬ (c = '\r' ∧ cs.head? = some '\n')) (hcs : cs ≠ []) :
    lines (c :: cs) = (lines cs).modifyHead (c :: ·) :=
  lines_cons_of_ne_nil hfeed hreturn (lines_ne_nil hcs)

theorem not_mem_feed_of_mem_lines {cs line : List Char} (h : line ∈ lines cs) : '\n' ∉ line := by
  induction cs using lines_induction generalizing line with
  | nil => simp at h
  | feed cs ih =>
      rcases List.mem_cons.mp (lines_feed cs ▸ h) with rfl | hmem
      · exact List.not_mem_nil
      · exact ih hmem
  | ret cs ih => exact ih (by simpa using h)
  | last c hfeed =>
      obtain rfl : line = [c] := by simpa [lines_singleton hfeed] using h
      simpa using Ne.symm hfeed
  | within c cs hfeed hreturn hcs ih =>
      obtain ⟨first, others, hlines⟩ := List.exists_cons_of_ne_nil (lines_ne_nil hcs)
      rw [lines_cons hfeed hreturn hcs, hlines, List.modifyHead_cons] at h
      rw [hlines] at ih
      rcases List.mem_cons.mp h with rfl | hmem
      · simp [Ne.symm hfeed, ih List.mem_cons_self]
      · exact ih (List.mem_cons_of_mem first hmem)

/-! ## Texts in two parts -/

theorem EndsLine.of_cons {c : Char} {above : List Char} (h : EndsLine (c :: above)) :
    EndsLine above := by
  intro d hd
  exact h d (by simp [List.getLast?_cons, Option.mem_def.mp hd])

theorem lines_append {above : List Char} (habove : EndsLine above) (rest : List Char) :
    lines (above ++ rest) = lines above ++ lines rest := by
  induction above using lines_induction with
  | nil => rfl
  | feed above ih => simp [ih habove.of_cons]
  | ret above ih => simpa using ih habove.of_cons
  | last c hfeed => exact absurd (habove c rfl) hfeed
  | within c above hfeed hreturn hne ih =>
      obtain ⟨first, others, hlines⟩ := List.exists_cons_of_ne_nil (lines_ne_nil hne)
      -- `c` has the same neighbour in the whole text, since it is not the last in `above`
      have hreturn' : ¬ (c = '\r' ∧ (above ++ rest).head? = some '\n') := by
        rwa [List.head?_append_of_ne_nil above hne]
      rw [List.cons_append, lines_cons hfeed hreturn' (by simp [hne]), ih habove.of_cons,
        lines_cons hfeed hreturn hne, hlines]
      rfl

theorem length_lines {above : List Char} (habove : EndsLine above) :
    (lines above).length = above.count '\n' := by
  induction above using lines_induction with
  | nil => rfl
  | feed above ih => simp [ih habove.of_cons]
  | ret above ih => simpa using ih habove.of_cons
  | last c hfeed => exact absurd (habove c rfl) hfeed
  | within c above hfeed hreturn hne ih =>
      rw [lines_cons hfeed hreturn hne, List.length_modifyHead, ih habove.of_cons,
        List.count_cons_of_ne hfeed]

theorem lines_append_within {part rest : List Char} (hpart : '\n' ∉ part)
    (hfeed : rest.head? ≠ some '\n') (hrest : rest ≠ []) :
    lines (part ++ rest) = (lines rest).modifyHead (part ++ ·) :=
  linesOf_append_within hpart hfeed (lines_ne_nil hrest)

end TerraformDocs.Text
