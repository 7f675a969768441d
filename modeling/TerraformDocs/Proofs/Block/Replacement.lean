import TerraformDocs.Proofs.Block.OwnText

/-!
# Nested blocks do not leak

Of what stands between the braces of a nested block, the block around it sees the line feeds only.
So the text there can be replaced by any other that balances its braces and has as many line feeds,
and the attributes of the block around it stay the same (`blockAttribute?_replaced`).  Both scans
come into the nested block in the same state, are in it at the same depths or deeper, and come out
of it in the same state again.
-/

namespace TerraformDocs

open TerraformDocs.Text

namespace BlockState

/-! ## The scan of a nested block -/

theorem ownLines_modifyHead (state : BlockState) (part : List Char) {lines : List (List Char)}
    (h : lines ≠ []) :
    ownLines state (lines.modifyHead (part ++ ·)) =
      (ownText state part).1 ++ ownLines (part.foldl step state) lines := by
  obtain ⟨first, others, rfl⟩ := List.exists_cons_of_ne_nil h
  rw [List.modifyHead_cons, ownLines_cons, ownText_append, List.foldl_append, ownLines_cons,
    List.append_assoc, List.append_assoc, List.append_assoc]

theorem ownLines_lines_cons {state : BlockState} {c : Char} (hkept : state.kept c = none)
    {cs : List Char} (hcs : cs ≠ []) :
    ownLines state (lines (c :: cs)) =
      (if c = '\n' then lineEnd state else []) ++ ownLines (state.step c) (lines cs) := by
  by_cases hfeed : c = '\n'
  · subst hfeed
    rw [lines_feed, ownLines_cons, if_pos rfl, step_of_not_brace state (by decide) (by decide)]
    rfl
  · by_cases hreturn : c = '\r' ∧ cs.head? = some '\n'
    · obtain ⟨rfl, hhead⟩ := hreturn
      obtain ⟨others, rfl⟩ := List.head?_eq_some_iff.mp hhead
      rw [lines_return_feed, if_neg hfeed, step_of_not_brace state (by decide) (by decide)]
      rfl
    · have hown : (ownText state [c]).1 = [] := by simp [ownText_cons, hkept]
      have hscan := ownLines_modifyHead state [c] (lines_ne_nil hcs)
      rw [hown] at hscan
      rw [lines_cons hfeed hreturn hcs, if_neg hfeed]
      exact hscan

theorem ownLines_nested {nested last : Nat} {inner rest : List Char}
    (h : inner.foldl step (inside nested) = inside last) (hrest : rest ≠ []) :
    ownLines (inside (nested + 1)) (lines (inner ++ rest)) =
      List.replicate (inner.count '\n') '\n' ++ ownLines (inside (last + 1)) (lines rest) := by
  induction inner generalizing nested with
  | nil =>
      cases h
      rfl
  | cons c inner ih =>
      rw [List.foldl_cons] at h
      -- one block further in, the same step is taken, and the character is not kept
      cases hnext : step (inside nested) c with
      | unopened => exact absurd hnext (foldl_step_inside_ne_unopened nested [c])
      | closed => simp [hnext] at h
      | inside next =>
          rw [hnext] at h
          have hkept : (inside (nested + 1)).kept c = none := kept_eq_none (by simp) c
          rw [List.cons_append, ownLines_lines_cons hkept (by simp [hrest]), step_inside_succ hnext,
            ih h]
          by_cases hfeed : c = '\n'
          · simp [hfeed, lineEnd, isInside, List.replicate_succ]
          · simp [hfeed]

theorem ownLines_braces {inner : List Char} (hinner : Balanced inner) (back : List Char) :
    ownLines (inside 0) (lines ('{' :: (inner ++ '}' :: back))) =
      List.replicate (inner.count '\n') '\n' ++ ownLines (inside 1) (lines ('}' :: back)) := by
  have hkept : (inside 0).kept '{' = none := rfl
  rw [ownLines_lines_cons hkept (by simp), if_neg (by decide), List.nil_append]
  exact ownLines_nested (foldl_step_of_balanced hinner 0) (by simp)

end BlockState

/-! ## Positions in a text -/

def Position.behind (front : List Char) : Position :=
  ⟨front.count '\n', (front.reverse.takeWhile (· ≠ '\n')).length⟩

theorem Position.behind_append {above part : List Char} (habove : EndsLine above)
    (hpart : '\n' ∉ part) : behind (above ++ part) = ⟨(lines above).length, part.length⟩ := by
  have hreverse : ∀ c ∈ part.reverse, decide (c ≠ '\n') = true := by
    intro c hc
    simpa using ne_of_mem_of_not_mem (List.mem_reverse.mp hc) hpart
  have hfeed : ∀ c ∈ above.reverse.head?, decide (c ≠ '\n') = false := by
    simpa [EndsLine] using habove
  rw [behind, List.reverse_append, (takeWhile_append_of_head hreverse hfeed).1,
    List.length_reverse, List.count_append, List.count_eq_zero_of_not_mem hpart,
    length_lines habove, Nat.add_zero]

theorem exists_endsLine_append (front : List Char) :
    ∃ above part, EndsLine above ∧ '\n' ∉ part ∧ above ++ part = front := by
  refine ⟨(front.reverse.dropWhile (· ≠ '\n')).reverse,
    (front.reverse.takeWhile (· ≠ '\n')).reverse, ?_, ?_, ?_⟩
  · intro c hc
    rw [List.getLast?_reverse] at hc
    have hhead := List.head?_dropWhile_not (· ≠ '\n') front.reverse
    rw [Option.mem_def.mp hc] at hhead
    simpa using hhead
  · intro hmem
    simpa using List.mem_takeWhile_imp (List.mem_reverse.mp hmem)
  · rw [← List.reverse_append, List.takeWhile_append_dropWhile, List.reverse_reverse]

namespace Document

def ofChars (cs : List Char) : Document := .ofText (String.ofList cs)

theorem le_of_openAt {document : Document} {start : Nat} {position : Position}
    (h : document.openAt start position = true) : start ≤ position.line := by
  by_contra hbelow
  have habove : (document.lines.take position.line).drop start = [] :=
    List.drop_eq_nil_of_le ((List.length_take_le _ _).trans (Nat.le_of_not_le hbelow))
  have hbefore : document.textBefore start position = [] := by
    simp [textBefore, habove, hbelow]
  rw [openAt, hbefore] at h
  cases h

theorem exists_lines_behind (front : List Char) :
    ∃ above part, Position.behind front = ⟨above.length, part.length⟩ ∧
      ∀ rest : List Char, rest ≠ [] → rest.head? ≠ some '\n' →
        (ofChars (front ++ rest)).lines.map String.toList =
          above ++ (Text.lines rest).modifyHead (part ++ ·) := by
  obtain ⟨above, part, habove, hpart, rfl⟩ := exists_endsLine_append front
  refine ⟨Text.lines above, part, Position.behind_append habove hpart, fun rest hrest hfeed => ?_⟩
  rw [← lines_append_within hpart hfeed hrest, ← lines_append habove, ← List.append_assoc]
  simp [ofChars, ofText, Function.comp_def]

/-- What is read from line `start` up to the end of `front`, and what the own text of the block has
of it, do not depend on the text behind it. -/
theorem exists_textBefore_blockText (front : List Char) {start : Nat}
    (hstart : start ≤ (Position.behind front).line) :
    ∃ before own, ∀ rest : List Char, rest ≠ [] → rest.head? ≠ some '\n' →
      (ofChars (front ++ rest)).textBefore start (.behind front) = before ∧
        (ofChars (front ++ rest)).blockText start =
          own ++ BlockState.ownLines (.after before) (Text.lines rest) := by
  obtain ⟨above, part, hbehind, hlines⟩ := exists_lines_behind front
  rw [hbehind] at hstart ⊢
  obtain ⟨index, hindex⟩ : ∃ index, above.length = start + index := Nat.exists_eq_add_of_le hstart
  refine ⟨(above.drop start).flatten ++ part,
    BlockState.ownLines .unopened (above.drop start) ++
      (BlockState.ownText ((above.drop start).flatten.foldl BlockState.step .unopened) part).1,
    fun rest hrest hfeed => ⟨?_, ?_⟩⟩
  · have hlength : (above.drop start).length = index := by
      rw [List.length_drop, hindex, Nat.add_sub_cancel_left]
    obtain ⟨first, others, hrestLines⟩ := List.exists_cons_of_ne_nil (lines_ne_nil hrest)
    rw [hindex, textBefore_add, ← getD_map_drop, List.map_drop, hlines rest hrest hfeed, hrestLines,
      List.modifyHead_cons, List.drop_append_of_le_length hstart, List.take_left' hlength,
      List.getElem?_append_right hlength.le, hlength, Nat.sub_self]
    simp
  · rw [blockText, List.map_drop, hlines rest hrest hfeed, List.drop_append_of_le_length hstart,
      BlockState.ownLines_append, BlockState.ownLines_modifyHead _ _ (lines_ne_nil hrest),
      ← List.append_assoc, BlockState.after, List.foldl_append]

theorem char?_behind (front back : List Char) :
    (ofChars (front ++ '{' :: back)).char? (.behind front) = some '{' := by
  obtain ⟨above, part, hbehind, hlines⟩ := exists_lines_behind front
  have hopen : ∃ line others, Text.lines ('{' :: back) = ('{' :: line) :: others := by
    cases back with
    | nil => exact ⟨[], [], rfl⟩
    | cons c back =>
        have hback : c :: back ≠ [] := by simp
        obtain ⟨first, others, hfirst⟩ := List.exists_cons_of_ne_nil (lines_ne_nil hback)
        exact ⟨first, others, by rw [lines_cons (by decide) (by simp) hback, hfirst]; rfl⟩
  obtain ⟨line, others, hopen⟩ := hopen
  have htexts := hlines ('{' :: back) (by simp) (by simp)
  have hline := getD_map_drop (ofChars (front ++ '{' :: back)) 0 above.length
  rw [List.map_drop, htexts, hopen] at hline
  rw [char?, hbehind, ← Nat.zero_add above.length, ← hline]
  simp

def withBraces (front inner back : List Char) : Document :=
  ofChars (front ++ '{' :: (inner ++ '}' :: back))

/--
Where a block is open with no nested block around the position, and a brace is opened and closed
again, the text between both braces can be replaced by any other with balanced braces and as many
line feeds: the attributes of the block remain what they are.
-/
theorem blockAttribute?_replaced (front inner other back : List Char) (start : Nat)
    (hopen : (withBraces front inner back).openAt start (.behind front) = true)
    (hlevel : (withBraces front inner back).nestingLevel start (.behind front) = 0)
    (hinner : Balanced inner) (hother : Balanced other)
    (hfeeds : other.count '\n' = inner.count '\n') :
    (withBraces front inner back).char? (.behind front) = some '{' ∧
      ∀ name, (withBraces front other back).blockAttribute? start name =
        (withBraces front inner back).blockAttribute? start name := by
  refine ⟨char?_behind front _, fun name => ?_⟩
  obtain ⟨before, own, hparts⟩ := exists_textBefore_blockText front (le_of_openAt hopen)
  have hstate : BlockState.after before = .inside 0 := by
    rw [openAt, withBraces, (hparts _ (by simp) (by simp)).1] at hopen
    rw [nestingLevel, withBraces, (hparts _ (by simp) (by simp)).1] at hlevel
    exact BlockState.after_eq_inside_iff.mpr ⟨hopen, hlevel⟩
  -- both texts are read from the same state on, and so of each only its line feeds are seen
  have hscan (nested : List Char) (hnested : Balanced nested) :
      (withBraces front nested back).blockText start =
        own ++ (List.replicate (nested.count '\n') '\n' ++
          BlockState.ownLines (.inside 1) (Text.lines ('}' :: back))) := by
    rw [withBraces, (hparts _ (by simp) (by simp)).2, hstate, BlockState.ownLines_braces hnested]
  rw [blockAttribute?, blockAttribute?, hscan other hother, hscan inner hinner, hfeeds]

theorem blockAttribute?_replaced_tags :
    let front := "module \"net\" \x7b\n tags = ".toList
    let inner := "\n version = \"9\"\n ".toList
    let other := " a = \x7b \x7d\r\n b = \x7b version = \"2\"\n \x7d".toList
    let back := "\n version = \"1.0.0\"\n\x7d\n".toList
    (withBraces front inner back).openAt 0 (.behind front) = true ∧
      (withBraces front inner back).nestingLevel 0 (.behind front) = 0 ∧
      Balanced inner ∧ Balanced other ∧ other.count '\n' = inner.count '\n' ∧
      (withBraces front other back).blockAttribute? 0 "version" = some "1.0.0" := by
  intro front inner other back
  have hopen : (withBraces front inner back).openAt 0 (.behind front) = true := by decide +kernel
  have hlevel : (withBraces front inner back).nestingLevel 0 (.behind front) = 0 := by
    decide +kernel
  have hinner : Balanced inner := by decide +kernel
  have hother : Balanced other := by decide +kernel
  have hfeeds : other.count '\n' = inner.count '\n' := by decide +kernel
  refine ⟨hopen, hlevel, hinner, hother, hfeeds, ?_⟩
  rw [(blockAttribute?_replaced front inner other back 0 hopen hlevel hinner hother hfeeds).2]
  decide +kernel

end Document

end TerraformDocs
