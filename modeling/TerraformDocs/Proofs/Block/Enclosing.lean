import Mathlib.Order.Bounds.Basic
import TerraformDocs.Proofs.Block.Nesting

/-!
# The enclosing block

A text stays open when it has an opening brace and from there on no part of it closes as many braces
as it opens.  The block that encloses a position is the one that is declared on the greatest line,
at or above the position, from which the text up to the position stays open; and the level there
accounts for all braces but the block's own (`enclosingBlock?_eq_some_iff`).
-/

namespace TerraformDocs

/-! ## Open texts -/

def fromBrace (cs : List Char) : List Char := cs.dropWhile (· ≠ '{')

structure StaysOpen (cs : List Char) : Prop where
  opens : '{' ∈ cs
  exceeds : ∀ part, part <+: cs → '{' ∈ part →
    (fromBrace part).count '}' < (fromBrace part).count '{'

theorem fromBrace_append {front : List Char} (h : '{' ∉ front) (inner : List Char) :
    fromBrace (front ++ '{' :: inner) = '{' :: inner :=
  (Text.takeWhile_append_mark h inner).2

theorem prefix_append_brace_iff {front inner part : List Char} (hfront : '{' ∉ front)
    (hpart : '{' ∈ part) :
    part <+: front ++ '{' :: inner ↔ ∃ rest, rest <+: inner ∧ part = front ++ '{' :: rest := by
  constructor
  · intro h
    rcases List.prefix_or_prefix_of_prefix h (List.prefix_append front _) with hle | ⟨rest, rfl⟩
    · exact absurd (hle.subset hpart) hfront
    · rw [List.prefix_append_right_inj, List.prefix_cons_iff] at h
      rcases h with rfl | ⟨rest, rfl, hrest⟩
      · simp [hfront] at hpart
      · exact ⟨rest, hrest, rfl⟩
  · rintro ⟨rest, hrest, rfl⟩
    rw [List.prefix_append_right_inj, List.prefix_cons_inj]
    exact hrest

theorem staysOpen_append_iff {front : List Char} (hfront : '{' ∉ front) {inner : List Char} :
    StaysOpen (front ++ '{' :: inner) ↔
      ∀ part, part <+: inner → part.count '}' ≤ part.count '{' := by
  have hcount (rest : List Char) : (fromBrace (front ++ '{' :: rest)).count '}' <
      (fromBrace (front ++ '{' :: rest)).count '{' ↔ rest.count '}' ≤ rest.count '{' := by
    rw [fromBrace_append hfront, List.count_cons_self, List.count_cons_of_ne (by decide)]
    exact Nat.lt_succ_iff
  constructor
  · intro h part hpart
    have hprefix := (prefix_append_brace_iff hfront (by simp)).mpr ⟨part, hpart, rfl⟩
    exact (hcount part).mp (h.exceeds _ hprefix (by simp))
  · intro h
    refine ⟨by simp, fun part hpart hbrace => ?_⟩
    obtain ⟨rest, hrest, rfl⟩ := (prefix_append_brace_iff hfront hbrace).mp hpart
    exact (hcount rest).mpr (h rest hrest)

theorem isInside_after_iff {cs : List Char} :
    (BlockState.after cs).isInside = true ↔ StaysOpen cs := by
  by_cases hopen : '{' ∈ cs
  · obtain ⟨front, inner, rfl, hfront⟩ := List.eq_append_cons_of_mem hopen
    rw [staysOpen_append_iff hfront, BlockState.after_append_open hfront]
    refine Iff.trans ?_ (@BlockState.foldl_step_ne_closed_iff 0 inner)
    cases hlast : inner.foldl BlockState.step (.inside 0) with
    | unopened => exact absurd hlast (BlockState.foldl_step_inside_ne_unopened 0 inner)
    | inside last => simp [BlockState.isInside]
    | closed => simp [BlockState.isInside]
  · refine iff_of_false ?_ fun h => hopen h.opens
    simp [BlockState.after, BlockState.foldl_step_unopened hopen, BlockState.isInside]

theorem nestingAfter_of_staysOpen {cs : List Char} (h : StaysOpen cs) :
    nestingAfter cs + 1 + (fromBrace cs).count '}' = (fromBrace cs).count '{' := by
  obtain ⟨front, inner, last, rfl, hfront, hlast⟩ :=
    BlockState.exists_of_isInside (isInside_after_iff.mpr h)
  have hcount := BlockState.count_of_foldl_step_inside hlast
  rw [nestingAfter_append_open hfront, BlockState.foldl_nestingStep_eq hlast,
    fromBrace_append hfront]
  simp
  omega

/-! ## The search -/

namespace Document

/-- The lines above `bound` that declare something whose block is open at the position. -/
def opening (document : Document) (position : Position) (bound : Nat) : Set Nat :=
  {line | line < bound ∧ ((document.line? line).bind Declaration.ofLine?).isSome ∧
    StaysOpen (document.textBefore line position)}

theorem openAt_iff {document : Document} {line : Nat} {position : Position} :
    document.openAt line position = true ↔ StaysOpen (document.textBefore line position) :=
  isInside_after_iff

theorem isGreatest_opening_succ_iff {document : Document} {position : Position} {bound line : Nat}
    (h : bound ∉ document.opening position (bound + 1)) :
    IsGreatest (document.opening position (bound + 1)) line ↔
      IsGreatest (document.opening position bound) line := by
  have hsame : document.opening position (bound + 1) = document.opening position bound := by
    ext other
    constructor
    · rintro ⟨hlt, hopening⟩
      have hne : other ≠ bound := by
        rintro rfl
        exact h ⟨hlt, hopening⟩
      exact ⟨by omega, hopening⟩
    · rintro ⟨hlt, hopening⟩
      exact ⟨by omega, hopening⟩
  rw [hsame]

theorem enclosingAbove?_eq_some_iff {document : Document} {position : Position} {bound : Nat}
    {block : EnclosingBlock} :
    document.enclosingAbove? position bound = some block ↔
      (document.line? block.line).bind Declaration.ofLine? = some block.declaration ∧
        IsGreatest (document.opening position bound) block.line := by
  induction bound with
  | zero =>
      simp only [enclosingAbove?, reduceCtorEq, false_iff, not_and]
      rintro - ⟨⟨hlt, -⟩, -⟩
      exact absurd hlt (Nat.not_lt_zero _)
  | succ bound ih =>
      simp only [enclosingAbove?]
      split
      · next declaration hdeclares =>
        split
        · next hopen =>
          have hgreatest : IsGreatest (document.opening position (bound + 1)) bound :=
            ⟨⟨Nat.lt_succ_self bound, by simp [hdeclares], openAt_iff.mp hopen⟩,
              fun line hline => Nat.le_of_lt_succ hline.1⟩
          constructor
          · rintro ⟨⟩
            exact ⟨hdeclares, hgreatest⟩
          · rintro ⟨hblock, hline⟩
            obtain ⟨found, line⟩ := block
            obtain rfl : line = bound := hline.unique hgreatest
            rw [hdeclares] at hblock
            cases hblock
            rfl
        · next hopen =>
          rw [ih, isGreatest_opening_succ_iff]
          exact fun hbound => hopen (openAt_iff.mpr hbound.2.2)
      · next hdeclares =>
        rw [ih, isGreatest_opening_succ_iff]
        rintro ⟨-, hsome, -⟩
        simp [hdeclares] at hsome

theorem opening_lineCount (document : Document) (position : Position) :
    document.opening position (min (position.line + 1) document.lineCount) =
      document.opening position (position.line + 1) := by
  ext line
  constructor
  · rintro ⟨hlt, hopening⟩
    exact ⟨by omega, hopening⟩
  -- what opens a block is a line, and so it is not behind the end of the document
  · rintro ⟨hlt, hopening⟩
    obtain ⟨declaration, hdeclares⟩ := Option.isSome_iff_exists.mp hopening.1
    obtain ⟨text, hline, -⟩ := Option.bind_eq_some_iff.mp hdeclares
    have hcount : line < document.lineCount := (List.getElem?_eq_some_iff.mp hline).1
    exact ⟨by omega, hopening⟩

/--
The enclosing block is declared on the greatest line at or above the position from which the text
stays open, and the level of the position in it is the number of braces left open there, without the
block's own.
-/
theorem enclosingBlock?_eq_some_iff (document : Document) (position : Position) :
    (∀ declaration line, document.enclosingBlock? position = some ⟨declaration, line⟩ ↔
      (document.line? line).bind Declaration.ofLine? = some declaration ∧
        IsGreatest {start | start ≤ position.line ∧
          ((document.line? start).bind Declaration.ofLine?).isSome ∧
          StaysOpen (document.textBefore start position)} line) ∧
      ∀ block, document.enclosingBlock? position = some block →
        let braces := fromBrace (document.textBefore block.line position)
        (document.nestingLevel block.line position + 1 : Int) =
          braces.count '{' - braces.count '}' := by
  have hsearch (block : EnclosingBlock) : document.enclosingBlock? position = some block ↔
      (document.line? block.line).bind Declaration.ofLine? = some block.declaration ∧
        IsGreatest (document.opening position (position.line + 1)) block.line := by
    rw [enclosingBlock?, enclosingAbove?_eq_some_iff, opening_lineCount]
  constructor
  · intro declaration line
    simpa only [opening, Nat.lt_succ_iff] using hsearch ⟨declaration, line⟩
  · intro block hblock
    have hopen := ((hsearch block).mp hblock).2.1.2.2
    have hcount := nestingAfter_of_staysOpen hopen
    simp only [nestingLevel]
    omega

theorem enclosingBlock?_eq_some_nested :
    let document : Document := ⟨["module \"net\" \x7b",
      "  data \"aws_ami\" \"image\" \x7b disk \x7b", "    module \"sub\" \x7b \x7d",
      "    size = 1"]⟩
    document.enclosingBlock? ⟨3, 5⟩ =
        some ⟨.resource ⟨.dataSource, "aws", "ami", "image"⟩, 1⟩ ∧
      IsGreatest {start | start ≤ 3 ∧
        ((document.line? start).bind Declaration.ofLine?).isSome ∧
        StaysOpen (document.textBefore start ⟨3, 5⟩)} 1 ∧
      (document.nestingLevel 1 ⟨3, 5⟩ + 1 : Int) = 2 := by
  intro document
  have hblock : document.enclosingBlock? ⟨3, 5⟩ =
      some ⟨.resource ⟨.dataSource, "aws", "ami", "image"⟩, 1⟩ := by decide +kernel
  obtain ⟨hsearch, hlevel⟩ := enclosingBlock?_eq_some_iff document ⟨3, 5⟩
  exact ⟨hblock, ((hsearch _ _).mp hblock).2, (hlevel _ hblock).trans (by decide +kernel)⟩

end Document

end TerraformDocs
