import Mathlib.Order.Interval.Set.Basic
import TerraformDocs.Proofs.Block.Assigned

/-!
# The attribute under the cursor

A line that assigns an attribute starts with the attribute's name, behind blanks, and an equals sign
follows.  The attribute is found at the columns from the first character of the name up to the
column behind it, and nowhere else (`attributeAt?_exact`).  No brace stands before any of these
columns on the line, so the blocks around them are those around the start of the line.
-/

namespace TerraformDocs

open TerraformDocs.Text

/-! ## Lines that assign -/

structure AssignmentLine where
  indent : List Char
  name : List Char
  gap : List Char
  value : List Char
  blank_indent : Blanks indent
  isName : IsAttributeName name
  blank_gap : Blanks gap

namespace AssignmentLine

def text (line : AssignmentLine) : List Char :=
  line.indent ++ (line.name ++ (line.gap ++ '=' :: line.value))

/-- The columns of the name, with the one behind it. -/
def span (line : AssignmentLine) : Set Nat :=
  Set.Icc line.indent.length (line.indent.length + line.name.length)

variable {line : AssignmentLine}

theorem flush_name (line : AssignmentLine) (rest : List Char) : Flush (line.name ++ rest) := by
  obtain ⟨first, others, hname⟩ := List.exists_cons_of_ne_nil line.isName.1
  rw [hname, List.cons_append]
  exact flush_cons.mpr (isBlank_of_isAttributeChar (line.isName.2 first (by simp [hname])))

theorem head_gap (line : AssignmentLine) :
    ∀ c ∈ (line.gap ++ '=' :: line.value).head?, isAttributeChar c = false := by
  intro c hc
  rw [List.head?_append] at hc
  cases hgap : line.gap.head? with
  | none =>
      obtain rfl : '=' = c := by simpa [hgap] using hc
      decide
  | some blank =>
      obtain rfl : blank = c := by simpa [hgap] using hc
      exact isAttributeChar_of_isBlank (line.blank_gap _ (List.mem_of_mem_head? hgap))

theorem assignment?_text (hfeed : '\n' ∉ line.text) :
    assignment? line.text = some (line.indent.length, line.name) := by
  have hequals : Flush ('=' :: line.value) := flush_cons.mpr (by decide)
  have hvalue : '\n' ∉ dropBlanks line.value := fun hmem =>
    hfeed (by simp [text, (List.dropWhile_sublist _).subset hmem])
  have hrun : run? isAttributeChar (line.name ++ (line.gap ++ '=' :: line.value)) =
      some (line.name, line.gap ++ '=' :: line.value) :=
    run?_eq_some_iff.mpr ⟨line.isName.1, line.isName.2, line.head_gap, rfl⟩
  have hindent : line.text.takeWhile isBlank = line.indent :=
    (takeWhile_append_of_head line.blank_indent (line.flush_name _)).1
  rw [assignment?, hindent, text, dropBlanks_append line.blank_indent (line.flush_name _), hrun]
  simp [dropBlanks_append line.blank_gap hequals, hvalue]

theorem exists_of_assignment? {cs name : List Char} {start : Nat}
    (h : assignment? cs = some (start, name)) : ∃ line : AssignmentLine, line.text = cs := by
  simp only [assignment?, Option.bind_eq_bind, Option.bind_eq_some_iff, Prod.exists,
    run?_eq_some_iff, List.isPrefixOf?_eq_some_iff_append_eq] at h
  obtain ⟨word, rest, ⟨hne, hword, -, hcs⟩, value, hequals, -⟩ := h
  obtain ⟨indent, hindent, hcut⟩ := exists_blanks_append cs
  obtain ⟨gap, hgap, hrest⟩ := exists_blanks_append rest
  refine ⟨⟨indent, word, gap, value, hindent, ⟨hne, hword⟩, hgap⟩, ?_⟩
  rw [text, ← List.singleton_append, hequals, hrest, hcs, hcut]

theorem braceless_take {character : Nat} (h : character ∈ line.span) :
    Braceless (line.text.take character) := by
  have hindent := braceless_of_blanks line.blank_indent
  have hname : Braceless line.name :=
    ⟨line.isName.not_mem (by decide), line.isName.not_mem (by decide)⟩
  have htake : line.text.take character <+: line.indent ++ line.name := by
    rw [text, ← List.append_assoc, List.take_append_of_le_length (by simpa using h.2)]
    exact List.take_prefix _ _
  constructor
  · exact fun hmem => by simpa [hindent.1, hname.1] using htake.subset hmem
  · exact fun hmem => by simpa [hindent.2, hname.2] using htake.subset hmem

theorem attributeAt?_eq_some_iff {text : String} (htext : line.text = text.toList)
    (hfeed : '\n' ∉ text.toList) {character : Nat} {name : String} :
    attributeAt? text character = some name ↔
      character ∈ line.span ∧ name = String.ofList line.name := by
  have hassigned : assignment? text.toList = some (line.indent.length, line.name) := by
    rw [← htext] at hfeed ⊢
    exact assignment?_text hfeed
  simp [attributeAt?, hassigned, span, eq_comm]

end AssignmentLine

theorem attributeAt?_eq_none {text : String}
    (h : ∀ line : AssignmentLine, line.text ≠ text.toList) (character : Nat) :
    attributeAt? text character = none := by
  cases hassigned : assignment? text.toList with
  | none => simp [attributeAt?, hassigned]
  | some found =>
      obtain ⟨line, hline⟩ := AssignmentLine.exists_of_assignment? hassigned
      exact absurd hline (h line)

/-! ## Columns with no brace before them -/

section Braceless

variable {part : List Char} (hpart : Braceless part)

include hpart

theorem BlockState.after_append_braceless (cs : List Char) : after (cs ++ part) = after cs := by
  rw [after, List.foldl_append]
  refine foldl_eq_self fun c hc => step_of_not_brace _ ?_ ?_
  · exact ne_of_mem_of_not_mem hc hpart.1
  · exact ne_of_mem_of_not_mem hc hpart.2

theorem nestingAfter_append_braceless (cs : List Char) :
    nestingAfter (cs ++ part) = nestingAfter cs := by
  -- the count starts behind the first opening brace, which is not in `part`
  by_cases hopen : '{' ∈ cs
  · obtain ⟨front, inner, rfl, hfront⟩ := List.eq_append_cons_of_mem hopen
    rw [List.append_assoc, List.cons_append, nestingAfter_append_open hfront,
      nestingAfter_append_open hfront, List.foldl_append]
    refine foldl_eq_self fun c hc => ?_
    have hbrace : c ≠ '{' ∧ c ≠ '}' :=
      ⟨ne_of_mem_of_not_mem hc hpart.1, ne_of_mem_of_not_mem hc hpart.2⟩
    simp [nestingStep, hbrace]
  · rw [nestingAfter_eq_zero hopen, nestingAfter_eq_zero (by simp [hopen, hpart.1])]

end Braceless

namespace Document

variable {document : Document} {index character : Nat}

theorem enclosingAbove?_congr {position other : Position}
    (h : ∀ start, document.openAt start position = document.openAt start other) (bound : Nat) :
    document.enclosingAbove? position bound = document.enclosingAbove? other bound := by
  induction bound with
  | zero => rfl
  | succ bound ih => rw [enclosingAbove?, enclosingAbove?, h, ih]

section Column

variable (hcolumn : Braceless (((document.line? index).getD "").toList.take character))

include hcolumn

theorem exists_textBefore_append (start : Nat) : ∃ part, Braceless part ∧
    document.textBefore start ⟨index, character⟩ =
      document.textBefore start ⟨index, 0⟩ ++ part := by
  by_cases hstart : start ≤ index
  · exact ⟨_, hcolumn, by simp [textBefore, hstart]⟩
  · exact ⟨[], by decide, by simp [textBefore, hstart]⟩

theorem openAt_column (start : Nat) :
    document.openAt start ⟨index, character⟩ = document.openAt start ⟨index, 0⟩ := by
  obtain ⟨part, hpart, htext⟩ := exists_textBefore_append hcolumn start
  rw [openAt, htext, BlockState.after_append_braceless hpart, openAt]

theorem nestingLevel_column (start : Nat) :
    document.nestingLevel start ⟨index, character⟩ = document.nestingLevel start ⟨index, 0⟩ := by
  obtain ⟨part, hpart, htext⟩ := exists_textBefore_append hcolumn start
  rw [nestingLevel, htext, nestingAfter_append_braceless hpart, nestingLevel]

theorem enclosingBlock?_column :
    document.enclosingBlock? ⟨index, character⟩ = document.enclosingBlock? ⟨index, 0⟩ :=
  enclosingAbove?_congr (openAt_column hcolumn) _

end Column

theorem attributeContext?_of_mem_span {line : AssignmentLine} {text : String}
    (htext : line.text = text.toList) (hfeed : '\n' ∉ text.toList)
    (hline : document.line? index = some text) (hspan : character ∈ line.span) :
    document.attributeContext? ⟨index, character⟩ =
      (document.enclosingBlock? ⟨index, 0⟩).map fun block =>
        (block, ⟨String.ofList line.name, document.nestingLevel block.line ⟨index, 0⟩⟩) := by
  have hfound : attributeAt? text character = some (String.ofList line.name) :=
    (AssignmentLine.attributeAt?_eq_some_iff htext hfeed).mpr ⟨hspan, rfl⟩
  have hcolumn : Braceless (((document.line? index).getD "").toList.take character) := by
    simpa [hline, htext] using AssignmentLine.braceless_take hspan
  simp only [attributeContext?, hline, hfound, enclosingBlock?_column hcolumn,
    nestingLevel_column hcolumn, Option.bind_eq_bind, Option.bind_some, Option.pure_def,
    Option.map_eq_bind]
  rfl

end Document

/--
On a line that assigns an attribute, the attribute is found exactly at the columns of its name and
the one behind it, by its name, and in the same blocks at all of them; on any other line, nothing is
found.
-/
theorem attributeAt?_exact (text : String) (hfeed : '\n' ∉ text.toList) :
    (∀ line : AssignmentLine, line.text = text.toList →
        (∀ character name, attributeAt? text character = some name ↔
          character ∈ line.span ∧ name = String.ofList line.name) ∧
        ∀ (document : Document) (index : Nat), document.line? index = some text →
          ∀ character ∈ line.span, ∀ other ∈ line.span,
            document.attributeContext? ⟨index, character⟩ =
              document.attributeContext? ⟨index, other⟩) ∧
      ((∀ line : AssignmentLine, line.text ≠ text.toList) →
        ∀ character, attributeAt? text character = none) := by
  refine ⟨fun line htext => ⟨fun character name => ?_, ?_⟩, attributeAt?_eq_none⟩
  · exact AssignmentLine.attributeAt?_eq_some_iff htext hfeed
  · intro document index hline character hcharacter other hother
    rw [Document.attributeContext?_of_mem_span htext hfeed hline hcharacter,
      Document.attributeContext?_of_mem_span htext hfeed hline hother]

theorem attributeAt?_exact_wide_blank :
    let text := "\u3000 size\t= \x7b"
    let document : Document := ⟨["resource \"aws_instance\" \"web\" \x7b", "  disk \x7b", text]⟩
    '\n' ∉ text.toList ∧ attributeAt? text 1 = none ∧ attributeAt? text 2 = some "size" ∧
      attributeAt? text 6 = some "size" ∧ attributeAt? text 7 = none ∧
      document.attributeContext? ⟨2, 2⟩ = document.attributeContext? ⟨2, 6⟩ ∧
      (document.attributeContext? ⟨2, 6⟩).map Prod.snd = some ⟨"size", 1⟩ := by
  intro text document
  have hfeed : '\n' ∉ text.toList := by decide +kernel
  let line : AssignmentLine :=
    ⟨"\u3000 ".toList, "size".toList, "\t".toList, " \x7b".toList, by decide +kernel,
      by decide +kernel, by decide +kernel⟩
  obtain ⟨hexact, hstable⟩ := (attributeAt?_exact text hfeed).1 line (by decide +kernel)
  have hspan : line.span = Set.Icc 2 6 := rfl
  rw [hspan] at hexact hstable
  have hname : "size" = String.ofList line.name := by decide +kernel
  refine ⟨hfeed, ?_, (hexact 2 "size").mpr ⟨by simp, hname⟩,
    (hexact 6 "size").mpr ⟨by simp, hname⟩, ?_, hstable document 2 rfl 2 (by simp) 6 (by simp),
    by decide +kernel⟩
  · exact Option.eq_none_iff_forall_ne_some.mpr fun name hfound =>
      absurd ((hexact 1 name).mp hfound).1 (by simp)
  · exact Option.eq_none_iff_forall_ne_some.mpr fun name hfound =>
      absurd ((hexact 7 name).mp hfound).1 (by simp)

end TerraformDocs
