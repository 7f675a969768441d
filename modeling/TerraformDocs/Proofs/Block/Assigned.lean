import TerraformDocs.Proofs.Block.Mention
import TerraformDocs.Proofs.Block.OwnText

/-!
# Assigned attributes

In a block of assignments and comments, the value of an attribute is that of the first line that
assigns it.  But the search for it knows neither comments nor quotes: a comment may mention the
attribute, and so may a value that is closed right behind an equals sign.  What is found is the
assigned value exactly if no such mention comes first, or if the text quoted behind the first one is
the same (`blockAttribute?_eq_assigned?_iff`).
-/

namespace TerraformDocs

open TerraformDocs.Text

/-! ## Blocks of assignments and comments -/

def Braceless (cs : List Char) : Prop := '{' ∉ cs ∧ '}' ∉ cs

instance : DecidablePred Braceless := fun cs =>
  inferInstanceAs (Decidable ('{' ∉ cs ∧ '}' ∉ cs))

inductive BodyLine where
  | assignment (indent key value : String)
  | comment (indent mark note : String)
deriving DecidableEq, Repr

namespace BodyLine

def text : BodyLine → String
  | assignment indent key value => indent ++ key ++ " = \"" ++ value ++ "\""
  | comment indent mark note => indent ++ mark ++ note

def WellFormed : BodyLine → Prop
  | assignment indent key value =>
    Blanks indent.toList ∧ IsAttributeName key.toList ∧ '"' ∉ value.toList ∧
      Braceless value.toList
  | comment indent mark note =>
    Blanks indent.toList ∧ mark ∈ ["#", "//"] ∧ Braceless note.toList

instance : DecidablePred WellFormed
  | assignment _ _ _ => inferInstanceAs (Decidable (_ ∧ _ ∧ _ ∧ _))
  | comment _ _ _ => inferInstanceAs (Decidable (_ ∧ _ ∧ _))

def assigned? (name : String) : BodyLine → Option String
  | assignment _ key value => if key = name then some value else none
  | comment _ _ _ => none

/-- What stands in the line besides the start of an assignment: a note, or a value with the quote
that closes it. -/
def loose : BodyLine → List Char
  | assignment _ _ value => value.toList ++ ['"']
  | comment _ _ note => note.toList

end BodyLine

structure FlatBlock where
  header : String
  body : List BodyLine
  indent : String
deriving DecidableEq, Repr

namespace FlatBlock

def lines (block : FlatBlock) : List String :=
  (block.header ++ "\x7b") :: (block.body.map BodyLine.text ++ [block.indent ++ "\x7d"])

structure WellFormed (block : FlatBlock) : Prop where
  header : '{' ∉ block.header.toList
  body : ∀ line ∈ block.body, line.WellFormed
  indent : Blanks block.indent.toList

instance (block : FlatBlock) : Decidable block.WellFormed :=
  decidable_of_iff
    ('{' ∉ block.header.toList ∧ (∀ line ∈ block.body, line.WellFormed) ∧
      Blanks block.indent.toList)
    ⟨fun ⟨header, body, indent⟩ => ⟨header, body, indent⟩,
      fun ⟨header, body, indent⟩ => ⟨header, body, indent⟩⟩

def assigned? (block : FlatBlock) (name : String) : Option String :=
  block.body.findSome? (BodyLine.assigned? name)

def ownFrom (indent : String) (lines : List BodyLine) : List Char :=
  unlines (lines.map fun line => line.text.toList) ++ indent.toList

/-- What stands behind the quote of the first mention in some lines, if no line before it assigns a
value to the attribute. -/
def strayFrom? (indent name : String) : List BodyLine → Option (List Char)
  | [] => none
  | line :: lines =>
    if (line.assigned? name).isSome then none
    else ((mention? name.toList line.loose).map (· ++ '\n' :: ownFrom indent lines)).or
      (strayFrom? indent name lines)

def stray? (block : FlatBlock) (name : String) : Option (List Char) :=
  strayFrom? block.indent name block.body

end FlatBlock

/-! ## Mentions in a block -/

theorem BodyLine.toList_assignment (indent key value : String) :
    (assignment indent key value).text.toList =
      indent.toList ++ (key.toList ++ ' ' :: '=' :: ' ' :: '"' :: (value.toList ++ ['"'])) := by
  simp [text]

theorem BodyLine.toList_comment (indent mark note : String) :
    (comment indent mark note).text.toList = indent.toList ++ (mark.toList ++ note.toList) := by
  simp [text]

theorem BodyLine.not_mem_of_assigned? {line : BodyLine} (h : line.WellFormed) {name value : String}
    (hvalue : line.assigned? name = some value) : '"' ∉ value.toList := by
  cases line with
  | assignment indent key found =>
      rw [assigned?] at hvalue
      split at hvalue
      · cases hvalue
        exact h.2.2.1
      · cases hvalue
  | comment indent mark note => cases hvalue

theorem isGap_feed {indent : List Char} (h : Blanks indent) : IsGap ('\n' :: indent) :=
  ⟨by simp, List.forall_mem_cons.mpr ⟨by decide, h⟩⟩

theorem interrupts_append {front : List Char} (hfront : Blanks front) {c : Char}
    (hblank : isBlank c = false) (hc : c ≠ '=' ∧ c ≠ '"') (rest : List Char) :
    Interrupts (front ++ c :: rest) := by
  rw [Interrupts, dropBlanks_append hfront (flush_cons.mpr hblank)]
  simpa using hc

theorem BodyLine.WellFormed.interrupts {line : BodyLine} (h : line.WellFormed)
    (rest : List Char) : Interrupts (line.text.toList ++ rest) := by
  cases line with
  | assignment indent key value =>
      obtain ⟨hindent, hkey, -⟩ := h
      obtain ⟨first, others, hfirst⟩ := List.exists_cons_of_ne_nil hkey.1
      have hmem : first ∈ key.toList := by simp [hfirst]
      rw [toList_assignment, hfirst, List.append_assoc, List.cons_append, List.cons_append]
      exact interrupts_append hindent (isBlank_of_isAttributeChar (hkey.2 first hmem))
        ⟨ne_of_mem_of_not_mem hmem (hkey.not_mem (by decide)),
          ne_of_mem_of_not_mem hmem (hkey.not_mem (by decide))⟩ _
  | comment indent mark note =>
      obtain ⟨hindent, hmark, -⟩ := h
      rw [toList_comment, List.append_assoc]
      simp only [List.mem_cons, List.not_mem_nil, or_false] at hmark
      rcases hmark with rfl | rfl
      · exact interrupts_append hindent (by decide) (by decide) _
      · exact interrupts_append hindent (by decide) (by decide) _

theorem FlatBlock.interrupts_ownFrom {indent : String} (hindent : Blanks indent.toList)
    {lines : List BodyLine} (hlines : ∀ line ∈ lines, line.WellFormed) :
    Interrupts (ownFrom indent lines) := by
  cases lines with
  | nil =>
      have hblank : dropBlanks indent.toList = [] := dropBlanks_eq_nil.mpr hindent
      simp [ownFrom, Interrupts, hblank]
  | cons line lines =>
      rw [ownFrom, List.map_cons, unlines_cons, List.append_assoc]
      exact (hlines line List.mem_cons_self).interrupts _

section Lines

variable {name : String} (hname : IsAttributeName name.toList)

include hname

theorem openedHere?_assignment {key : List Char} (hkey : IsAttributeName key) (rest : List Char) :
    openedHere? name.toList (key ++ (' ' :: '=' :: ' ' :: '"' :: rest)) =
      if key = name.toList then some rest else none := by
  split
  · next hsame =>
    exact openedHere?_eq_some_iff.mpr ⟨[' '], [' '], by decide, by decide, by rw [hsame]; rfl⟩
  · next hne =>
    rw [Option.eq_none_iff_forall_not_mem]
    intro behind hopened
    obtain ⟨gap, space, hgap, -, hcut⟩ := openedHere?_eq_some_iff.mp hopened
    -- the name and the key both end at the first character that no name has
    have hend : ∀ c ∈ (gap ++ '=' :: (space ++ '"' :: behind)).head?,
        isAttributeChar c = false := by
      cases gap with
      | nil => simpa using by decide
      | cons c gap => simpa using isAttributeChar_of_isBlank (hgap c List.mem_cons_self)
    have hspace : ∀ c ∈ (' ' :: '=' :: ' ' :: '"' :: rest).head?, isAttributeChar c = false := by
      simpa using by decide
    have htaken := (takeWhile_append_of_head hname.2 hend).1
    rw [hcut, (takeWhile_append_of_head hkey.2 hspace).1] at htaken
    exact hne htaken

theorem mention?_assignment {key : List Char} (hkey : IsAttributeName key) (value : List Char)
    {rest : List Char} (hrest : Interrupts rest) :
    mention? name.toList (key ++ (' ' :: '=' :: ' ' :: '"' :: (value ++ '"' :: '\n' :: rest))) =
      ((mention? name.toList (value ++ ['"'])).map (· ++ '\n' :: rest)).or
        (mention? name.toList ('\n' :: rest)) := by
  have hplain : ∀ c ∈ key, isBlank c = false ∧ c ≠ ';' := by
    intro c hc
    exact ⟨isBlank_of_isAttributeChar (hkey.2 c hc),
      ne_of_mem_of_not_mem hc (hkey.not_mem (by decide))⟩
  have hequals (cs : List Char) : openedHere? name.toList ('=' :: cs) = none :=
    openedHere?_cons_eq_none hname (by decide) cs
  have hquote (cs : List Char) : openedHere? name.toList ('"' :: cs) = none :=
    openedHere?_cons_eq_none hname (by decide) cs
  have hblank : isBlank '=' = false ∧ isBlank '"' = false := by decide
  have hvalue := mention?_append_feed hname hrest (value ++ ['"'])
  rw [List.append_assoc, List.singleton_append] at hvalue
  rw [mention?_append_plain hplain, ← hvalue]
  simp [mention?, hequals, hquote, hblank.1, hblank.2]

theorem BodyLine.mention?_text {line : BodyLine} (h : line.WellFormed) {rest : List Char}
    (hrest : Interrupts rest) :
    mention? name.toList ('\n' :: (line.text.toList ++ '\n' :: rest)) =
      ((line.assigned? name).map (fun value => value.toList ++ '"' :: '\n' :: rest)).or
        (((mention? name.toList line.loose).map (· ++ '\n' :: rest)).or
          (mention? name.toList ('\n' :: rest))) := by
  cases line with
  | assignment indent key value =>
      obtain ⟨hindent, hkey, -⟩ := h
      have htext : '\n' :: ((assignment indent key value).text.toList ++ '\n' :: rest) =
          ('\n' :: indent.toList) ++ (key.toList ++
            (' ' :: '=' :: ' ' :: '"' :: (value.toList ++ '"' :: '\n' :: rest))) := by
        simp [toList_assignment]
      rw [htext, mention?_append_gap hname (isGap_feed hindent), openedHere?_assignment hname hkey,
        mention?_assignment hname hkey value.toList hrest, assigned?]
      congr 1
      by_cases hsame : key = name
      · simp [hsame]
      · simp [hsame, String.toList_inj]
  | comment indent mark note =>
      obtain ⟨hindent, hmark, -⟩ := h
      simp only [List.mem_cons, List.not_mem_nil, or_false] at hmark
      have hplain : ∀ c ∈ mark.toList, isBlank c = false ∧ c ≠ ';' := by
        intro c hc
        rcases hmark with rfl | rfl
        · obtain rfl : c = '#' := by simpa using hc
          decide
        · obtain rfl : c = '/' := by simpa using hc
          decide
      have hnone :
          openedHere? name.toList (mark.toList ++ (note.toList ++ '\n' :: rest)) = none := by
        rcases hmark with rfl | rfl <;> exact openedHere?_cons_eq_none hname (by decide) _
      have htext : '\n' :: ((comment indent mark note).text.toList ++ '\n' :: rest) =
          ('\n' :: indent.toList) ++ (mark.toList ++ (note.toList ++ '\n' :: rest)) := by
        simp [toList_comment]
      rw [htext, mention?_append_gap hname (isGap_feed hindent), hnone, Option.none_or,
        mention?_append_plain hplain, mention?_append_feed hname hrest]
      rfl

/-- The first mention in a block is stray, or it is where the first value is assigned. -/
theorem FlatBlock.mention?_ownFrom {indent : String} (hindent : Blanks indent.toList)
    {lines : List BodyLine} (hlines : ∀ line ∈ lines, line.WellFormed) :
    ((mention? name.toList ('\n' :: ownFrom indent lines)).bind quotedText?).map String.ofList =
      match strayFrom? indent name lines with
      | some behind => (quotedText? behind).map String.ofList
      | none => lines.findSome? (BodyLine.assigned? name) := by
  induction lines with
  | nil =>
      have hnone : mention? name.toList ('\n' :: indent.toList) = none := by
        rw [← List.append_nil ('\n' :: indent.toList),
          mention?_append_gap hname (isGap_feed hindent), openedHere?_eq_none hname (by simp)]
        rfl
      simp [ownFrom, strayFrom?, hnone]
  | cons line lines ih =>
      obtain ⟨hline, hothers⟩ := List.forall_mem_cons.mp hlines
      have hinterrupts := interrupts_ownFrom hindent hothers
      have hown : ownFrom indent (line :: lines) =
          line.text.toList ++ '\n' :: ownFrom indent lines := by simp [ownFrom]
      rw [hown, BodyLine.mention?_text hname hline hinterrupts, strayFrom?, List.findSome?_cons]
      cases hassigned : line.assigned? name with
      | some value =>
          have hvalue := BodyLine.not_mem_of_assigned? hline hassigned
          simp [quotedText?_append hvalue]
      | none =>
          cases hmention : mention? name.toList line.loose with
          | some behind => simp
          | none => simpa using ih hothers

end Lines

/-! ## The own text of a block -/

namespace BlockState

theorem ownText_header {header : List Char} (h : '{' ∉ header) :
    ownText unopened (header ++ ['{']) = ([], inside 0) := by
  rw [ownText_append, ownText_unopened h, foldl_step_unopened h]
  rfl

theorem ownText_braceless {cs : List Char} (h : Braceless cs) (rest : List Char) :
    ownText (inside 0) (cs ++ rest) =
      (cs ++ (ownText (inside 0) rest).1, (ownText (inside 0) rest).2) := by
  induction cs with
  | nil => rfl
  | cons c cs ih =>
      simp only [Braceless, List.mem_cons, not_or] at h
      obtain ⟨⟨hopen, hopens⟩, hclose, hcloses⟩ := h
      simp [ownText, step, Ne.symm hopen, Ne.symm hclose, ih ⟨hopens, hcloses⟩]

end BlockState

theorem braceless_of_blanks {cs : List Char} (h : Blanks cs) : Braceless cs :=
  ⟨h.not_mem (by decide), h.not_mem (by decide)⟩

theorem BodyLine.WellFormed.braceless {line : BodyLine} (h : line.WellFormed) :
    Braceless line.text.toList := by
  cases line with
  | assignment indent key value =>
      obtain ⟨hindent, hkey, -, hvalue⟩ := h
      have hindent' := braceless_of_blanks hindent
      have hkey' : Braceless key.toList := ⟨hkey.not_mem (by decide), hkey.not_mem (by decide)⟩
      constructor
      · simp [toList_assignment, hindent'.1, hkey'.1, hvalue.1]
      · simp [toList_assignment, hindent'.2, hkey'.2, hvalue.2]
  | comment indent mark note =>
      obtain ⟨hindent, hmark, hnote⟩ := h
      have hindent' := braceless_of_blanks hindent
      have hmark' : Braceless mark.toList := by
        simp only [List.mem_cons, List.not_mem_nil, or_false] at hmark
        rcases hmark with rfl | rfl <;> decide
      constructor
      · simp [toList_comment, hindent'.1, hmark'.1, hnote.1]
      · simp [toList_comment, hindent'.2, hmark'.2, hnote.2]

namespace FlatBlock

theorem ownLines_body {indent : String} (hindent : Blanks indent.toList) {lines : List BodyLine}
    (hlines : ∀ line ∈ lines, line.WellFormed) (below : List (List Char)) :
    BlockState.ownLines (.inside 0)
        (lines.map (fun line => line.text.toList) ++ (indent.toList ++ ['}']) :: below) =
      ownFrom indent lines := by
  induction lines with
  | nil =>
      have hclosing := BlockState.ownText_braceless (braceless_of_blanks hindent) ['}']
      simp [BlockState.ownLines, hclosing, BlockState.ownText, BlockState.step, ownFrom]
  | cons line lines ih =>
      obtain ⟨hline, hothers⟩ := List.forall_mem_cons.mp hlines
      have htext := BlockState.ownText_braceless hline.braceless []
      rw [List.append_nil] at htext
      simp [BlockState.ownLines, htext, BlockState.ownText, ih hothers, ownFrom]

theorem blockText_lines {block : FlatBlock} (hblock : block.WellFormed)
    (above below : List String) :
    (Document.mk (above ++ (block.lines ++ below))).blockText above.length =
      '\n' :: ownFrom block.indent block.body := by
  have hheader := BlockState.ownText_header hblock.header
  have hbody := ownLines_body hblock.indent hblock.body (below.map String.toList)
  simp [Document.blockText, lines, BlockState.ownLines, hheader, ← hbody, Function.comp_def]

/--
In a block of assignments and comments the search finds the first assigned value exactly if no stray
mention comes before it, or if the text quoted behind the first one is the same.
-/
theorem blockAttribute?_eq_assigned?_iff {block : FlatBlock} (hblock : block.WellFormed)
    {name : String} (hname : IsAttributeName name.toList) (above below : List String) :
    (Document.mk (above ++ (block.lines ++ below))).blockAttribute? above.length name =
        block.assigned? name ↔
      ∀ behind, block.stray? name = some behind →
        (quotedText? behind).map String.ofList = block.assigned? name := by
  have hfeed : valueHere? name.toList ('\n' :: ownFrom block.indent block.body) = none := by
    rw [valueHere?_eq, openedHere?_cons_eq_none hname (by decide)]
    rfl
  rw [Document.blockAttribute?, blockText_lines hblock, firstValue?_eq hname, if_pos rfl, hfeed,
    Option.none_or, mention?_ownFrom hname hblock.indent hblock.body]
  cases hstray : strayFrom? block.indent name block.body with
  | none => simp [stray?, hstray, assigned?]
  | some behind => simp [stray?, hstray]

theorem blockAttribute?_eq_assigned?_plain :
    let block : FlatBlock := ⟨"module \"net\" ", [.comment "  " "//" " version = 1.0.0",
      .assignment "  " "source" "git; version", .assignment "  " "version" "2.0.0"], ""⟩
    block.WellFormed ∧ IsAttributeName "version".toList ∧
      (Document.mk (["# net"] ++ (block.lines ++ ["# end"]))).blockAttribute? 1 "version" =
        some "2.0.0" := by
  intro block
  have hblock : block.WellFormed := by decide +kernel
  have hname : IsAttributeName "version".toList := by decide +kernel
  have hstray : block.stray? "version" = none := by decide +kernel
  have hsame := (blockAttribute?_eq_assigned?_iff hblock hname ["# net"] ["# end"]).mpr
    (by simp [hstray])
  exact ⟨hblock, hname, hsame.trans (by decide +kernel)⟩

/-- A value that has been commented out is found in place of the one that has not. -/
theorem blockAttribute?_ne_assigned?_commented :
    let block : FlatBlock := ⟨"module \"net\" ", [.comment "  " "#" " version = \"1.0.0\"",
      .assignment "  " "version" "2.0.0"], ""⟩
    block.WellFormed ∧ IsAttributeName "version".toList ∧
      (Document.mk block.lines).blockAttribute? 0 "version" = some "1.0.0" ∧
      block.assigned? "version" = some "2.0.0" := by
  decide +kernel

end FlatBlock

end TerraformDocs
