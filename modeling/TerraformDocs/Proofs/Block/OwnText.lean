import TerraformDocs.Block.Attribute
import TerraformDocs.Proofs.Block.Nesting
import TerraformDocs.Proofs.Text.Lines

/-!
# What belongs to a block itself

The own text of a block is read by one scan, and a position is placed in a block by two others,
which only look at the braces before it.  They agree: a character belongs to the block's own text
exactly if it is no brace and the block is open at its position with no nested block around it
(`blockText_topLevel`).  The scan is followed character by character and line by line; none of its
steps depends on how the block was opened.
-/

namespace TerraformDocs

open TerraformDocs.Text

namespace BlockState

/-! ## The scan, piece by piece -/

/-- What a block keeps of a character: right in the block, anything but a brace. -/
def kept (state : BlockState) (c : Char) : Option Char :=
  if state = inside 0 ∧ c ≠ '{' ∧ c ≠ '}' then some c else none

def lineEnd (state : BlockState) : List Char := if state.isInside then ['\n'] else []

theorem kept_eq_none {state : BlockState} (h : state ≠ inside 0) (c : Char) :
    state.kept c = none :=
  if_neg fun hkept => h hkept.1

theorem kept_of_step_eq_closed {state : BlockState} {c : Char} (h : state.step c = closed) :
    state.kept c = none := by
  cases state with
  | unopened => rfl
  | closed => rfl
  | inside nested =>
      obtain ⟨rfl, -⟩ := step_inside_eq_closed.mp h
      exact if_neg fun hkept => hkept.2.2 rfl

@[simp] theorem ownText_nil (state : BlockState) : ownText state [] = ([], state) := rfl

theorem ownText_closed (cs : List Char) : ownText closed cs = ([], closed) := by
  cases cs <;> rfl

theorem ownText_cons (state : BlockState) (c : Char) (cs : List Char) :
    ownText state (c :: cs) =
      ((state.kept c).toList ++ (ownText (state.step c) cs).1, (ownText (state.step c) cs).2) := by
  rw [ownText]
  split
  · next hclosed =>
    rw [hclosed, kept_of_step_eq_closed hclosed, ownText_closed]
    rfl
  · simp only [kept]
    split <;> simp

theorem ownText_append (state : BlockState) (front rest : List Char) :
    ownText state (front ++ rest) =
      ((ownText state front).1 ++ (ownText (front.foldl step state) rest).1,
        (ownText (front.foldl step state) rest).2) := by
  induction front generalizing state with
  | nil => rfl
  | cons c front ih =>
      rw [List.cons_append, ownText_cons, ih, ownText_cons, List.foldl_cons, List.append_assoc]

theorem ownText_snd (state : BlockState) (cs : List Char) :
    (ownText state cs).2 = cs.foldl step state := by
  induction cs generalizing state with
  | nil => rfl
  | cons c cs ih => rw [ownText_cons, List.foldl_cons, ih]

theorem ownText_unopened {cs : List Char} (h : '{' ∉ cs) :
    ownText unopened cs = ([], unopened) := by
  induction cs with
  | nil => rfl
  | cons c cs ih =>
      simp only [List.mem_cons, not_or] at h
      have hstep : step unopened c = unopened := if_neg (Ne.symm h.1)
      rw [ownText_cons, hstep, ih h.2]
      rfl

@[simp] theorem ownLines_nil (state : BlockState) : ownLines state [] = [] := rfl

@[simp] theorem ownLines_closed (lines : List (List Char)) : ownLines closed lines = [] := by
  cases lines with
  | nil => rfl
  | cons line lines => rw [ownLines, ownText_closed]

theorem ownLines_cons (state : BlockState) (line : List Char) (lines : List (List Char)) :
    ownLines state (line :: lines) =
      ((ownText state line).1 ++ lineEnd (line.foldl step state)) ++
        ownLines (line.foldl step state) lines := by
  rw [← ownText_snd state line, ownLines]
  split
  · next own hown => simp [hown, lineEnd, isInside]
  · next own hown => simp [hown, lineEnd, isInside]
  · next own nested hown => simp [hown, lineEnd, isInside]

theorem ownLines_append (state : BlockState) (first second : List (List Char)) :
    ownLines state (first ++ second) =
      ownLines state first ++ ownLines (first.flatten.foldl step state) second := by
  induction first generalizing state with
  | nil => rfl
  | cons line first ih =>
      rw [List.cons_append, ownLines_cons, ih, ownLines_cons, List.flatten_cons,
        List.foldl_append, List.append_assoc, List.append_assoc, List.append_assoc]

theorem ownLines_unopened {front : List (List Char)} (h : ∀ line ∈ front, '{' ∉ line)
    (rest : List (List Char)) : ownLines unopened (front ++ rest) = ownLines unopened rest := by
  induction front with
  | nil => rfl
  | cons line front ih =>
      obtain ⟨hline, hothers⟩ := List.forall_mem_cons.mp h
      rw [List.cons_append, ownLines_cons, ownText_unopened hline, foldl_step_unopened hline,
        ih hothers]
      rfl

/-! ## Characters by their places -/

theorem ownText_eq_filterMap (state : BlockState) (cs : List Char) :
    (ownText state cs).1 = (List.range cs.length).filterMap fun index =>
      cs[index]?.bind ((cs.take index).foldl step state).kept := by
  induction cs generalizing state with
  | nil => rfl
  | cons c cs ih =>
      simp only [ownText_cons, ih, List.length_cons, List.range_succ_eq_map, List.filterMap_cons,
        List.filterMap_map, List.getElem?_cons_zero, Option.bind_some, List.take_zero,
        List.foldl_nil]
      cases state.kept c <;> rfl

theorem ownLines_eq_flatMap (state : BlockState) (lines : List (List Char)) :
    ownLines state lines = (List.range lines.length).flatMap fun index =>
      let line := lines[index]?.getD []
      let start := (lines.take index).flatten.foldl step state
      (ownText start line).1 ++ lineEnd (line.foldl step start) := by
  induction lines generalizing state with
  | nil => rfl
  | cons line lines ih =>
      rw [ownLines_cons, ih, List.length_cons, List.range_succ_eq_map, List.flatMap_cons,
        List.flatMap_map]
      simp [List.foldl_append]

/-! ## Both counts -/

theorem nestingAfter_of_after {cs : List Char} {nested : Nat} (h : after cs = inside nested) :
    nestingAfter cs = nested := by
  have hinside : (after cs).isInside = true := by simp [h, isInside]
  obtain ⟨front, inner, last, rfl, hfront, hlast⟩ := exists_of_isInside hinside
  rw [after_append_open hfront, hlast] at h
  cases h
  rw [nestingAfter_append_open hfront, foldl_nestingStep_eq hlast]

theorem after_eq_inside_iff {cs : List Char} {nested : Nat} :
    after cs = inside nested ↔ (after cs).isInside = true ∧ nestingAfter cs = nested := by
  constructor
  · intro h
    exact ⟨by simp [h, isInside], nestingAfter_of_after h⟩
  · rintro ⟨hinside, hnesting⟩
    cases hlast : after cs with
    | unopened => simp [hlast, isInside] at hinside
    | closed => simp [hlast, isInside] at hinside
    | inside last => rw [← hnesting, nestingAfter_of_after hlast]

end BlockState

/-! ## Positions -/

namespace Document

def lineLength (document : Document) (line : Nat) : Nat :=
  ((document.line? line).getD "").toList.length

def char? (document : Document) (position : Position) : Option Char :=
  ((document.line? position.line).getD "").toList[position.character]?

def positionsOn (document : Document) (line : Nat) : List Position :=
  (List.range (document.lineLength line)).map fun character => ⟨line, character⟩

def linesFrom (document : Document) (start : Nat) : List Nat :=
  List.range' start (document.lineCount - start)

def positionsFrom (document : Document) (start : Nat) : List Position :=
  (document.linesFrom start).flatMap document.positionsOn

/-- The character at a position, if it is no brace and stands right in the block that opens at line
`start`, with no nested block around it. -/
def topLevelChar? (document : Document) (start : Nat) (position : Position) : Option Char :=
  if document.openAt start position = true ∧ document.nestingLevel start position = 0 then
    (document.char? position).filter fun c => c ≠ '{' ∧ c ≠ '}'
  else none

theorem topLevelChar?_eq (document : Document) (start : Nat) (position : Position) :
    document.topLevelChar? start position = (document.char? position).bind
      (BlockState.after (document.textBefore start position)).kept := by
  simp only [topLevelChar?, openAt, nestingLevel, ← BlockState.after_eq_inside_iff]
  cases document.char? position with
  | none => simp
  | some c => simp [BlockState.kept, Option.filter, ite_and]

theorem textBefore_add (document : Document) (start index character : Nat) :
    document.textBefore start ⟨start + index, character⟩ =
      (((document.lines.drop start).map String.toList).take index).flatten ++
        ((document.line? (start + index)).getD "").toList.take character := by
  have habove : (document.lines.take (start + index)).drop start =
      (document.lines.drop start).take index := by
    rw [List.drop_take, Nat.add_sub_cancel_left]
  simp only [textBefore, habove, Nat.le_add_right, if_true, List.flatMap_def, List.map_take]

theorem getD_map_drop (document : Document) (start index : Nat) :
    ((document.lines.drop start).map String.toList)[index]?.getD [] =
      ((document.line? (start + index)).getD "").toList := by
  rw [List.getElem?_map, List.getElem?_drop, line?]
  cases document.lines[start + index]? <;> rfl

theorem ownText_line (document : Document) (start index : Nat) :
    (BlockState.ownText
        ((((document.lines.drop start).map String.toList).take index).flatten.foldl BlockState.step
          .unopened) ((document.line? (start + index)).getD "").toList).1 =
      (document.positionsOn (start + index)).filterMap (document.topLevelChar? start) := by
  rw [BlockState.ownText_eq_filterMap, positionsOn, List.filterMap_map]
  refine List.filterMap_congr fun character _ => ?_
  rw [Function.comp_apply, topLevelChar?_eq, textBefore_add, BlockState.after, List.foldl_append]
  rfl

theorem lineEnd_line (document : Document) (start index : Nat) :
    BlockState.lineEnd (((document.line? (start + index)).getD "").toList.foldl BlockState.step
        ((((document.lines.drop start).map String.toList).take index).flatten.foldl BlockState.step
          .unopened)) =
      if document.openAt start ⟨start + index, document.lineLength (start + index)⟩ then ['\n']
      else [] := by
  rw [openAt, textBefore_add, lineLength, List.take_length, BlockState.after, List.foldl_append]
  rfl

/-- Line by line, the own text of a block is what stands right in it, and a line feed wherever it is
open at the end of a line. -/
theorem blockText_eq_flatMap (document : Document) (start : Nat) :
    document.blockText start = (document.linesFrom start).flatMap fun line =>
      (document.positionsOn line).filterMap (document.topLevelChar? start) ++
        if document.openAt start ⟨line, document.lineLength line⟩ then ['\n'] else [] := by
  rw [blockText, BlockState.ownLines_eq_flatMap, linesFrom, List.range'_eq_map_range,
    List.flatMap_map, List.length_map, List.length_drop]
  refine List.flatMap_congr fun index _ => ?_
  simp only [getD_map_drop, ownText_line, lineEnd_line]

theorem char?_ne_feed {text : String} {position : Position} {c : Char}
    (h : (ofText text).char? position = some c) : c ≠ '\n' := by
  rw [char?, line?] at h
  cases hline : (ofText text).lines[position.line]? with
  | none => simp [hline] at h
  | some line =>
      have hmem := List.mem_of_getElem? hline
      rw [ofText, List.mem_map] at hmem
      obtain ⟨cs, hcs, rfl⟩ := hmem
      have hc : c ∈ cs := by simpa using List.mem_of_getElem? (by simpa [hline] using h)
      exact ne_of_mem_of_not_mem hc (not_mem_feed_of_mem_lines hcs)

theorem topLevelChar?_ne_feed {text : String} {start : Nat} {position : Position} {c : Char}
    (h : (ofText text).topLevelChar? start position = some c) : c ≠ '\n' := by
  rw [topLevelChar?] at h
  split at h
  · exact char?_ne_feed (Option.filter_eq_some_iff.mp h).1
  · cases h

/--
The own text of a block consists of the characters that are no braces and at whose positions the
block is open with no nested block around them, in their order, and of a line feed behind each line
at whose end the block is open.  In a document that is read from a text, there are no other line
feeds in it.
-/
theorem blockText_topLevel (start : Nat) :
    (∀ document : Document, document.blockText start =
      (document.linesFrom start).flatMap fun line =>
        (document.positionsOn line).filterMap (document.topLevelChar? start) ++
          if document.openAt start ⟨line, document.lineLength line⟩ then ['\n'] else []) ∧
    ∀ text, ((ofText text).blockText start).filter (· ≠ '\n') =
      ((ofText text).positionsFrom start).filterMap ((ofText text).topLevelChar? start) := by
  refine ⟨fun document => blockText_eq_flatMap document start, fun text => ?_⟩
  rw [blockText_eq_flatMap, positionsFrom, List.filter_flatMap, List.filterMap_flatMap]
  refine List.flatMap_congr fun line _ => ?_
  have hown : ((((ofText text).positionsOn line).filterMap
      ((ofText text).topLevelChar? start)).filter (· ≠ '\n')) =
      ((ofText text).positionsOn line).filterMap ((ofText text).topLevelChar? start) := by
    rw [List.filter_eq_self]
    intro c hc
    obtain ⟨position, -, hposition⟩ := List.mem_filterMap.mp hc
    simpa using topLevelChar?_ne_feed hposition
  rw [List.filter_append, hown]
  split <;> simp

end Document

end TerraformDocs
