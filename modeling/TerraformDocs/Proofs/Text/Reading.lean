import Mathlib.Data.List.Basic
import Mathlib.Data.List.TakeWhile
import TerraformDocs.Text.Line
import TerraformDocs.Text.LineStart

/-!
# Reading what has been written

A text that is written piece by piece is read back piece by piece: each recogniser takes the piece
that it is for and leaves the rest.  `unlines` writes lines, each with a line feed behind it; a
reader of line starts goes through such a text line by line.
-/

namespace TerraformDocs.Text

/-! ## Recognisers -/

theorem dropBlanks_cons_of_blank {c : Char} (h : isBlank c = true) (cs : List Char) :
    dropBlanks (c :: cs) = dropBlanks cs :=
  List.dropWhile_cons_of_pos h

theorem dropBlanks_cons_of_not_blank {c : Char} (h : isBlank c = false) (cs : List Char) :
    dropBlanks (c :: cs) = c :: cs :=
  List.dropWhile_cons_of_neg (by simp [h])

@[simp] theorem dropBlanks_space (cs : List Char) : dropBlanks (' ' :: cs) = dropBlanks cs :=
  dropBlanks_cons_of_blank (by decide) cs

@[simp] theorem dropBlanks_feed (cs : List Char) : dropBlanks ('\n' :: cs) = dropBlanks cs :=
  dropBlanks_cons_of_blank (by decide) cs

theorem takeWhile_append_of_head {α : Type} {p : α → Bool} {front rest : List α}
    (hfront : ∀ a ∈ front, p a = true) (hrest : ∀ a ∈ rest.head?, p a = false) :
    (front ++ rest).takeWhile p = front ∧ (front ++ rest).dropWhile p = rest := by
  rw [List.takeWhile_append_of_pos hfront, List.dropWhile_append_of_pos hfront]
  cases rest with
  | nil => simp
  | cons stop rest =>
      have hstop : p stop = false := hrest stop rfl
      simp [hstop]

theorem takeWhile_append_mark {mark : Char} {front : List Char} (h : mark ∉ front)
    (rest : List Char) :
    (front ++ mark :: rest).takeWhile (· ≠ mark) = front ∧
      (front ++ mark :: rest).dropWhile (· ≠ mark) = mark :: rest := by
  have hfront : ∀ c ∈ front, decide (c ≠ mark) = true := by
    intro c hc
    simpa using ne_of_mem_of_not_mem hc h
  exact takeWhile_append_of_head hfront (by simp)

theorem dropWhile_eq_nil_of_not_mem {mark : Char} {cs : List Char} (h : mark ∉ cs) :
    cs.dropWhile (· ≠ mark) = [] := by
  rw [List.dropWhile_eq_nil_iff]
  intro c hc
  simpa using ne_of_mem_of_not_mem hc h

theorem upTo?_append {mark : Char} {front : List Char} (h : mark ∉ front) (rest : List Char) :
    upTo? mark (front ++ mark :: rest) = some (front, rest) := by
  obtain ⟨htake, hdrop⟩ := takeWhile_append_mark h rest
  rw [upTo?, htake, hdrop]

theorem eq_of_append_mark {mark : Char} {front other rest behind : List Char}
    (hfront : mark ∉ front) (hother : mark ∉ other)
    (h : front ++ mark :: rest = other ++ mark :: behind) : front = other ∧ rest = behind := by
  have hread := upTo?_append hfront rest
  rw [h, upTo?_append hother] at hread
  cases hread
  exact ⟨rfl, rfl⟩

theorem upTo?_eq_none {mark : Char} {cs : List Char} (h : mark ∉ cs) : upTo? mark cs = none := by
  rw [upTo?, dropWhile_eq_nil_of_not_mem h]

theorem quoted?_append {content : List Char} (h : '"' ∉ content) (rest : List Char) :
    quoted? ('"' :: (content ++ '"' :: rest)) = some (content, rest) :=
  upTo?_append h rest

@[simp] theorem isPrefixOf?_mark (mark : Char) (cs : List Char) :
    [mark].isPrefixOf? (mark :: cs) = some cs :=
  List.isPrefixOf?_eq_some_iff_append_eq.mpr rfl

theorem run?_eq_some_iff {member : Char → Bool} {cs word rest : List Char} :
    run? member cs = some (word, rest) ↔
      word ≠ [] ∧ (∀ c ∈ word, member c = true) ∧ (∀ c ∈ rest.head?, member c = false) ∧
        word ++ rest = cs := by
  constructor
  · intro h
    rw [run?] at h
    split at h
    · cases h
    · next hne =>
      cases h
      refine ⟨hne, fun c => List.mem_takeWhile_imp, ?_, List.takeWhile_append_dropWhile⟩
      intro c hc
      have hhead := List.head?_dropWhile_not member cs
      rwa [Option.mem_def.mp hc] at hhead
  · rintro ⟨hne, hword, hrest, rfl⟩
    obtain ⟨htake, hdrop⟩ := takeWhile_append_of_head hword hrest
    rw [run?, htake, hdrop]
    cases word with
    | nil => exact absurd rfl hne
    | cons c word => rfl

theorem run?_append {member : Char → Bool} {word : List Char} (hne : word ≠ [])
    (hword : ∀ c ∈ word, member c = true) {stop : Char} (hstop : member stop = false)
    (rest : List Char) : run? member (word ++ stop :: rest) = some (word, stop :: rest) :=
  run?_eq_some_iff.mpr ⟨hne, hword, by simpa using hstop, rfl⟩

theorem run?_append_members {member : Char → Bool} {front : List Char} (hne : front ≠ [])
    (h : ∀ c ∈ front, member c = true) (cs : List Char) :
    run? member (front ++ cs) = some (front ++ cs.takeWhile member, cs.dropWhile member) := by
  obtain ⟨c, front, rfl⟩ := List.exists_cons_of_ne_nil hne
  rw [run?, List.takeWhile_append_of_pos h, List.dropWhile_append_of_pos h]
  rfl

theorem dropBlanks_eq_nil {cs : List Char} : dropBlanks cs = [] ↔ ∀ c ∈ cs, isBlank c = true :=
  List.dropWhile_eq_nil_iff

theorem isBlank_of_trimChars_eq_nil {cs : List Char} (h : trimChars cs = []) :
    ∀ c ∈ cs, isBlank c = true := by
  rw [trimChars, List.reverse_eq_nil_iff, dropBlanks_eq_nil] at h
  cases hdrop : dropBlanks cs with
  | nil => exact dropBlanks_eq_nil.mp hdrop
  | cons c rest =>
      have hblank : isBlank c = true := h c (by simp [hdrop])
      rw [dropBlanks_head hdrop] at hblank
      cases hblank

theorem dropBlanks_eq_self {cs : List Char} (h : ∀ c ∈ cs, isBlank c = false) :
    dropBlanks cs = cs := by
  cases cs with
  | nil => rfl
  | cons c cs => exact dropBlanks_cons_of_not_blank (h c (by simp)) cs

theorem trimChars_eq_self {cs : List Char} (h : ∀ c ∈ cs, isBlank c = false) :
    trimChars cs = cs := by
  have hreverse : ∀ c ∈ cs.reverse, isBlank c = false := by simpa using h
  rw [trimChars, dropBlanks_eq_self h, dropBlanks_eq_self hreverse, List.reverse_reverse]

theorem not_mem_of_mem_splitOn {mark : Char} {cs piece : List Char}
    (h : piece ∈ cs.splitOn mark) : mark ∉ piece := by
  induction cs generalizing piece with
  | nil =>
      obtain rfl : piece = [] := by simpa using h
      exact List.not_mem_nil
  | cons c cs ih =>
      rw [List.splitOn_cons_eq_if_modifyHead] at h
      split at h
      · rcases List.mem_cons.mp h with rfl | h
        · exact List.not_mem_nil
        · exact ih h
      · next hmark =>
        obtain ⟨first, others, hsplit⟩ := List.exists_cons_of_ne_nil (List.splitOn_ne_nil mark cs)
        rw [hsplit] at h ih
        rcases List.mem_cons.mp h with rfl | h
        · simp [Ne.symm (ne_of_beq_false (Bool.eq_false_iff.mpr hmark)), ih List.mem_cons_self]
        · exact ih (List.mem_cons_of_mem _ h)

theorem intercalate_ne_nil {mark : Char} {piece : List Char} (h : piece ≠ [])
    (pieces : List (List Char)) : [mark].intercalate (piece :: pieces) ≠ [] := by
  cases pieces with
  | nil => simpa using h
  | cons second pieces => simp

theorem mem_intercalate {mark c : Char} {pieces : List (List Char)}
    (h : c ∈ [mark].intercalate pieces) : c = mark ∨ ∃ piece ∈ pieces, c ∈ piece := by
  induction pieces with
  | nil => simp at h
  | cons piece pieces ih =>
      by_cases hpieces : pieces = []
      · subst hpieces
        exact .inr ⟨piece, by simp, by simpa using h⟩
      · rw [List.intercalate_cons_of_ne_nil hpieces, List.mem_append, List.mem_append,
          List.mem_singleton] at h
        rcases h with (hfirst | hmark) | hothers
        · exact .inr ⟨piece, by simp, hfirst⟩
        · exact .inl hmark
        · rcases ih hothers with hmark | ⟨other, hother, hc⟩
          · exact .inl hmark
          · exact .inr ⟨other, List.mem_cons_of_mem piece hother, hc⟩

theorem intercalate_append (mark : Char) {front back : List (List Char)} (hfront : front ≠ [])
    (hback : back ≠ []) :
    [mark].intercalate (front ++ back) =
      [mark].intercalate front ++ mark :: [mark].intercalate back := by
  induction front with
  | nil => exact absurd rfl hfront
  | cons piece front ih =>
      cases front with
      | nil => simp [List.intercalate_cons_of_ne_nil hback]
      | cons second front =>
          have hothers := ih (List.cons_ne_nil second front)
          rw [List.cons_append] at hothers
          simp only [List.cons_append, List.intercalate_cons_cons, hothers, List.append_assoc]

/-! ## Lines -/

def unlines (lines : List (List Char)) : List Char := lines.flatMap (· ++ ['\n'])

@[simp] theorem unlines_nil : unlines [] = [] := rfl

@[simp] theorem unlines_cons (line : List Char) (lines : List (List Char)) :
    unlines (line :: lines) = line ++ '\n' :: unlines lines := by
  simp [unlines]

@[simp] theorem unlines_append (first second : List (List Char)) :
    unlines (first ++ second) = unlines first ++ unlines second :=
  List.flatMap_append

section LinesOf

variable {α : Type} [DecidableEq α] {feed ret : α}

@[simp] theorem linesOf_feed (xs : List α) :
    linesOf feed ret (feed :: xs) = [] :: linesOf feed ret xs := by
  rw [linesOf, if_pos rfl]

theorem linesOf_singleton {x : α} (h : x ≠ feed) : linesOf feed ret [x] = [[x]] := by
  simp [linesOf, h]

theorem linesOf_append_within {part rest : List α} (hpart : feed ∉ part)
    (hhead : rest.head? ≠ some feed) (hrest : linesOf feed ret rest ≠ []) :
    linesOf feed ret (part ++ rest) = (linesOf feed ret rest).modifyHead (part ++ ·) := by
  obtain ⟨first, others, hlines⟩ := List.exists_cons_of_ne_nil hrest
  induction part with
  | nil => simp [hlines]
  | cons x part ih =>
      simp only [List.mem_cons, not_or] at hpart
      have hnext : ¬ (x = ret ∧ (part ++ rest).head? = some feed) := by
        rintro ⟨-, hfeed⟩
        cases part with
        | nil => exact hhead hfeed
        | cons y part =>
            obtain rfl : y = feed := by simpa using hfeed
            exact hpart.2 List.mem_cons_self
      rw [List.cons_append, linesOf, if_neg (Ne.symm hpart.1), if_neg hnext, ih hpart.2, hlines]
      rfl

theorem linesOf_append_feed {line : List α} (hfeed : feed ∉ line)
    (hret : line.getLast? ≠ some ret) (rest : List α) :
    linesOf feed ret (line ++ feed :: rest) = line :: linesOf feed ret rest := by
  rcases List.eq_nil_or_concat' line with rfl | ⟨front, x, rfl⟩
  · exact linesOf_feed rest
  · simp only [List.mem_append, List.mem_singleton, not_or] at hfeed
    have hx : x ≠ ret := by simpa using hret
    have hlast : linesOf feed ret (x :: feed :: rest) = [x] :: linesOf feed ret rest := by
      rw [linesOf, if_neg (Ne.symm hfeed.2), if_neg fun h => hx h.1, linesOf_feed]
    rw [List.append_assoc, List.singleton_append,
      linesOf_append_within hfeed.1 (by simpa using Ne.symm hfeed.2) (by simp [hlast]), hlast]
    rfl

theorem linesOf_append_return_feed (hne : ret ≠ feed) {line : List α} (hfeed : feed ∉ line)
    (rest : List α) :
    linesOf feed ret (line ++ ret :: feed :: rest) = line :: linesOf feed ret rest := by
  have hlast : linesOf feed ret (ret :: feed :: rest) = [] :: linesOf feed ret rest := by
    rw [linesOf, if_neg hne, if_pos ⟨rfl, rfl⟩, linesOf_feed]
  rw [linesOf_append_within hfeed (by simpa using hne) (by simp [hlast]), hlast,
    List.modifyHead_cons, List.append_nil]

theorem linesOf_line {line : List α} (hne : line ≠ []) (hfeed : feed ∉ line) :
    linesOf feed ret line = [line] := by
  rcases List.eq_nil_or_concat' line with rfl | ⟨front, x, rfl⟩
  · exact absurd rfl hne
  · simp only [List.mem_append, List.mem_singleton, not_or] at hfeed
    have hlast : linesOf feed ret [x] = [[x]] := linesOf_singleton (Ne.symm hfeed.2)
    rw [linesOf_append_within hfeed.1 (by simpa using Ne.symm hfeed.2) (by simp [hlast]), hlast]
    rfl

end LinesOf

theorem lines_append_feed {line : List Char} (hfeed : '\n' ∉ line)
    (hreturn : line.getLast? ≠ some '\r') (rest : List Char) :
    lines (line ++ '\n' :: rest) = line :: lines rest :=
  linesOf_append_feed hfeed hreturn rest

theorem lines_unlines {ls : List (List Char)} (hfeed : ∀ line ∈ ls, '\n' ∉ line)
    (hreturn : ∀ line ∈ ls, line.getLast? ≠ some '\r') : lines (unlines ls) = ls := by
  induction ls with
  | nil => rfl
  | cons line ls ih =>
      rw [unlines_cons, lines_append_feed (hfeed line (by simp)) (hreturn line (by simp)),
        ih (fun other h => hfeed other (by simp [h])) (fun other h => hreturn other (by simp [h]))]

/-! ## Readers of line starts -/

namespace LineReader

variable {α : Type} (reader : LineReader α)

theorem readingsFrom_of_some {cs rest : List Char} {item : α}
    (h : reader.read cs = some (item, rest)) :
    reader.readingsFrom true cs = (item, rest) :: reader.readingsFrom false rest := by
  rw [readingsFrom]
  split
  · next item' rest' heq =>
    simp only [if_true, h, Option.some.injEq, Prod.mk.injEq] at heq
    obtain ⟨rfl, rfl⟩ := heq
    rfl
  · next heq => simp [h] at heq

theorem readingsFrom_cons_of_none {c : Char} {cs : List Char} {lineStart : Bool}
    (h : (if lineStart then reader.read (c :: cs) else none) = none) :
    reader.readingsFrom lineStart (c :: cs) = reader.readingsFrom (c = '\n') cs := by
  rw [readingsFrom]
  split
  · next heq =>
    rw [h] at heq
    cases heq
  · rfl

@[simp] theorem readingsFrom_nil (lineStart : Bool) : reader.readingsFrom lineStart [] = [] := by
  have hread : reader.read [] = none := by
    cases h : reader.read [] with
    | none => rfl
    | some found => simpa using reader.shrinks h
  rw [readingsFrom]
  split
  · next heq => simp [hread] at heq
  · rfl

theorem readingsFrom_false_line {line : List Char} (hfeed : '\n' ∉ line) (rest : List Char) :
    reader.readingsFrom false (line ++ '\n' :: rest) = reader.readingsFrom true rest := by
  induction line with
  | nil => exact readingsFrom_cons_of_none reader (by simp)
  | cons c line ih =>
      simp only [List.mem_cons, not_or] at hfeed
      rw [List.cons_append, readingsFrom_cons_of_none reader (by simp)]
      simpa [Ne.symm hfeed.1] using ih hfeed.2

theorem readingsFrom_false_feed (rest : List Char) :
    reader.readingsFrom false ('\n' :: rest) = reader.readingsFrom true rest :=
  readingsFrom_cons_of_none reader (by simp)

theorem readingsFrom_skip_line {line rest : List Char} (hfeed : '\n' ∉ line)
    (h : reader.read (line ++ '\n' :: rest) = none) :
    reader.readingsFrom true (line ++ '\n' :: rest) = reader.readingsFrom true rest := by
  cases line with
  | nil => exact readingsFrom_cons_of_none reader (by simpa using h)
  | cons c line =>
      simp only [List.mem_cons, not_or] at hfeed
      rw [List.cons_append, readingsFrom_cons_of_none reader (by simpa using h)]
      simpa [Ne.symm hfeed.1] using readingsFrom_false_line reader hfeed.2 rest

theorem readingsFrom_skip_lines {ls : List (List Char)} (hfeed : ∀ line ∈ ls, '\n' ∉ line)
    (h : ∀ line ∈ ls, ∀ rest, reader.read (line ++ '\n' :: rest) = none) (rest : List Char) :
    reader.readingsFrom true (unlines ls ++ rest) = reader.readingsFrom true rest := by
  induction ls with
  | nil => rfl
  | cons line ls ih =>
      rw [unlines_cons, List.append_assoc, List.cons_append,
        readingsFrom_skip_line reader (hfeed line (by simp)) (h line (by simp) _),
        ih (fun other hmem => hfeed other (by simp [hmem]))
          (fun other hmem => h other (by simp [hmem]))]

theorem readingsFrom_feed {cs : List Char} (h : reader.read ('\n' :: cs) = reader.read cs) :
    reader.readingsFrom true ('\n' :: cs) = reader.readingsFrom true cs := by
  cases hread : reader.read cs with
  | none => exact readingsFrom_cons_of_none reader (by simpa using h.trans hread)
  | some found =>
      rw [readingsFrom_of_some reader (h.trans hread), readingsFrom_of_some reader hread]

end LineReader

end TerraformDocs.Text
