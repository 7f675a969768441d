import TerraformDocs.Files.Path
import TerraformDocs.Proofs.Text.Reading

/-!
# Pieces of paths

A path is its pieces with a slash between them, and an absolute one starts with an empty piece.
Joining a relative path to another puts its pieces behind those of the other (`pieces_join`).
-/

namespace TerraformDocs

open TerraformDocs.Text

namespace Path

def ofPieces (pieces : List (List Char)) : Path := ofChars (['/'].intercalate pieces)

@[simp] theorem chars_mk (text : String) : (⟨text⟩ : Path).chars = text.toList := rfl

theorem ofPieces_pieces (path : Path) : ofPieces path.pieces = path := by
  simp [ofPieces, pieces, ofChars, chars]

theorem chars_ofPieces (pieces : List (List Char)) :
    (ofPieces pieces).chars = ['/'].intercalate pieces := by
  simp [ofPieces, ofChars, chars]

theorem anchored_nil (pieces : List (List Char)) : anchored [] pieces = ofPieces pieces := by
  simp [anchored, ofPieces]

theorem anchored_here (pieces : List (List Char)) :
    anchored ['.'] pieces = ofPieces (['.'] :: pieces) := by
  cases pieces with
  | nil => simp [anchored, ofPieces]
  | cons piece pieces => simp [anchored, ofPieces, List.intercalate_cons_of_ne_nil]

theorem ofPieces_nil : ofPieces [] = ⟨""⟩ := rfl

theorem pieces_ofPieces {pieces : List (List Char)} (hne : pieces ≠ [])
    (h : ∀ piece ∈ pieces, '/' ∉ piece) : (ofPieces pieces).pieces = pieces := by
  rw [Path.pieces, chars_ofPieces, List.splitOn_intercalate '/' h hne]

theorem exists_pieces (path : Path) : ∃ first others, path.pieces = first :: others :=
  List.exists_cons_of_ne_nil (List.splitOn_ne_nil '/' path.chars)

theorem not_mem_of_mem_pieces {path : Path} {piece : List Char} (h : piece ∈ path.pieces) :
    '/' ∉ piece :=
  not_mem_of_mem_splitOn h

theorem pieces_ne_of_text_ne {path : Path} (h : path.text ≠ "") : path.pieces ≠ [[]] := by
  intro hpieces
  have hchars : path.chars = [] := by
    have hjoin : ['/'].intercalate path.pieces = path.chars := List.intercalate_splitOn '/'
    rw [← hjoin, hpieces, List.intercalate_singleton]
  exact h (String.toList_eq_nil_iff.mp hchars)

theorem isAbsolute_iff {path : Path} {first : List Char} {others : List (List Char)}
    (h : path.pieces = first :: others) :
    path.isAbsolute = true ↔ first = [] ∧ others ≠ [] := by
  have hchars : path.chars = ['/'].intercalate (first :: others) := by
    rw [← h, pieces, List.intercalate_splitOn]
  have hfirst : '/' ∉ first := not_mem_of_mem_pieces (h ▸ List.mem_cons_self)
  rw [isAbsolute, decide_eq_true_iff, hchars]
  by_cases hothers : others = []
  · subst hothers
    rw [List.intercalate_singleton]
    exact iff_of_false (fun hhead => hfirst (List.mem_of_head? hhead)) (by simp)
  · rw [List.intercalate_cons_of_ne_nil hothers]
    cases first with
    | nil => simp [hothers]
    | cons c first =>
        have hc : c ≠ '/' := by
          rintro rfl
          exact hfirst List.mem_cons_self
        simp [hc]

theorem first_piece_ne_nil {path : Path} (hrelative : path.isAbsolute = false)
    (hne : path.text ≠ "") {first : List Char} {others : List (List Char)}
    (h : path.pieces = first :: others) : first ≠ [] := by
  rintro rfl
  have hothers : others ≠ [] := by
    rintro rfl
    exact pieces_ne_of_text_ne hne h
  rw [(isAbsolute_iff h).mpr ⟨rfl, hothers⟩] at hrelative
  cases hrelative

/-! ## Joined paths -/

theorem join_empty (path : Path) : join ⟨""⟩ path = path := by
  rw [join]
  split
  · rfl
  · rw [if_pos (.inl rfl), String.empty_append]

theorem chars_join (base : Path) {path : Path} (hrelative : path.isAbsolute = false) :
    (base.join path).chars =
      if base.chars = [] ∨ base.chars.getLast? = some '/' then base.chars ++ path.chars
      else base.chars ++ '/' :: path.chars := by
  rw [join, hrelative]
  simp only [Bool.false_eq_true, if_false]
  split <;> simp [chars]

-- An empty last piece is a trailing slash, which needs no other before the second path.
theorem pieces_join (base : Path) {path : Path} (hrelative : path.isAbsolute = false) :
    ∃ kept, (base.join path).pieces = kept ++ path.pieces ∧
      (kept = base.pieces ∨ base.pieces = kept ++ [[]]) := by
  rw [pieces, chars_join base hrelative]
  split
  · next hends =>
    rcases hends with hempty | hslash
    · exact ⟨[], by simp [hempty, pieces], .inr (by simp [hempty, pieces])⟩
    · obtain ⟨front, hfront⟩ := List.getLast?_eq_some_iff.mp hslash
      refine ⟨front.splitOn '/', ?_, .inr ?_⟩
      · rw [hfront, List.append_assoc, List.singleton_append, List.splitOn_append_cons_self, pieces]
      · rw [pieces, hfront, List.splitOn_append_cons_self, List.splitOn_nil]
  · exact ⟨base.pieces, List.splitOn_append_cons_self .., .inl rfl⟩

end Path

end TerraformDocs
