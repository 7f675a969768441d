import TerraformDocs.Proofs.Files.Pieces
import TerraformDocs.Proofs.Files.Walk

/-!
# Ancestors of a relative path

The ancestors of a relative path are the path with pieces taken off its end.  They lead to the
places that the path itself passes, from its end back to the working directory.
-/

namespace TerraformDocs

open TerraformDocs.Text

namespace Path

open Location

def steps (path : Path) : List (List Char) := path.pieces.filter (!isFiller ·)

/-! ## Places of the ancestors -/

/-- `base` is what some first pieces spell, and leads from `working` to `place`. -/
def Cut (pieces : List (List Char)) (working : Location) (base : Path) (place : Location) : Prop :=
  ∃ front, front <+: pieces ∧ base = ofPieces front ∧ place = walk working front

theorem walk_dropFillers (place : Location) (reversed : List (List Char)) :
    walk place (reversed.dropWhile isFiller).reverse = walk place reversed.reverse := by
  induction reversed with
  | nil => rfl
  | cons piece others ih =>
      cases h : isFiller piece with
      | true =>
          rw [List.dropWhile_cons_of_pos h, ih, List.reverse_cons, walk_append, walk_cons,
            stepTo_filler h, walk_nil]
      | false => rw [List.dropWhile_cons_of_neg (by simp [h])]

theorem above_cuts {pieces : List (List Char)} {anchor : List Char} {working : Location}
    (front : List (List Char)) (ends : List Location)
    (hanchored : ∀ rest, anchored anchor rest = ofPieces (front ++ rest))
    (hfront : walk working front = working)
    (hends : List.Forall₂ (Cut pieces working) (above anchor []) ends)
    {reversed : List (List Char)} (hstarts : front ++ reversed.reverse <+: pieces) :
    List.Forall₂ (Cut pieces working) (above anchor reversed)
      ((trail working (reversed.reverse.filter (!isFiller ·))).tail ++ ends) := by
  -- From the last piece on: a filler makes neither an ancestor nor a place of the trail, any other
  -- piece makes one of each.
  induction reversed with
  | nil => exact hends
  | cons piece others ih =>
      rw [List.reverse_cons, ← List.append_assoc] at hstarts
      have hothers := (List.prefix_append _ _).trans hstarts
      rw [above, List.reverse_cons, List.filter_append]
      split
      · next hfiller => simpa [hfiller] using ih hothers
      · next hfiller =>
        have hcut : (others.dropWhile isFiller).reverse <+: others.reverse :=
          List.reverse_prefix.mpr (List.dropWhile_suffix _)
        simp only [hfiller, List.filter_cons, List.filter_nil, trail_concat, List.tail_cons,
          Bool.not_false, if_true]
        rw [trail_eq_cons, List.cons_append]
        refine .cons ⟨front ++ (others.dropWhile isFiller).reverse, ?_, hanchored _, ?_⟩
          (ih hothers)
        · exact ((List.prefix_append_right_inj front).mpr hcut).trans hothers
        · rw [walk_append, hfront, walk_dropFillers, walk_filter]

theorem ancestors_cuts {path : Path} (hrelative : path.isAbsolute = false) (hne : path.text ≠ "")
    (working : Location) :
    ∃ ends, (∀ place ∈ ends, place = working) ∧
      List.Forall₂ (Cut path.pieces working) path.ancestors (trail working path.steps ++ ends) := by
  have hself : Cut path.pieces working path (walk working path.steps) :=
    ⟨path.pieces, List.prefix_rfl, (ofPieces_pieces path).symm, walk_filter _ _⟩
  rw [trail_eq_cons, ancestors]
  cases hpieces : path.pieces with
  | nil => exact absurd hpieces (List.splitOn_ne_nil _ _)
  | cons first others =>
      have hfirst := first_piece_ne_nil hrelative hne hpieces
      rw [hpieces] at hself
      -- with a leading dot the working directory comes twice, as `.` and as the empty path
      by_cases hhere : first = ['.']
      · have hempty : Cut (['.'] :: others) working ⟨""⟩ working :=
          ⟨[], List.nil_prefix, rfl, rfl⟩
        have hsteps : path.steps = others.filter (!isFiller ·) := by
          rw [steps, hpieces, hhere]
          rfl
        have hstarts : [['.']] ++ others.reverse.reverse <+: ['.'] :: others := by simp
        have habove := above_cuts [['.']] [working] anchored_here rfl (.cons hempty .nil) hstarts
        rw [List.reverse_reverse, ← hsteps] at habove
        subst hhere
        exact ⟨[working], by simp, .cons hself habove⟩
      · have hstarts : [] ++ (first :: others).reverse.reverse <+: first :: others := by simp
        have habove : List.Forall₂ (Cut (first :: others) working) _ _ :=
          above_cuts [] [] anchored_nil rfl .nil hstarts
        rw [List.reverse_reverse, ← hpieces, ← steps, hpieces] at habove
        simp only [hfirst, hhere, false_and, if_false]
        exact ⟨[], by simp, .cons hself habove⟩

/-! ## A file's name behind a path -/

variable {name : String}

theorem head?_ne_slash (hname : '/' ∉ name.toList) : name.toList.head? ≠ some '/' :=
  fun hhead => hname (List.mem_of_head? hhead)

theorem isAbsolute_eq_false (hname : '/' ∉ name.toList) : isAbsolute ⟨name⟩ = false :=
  decide_eq_false (head?_ne_slash hname)

theorem pieces_join_name {front : List (List Char)} (hfront : ∀ piece ∈ front, '/' ∉ piece)
    (hname : '/' ∉ name.toList) :
    ∃ kept, ((ofPieces front).join ⟨name⟩).pieces = kept ++ [name.toList] ∧
      (kept = front ∨ front = kept ++ [[]]) := by
  have hrelative := isAbsolute_eq_false hname
  have hpieces : (⟨name⟩ : Path).pieces = [name.toList] := List.splitOn_eq_singleton hname
  rw [← hpieces]
  by_cases hempty : front = []
  · subst hempty
    exact ⟨[], by rw [ofPieces_nil, join_empty, List.nil_append], .inl rfl⟩
  · simpa only [pieces_ofPieces hempty hfront] using pieces_join (ofPieces front) hrelative

/-! ## Texts of the ancestors -/

section Cut

variable {path base : Path} {working place : Location}

theorem Cut.text_cases (h : Cut path.pieces working base place) :
    base = path ∨ base = ⟨""⟩ ∨ ∃ rest, path.text = base.text ++ "/" ++ rest := by
  obtain ⟨front, ⟨back, hback⟩, rfl, -⟩ := h
  by_cases hfront : front = []
  · subst hfront
    exact .inr (.inl rfl)
  · by_cases hempty : back = []
    · subst hempty
      rw [List.append_nil] at hback
      exact .inl (by rw [hback, ofPieces_pieces])
    · refine .inr (.inr ⟨String.ofList (['/'].intercalate back), ?_⟩)
      have hchars : path.chars = ['/'].intercalate (front ++ back) := by
        rw [hback, pieces, List.intercalate_splitOn]
      rw [intercalate_append '/' hfront hempty] at hchars
      apply String.toList_inj.mp
      simpa [ofPieces, ofChars, chars] using hchars

theorem Cut.chars_prefix (h : Cut path.pieces working base place) : base.chars <+: path.chars := by
  rcases h.text_cases with rfl | rfl | ⟨rest, hrest⟩
  · exact List.prefix_rfl
  · exact List.nil_prefix
  · simp [chars, hrest]

theorem Cut.isAbsolute_join (h : Cut path.pieces working base place)
    (hrelative : path.isAbsolute = false) (hname : '/' ∉ name.toList) :
    (base.join ⟨name⟩).isAbsolute = false := by
  obtain ⟨back, hback⟩ := h.chars_prefix
  unfold isAbsolute at hrelative ⊢
  rw [chars_join base (isAbsolute_eq_false hname)]
  rw [← hback] at hrelative
  cases hbase : base.chars with
  | nil => simpa using head?_ne_slash hname
  | cons c cs =>
      rw [hbase] at hrelative
      split <;> simpa using hrelative

theorem size_join (base : Path) (hname : '/' ∉ name.toList) :
    base.text.utf8ByteSize + name.utf8ByteSize ≤ (base.join ⟨name⟩).text.utf8ByteSize ∧
      (base.join ⟨name⟩).text.utf8ByteSize ≤ base.text.utf8ByteSize + 1 + name.utf8ByteSize := by
  have hslash : "/".utf8ByteSize = 1 := by decide
  rw [join, isAbsolute_eq_false hname]
  simp only [Bool.false_eq_true, if_false]
  split <;> simp only [String.utf8ByteSize_append, hslash] <;> omega

theorem Cut.size_join_le (h : Cut path.pieces working base place) (hname : '/' ∉ name.toList) :
    (base.join ⟨name⟩).text.utf8ByteSize ≤ (path.join ⟨name⟩).text.utf8ByteSize := by
  have hpath := (size_join path hname).1
  have hbase := (size_join base hname).2
  rcases h.text_cases with rfl | rfl | ⟨rest, hrest⟩
  · exact Nat.le_refl _
  · have hjoin : ((⟨""⟩ : Path).join ⟨name⟩).text = name := by
      simp [join, isAbsolute_eq_false hname, chars]
    rw [hjoin]
    omega
  · have hslash : "/".utf8ByteSize = 1 := by decide
    rw [hrest] at hpath
    simp only [String.utf8ByteSize_append, hslash] at hpath
    omega

end Cut

end Path

/-! ## Files of the ancestors -/

namespace FileTree

open Location

variable {tree : FileTree} {start base : Path} {place directory : Location} {name : String}

structure IsStart (tree : FileTree) (start : Path) (name : String) (place : Location) : Prop where
  relative : start.isAbsolute = false
  leads : tree.locate start = .ok place
  directory : tree.node? place = some .directory
  fits : (start.join ⟨name⟩).text.utf8ByteSize ≤ pathLimit

theorem IsStart.entered (h : tree.IsStart start name place) (hlinks : tree.Unlinked) :
    start.text ≠ "" ∧ '\x00' ∉ start.chars ∧
      start.pieces.foldlM tree.enter tree.working = .ok place := by
  have hleads := h.leads
  rw [locate_eq_foldlM hlinks, h.relative] at hleads
  split at hleads
  · cases hleads
  · split at hleads
    · cases hleads
    · split at hleads
      · cases hleads
      · exact ⟨‹_›, ‹_›, hleads⟩

theorem IsStart.entered_join (h : tree.IsStart start name place) (hlinks : tree.Unlinked)
    (hname : IsFileName name) (hcut : Path.Cut start.pieces tree.working base directory) :
    (base.join ⟨name⟩).pieces.foldlM tree.enter tree.working =
      tree.enter directory name.toList := by
  obtain ⟨front, hfront, rfl, rfl⟩ := hcut
  have hslash : ∀ piece ∈ front, '/' ∉ piece := fun piece hpiece =>
    not_mem_of_mem_splitOn (hfront.subset hpiece)
  obtain ⟨kept, hpieces, hkept⟩ := Path.pieces_join_name hslash hname.no_slash
  have hstarts : kept <+: start.pieces := by
    rcases hkept with rfl | rfl
    · exact hfront
    · exact (List.prefix_append kept [[]]).trans hfront
  have hwalk : walk tree.working front = walk tree.working kept := by
    rcases hkept with rfl | rfl
    · rfl
    · rw [walk_append, walk_cons, stepTo_filler (by decide), walk_nil]
  obtain ⟨back, hback⟩ := hstarts
  obtain ⟨-, -, hentered⟩ := h.entered hlinks
  rw [← hback] at hentered
  rw [hpieces, List.foldlM_append, (entered_front hentered h.directory).1, hwalk]
  exact bind_pure (tree.enter (walk tree.working kept) name.toList)

theorem IsStart.directory_of_cut (h : tree.IsStart start name place) (hlinks : tree.Unlinked)
    (hcut : Path.Cut start.pieces tree.working base directory) :
    tree.node? directory = some .directory := by
  obtain ⟨front, ⟨back, hback⟩, -, rfl⟩ := hcut
  obtain ⟨-, -, hentered⟩ := h.entered hlinks
  rw [← hback] at hentered
  exact (entered_front hentered h.directory).2

theorem IsStart.locate_join (h : tree.IsStart start name place) (hlinks : tree.Unlinked)
    (hname : IsFileName name) (hcut : Path.Cut start.pieces tree.working base directory) :
    tree.locate (base.join ⟨name⟩) =
      if (tree.node? (directory ++ [name])).isSome then .ok (directory ++ [name])
      else .error .notFound := by
  obtain ⟨-, hstart, -⟩ := h.entered hlinks
  have hempty : (base.join ⟨name⟩).text ≠ "" := by
    have hsize := (Path.size_join base hname.no_slash).1
    intro htext
    rw [htext, String.utf8ByteSize_empty] at hsize
    have hzero : name.utf8ByteSize = 0 := by omega
    exact hname.ne_special (by simp [String.utf8ByteSize_eq_zero_iff.mp hzero])
  have hnul : '\x00' ∉ (base.join ⟨name⟩).chars := by
    have hbase : '\x00' ∉ base.chars := fun hmem => hstart (hcut.chars_prefix.subset hmem)
    rw [Path.chars_join base (Path.isAbsolute_eq_false hname.no_slash)]
    split <;> simp [hbase, hname.no_nul]
  have hfits := Nat.le_trans (hcut.size_join_le hname.no_slash) h.fits
  rw [locate_eq_foldlM hlinks, if_neg hempty, if_neg hnul, if_neg (Nat.not_lt.mpr hfits),
    hcut.isAbsolute_join h.relative hname.no_slash,
    ← enter_fileName hname (h.directory_of_cut hlinks hcut)]
  exact h.entered_join hlinks hname hcut

theorem IsStart.isFile_join (h : tree.IsStart start name place) (hlinks : tree.Unlinked)
    (hname : IsFileName name) (hcut : Path.Cut start.pieces tree.working base directory) :
    tree.isFile (base.join ⟨name⟩) = tree.hasFile directory name := by
  have hlocate := h.locate_join hlinks hname hcut
  unfold isFile hasFile lookup
  rw [hlocate]
  cases hnode : tree.node? (directory ++ [name]) with
  | none => rfl
  | some node =>
      simp only [Option.isSome_some, if_true, bind, Except.bind, hnode]
      cases node <;> rfl

theorem IsStart.locate_join_of_hasFile (h : tree.IsStart start name place)
    (hlinks : tree.Unlinked) (hname : IsFileName name)
    (hcut : Path.Cut start.pieces tree.working base directory)
    (hfile : tree.hasFile directory name = true) :
    tree.locate (base.join ⟨name⟩) = .ok (directory ++ [name]) := by
  rw [h.locate_join hlinks hname hcut, if_pos]
  unfold hasFile at hfile
  split at hfile
  · next hnode => rw [hnode, Option.isSome_some]
  · cases hfile

end FileTree

end TerraformDocs
