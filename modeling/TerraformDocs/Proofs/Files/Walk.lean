import Mathlib.Data.List.Induction
import TerraformDocs.Files.Tree

/-!
# Walking without links

In a tree without links a path is followed one piece at a time, and `enter` is what one piece
does.  Where that leads is decided by the pieces alone: `walk` is the place after all of them, and
`trail` holds every place on the way, the last one first.
-/

namespace TerraformDocs

def FileTree.Unlinked (tree : FileTree) : Prop :=
  ∀ entry ∈ tree.nodes, ∀ target, entry.2 ≠ .link target

/-! ## Places -/

namespace Location

def stepTo (place : Location) (piece : List Char) : Location :=
  if Path.isFiller piece then place
  else if piece = ['.', '.'] then place.dropLast
  else place ++ [String.ofList piece]

def walk (place : Location) (pieces : List (List Char)) : Location := pieces.foldl stepTo place

def trail (place : Location) : List (List Char) → List Location
  | [] => [place]
  | piece :: pieces => trail (stepTo place piece) pieces ++ [place]

theorem stepTo_filler {piece : List Char} (h : Path.isFiller piece = true) (place : Location) :
    stepTo place piece = place :=
  if_pos h

@[simp] theorem walk_nil (place : Location) : walk place [] = place := rfl

@[simp] theorem walk_cons (place : Location) (piece : List Char) (pieces : List (List Char)) :
    walk place (piece :: pieces) = walk (stepTo place piece) pieces := rfl

@[simp] theorem walk_append (place : Location) (front back : List (List Char)) :
    walk place (front ++ back) = walk (walk place front) back :=
  List.foldl_append

theorem walk_filter (place : Location) (pieces : List (List Char)) :
    walk place (pieces.filter (!Path.isFiller ·)) = walk place pieces := by
  induction pieces generalizing place with
  | nil => rfl
  | cons piece pieces ih =>
      cases h : Path.isFiller piece
      · simp [h, ih]
      · simp [h, ih, stepTo_filler h]

theorem trail_concat (place : Location) (pieces : List (List Char)) (piece : List Char) :
    trail place (pieces ++ [piece]) =
      stepTo (walk place pieces) piece :: trail place pieces := by
  induction pieces generalizing place with
  | nil => rfl
  | cons first pieces ih => simp [trail, ih]

theorem mem_trail_start (place : Location) (pieces : List (List Char)) :
    place ∈ trail place pieces := by
  cases pieces <;> simp [trail]

theorem trail_eq_cons (place : Location) (pieces : List (List Char)) :
    trail place pieces = walk place pieces :: (trail place pieces).tail := by
  rcases pieces.eq_nil_or_concat with rfl | ⟨front, piece, rfl⟩
  · rfl
  · simp [trail_concat]

theorem mem_trail_end (place : Location) (pieces : List (List Char)) :
    walk place pieces ∈ trail place pieces := by
  rw [trail_eq_cons]
  exact List.mem_cons_self

theorem prefix_stepTo {place around : Location} {piece : List Char}
    (h : around <+: stepTo place piece) :
    around = stepTo place piece ∨ around <+: place := by
  unfold stepTo at h ⊢
  split at h
  · exact .inr h
  · split at h
    · exact .inr (h.trans place.dropLast_prefix)
    · simpa [*] using List.prefix_concat_iff.mp h

/-- When the first place of a trail with some property is around the trail's end, no place nearer
to the end has it. -/
theorem eq_false_of_find?_trail {p : Location → Bool} {place found : Location}
    {pieces : List (List Char)} (hfound : (trail place pieces).find? p = some found)
    (haround : found <+: walk place pieces) {nearer : Location}
    (hnearer : nearer <+: walk place pieces) (hlength : found.length < nearer.length) :
    p nearer = false := by
  -- Each step makes one new place, the trail's end.  Places around the end that are not new are
  -- around the place before, so a trail comes by all places between its start and its end.
  induction pieces using List.reverseRecOn generalizing found nearer with
  | nil =>
      have hp : found = place := by
        simp only [trail, List.find?_cons, List.find?_nil] at hfound
        split at hfound <;> simp_all
      have := hnearer.length_le
      rw [walk_nil, ← hp] at this
      omega
  | append_singleton pieces piece ih =>
      rw [trail_concat] at hfound
      simp only [walk_append, walk_cons, walk_nil] at haround hnearer
      cases hend : p (stepTo (walk place pieces) piece) with
      | true =>
          rw [List.find?_cons_of_pos hend, Option.some.injEq] at hfound
          have := hnearer.length_le
          rw [hfound] at this
          omega
      | false =>
          rw [List.find?_cons_of_neg (by simp [hend])] at hfound
          have haround' : found <+: walk place pieces := by
            rcases prefix_stepTo haround with rfl | h
            · have := List.find?_some hfound
              rw [hend] at this
              cases this
            · exact h
          rcases prefix_stepTo hnearer with rfl | h
          · exact hend
          · exact ih hfound haround' h hlength

theorem mem_trail_iff {place : Location} {pieces : List (List Char)}
    (hup : ['.', '.'] ∉ pieces) {passed : Location} :
    passed ∈ trail place pieces ↔ place <+: passed ∧ passed <+: walk place pieces := by
  induction pieces using List.reverseRecOn generalizing passed with
  | nil =>
      simp only [trail, List.mem_singleton, walk_nil]
      constructor
      · rintro rfl
        exact ⟨List.prefix_rfl, List.prefix_rfl⟩
      · rintro ⟨hbelow, habove⟩
        exact habove.eq_of_length (Nat.le_antisymm habove.length_le hbelow.length_le)
  | append_singleton pieces piece ih =>
      simp only [List.mem_append, List.mem_singleton, not_or] at hup
      have hdown : walk place pieces <+: stepTo (walk place pieces) piece := by
        unfold stepTo
        split
        · exact List.prefix_rfl
        · rw [if_neg (Ne.symm hup.2)]
          exact List.prefix_append _ _
      rw [trail_concat, List.mem_cons, ih hup.1]
      simp only [walk_append, walk_cons, walk_nil]
      constructor
      · rintro (rfl | ⟨hbelow, habove⟩)
        · have hend := ((ih hup.1).mp (mem_trail_end place pieces)).1
          exact ⟨hend.trans hdown, List.prefix_rfl⟩
        · exact ⟨hbelow, habove.trans hdown⟩
      · rintro ⟨hbelow, habove⟩
        rcases prefix_stepTo habove with h | h
        · exact .inl h
        · exact .inr ⟨hbelow, h⟩

end Location

/-! ## Following -/

namespace FileTree

open Location

variable {tree : FileTree} {place : Location}

theorem Unlinked.node?_ne_link (h : tree.Unlinked) (place : Location) (target : Path) :
    tree.node? place ≠ some (.link target) := by
  unfold node?
  split
  · simp
  · intro hlink
    obtain ⟨entry, hentry, hnode⟩ := Option.map_eq_some_iff.mp hlink
    exact h entry (List.mem_of_find?_eq_some hentry) target hnode

def enter (tree : FileTree) (place : Location) (piece : List Char) :
    Except SystemError Location :=
  match tree.node? place with
  | none => .error .notFound
  | some (.file _) | some (.link _) => .error .notADirectory
  | some .directory =>
      if Path.isFiller piece then .ok place
      else if piece = ['.', '.'] then .ok place.dropLast
      else if (String.ofList piece).utf8ByteSize > nameLimit then .error .nameTooLong
      else if (tree.node? (place ++ [String.ofList piece])).isSome then
        .ok (place ++ [String.ofList piece])
      else .error .notFound

theorem follow_eq_foldlM (h : tree.Unlinked) (links : Nat) (place : Location)
    (pieces : List (List Char)) :
    tree.follow links place pieces = pieces.foldlM tree.enter place := by
  induction pieces generalizing place with
  | nil =>
      rw [follow]
      rfl
  | cons piece pieces ih =>
      rw [follow, List.foldlM_cons, enter]
      cases tree.node? place with
      | none => rfl
      | some node =>
          cases node with
          | file bytes => rfl
          | link target => rfl
          | directory =>
              simp only [ih]
              split
              · rfl
              · split
                · rfl
                · split
                  · rfl
                  · cases hnode : tree.node? (place ++ [String.ofList piece]) with
                    | none => rfl
                    | some node =>
                        cases node with
                        | link target => exact absurd hnode (h.node?_ne_link _ target)
                        | file bytes => rfl
                        | directory => rfl

theorem locate_eq_foldlM (h : tree.Unlinked) (path : Path) :
    tree.locate path =
      if path.text = "" then .error .notFound
      else if '\x00' ∈ path.chars then .error .nulInPath
      else if path.text.utf8ByteSize > pathLimit then .error .nameTooLong
      else path.pieces.foldlM tree.enter (if path.isAbsolute then [] else tree.working) := by
  simp only [locate, follow_eq_foldlM h]

theorem enter_eq_ok {next : Location} {piece : List Char} (h : tree.enter place piece = .ok next) :
    tree.node? place = some .directory ∧ next = stepTo place piece := by
  unfold enter at h
  unfold stepTo
  split at h
  · cases h
  · cases h
  · cases h
  · next hnode =>
    refine ⟨hnode, ?_⟩
    split
    · next hfiller =>
      simp only [hfiller, if_true] at h
      cases h
      rfl
    · next hfiller =>
      rw [if_neg hfiller] at h
      split at h
      · next hup =>
        cases h
        rw [if_pos hup]
      · next hup =>
        rw [if_neg hup]
        split at h
        · cases h
        · split at h
          · cases h
            rfl
          · cases h

theorem entered_cons {piece : List Char} {pieces : List (List Char)} {last : Location}
    (h : (piece :: pieces).foldlM tree.enter place = .ok last) :
    tree.enter place piece = .ok (stepTo place piece) ∧
      pieces.foldlM tree.enter (stepTo place piece) = .ok last := by
  rw [List.foldlM_cons] at h
  cases hnext : tree.enter place piece with
  | error cause =>
      rw [hnext] at h
      cases h
  | ok next =>
      rw [hnext] at h
      obtain ⟨-, rfl⟩ := enter_eq_ok hnext
      exact ⟨rfl, h⟩

theorem entered_eq_walk {pieces : List (List Char)} {last : Location}
    (h : pieces.foldlM tree.enter place = .ok last) : last = walk place pieces := by
  induction pieces generalizing place with
  | nil =>
      cases h
      rfl
  | cons piece pieces ih => exact ih (entered_cons h).2

theorem entered_front {front back : List (List Char)} {last : Location}
    (h : (front ++ back).foldlM tree.enter place = .ok last)
    (hlast : tree.node? last = some .directory) :
    front.foldlM tree.enter place = .ok (walk place front) ∧
      tree.node? (walk place front) = some .directory := by
  induction front generalizing place with
  | nil =>
      refine ⟨rfl, ?_⟩
      cases back with
      | nil =>
          cases h
          exact hlast
      | cons piece back => exact (enter_eq_ok (entered_cons h).1).1
  | cons piece front ih =>
      obtain ⟨hfirst, hrest⟩ := entered_cons h
      rw [List.foldlM_cons, hfirst]
      exact ih hrest

/-! ## Files -/

structure IsFileName (name : String) : Prop where
  ne_special : name ∉ ["", ".", ".."]
  no_slash : '/' ∉ name.toList
  no_nul : '\x00' ∉ name.toList
  short : name.utf8ByteSize ≤ nameLimit

def hasFile (tree : FileTree) (directory : Location) (name : String) : Bool :=
  match tree.node? (directory ++ [name]) with
  | some (.file _) => true
  | _ => false

theorem enter_fileName {name : String} (hname : IsFileName name)
    (hplace : tree.node? place = some .directory) :
    tree.enter place name.toList =
      if (tree.node? (place ++ [name])).isSome then .ok (place ++ [name])
      else .error .notFound := by
  have hspecial := hname.ne_special
  simp only [List.mem_cons, List.not_mem_nil, or_false, not_or] at hspecial
  obtain ⟨hempty, hhere, hup⟩ := hspecial
  have hhere' : name.toList ≠ ['.'] := fun h => hhere (String.toList_inj.mp h)
  have hfiller : Path.isFiller name.toList = false := by
    simp [Path.isFiller, hempty, hhere']
  have hup' : name.toList ≠ ['.', '.'] := fun h => hup (String.toList_inj.mp h)
  have hshort : ¬ name.utf8ByteSize > nameLimit := Nat.not_lt.mpr hname.short
  simp [enter, hplace, hfiller, hup', hshort]

end FileTree

end TerraformDocs
