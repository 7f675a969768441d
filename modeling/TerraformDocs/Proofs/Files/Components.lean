import Mathlib.Data.List.Basic
import TerraformDocs.Files.Tree
import TerraformDocs.Proofs.Files.Pieces

/-!
# Components of paths

A path is followed from a place component by component, by its text alone.  A joined path leads
where its second part leads from where the first does (`along_join`), and the parent of a path to a
file lacks the file's name only (`exists_parent`).
-/

namespace TerraformDocs

open TerraformDocs.Text

/-! ## Following components -/

namespace Location

def stepBy (place : Location) : Path.Component → Location
  | .root => []
  | .here => place
  | .up => place.dropLast
  | .name text => place ++ [text]

def along (place : Location) (components : List Path.Component) : Location :=
  components.foldl stepBy place

@[simp] theorem along_nil (place : Location) : along place [] = place := rfl

@[simp] theorem along_cons (place : Location) (component : Path.Component)
    (components : List Path.Component) :
    along place (component :: components) = along (stepBy place component) components := rfl

@[simp] theorem along_append (place : Location) (front back : List Path.Component) :
    along place (front ++ back) = along (along place front) back :=
  List.foldl_append

end Location

namespace Path

open Location

/-! ## Components and pieces -/

theorem ofPiece?_of_isFiller {piece : List Char} (h : isFiller piece = true) :
    Component.ofPiece? piece = none :=
  if_pos h

@[simp] theorem ofPiece?_empty : Component.ofPiece? [] = none := rfl

@[simp] theorem ofPiece?_dot : Component.ofPiece? ['.'] = none := rfl

def lead (path : Path) : List Component :=
  if path.isAbsolute then [.root] else if path.pieces.head? = some ['.'] then [.here] else []

theorem lead_eq {path : Path} {first : List Char} {others : List (List Char)}
    (h : path.pieces = first :: others) :
    path.lead =
      if first = [] ∧ others ≠ [] then [.root] else if first = ['.'] then [.here] else [] := by
  simp only [lead, isAbsolute_iff h]
  simp [h]

theorem components_eq (path : Path) :
    path.components = path.lead ++ path.pieces.filterMap Component.ofPiece? := by
  obtain ⟨first, others, hpieces⟩ := path.exists_pieces
  rw [components, lead_eq hpieces, hpieces]
  by_cases hroot : first = [] ∧ others ≠ []
  · simp [hroot, List.filterMap_cons]
  · by_cases hhere : first = ['.']
    · simp [hhere, List.filterMap_cons]
    · simp only [hroot, hhere, if_false]
      cases hfirst : Component.ofPiece? first <;> simp [hfirst]

theorem eq_of_mem_lead {path : Path} {component : Component} (h : component ∈ path.lead) :
    component = .root ∨ component = .here := by
  unfold lead at h
  split at h
  · exact .inl (List.mem_singleton.mp h)
  · split at h
    · exact .inr (List.mem_singleton.mp h)
    · cases h

/-! ## Components of joined paths -/

theorem lead_join (base : Path) {path : Path} (hbase : base.text ≠ "")
    (hrelative : path.isAbsolute = false) : (base.join path).lead = base.lead := by
  have hchars : base.chars ≠ [] := fun h => hbase (String.toList_eq_nil_iff.mp h)
  have habsolute : (base.join path).isAbsolute = base.isAbsolute := by
    unfold isAbsolute
    rw [chars_join base hrelative]
    split <;> rw [List.head?_append_of_ne_nil _ hchars]
  have hhead : (base.join path).pieces.head? = base.pieces.head? := by
    obtain ⟨kept, hpieces, hkept⟩ := pieces_join base hrelative
    have hne : kept ≠ [] := by
      rintro rfl
      rcases hkept with hkept | hkept
      · exact List.splitOn_ne_nil _ _ hkept.symm
      · exact pieces_ne_of_text_ne hbase hkept
    rw [hpieces, List.head?_append_of_ne_nil _ hne]
    rcases hkept with rfl | hkept
    · rfl
    · rw [hkept, List.head?_append_of_ne_nil _ hne]
  rw [lead, lead, habsolute, hhead]

theorem components_join (base : Path) {path : Path} (hbase : base.text ≠ "")
    (hrelative : path.isAbsolute = false) :
    (base.join path).components =
      base.components ++ path.pieces.filterMap Component.ofPiece? := by
  obtain ⟨kept, hpieces, hkept⟩ := pieces_join base hrelative
  rw [components_eq, components_eq, lead_join base hbase hrelative, hpieces, List.filterMap_append,
    ← List.append_assoc]
  rcases hkept with rfl | hkept
  · rfl
  · rw [hkept, List.filterMap_append, List.filterMap_cons_none ofPiece?_empty, List.filterMap_nil,
      List.append_nil]

theorem along_relative (place : Location) {path : Path} (h : path.isAbsolute = false) :
    along place path.components = along place (path.pieces.filterMap Component.ofPiece?) := by
  rw [components_eq, lead, h, along_append]
  simp only [Bool.false_eq_true, if_false]
  split <;> rfl

theorem along_join (place : Location) (base path : Path) :
    along place (base.join path).components =
      along (along place base.components) path.components := by
  by_cases habsolute : path.isAbsolute = true
  · have hjoin : base.join path = path := by rw [join, if_pos habsolute]
    simp [hjoin, components_eq path, lead, habsolute, stepBy]
  · rw [Bool.not_eq_true] at habsolute
    by_cases hbase : base.text = ""
    · obtain rfl : base = ⟨""⟩ := by cases base; simpa using hbase
      rw [join_empty]
      rfl
    · rw [components_join base hbase habsolute, along_append, along_relative _ habsolute]

/-! ## Steps -/

def IsStep (component : Component) : Prop :=
  '/' ∉ component.path.chars ∧ Component.ofPiece? component.path.chars = some component

theorem chars_of_ofPiece? {piece : List Char} {component : Component}
    (h : Component.ofPiece? piece = some component) : component.path.chars = piece := by
  unfold Component.ofPiece? at h
  split at h
  · cases h
  · split at h
    · next hup =>
      cases h
      exact hup.symm
    · cases h
      exact String.toList_ofList

theorem isStep_of_mem {path : Path} {component : Component}
    (h : component ∈ path.pieces.filterMap Component.ofPiece?) : IsStep component := by
  obtain ⟨piece, hpiece, hread⟩ := List.mem_filterMap.mp h
  rw [IsStep, chars_of_ofPiece? hread]
  exact ⟨not_mem_of_mem_pieces hpiece, hread⟩

theorem components_join_step (base : Path) {component : Component} (h : IsStep component) :
    (base.join component.path).components = base.components ++ [component] := by
  obtain ⟨hslash, hread⟩ := h
  have hrelative : component.path.isAbsolute = false :=
    decide_eq_false fun hhead => hslash (List.mem_of_head? hhead)
  have hpieces : component.path.pieces = [component.path.chars] := List.splitOn_eq_singleton hslash
  have hsteps : component.path.pieces.filterMap Component.ofPiece? = [component] := by
    rw [hpieces, List.filterMap_cons_some hread, List.filterMap_nil]
  by_cases hbase : base.text = ""
  · obtain rfl : base = ⟨""⟩ := by cases base; simpa using hbase
    have hdot : component.path.chars ≠ ['.'] := by
      intro hdot
      rw [hdot] at hread
      cases hread
    rw [join_empty, components_eq, hsteps, lead, hrelative, hpieces]
    simp [hdot]
    rfl
  · rw [components_join base hbase hrelative, hsteps]

theorem components_foldl_join (base : Path) {components : List Component}
    (h : ∀ component ∈ components, IsStep component) :
    (components.foldl (fun base component => base.join component.path) base).components =
      base.components ++ components := by
  induction components generalizing base with
  | nil => simp
  | cons component components ih =>
      rw [List.forall_mem_cons] at h
      rw [List.foldl_cons, ih _ h.2, components_join_step base h.1, List.append_assoc,
        List.singleton_append]

/-! ## The directory of a file -/

theorem filterMap_dropFillers (reversed : List (List Char)) :
    (reversed.dropWhile isFiller).reverse.filterMap Component.ofPiece? =
      reversed.reverse.filterMap Component.ofPiece? := by
  induction reversed with
  | nil => rfl
  | cons piece others ih =>
      cases h : isFiller piece with
      | true =>
          rw [List.dropWhile_cons_of_pos h, ih, List.reverse_cons, List.filterMap_append,
            List.filterMap_cons_none (ofPiece?_of_isFiller h), List.filterMap_nil, List.append_nil]
      | false => rw [List.dropWhile_cons_of_neg (by simp [h])]

theorem head?_above (anchor : List Char) {reversed : List (List Char)} {steps : List Component}
    {last : Component}
    (h : reversed.reverse.filterMap Component.ofPiece? = steps ++ [last]) :
    ∃ front, front <+: reversed.reverse ∧ front.filterMap Component.ofPiece? = steps ∧
      (above anchor reversed).head? = some (anchored anchor front) := by
  induction reversed with
  | nil => simp at h
  | cons piece others ih =>
      rw [List.reverse_cons, List.filterMap_append] at h
      rw [above, List.reverse_cons]
      split
      · next hfiller =>
        rw [List.filterMap_cons_none (ofPiece?_of_isFiller hfiller), List.filterMap_nil,
          List.append_nil] at h
        obtain ⟨front, hfront, hsteps, hhead⟩ := ih h
        exact ⟨front, hfront.trans (List.prefix_append _ _), hsteps, hhead⟩
      · next hfiller =>
        refine ⟨(others.dropWhile isFiller).reverse, ?_, ?_, rfl⟩
        · exact (List.reverse_prefix.mpr (List.dropWhile_suffix _)).trans (List.prefix_append _ _)
        · obtain ⟨component, hpiece⟩ : ∃ component, Component.ofPiece? piece = some component := by
            unfold Component.ofPiece?
            rw [if_neg hfiller]
            split <;> exact ⟨_, rfl⟩
          rw [List.filterMap_cons_some hpiece, List.filterMap_nil] at h
          rw [filterMap_dropFillers]
          exact (List.append_inj' h rfl).1

theorem filterMap_ofPieces {front : List (List Char)} (h : ∀ piece ∈ front, '/' ∉ piece) :
    (ofPieces front).pieces.filterMap Component.ofPiece? = front.filterMap Component.ofPiece? := by
  by_cases hempty : front = []
  · subst hempty
    rfl
  · rw [pieces_ofPieces hempty h]

theorem exists_steps {path : Path} {name : String}
    (h : path.components.getLast? = some (.name name)) :
    ∃ steps, path.pieces.filterMap Component.ofPiece? = steps ++ [.name name] := by
  rw [components_eq, List.getLast?_append] at h
  cases hlast : (path.pieces.filterMap Component.ofPiece?).getLast? with
  | none =>
      rw [hlast, Option.none_or] at h
      rcases eq_of_mem_lead (List.mem_of_getLast? h) with hroot | hhere
      · cases hroot
      · cases hhere
  | some last =>
      rw [hlast, Option.some_or] at h
      cases h
      exact List.getLast?_eq_some_iff.mp hlast

section Anchored

variable {front : List (List Char)} (hfront : ∀ piece ∈ front, '/' ∉ piece)

include hfront

theorem components_anchored_root :
    (anchored ['/'] front).components = .root :: front.filterMap Component.ofPiece? := by
  have hpieces : (anchored ['/'] front).pieces = [] :: (ofPieces front).pieces := by
    simp [anchored, pieces, ofChars, chars_ofPieces, List.splitOn_cons_eq_if_modifyHead]
  rw [components_eq, lead_eq hpieces, if_pos ⟨rfl, List.splitOn_ne_nil _ _⟩, hpieces,
    List.filterMap_cons_none ofPiece?_empty, filterMap_ofPieces hfront, List.singleton_append]

theorem components_anchored_here :
    (anchored ['.'] front).components = .here :: front.filterMap Component.ofPiece? := by
  have hslash : ∀ piece ∈ ['.'] :: front, '/' ∉ piece :=
    List.forall_mem_cons.mpr ⟨by decide, hfront⟩
  have hpieces := pieces_ofPieces (List.cons_ne_nil ['.'] front) hslash
  rw [anchored_here, components_eq, lead_eq hpieces, if_neg (by simp), if_pos rfl, hpieces,
    List.filterMap_cons_none ofPiece?_dot, List.singleton_append]

theorem components_anchored_nil (hhead : ∀ first ∈ front.head?, first ≠ [] ∧ first ≠ ['.']) :
    (anchored [] front).components = front.filterMap Component.ofPiece? := by
  rw [anchored_nil]
  cases front with
  | nil => rfl
  | cons first others =>
      obtain ⟨hempty, hhere⟩ := hhead first rfl
      have hpieces := pieces_ofPieces (List.cons_ne_nil first others) hfront
      rw [components_eq, lead_eq hpieces, if_neg (by simp [hempty]), if_neg hhere, hpieces,
        List.nil_append]

end Anchored

/-- The path is the anchor with the pieces behind it.  What a path starts with comes from its
anchor, so the same stands before the components of every front of the pieces. -/
structure IsAnchored (path : Path) (anchor : List Char) (pieces : List (List Char)) : Prop where
  ancestors_eq : path.ancestors = path :: above anchor pieces.reverse
  steps_eq : path.pieces.filterMap Component.ofPiece? = pieces.filterMap Component.ofPiece?
  front_eq : ∀ front, front <+: pieces →
    (anchored anchor front).components = path.lead ++ front.filterMap Component.ofPiece?

theorem exists_isAnchored {path : Path} (hne : path.text ≠ "") :
    ∃ anchor pieces, IsAnchored path anchor pieces := by
  obtain ⟨first, others, hpieces⟩ := path.exists_pieces
  have hslash (piece : List Char) (hmem : piece ∈ first :: others) : '/' ∉ piece :=
    not_mem_of_mem_pieces (hpieces ▸ hmem)
  have hothers (front : List (List Char)) (hfront : front <+: others) :
      ∀ piece ∈ front, '/' ∉ piece :=
    fun piece hmem => hslash piece (List.mem_cons_of_mem _ (hfront.subset hmem))
  have hancestors : path.ancestors = path ::
      if first = [] ∧ others ≠ [] then above ['/'] others.reverse
      else if first = ['.'] then above ['.'] others.reverse
      else above [] (first :: others).reverse := by
    rw [ancestors, hpieces]
  by_cases hroot : first = [] ∧ others ≠ []
  · refine ⟨['/'], others, ?_, ?_, fun front hfront => ?_⟩
    · rw [hancestors, if_pos hroot]
    · rw [hpieces, hroot.1, List.filterMap_cons_none ofPiece?_empty]
    · rw [components_anchored_root (hothers front hfront), lead_eq hpieces, if_pos hroot,
        List.singleton_append]
  by_cases hhere : first = ['.']
  · refine ⟨['.'], others, ?_, ?_, fun front hfront => ?_⟩
    · rw [hancestors, if_neg hroot, if_pos hhere]
    · rw [hpieces, hhere, List.filterMap_cons_none ofPiece?_dot]
    · rw [components_anchored_here (hothers front hfront), lead_eq hpieces, if_neg hroot,
        if_pos hhere, List.singleton_append]
  have hempty : first ≠ [] := by
    rintro rfl
    obtain rfl : others = [] := by simpa using hroot
    exact pieces_ne_of_text_ne hne hpieces
  refine ⟨[], first :: others, ?_, by rw [hpieces], fun front hfront => ?_⟩
  · rw [hancestors, if_neg hroot, if_neg hhere]
  · have hhead : ∀ other ∈ front.head?, other ≠ [] ∧ other ≠ ['.'] := by
      intro other hother
      obtain ⟨back, hback⟩ := hfront
      cases front with
      | nil => cases hother
      | cons head front =>
          cases hother
          obtain ⟨rfl, -⟩ := List.cons.inj hback
          exact ⟨hempty, hhere⟩
    rw [components_anchored_nil (fun piece hmem => hslash piece (hfront.subset hmem)) hhead,
      lead_eq hpieces, if_neg hroot, if_neg hhere, List.nil_append]

theorem exists_parent {path : Path} {name : String}
    (h : path.components.getLast? = some (.name name)) :
    ∃ parent, path.parent? = some parent ∧
      path.components = parent.components ++ [.name name] := by
  have hne : path.text ≠ "" := by
    intro hempty
    obtain rfl : path = ⟨""⟩ := by cases path; simpa using hempty
    cases h
  obtain ⟨anchor, pieces, hanchored⟩ := exists_isAnchored hne
  obtain ⟨steps, hsteps⟩ := exists_steps h
  have hpieces := hanchored.steps_eq ▸ hsteps
  rw [← List.reverse_reverse pieces] at hpieces
  obtain ⟨front, hfront, rfl, hhead⟩ := head?_above anchor hpieces
  rw [List.reverse_reverse] at hfront
  refine ⟨anchored anchor front, ?_, ?_⟩
  · rw [parent?, hanchored.ancestors_eq, List.tail_cons, hhead]
  · rw [hanchored.front_eq front hfront, components_eq, hsteps, List.append_assoc]

theorem along_directory (place : Location) (path : Path) :
    along place path.directory.components =
      along place (path.parent?.getD ⟨""⟩).components := by
  unfold directory
  split
  · next parent hparent =>
    split
    · next hempty =>
      obtain rfl : parent = ⟨""⟩ := by cases parent; simpa using hempty
      rw [hparent]
      rfl
    · rw [hparent]
      rfl
  · next hparent =>
    rw [hparent]
    rfl

end Path

end TerraformDocs
