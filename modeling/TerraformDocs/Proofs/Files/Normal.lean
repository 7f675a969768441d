import TerraformDocs.Proofs.Files.Components

/-!
# Normal form of paths

The normal form of a path leads from every place to the same place as the path (`along_normalize`).
It goes up at its start only (`isNormal_normalize`), and is its own normal form
(`normalize_normalize`).
-/

namespace TerraformDocs

namespace Location

theorem along_names (place : Location) (names : List String) :
    along place (names.map .name) = place ++ names := by
  induction names generalizing place with
  | nil => simp
  | cons name names ih => simp [stepBy, ih]

theorem length_along_ups (place : Location) (count : Nat) :
    (along place (List.replicate count .up)).length = place.length - count := by
  induction count generalizing place with
  | zero => rfl
  | succ count ih =>
      rw [List.replicate_succ, along_cons, ih, stepBy, List.length_dropLast]
      omega

end Location

namespace Path

open Location

/-! ## Normal components -/

def start (absolute : Bool) : List Component := if absolute then [.root] else []

/-- No `.`, and `..` only before all names, behind the root of an absolute path. -/
def IsNormal (components : List Component) : Prop :=
  ∃ (absolute : Bool) (count : Nat) (names : List String),
    components = start absolute ++ (List.replicate count .up ++ names.map .name)

-- Neither the root nor `..` is a name that going up could take away.
theorem pushComponent_ups (absolute : Bool) (count : Nat) :
    pushComponent (List.replicate count .up ++ start absolute) .up =
      List.replicate (count + 1) .up ++ start absolute := by
  cases count with
  | zero => cases absolute <;> rfl
  | succ count => rfl

theorem reverse_normal (absolute : Bool) (count : Nat) (names : List String) :
    (start absolute ++ (List.replicate count Component.up ++ names.map Component.name)).reverse =
      (names.map Component.name).reverse ++
        (List.replicate count Component.up ++ start absolute) := by
  have hstart : (start absolute).reverse = start absolute := by cases absolute <;> rfl
  rw [List.reverse_append, List.reverse_append, List.reverse_replicate, hstart, List.append_assoc]

theorem foldl_push_ups (absolute : Bool) (count : Nat) :
    (List.replicate count .up).foldl pushComponent (start absolute) =
      List.replicate count .up ++ start absolute := by
  induction count with
  | zero => rfl
  | succ count ih =>
      rw [List.replicate_succ', List.foldl_append, ih, List.foldl_cons, List.foldl_nil,
        pushComponent_ups, List.replicate_succ']

theorem foldl_push_names (stack : List Component) (names : List String) :
    (names.map Component.name).foldl pushComponent stack =
      (names.map Component.name).reverse ++ stack := by
  induction names generalizing stack with
  | nil => rfl
  | cons name names ih => simp [ih, pushComponent]

theorem IsNormal.push {components : List Component} (h : IsNormal components)
    {component : Component} (hstep : IsStep component) :
    IsNormal (pushComponent components.reverse component).reverse := by
  obtain ⟨absolute, count, names, rfl⟩ := h
  cases component with
  | root => exact absurd hstep.2 (by decide)
  | here => exact absurd hstep.2 (by decide)
  | name text => exact ⟨absolute, count, names ++ [text], by simp [pushComponent]⟩
  | up =>
      rcases List.eq_nil_or_concat names with rfl | ⟨names, last, rfl⟩
      · refine ⟨absolute, count + 1, [], ?_⟩
        rw [reverse_normal, List.map_nil, List.reverse_nil, List.nil_append, pushComponent_ups,
          List.reverse_eq_iff, ← List.map_nil, reverse_normal]
        rfl
      · exact ⟨absolute, count, names, by simp [pushComponent]⟩

theorem IsNormal.foldl_push_eq {components : List Component} (h : IsNormal components) :
    components.foldl pushComponent [] = components.reverse := by
  obtain ⟨absolute, count, names, rfl⟩ := h
  have hstart : (start absolute).foldl pushComponent [] = start absolute := by
    cases absolute <;> rfl
  rw [List.foldl_append, hstart, List.foldl_append, foldl_push_ups, foldl_push_names,
    reverse_normal]

theorem IsNormal.foldl_push {components steps : List Component} (h : IsNormal components)
    (hsteps : ∀ step ∈ steps, IsStep step) :
    IsNormal (steps.foldl pushComponent components.reverse).reverse := by
  induction steps generalizing components with
  | nil => simpa using h
  | cons step steps ih =>
      rw [List.forall_mem_cons] at hsteps
      simpa using ih (h.push hsteps.1) hsteps.2

theorem isNormal_foldl_push (path : Path) :
    IsNormal (path.components.foldl pushComponent []).reverse := by
  have hlead : path.lead.foldl pushComponent [] = (start path.isAbsolute).reverse := by
    unfold lead start
    split
    · rfl
    · split <;> rfl
  have hstart : IsNormal (start path.isAbsolute) := ⟨path.isAbsolute, 0, [], by simp⟩
  rw [components_eq, List.foldl_append, hlead]
  exact hstart.foldl_push fun step => isStep_of_mem

theorem mem_foldl_push {components stack : List Component} {component : Component}
    (h : component ∈ components.foldl pushComponent stack) :
    component ∈ stack ∨ component ∈ components := by
  induction components generalizing stack with
  | nil => exact .inl h
  | cons first components ih =>
      rw [List.mem_cons]
      rcases ih h with hmem | hmem
      · have hpush : component ∈ stack ∨ component = first := by
          unfold pushComponent at hmem
          split at hmem
          · exact .inl hmem
          · split at hmem
            · exact .inl (List.mem_cons_of_mem _ hmem)
            · exact (List.mem_cons.mp hmem).symm
          · exact (List.mem_cons.mp hmem).symm
        rcases hpush with hstack | hfirst
        · exact .inl hstack
        · exact .inr (.inl hfirst)
      · exact .inr (.inr hmem)

theorem components_ofComponents {components : List Component} (h : IsNormal components)
    (hsteps : ∀ component ∈ components, component ≠ .root → IsStep component) :
    (ofComponents components).components = components := by
  obtain ⟨absolute, count, names, rfl⟩ := h
  have hrest : ∀ component ∈ List.replicate count Component.up ++ names.map Component.name,
      IsStep component := by
    intro component hmem
    refine hsteps component (List.mem_append_right _ hmem) ?_
    rintro rfl
    simp at hmem
  cases absolute with
  | false => exact components_foldl_join ⟨""⟩ hrest
  | true => exact components_foldl_join ⟨"/"⟩ hrest

/-! ## Normal form -/

theorem IsNormal.here_not_mem {components : List Component} (h : IsNormal components) :
    Component.here ∉ components := by
  obtain ⟨absolute, count, names, rfl⟩ := h
  cases absolute <;> simp [start]

theorem components_normalize (path : Path) :
    path.normalize.components = (path.components.foldl pushComponent []).reverse := by
  have hnormal := isNormal_foldl_push path
  refine components_ofComponents hnormal fun component hmem hroot => ?_
  have hwritten : component ∈ path.components := by
    simpa using mem_foldl_push (List.mem_reverse.mp hmem)
  rw [components_eq] at hwritten
  rcases List.mem_append.mp hwritten with hlead | hstep
  · rcases eq_of_mem_lead hlead with rfl | rfl
    · exact absurd rfl hroot
    · exact absurd hmem hnormal.here_not_mem
  · exact isStep_of_mem hstep

theorem isNormal_normalize (path : Path) : IsNormal path.normalize.components := by
  rw [components_normalize]
  exact isNormal_foldl_push path

theorem normalize_normalize (path : Path) : path.normalize.normalize = path.normalize := by
  rw [normalize, (isNormal_normalize path).foldl_push_eq, List.reverse_reverse,
    components_normalize, ← normalize]

theorem along_push (place : Location) (stack : List Component) (component : Component) :
    along place (pushComponent stack component).reverse =
      stepBy (along place stack.reverse) component := by
  unfold pushComponent
  split
  · rfl
  · split
    · simp [stepBy]
    · simp [stepBy]
  · simp

theorem along_foldl_push (place : Location) (stack components : List Component) :
    along place (components.foldl pushComponent stack).reverse =
      along (along place stack.reverse) components := by
  induction components generalizing stack with
  | nil => rfl
  | cons component components ih => rw [List.foldl_cons, ih, along_push, along_cons]

theorem along_normalize (place : Location) (path : Path) :
    along place path.normalize.components = along place path.components := by
  rw [components_normalize, along_foldl_push]
  rfl

theorem IsNormal.eq_nil {components : List Component} (h : IsNormal components)
    (hback : ∀ place, along place components = place) : components = [] := by
  obtain ⟨absolute, count, names, rfl⟩ := h
  simp only [along_append, along_names] at hback
  -- from the root nothing is taken away, so no name is added
  obtain rfl : names = [] := (List.append_eq_nil_iff.mp (hback [])).2
  have hlength := congrArg List.length (hback (List.replicate (count + 1) ""))
  simp only [List.append_nil, length_along_ups, List.length_replicate] at hlength
  cases absolute with
  | true => simp [start, stepBy] at hlength
  | false =>
      simp only [start, Bool.false_eq_true, if_false, along_nil, List.length_replicate] at hlength
      obtain rfl : count = 0 := by omega
      rfl

theorem normalize_eq_empty_iff {path : Path} :
    path.normalize = ⟨""⟩ ↔ ∀ place, along place path.components = place := by
  constructor
  · intro h place
    rw [← along_normalize, h]
    rfl
  · intro h
    have hnil := (isNormal_normalize path).eq_nil fun place => by rw [along_normalize, h]
    rw [components_normalize] at hnil
    rw [normalize, hnil]
    rfl

end Path

end TerraformDocs
