import Mathlib.Data.List.Range
import Mathlib.Tactic.Choose
import TerraformDocs.Command.Links
import TerraformDocs.Proofs.Target.Steady

/-!
# Links and lookups agree

The links of a document stand in the order of its lines, one for each declaration that has a
target.  A lookup anywhere on the line of a declaration finds the target of its link, and finds
nothing if there is no link.
-/

namespace TerraformDocs

/-! ## Items with the numbers of their lines -/

section Numbered

variable {α : Type} {item : Nat → Option α} {number : α → Nat}

theorem pairwise_filterMap_range (h : ∀ index a, item index = some a → number a = index + 1)
    (count : Nat) :
    ((List.range count).filterMap item).Pairwise fun first second =>
      number first < number second := by
  rw [List.pairwise_filterMap]
  refine List.pairwise_lt_range.imp ?_
  intro index later hlt first hfirst second hsecond
  rw [h index first hfirst, h later second hsecond]
  omega

theorem filter_filterMap_range (h : ∀ index a, item index = some a → number a = index + 1)
    {count index : Nat} (hindex : index < count) :
    ((List.range count).filterMap item).filter (fun a => number a = index + 1) =
      (item index).toList := by
  have hother : ∀ other a, item other = some a → other ≠ index → ¬ number a = index + 1 := by
    intro other a ha hne
    rw [h other a ha]
    omega
  have hbelow : ∀ bound ≤ index,
      ((List.range bound).filterMap item).filter (fun a => number a = index + 1) = [] := by
    intro bound hbound
    rw [List.filter_eq_nil_iff]
    intro a ha
    obtain ⟨other, hmem, hitem⟩ := List.mem_filterMap.mp ha
    have := List.mem_range.mp hmem
    simpa using hother other a hitem (by omega)
  induction count with
  | zero => omega
  | succ count ih =>
      rw [List.range_succ, List.filterMap_append, List.filter_append]
      by_cases hlast : index = count
      · subst hlast
        rw [hbelow index le_rfl, List.nil_append]
        cases hitem : item index with
        | none => simp [hitem]
        | some a => simp [hitem, h index a hitem]
      · rw [ih (by omega)]
        cases hitem : item count with
        | none => simp [hitem]
        | some a => simp [hitem, hother count a hitem (Ne.symm hlast)]

theorem exists_mem_filterMap_range (h : ∀ index a, item index = some a → number a = index + 1)
    {count index : Nat} (hindex : index < count) :
    (∃ a ∈ (List.range count).filterMap item, number a = index + 1) ↔ (item index).isSome := by
  constructor
  · rintro ⟨a, hmem, hnumber⟩
    obtain ⟨other, -, hitem⟩ := List.mem_filterMap.mp hmem
    obtain rfl : other = index := by
      rw [h other a hitem] at hnumber
      omega
    simp [hitem]
  · intro hsome
    obtain ⟨a, hitem⟩ := Option.isSome_iff_exists.mp hsome
    exact ⟨a, List.mem_filterMap.mpr ⟨index, List.mem_range.mpr hindex, hitem⟩, h index a hitem⟩

end Numbered

namespace LookupContext

variable {σ : Type} {context : LookupContext σ} {document : Document}
  {path : Path}

theorem targetAt_of_declares {position : Position} {declaration : Declaration}
    (h : (document.line? position.line).bind Declaration.ofLine? = some declaration) :
    context.targetAt document path position =
      context.declarationTarget document path position.line declaration := by
  obtain ⟨line, hline, hdeclares⟩ := Option.bind_eq_some_iff.mp h
  unfold targetAt
  rw [hline]
  simp only [hdeclares]

def linkFor (document : Document) (target : Nat → Declaration → Option DocTarget) (index : Nat) :
    Option DocumentLink :=
  ((document.line? index).bind Declaration.ofLine?).bind fun declaration =>
    (target index declaration).map fun found => ⟨declaration.address, index + 1, found⟩

theorem linkAt_yields {target : Nat → Declaration → Option DocTarget}
    (h : ∀ line declaration, Yields context.Reached
      (context.declarationTarget document path line declaration) (target line declaration))
    (index : Nat) :
    Yields context.Reached (context.linkAt document path index)
      (linkFor document target index) := by
  unfold linkAt linkFor
  cases (document.line? index).bind Declaration.ofLine? with
  | none => exact .pure none
  | some declaration => exact (h index declaration).bind (.pure _)

theorem links_yields {target : Nat → Declaration → Option DocTarget}
    (h : ∀ line declaration, Yields context.Reached
      (context.declarationTarget document path line declaration) (target line declaration)) :
    Yields context.Reached (context.links document path)
      ((List.range document.lineCount).filterMap (linkFor document target)) := by
  have hvalue : Yields context.Reached (context.links document path) _ :=
    (Yields.mapM fun index _ => linkAt_yields h index).bind (.pure _)
  rwa [List.filterMap_map] at hvalue

theorem linkFor_eq_some {target : Nat → Declaration → Option DocTarget} {index : Nat}
    {link : DocumentLink}
    (h : linkFor document target index = some link) :
    link.line = index + 1 ∧
      ((document.line? index).bind Declaration.ofLine?).isSome := by
  obtain ⟨declaration, hdeclares, hlink⟩ := Option.bind_eq_some_iff.mp h
  obtain ⟨found, -, rfl⟩ := Option.map_eq_some_iff.mp hlink
  exact ⟨rfl, by simp [hdeclares]⟩

/--
The links come in the order of their lines, each from a line that declares something.  A position
on such a line is accepted, whatever its column, and a lookup there finds a target exactly if the
line has a link; the line then has one link, to this target and under the declaration's address.
-/
theorem targetAt_agrees_with_links (context : LookupContext σ) (document : Document) (path : Path)
    (steady : context.Steady) (first second : LookupState σ) (hfirst : context.Reached first)
    (hsecond : context.Reached second) :
    let links := (context.links document path first).1
    links.Pairwise (·.line < ·.line) ∧
      (∀ link ∈ links, ∃ index, link.line = index + 1 ∧
        ((document.line? index).bind Declaration.ofLine?).isSome) ∧
      ∀ line column declaration, 1 ≤ line → 1 ≤ column →
        (document.line? (line - 1)).bind Declaration.ofLine? = some declaration →
        ∃ position, document.position path line column = .ok position ∧
          let target := (context.targetAt document path position second).1
          (target.isSome ↔ ∃ link ∈ links, link.line = line) ∧
            ∀ found, target = some found →
              links.filter (·.line = line) = [⟨declaration.address, line, found⟩] := by
  choose target htarget using declarationTarget_settles steady document path
  have hnumber : ∀ index link, linkFor document target index = some link →
      link.line = index + 1 := fun index link h => (linkFor_eq_some h).1
  intro links
  have hlinks : links = (List.range document.lineCount).filterMap (linkFor document target) :=
    (links_yields htarget first hfirst).1
  rw [hlinks]
  refine ⟨pairwise_filterMap_range hnumber _, ?_, ?_⟩
  · intro link hmem
    obtain ⟨index, -, hlink⟩ := List.mem_filterMap.mp hmem
    exact ⟨index, linkFor_eq_some hlink⟩
  · intro line column declaration hline hcolumn hdeclares
    obtain ⟨index, rfl⟩ := Nat.exists_eq_add_of_le' hline
    have hindex : index < document.lineCount := by
      obtain ⟨text, htext, -⟩ := Option.bind_eq_some_iff.mp hdeclares
      exact (List.getElem?_eq_some_iff.mp htext).1
    refine ⟨⟨index, column - 1⟩, ?_, ?_⟩
    · simp [Document.position, Nat.succ_le_of_lt hindex, hcolumn]
    · have hfound : (context.targetAt document path ⟨index, column - 1⟩ second).1 =
          target index declaration := by
        rw [targetAt_of_declares hdeclares]
        exact (htarget index declaration second hsecond).1
      have hlink : linkFor document target index = (target index declaration).map
          fun found => ⟨declaration.address, index + 1, found⟩ := by
        simp only [Nat.add_sub_cancel] at hdeclares
        simp [linkFor, hdeclares]
      have hfilter := filter_filterMap_range hnumber hindex
      rw [hlink] at hfilter
      simp only [hfound]
      constructor
      · rw [exists_mem_filterMap_range hnumber hindex, hlink]
        simp
      · intro found htarget
        rw [hfilter, htarget]
        rfl

theorem targetAt_agrees_with_links_cached :
    let ask : VersionSource Nat := fun provider asked =>
      (if provider.name = "aws" then some "5.31.0" else none, asked + 1)
    let aws : ProviderSource := ⟨"hashicorp", "aws"⟩
    let context : LookupContext Nat :=
      ⟨.emptyAt [], some ⟨[⟨aws, some "5.31.0", none, [], []⟩]⟩, "https://r.io", .high, some ask⟩
    let document : Document :=
      ⟨["resource \"aws_instance\" \"web\" \x7b", "\x7d", "module \"far\" \x7b \x7d"]⟩
    let first : LookupState Nat := ⟨.empty, 0⟩
    let second := (newestVersion ask aws ⟨.empty, 3⟩).2
    let links := (context.links document ⟨"main.tf"⟩ first).1
    context.Steady ∧ context.Reached first ∧ context.Reached second ∧
      links.filter (·.line = 1) = [⟨"aws_instance.web", 1,
        .url "https://r.io/providers/hashicorp/aws/latest/docs/resources/instance"⟩] ∧
      ¬ ∃ link ∈ links, link.line = 3 := by
  intro ask aws context document first second links
  have steady : context.Steady := by
    intro asked hasked
    cases hasked
    intro provider source other
    rfl
  have hfirst : context.Reached first := by
    intro asked hasked
    cases hasked
    exact .fresh 0
  have hsecond : context.Reached second := by
    intro asked hasked
    cases hasked
    exact (LookupState.Reached.fresh 3).asked aws
  obtain ⟨-, -, hline⟩ := targetAt_agrees_with_links context document ⟨"main.tf"⟩ steady first
    second hfirst hsecond
  refine ⟨steady, hfirst, hsecond, ?_, ?_⟩
  · obtain ⟨position, hposition, -, hfound⟩ := hline 1 7
      (.resource ⟨.resource, "aws", "instance", "web"⟩) (by decide) (by decide) (by decide)
    cases hposition
    exact hfound _ (by decide +kernel)
  · obtain ⟨position, hposition, hsome, -⟩ := hline 3 1 (.moduleCall "far") (by decide)
      (by decide) (by decide)
    cases hposition
    rw [← hsome]
    decide +kernel

end LookupContext

end TerraformDocs
