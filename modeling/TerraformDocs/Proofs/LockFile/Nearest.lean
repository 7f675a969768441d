import TerraformDocs.LockFile.Discovery
import TerraformDocs.Proofs.Files.Ancestors

/-!
# The nearest lock file

The nearest lock file is the one in the innermost directory around the start.  The search goes back
along the places that the start's path passes instead, from the start to the working directory
(`locate?_trail`).  It finds the nearest file when the place where it stops is around the start
(`findsNearest_iff`); it can miss one above the working directory, and a path that goes up can lead
it away from the start.
-/

namespace TerraformDocs.LockFile

open Location

variable {tree : FileTree} {start : Path} {name : String} {place : Location}

/-- The innermost directory around a place that has a file with some name. -/
structure IsNearest (tree : FileTree) (place : Location) (name : String) (directory : Location) :
    Prop where
  around : directory <+: place
  has : tree.hasFile directory name = true
  innermost : ∀ nearer, nearer <+: place → directory.length < nearer.length →
    tree.hasFile nearer name = false

/-- The search finds the nearest file with this name, and nothing only if there is none. -/
def FindsNearest (tree : FileTree) (start : Path) (name : String) (place : Location) : Prop :=
  match locate? tree start name with
  | some path =>
      ∃ directory, IsNearest tree place name directory ∧
        tree.locate path = .ok (directory ++ [name])
  | none => ∀ directory, directory <+: place → tree.hasFile directory name = false

/-- The first place that has the file, from the start back to the working directory, is around the
start; or none has it, and no other directory around the start has it. -/
def StopsAround (tree : FileTree) (start : Path) (name : String) (place : Location) : Prop :=
  match (trail tree.working start.steps).find? (tree.hasFile · name) with
  | some directory => directory <+: place
  | none => ∀ directory, directory <+: place → tree.hasFile directory name = false

/-! ## The search -/

theorem find?_of_forall₂ {α β : Type} {related : α → β → Prop} {p : α → Bool} {q : β → Bool}
    (hpq : ∀ a b, related a b → p a = q b) {as : List α} {bs : List β}
    (h : List.Forall₂ related as bs) :
    match bs.find? q with
    | some b => ∃ a, as.find? p = some a ∧ related a b
    | none => as.find? p = none := by
  induction h with
  | nil => rfl
  | @cons a b as bs hab _ ih =>
      have hp := hpq a b hab
      cases hq : q b with
      | true =>
          rw [hq] at hp
          simp [hp, hq, hab]
      | false =>
          rw [hq] at hp
          simpa [hp, hq] using ih

theorem find?_append_of_mem {α : Type} {p : α → Bool} {front back : List α}
    (h : ∀ a ∈ back, a ∈ front) : (front ++ back).find? p = front.find? p := by
  rw [List.find?_append]
  cases hfront : front.find? p with
  | some a => rfl
  | none =>
      rw [List.find?_eq_none] at hfront
      simp only [Option.none_or, List.find?_eq_none]
      exact fun a ha => hfront a (h a ha)

theorem locate?_trail (hlinks : tree.Unlinked) (hname : FileTree.IsFileName name)
    (hstart : tree.IsStart start name place) :
    match (trail tree.working start.steps).find? (tree.hasFile · name) with
    | some directory =>
        ∃ path, locate? tree start name = some path ∧ tree.locate path = .ok (directory ++ [name])
    | none => locate? tree start name = none := by
  obtain ⟨ends, hends, hcuts⟩ := Path.ancestors_cuts hstart.relative
    (hstart.entered hlinks).1 tree.working
  have hfind := find?_of_forall₂ (fun _ _ hcut => hstart.isFile_join hlinks hname hcut) hcuts
  rw [find?_append_of_mem fun directory hmem => by
    rw [hends directory hmem]
    exact mem_trail_start _ _] at hfind
  rw [locate?, List.find?_map]
  cases hfirst : (trail tree.working start.steps).find? (tree.hasFile · name) with
  | none =>
      simp only [hfirst] at hfind
      simp only [Function.comp_def, hfind, Option.map_none]
  | some directory =>
      simp only [hfirst] at hfind
      obtain ⟨base, hbase, hcut⟩ := hfind
      have hfile := List.find?_some (p := (tree.hasFile · name)) hfirst
      refine ⟨base.join ⟨name⟩, ?_, ?_⟩
      · simp only [Function.comp_def, hbase, Option.map_some]
      · exact hstart.locate_join_of_hasFile hlinks hname hcut hfile

theorem place_eq_walk (hlinks : tree.Unlinked) (hstart : tree.IsStart start name place) :
    place = walk tree.working start.steps := by
  rw [Path.steps, walk_filter]
  exact FileTree.entered_eq_walk (hstart.entered hlinks).2.2

theorem stopsAround_iff_of_no_up (hlinks : tree.Unlinked) (hstart : tree.IsStart start name place)
    (hup : ['.', '.'] ∉ start.steps) :
    StopsAround tree start name place ↔
      (∃ directory, tree.working <+: directory ∧ directory <+: place ∧
        tree.hasFile directory name = true) ∨
      ∀ directory, directory <+: tree.working → tree.hasFile directory name = false := by
  have htrail {directory : Location} : directory ∈ trail tree.working start.steps ↔
      tree.working <+: directory ∧ directory <+: place := by
    rw [mem_trail_iff hup, ← place_eq_walk hlinks hstart]
  have hworking := (htrail.mp (mem_trail_start _ _)).2
  unfold StopsAround
  cases hfirst : (trail tree.working start.steps).find? (tree.hasFile · name) with
  | some directory =>
      have hmem := htrail.mp (List.mem_of_find?_eq_some hfirst)
      have hfile := List.find?_some (p := (tree.hasFile · name)) hfirst
      exact iff_of_true hmem.2 (.inl ⟨directory, hmem.1, hmem.2, hfile⟩)
  | none =>
      have hnone : ∀ directory ∈ trail tree.working start.steps,
          tree.hasFile directory name = false := by
        simpa using hfirst
      constructor
      · intro h
        exact .inr fun directory habove => h directory (habove.trans hworking)
      · rintro (⟨directory, hbelow, haround, hfile⟩ | h) other hother
        · rw [hnone directory (htrail.mpr ⟨hbelow, haround⟩)] at hfile
          cases hfile
        · rcases List.prefix_or_prefix_of_prefix hother hworking with habove | hbelow
          · exact h other habove
          · exact hnone other (htrail.mpr ⟨hbelow, hother⟩)

theorem findsNearest_iff_stopsAround (hlinks : tree.Unlinked) (hname : FileTree.IsFileName name)
    (hstart : tree.IsStart start name place) :
    FindsNearest tree start name place ↔ StopsAround tree start name place := by
  have hsearch := locate?_trail hlinks hname hstart
  unfold FindsNearest StopsAround
  cases hfirst : (trail tree.working start.steps).find? (tree.hasFile · name) with
  | none =>
      simp only [hfirst] at hsearch
      simp only [hsearch]
  | some directory =>
      simp only [hfirst] at hsearch
      obtain ⟨path, hpath, hlocate⟩ := hsearch
      simp only [hpath]
      constructor
      · rintro ⟨nearest, hnearest, hfound⟩
        have hsame : directory ++ [name] = nearest ++ [name] :=
          Except.ok.inj (hlocate.symm.trans hfound)
        rw [List.append_cancel_right hsame]
        exact hnearest.around
      · intro haround
        have hfile := List.find?_some (p := (tree.hasFile · name)) hfirst
        refine ⟨directory, ⟨haround, hfile, ?_⟩, hlocate⟩
        intro nearer hnearer hlength
        rw [place_eq_walk hlinks hstart] at haround hnearer
        exact eq_false_of_find?_trail hfirst haround hnearer hlength

/-- When the search finds the nearest file, in terms of the places that it passes, and for a path
that goes down only in terms of the working directory. -/
theorem findsNearest_iff (hlinks : tree.Unlinked) (hname : FileTree.IsFileName name)
    (hstart : tree.IsStart start name place) :
    (FindsNearest tree start name place ↔ StopsAround tree start name place) ∧
      (['.', '.'] ∉ start.steps →
        (FindsNearest tree start name place ↔
          (∃ directory, tree.working <+: directory ∧ directory <+: place ∧
            tree.hasFile directory name = true) ∨
          ∀ directory, directory <+: tree.working → tree.hasFile directory name = false)) := by
  have hstops := findsNearest_iff_stopsAround hlinks hname hstart
  refine ⟨hstops, fun hup => ?_⟩
  rw [hstops, stopsAround_iff_of_no_up hlinks hstart hup]

def smallTree (working : Location) : FileTree :=
  ⟨[(["w"], .directory), (["w", "sub"], .directory), (["w", "x.hcl"], .file [])], working⟩

theorem unlinked_smallTree (working : Location) : (smallTree working).Unlinked := by
  simp [FileTree.Unlinked, smallTree]

theorem isFileName_small : FileTree.IsFileName "x.hcl" := by
  constructor <;> decide

theorem findsNearest_small : FindsNearest (smallTree ["w"]) ⟨"sub"⟩ "x.hcl" ["w", "sub"] := by
  have hstart : (smallTree ["w"]).IsStart ⟨"sub"⟩ "x.hcl" ["w", "sub"] := by
    refine ⟨by decide, ?_, by decide, by decide⟩
    rw [FileTree.locate_eq_foldlM (unlinked_smallTree _)]
    decide
  refine ((findsNearest_iff (unlinked_smallTree _) isFileName_small hstart).2 ?_).mpr ?_
  · decide
  · exact .inl ⟨["w"], by decide, by decide, by decide⟩

/-- The search does not go above the working directory, and leaves it for a directory that it is
not around when the path goes up. -/
theorem not_findsNearest_small :
    ((smallTree ["w", "sub"]).IsStart ⟨"."⟩ "x.hcl" ["w", "sub"] ∧
      ¬ FindsNearest (smallTree ["w", "sub"]) ⟨"."⟩ "x.hcl" ["w", "sub"]) ∧
    (smallTree ["w"]).IsStart ⟨".."⟩ "x.hcl" [] ∧
      ¬ FindsNearest (smallTree ["w"]) ⟨".."⟩ "x.hcl" [] := by
  have hhere : (smallTree ["w", "sub"]).IsStart ⟨"."⟩ "x.hcl" ["w", "sub"] := by
    refine ⟨by decide, ?_, by decide, by decide⟩
    rw [FileTree.locate_eq_foldlM (unlinked_smallTree _)]
    decide
  have hup : (smallTree ["w"]).IsStart ⟨".."⟩ "x.hcl" [] := by
    refine ⟨by decide, ?_, by decide, by decide⟩
    rw [FileTree.locate_eq_foldlM (unlinked_smallTree _)]
    decide
  refine ⟨⟨hhere, ?_⟩, hup, ?_⟩
  · have hfirst : (trail (smallTree ["w", "sub"]).working (Path.steps ⟨"."⟩)).find?
        ((smallTree ["w", "sub"]).hasFile · "x.hcl") = none := by decide
    have hsearch := locate?_trail (unlinked_smallTree _) isFileName_small hhere
    simp only [hfirst] at hsearch
    simp only [FindsNearest, hsearch]
    intro h
    exact absurd (h ["w"] (by decide)) (by decide)
  · have hfirst : (trail (smallTree ["w"]).working (Path.steps ⟨".."⟩)).find?
        ((smallTree ["w"]).hasFile · "x.hcl") = some ["w"] := by decide
    have hsearch := locate?_trail (unlinked_smallTree _) isFileName_small hup
    simp only [hfirst] at hsearch
    obtain ⟨path, hpath, hlocate⟩ := hsearch
    simp only [FindsNearest, hpath]
    rintro ⟨directory, hnearest, hfound⟩
    obtain rfl := List.prefix_nil.mp hnearest.around
    exact absurd (Except.ok.inj (hlocate.symm.trans hfound)) (by decide)

end TerraformDocs.LockFile
