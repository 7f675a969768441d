import TerraformDocs.Proofs.Files.Normal
import TerraformDocs.Proofs.Files.Walk
import TerraformDocs.Proofs.ModuleCall.Address
import TerraformDocs.Target.Basic

/-!
# Directories of local modules

A local module is opened in the directory to which its source leads from that of the document
(`ofModule?_leads_to_directory`), by a path in normal form.  This path is empty if the source leads
back to where the document's own path starts, and then it opens nothing, unless the working
directory has a main file (`opensSomething_iff`).
-/

namespace TerraformDocs

open TerraformDocs.Text TerraformDocs.Location TerraformDocs.Path

namespace DocTarget

variable {files : FileTree} {document path : Path} {source : String}

def moduleDirectory (document path : Path) : Path :=
  ((document.parent?.getD ⟨""⟩).join path).normalize

def entry (files : FileTree) (directory : Path) : Path :=
  if files.isFile (directory.join ⟨"main.tf"⟩) then directory.join ⟨"main.tf"⟩ else directory

theorem ofModule?_local (files : FileTree) (document : Path)
    (h : ModuleSource.ofString? source = some (.localPath path)) (version : Option String)
    (registryUrl : String) :
    ofModule? files document source version registryUrl =
      some (.navigate (entry files (moduleDirectory document path))) := by
  rw [ofModule?, h]
  rfl

/-- A local module lies where its source leads from the parent of the document, from whatever
place both are followed.  The normal form of a path is normal, and its own normal form. -/
theorem ofModule?_leads_to_directory {name : String}
    (hfile : document.components.getLast? = some (.name name))
    (hlocal : ModuleSource.ofString? source = some (.localPath path)) (files : FileTree)
    (version : Option String) (registryUrl : String) :
    (∃ parent, document.parent? = some parent ∧
      document.components = parent.components ++ [.name name] ∧ path = ⟨trim source⟩ ∧
      ofModule? files document source version registryUrl =
        some (.navigate (entry files (parent.join path).normalize)) ∧
      ∀ place, along place (parent.join path).normalize.components =
        along (along place parent.components) path.components) ∧
    ∀ other : Path, IsNormal other.normalize.components ∧
      other.normalize.normalize = other.normalize := by
  obtain ⟨parent, hparent, hcomponents⟩ := exists_parent hfile
  have hdirectory : moduleDirectory document path = (parent.join path).normalize := by
    rw [moduleDirectory, hparent, Option.getD_some]
  have htarget := ofModule?_local files document hlocal version registryUrl
  rw [hdirectory] at htarget
  refine ⟨⟨parent, hparent, hcomponents, ModuleSource.eq_of_ofString?_eq_localPath hlocal, htarget,
    fun place => ?_⟩, fun other => ⟨isNormal_normalize other, normalize_normalize other⟩⟩
  rw [along_normalize, along_join]

theorem ofModule?_leads_to_directory_shared :
    let document : Path := ⟨"./envs//prod/main.tf"⟩
    let source := " ../.././shared/x/..\n"
    let path : Path := ⟨"../.././shared/x/.."⟩
    document.components.getLast? = some (.name "main.tf") ∧
      ModuleSource.ofString? source = some (.localPath path) ∧
      document.parent? = some ⟨"./envs//prod"⟩ ∧
      ofModule? (.emptyAt ["w"]) document source none "https://r.io" =
        some (.navigate (entry (.emptyAt ["w"]) ⟨"shared"⟩)) ∧
      along ["w"] (Path.components ⟨"shared"⟩) =
        along (along ["w"] (Path.components ⟨"./envs//prod"⟩)) path.components := by
  intro document source path
  have hfile : document.components.getLast? = some (.name "main.tf") := by decide +kernel
  have hlocal : ModuleSource.ofString? source = some (.localPath path) := by decide +kernel
  have hprod : document.parent? = some ⟨"./envs//prod"⟩ := by decide +kernel
  have hshared : (Path.join ⟨"./envs//prod"⟩ path).normalize = ⟨"shared"⟩ := by decide +kernel
  obtain ⟨⟨parent, hparent, -, -, htarget, hleads⟩, -⟩ :=
    ofModule?_leads_to_directory hfile hlocal (.emptyAt ["w"]) none "https://r.io"
  obtain rfl := Option.some_inj.mp (hprod.symm.trans hparent)
  rw [hshared] at htarget hleads
  exact ⟨hfile, hlocal, hprod, htarget, hleads ["w"]⟩

/-! ## Modules that cannot be opened -/

theorem moduleDirectory_eq_empty_iff :
    moduleDirectory document path = ⟨""⟩ ↔
      ∀ place, along (along place document.directory.components) path.components = place := by
  simp only [moduleDirectory, normalize_eq_empty_iff, along_join, along_directory]

theorem join_main_ne_empty (directory : Path) : directory.join ⟨"main.tf"⟩ ≠ ⟨""⟩ := by
  have hstep : IsStep (.name "main.tf") := ⟨by decide, by decide +kernel⟩
  have hcomponents := components_join_step directory hstep
  rw [Component.path] at hcomponents
  intro hempty
  rw [hempty] at hcomponents
  have hnone : (⟨""⟩ : Path).components = [] := rfl
  simp [hnone] at hcomponents

theorem entry_eq_empty_iff (files : FileTree) (directory : Path) :
    entry files directory = ⟨""⟩ ↔ directory = ⟨""⟩ ∧ files.isFile ⟨"main.tf"⟩ = false := by
  unfold entry
  split
  · next hmain =>
    refine iff_of_false (join_main_ne_empty directory) ?_
    rintro ⟨rfl, hnone⟩
    rw [join_empty, hnone] at hmain
    cases hmain
  · next hmain =>
    refine (and_iff_left_of_imp ?_).symm
    rintro rfl
    rwa [join_empty, Bool.not_eq_true] at hmain

/-- The target is a path that names something. -/
def OpensSomething (target : Option DocTarget) : Prop :=
  ∃ path, target = some (.navigate path) ∧ path ≠ ⟨""⟩

/-- The path of a local module names something exactly if the working directory has a main file, or
the source does not lead back, in every case, to where the document's path starts. -/
theorem opensSomething_iff (files : FileTree) (document : Path)
    (hlocal : ModuleSource.ofString? source = some (.localPath path)) (version : Option String)
    (registryUrl : String) :
    OpensSomething (ofModule? files document source version registryUrl) ↔
      files.isFile ⟨"main.tf"⟩ = true ∨
        ∃ place, along (along place document.directory.components) path.components ≠ place := by
  have hopens : OpensSomething (ofModule? files document source version registryUrl) ↔
      entry files (moduleDirectory document path) ≠ ⟨""⟩ := by
    rw [OpensSomething, ofModule?_local files document hlocal]
    simp
  rw [hopens, Ne, entry_eq_empty_iff, moduleDirectory_eq_empty_iff, not_and_or, or_comm,
    not_forall, Bool.not_eq_false]

theorem opensSomething_sibling :
    ModuleSource.ofString? "../net" = some (.localPath ⟨"../net"⟩) ∧
      OpensSomething (ofModule? (.emptyAt ["w"]) ⟨"env/main.tf"⟩ "../net" none "https://r.io") := by
  have hlocal : ModuleSource.ofString? "../net" = some (.localPath ⟨"../net"⟩) := by
    decide +kernel
  exact ⟨hlocal, (opensSomething_iff _ _ hlocal none _).mpr (.inr ⟨[], by decide +kernel⟩)⟩

/-- The source `..` cancels the one directory of the document's path, and nothing is left. -/
theorem not_opensSomething_up :
    let files : FileTree := ⟨[(["w"], .directory), (["w", "env"], .directory),
      (["w", "env", "main.tf"], .file [])], ["w"]⟩
    ModuleSource.ofString? ".." = some (.localPath ⟨".."⟩) ∧
      ofModule? files ⟨"env/main.tf"⟩ ".." none "https://r.io" = some (.navigate ⟨""⟩) ∧
      ¬ OpensSomething (ofModule? files ⟨"env/main.tf"⟩ ".." none "https://r.io") := by
  intro files
  have hlocal : ModuleSource.ofString? ".." = some (.localPath ⟨".."⟩) := by decide +kernel
  have hlinks : files.Unlinked := by simp [FileTree.Unlinked, files]
  have hmain : files.isFile ⟨"main.tf"⟩ = false := by
    rw [FileTree.isFile, FileTree.lookup, FileTree.locate_eq_foldlM hlinks]
    decide +kernel
  have hdirectory : moduleDirectory ⟨"env/main.tf"⟩ ⟨".."⟩ = ⟨""⟩ := by decide +kernel
  have htarget : ofModule? files ⟨"env/main.tf"⟩ ".." none "https://r.io" =
      some (.navigate ⟨""⟩) := by
    rw [ofModule?_local files _ hlocal, (entry_eq_empty_iff _ _).mpr ⟨hdirectory, hmain⟩]
  refine ⟨hlocal, htarget, ?_⟩
  rw [htarget]
  rintro ⟨path, hpath, hne⟩
  cases hpath
  exact hne rfl

end DocTarget

end TerraformDocs
