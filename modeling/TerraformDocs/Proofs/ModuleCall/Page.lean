import TerraformDocs.Proofs.Version.Spelling
import TerraformDocs.Target.Lookup

/-!
# Pages of registry modules

The address of a module's page ends with the version of its call, if that is exact, and else as its
registry has it.  A version is read without the blanks around it but kept as it is written, so it
has none in the address exactly if it is written without them (`pageVersion_clean_iff`).
-/

namespace TerraformDocs

open TerraformDocs.Text

namespace ModuleSource

def page? (registryUrl : String) : ModuleSource → Option String
  | localPath _ => none
  | publicRegistry publisher name provider =>
    some (registryUrl ++ "/modules/" ++ publisher ++ "/" ++ name ++ "/" ++ provider)
  | privateRegistry host publisher name provider =>
    some ("https://" ++ host ++ "/app/" ++ publisher ++ "/registry/modules/private/" ++ publisher ++
      "/" ++ name ++ "/" ++ provider)

def unversioned : ModuleSource → Option String
  | publicRegistry _ _ _ => some DocTarget.latest
  | localPath _ | privateRegistry _ _ _ _ => none

end ModuleSource

namespace DocTarget

/-! ## Addresses -/

def versioned (page : String) : Option String → String
  | none => page
  | some segment => page ++ "/" ++ segment

theorem versioned_inj {page : String} {segment other : Option String} :
    versioned page segment = versioned page other ↔ segment = other := by
  cases segment <;> cases other <;> simp [versioned, ← String.toList_inj]

def pageVersion (found : ModuleSource) (version : Option String) : Option String :=
  (exactVersion? version).or found.unversioned

theorem ofModule?_page {source page registryUrl : String} {found : ModuleSource}
    (hfound : ModuleSource.ofString? source = some found)
    (hpage : found.page? registryUrl = some page) (files : FileTree) (document : Path)
    (version : Option String) :
    ofModule? files document source version registryUrl =
      some (.url (versioned page (pageVersion found version))) := by
  rw [ofModule?, hfound, pageVersion]
  cases found with
  | localPath path => cases hpage
  | publicRegistry publisher name provider =>
      cases hpage
      cases exactVersion? version <;> rfl
  | privateRegistry host publisher name provider =>
      cases hpage
      cases exactVersion? version with
      | none => simp [versioned, ModuleSource.unversioned]
      | some text => simp [versioned, String.append_assoc]

/-! ## Versions in addresses -/

variable {found : ModuleSource} {text other : String}

theorem pageVersion_none (found : ModuleSource) : pageVersion found none = found.unversioned := rfl

theorem pageVersion_of_isSome (h : (Version.ofString? text).isSome) :
    pageVersion found (some text) = some text := by
  simp [pageVersion, exactVersion?, Option.filter_some, h]

theorem pageVersion_of_eq_none (h : Version.ofString? text = none) :
    pageVersion found (some text) = found.unversioned := by
  simp [pageVersion, exactVersion?, Option.filter_some, h]

/-- What the version of a module should be in the address: a text without blanks around it that
reads as the version of the call, or what the registry has where that is not exact. -/
def IsCleanSegment (found : ModuleSource) (version segment : Option String) : Prop :=
  match version.bind Version.ofString? with
  | some asked =>
    ∃ text, segment = some text ∧ trim text = text ∧ Version.ofString? text = some asked
  | none => segment = found.unversioned

theorem isCleanSegment_pageVersion_iff (found : ModuleSource) (version : Option String) :
    IsCleanSegment found version (pageVersion found version) ↔
      ∀ text ∈ version, (Version.ofString? text).isSome → trim text = text := by
  cases version with
  | none => simp [IsCleanSegment, pageVersion_none]
  | some text =>
      cases hread : Version.ofString? text with
      | none => simp [IsCleanSegment, hread, pageVersion_of_eq_none]
      | some asked => simp [IsCleanSegment, hread, pageVersion_of_isSome]

theorem pageVersion_eq_iff (found : ModuleSource) (h : trim text = trim other) :
    pageVersion found (some text) = pageVersion found (some other) ↔
      ((Version.ofString? text).isSome → text = other) := by
  have hread := Version.ofString?_congr h
  cases hother : Version.ofString? other with
  | none => simp [pageVersion_of_eq_none, hread, hother]
  | some asked => simp [pageVersion_of_isSome, hread, hother]

/-- A module's page has a clean version exactly if the version of the call is not exact or is
written without blanks around it.  Two versions that differ in such blanks only make one page
exactly if they are not exact. -/
theorem pageVersion_clean_iff {source page registryUrl : String}
    (hfound : ModuleSource.ofString? source = some found)
    (hpage : found.page? registryUrl = some page) (files : FileTree) (document : Path)
    (version : Option String) :
    ((∃ segment, IsCleanSegment found version segment ∧
        ofModule? files document source version registryUrl =
          some (.url (versioned page segment))) ↔
      ∀ text ∈ version, (Version.ofString? text).isSome → trim text = text) ∧
    ∀ text other, trim text = trim other →
      (ofModule? files document source (some text) registryUrl =
          ofModule? files document source (some other) registryUrl ↔
        ((Version.ofString? text).isSome → text = other)) := by
  constructor
  · rw [← isCleanSegment_pageVersion_iff found]
    simp [ofModule?_page hfound hpage, versioned_inj]
  · intro text other hsame
    simp only [ofModule?_page hfound hpage, Option.some_inj, url.injEq, versioned_inj]
    exact pageVersion_eq_iff found hsame

theorem pageVersion_clean_consul :
    let source := "acme/consul/aws"
    let found := ModuleSource.publicRegistry "acme" "consul" "aws"
    let page := "https://r.io/modules/acme/consul/aws"
    let target := fun version => ofModule? (.emptyAt []) ⟨"main.tf"⟩ source version "https://r.io"
    ModuleSource.ofString? source = some found ∧ found.page? "https://r.io" = some page ∧
      (∃ segment, IsCleanSegment found (some "1.2.3-rc.1") segment ∧
        target (some "1.2.3-rc.1") = some (.url (versioned page segment))) ∧
      trim " ~> 1.0" = trim "~> 1.0" ∧ target (some " ~> 1.0") = target (some "~> 1.0") := by
  intro source found page target
  have hfound : ModuleSource.ofString? source = some found := by decide +kernel
  have hpage : found.page? "https://r.io" = some page := by decide +kernel
  have hsame : trim " ~> 1.0" = trim "~> 1.0" := by decide +kernel
  obtain ⟨hclean, hpages⟩ :=
    pageVersion_clean_iff hfound hpage (.emptyAt []) ⟨"main.tf"⟩ (some "1.2.3-rc.1")
  have hflush : trim "1.2.3-rc.1" = "1.2.3-rc.1" := by decide +kernel
  refine ⟨hfound, hpage, hclean.mpr ?_, hsame, (hpages _ _ hsame).mpr ?_⟩
  · rintro text ⟨⟩ -
    exact hflush
  · intro hexact
    exact absurd hexact (by decide +kernel)

/-- Blanks around an exact version are kept, and the page is not that of the version alone. -/
theorem pageVersion_blanks :
    let context : LookupContext Unit := ⟨.emptyAt [], none, "https://r.io", .high, none⟩
    let document : Document := ⟨["module \"consul\" \x7b", "  source  = \"acme/consul/aws\"",
      "  version = \" 1.2.3 \"", "\x7d"]⟩
    let found := ModuleSource.publicRegistry "acme" "consul" "aws"
    let page := "https://r.io/modules/acme/consul/aws"
    let target := fun version =>
      ofModule? context.files ⟨"main.tf"⟩ "acme/consul/aws" version context.registryUrl
    (context.links document ⟨"main.tf"⟩ ⟨.empty, ()⟩).1 =
        [⟨"module.consul", 1, .url (page ++ "/ 1.2.3 ")⟩] ∧
      document.blockAttribute? 0 "version" = some " 1.2.3 " ∧
      (¬ ∃ segment, IsCleanSegment found (some " 1.2.3 ") segment ∧
        target (some " 1.2.3 ") = some (.url (versioned page segment))) ∧
      trim " 1.2.3 " = trim "1.2.3" ∧ target (some " 1.2.3 ") ≠ target (some "1.2.3") := by
  intro context document found page target
  refine ⟨by decide +kernel, by decide +kernel, ?_, by decide +kernel, by decide +kernel⟩
  have htarget : target (some " 1.2.3 ") =
      some (.url (versioned page (pageVersion found (some " 1.2.3 ")))) := by decide +kernel
  rintro ⟨segment, hclean, hsegment⟩
  obtain rfl : pageVersion found (some " 1.2.3 ") = segment := by
    rw [← versioned_inj, ← url.injEq, ← Option.some_inj, ← htarget, hsegment]
  have hflush := (isCleanSegment_pageVersion_iff found _).mp hclean " 1.2.3 " rfl
  exact absurd (hflush (by decide +kernel)) (by decide +kernel)

end DocTarget

end TerraformDocs
