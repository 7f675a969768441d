import TerraformDocs.Proofs.ModuleCall.Address
import TerraformDocs.Target.Basic

/-!
# Sources on Git hosts

A repository on a Git host can be named by the host and a path, and the path may lead on into the
repository.  Such a source is meant for no registry.  It is taken for one all the same if it has
four segments, since the host has a dot, and in no other case (`gitHosted_leads_nowhere_iff`).
-/

namespace TerraformDocs

open TerraformDocs.Text

namespace ModuleSource

/-- The source starts with a Git host and a slash. -/
def IsGitHosted (source : List Char) : Prop := ∃ host ∈ gitHosts, host.toList ++ ['/'] <+: source

instance (source : List Char) : Decidable (IsGitHosted source) :=
  List.decidableBEx (fun host : String => host.toList ++ ['/'] <+: source) gitHosts

theorem IsGitHosted.isLocal_eq_false {source : List Char} (h : IsGitHosted source) :
    isLocal source = false := by
  obtain ⟨host, hhost, path, rfl⟩ := h
  have hform : ∀ host ∈ gitHosts, '/' ∉ host.toList ∧ host ∉ ["", ".", ".."] := by decide
  rw [List.append_assoc]
  exact ModuleSource.isLocal_eq_false (hform host hhost).1 (hform host hhost).2 path

theorem IsGitHosted.mem_of_isAddress {first : String} {others : List String} {source : List Char}
    (h : IsGitHosted source) (haddress : IsAddress source (first :: others))
    (hothers : others ≠ []) :
    first ∈ gitHosts := by
  obtain ⟨host, hhost, hprefix⟩ := h
  obtain ⟨directory, rfl⟩ := haddress.written
  have hform : ∀ host ∈ gitHosts, '/' ∉ host.toList := by decide
  rw [address_cons first hothers] at hprefix
  have hfirst := (haddress.segments_ne first List.mem_cons_self).2
  rwa [eq_of_prefix_slash hfirst (hform host hhost) hprefix]

theorem IsGitHosted.ofString?_eq_none_iff {source : String}
    (h : IsGitHosted (trimChars source.toList)) :
    ofString? source = none ↔ ∀ host publisher name provider,
      ¬ IsAddress (trimChars source.toList) [host, publisher, name, provider] := by
  have hdot : ∀ host ∈ gitHosts, '.' ∈ host.toList ∧ host ≠ publicHost := by decide
  have hread (found : ModuleSource) : ofString? source = some found ↔ ∃ segments,
      IsAddress (trimChars source.toList) segments ∧ ofSegments? segments = some found :=
    ofString?_eq_some_iff h.isLocal_eq_false
  constructor
  · intro hnone host publisher name provider haddress
    have hhost := hdot host (h.mem_of_isAddress haddress (by simp))
    have hempty : "" ∉ [host, publisher, name, provider] :=
      fun hmem => (haddress.segments_ne "" hmem).1 rfl
    have hfound := ofSegments?_eq_private_iff.mpr ⟨hempty, rfl, hhost.2, hhost.1⟩
    rw [(hread _).mpr ⟨_, haddress, hfound⟩] at hnone
    cases hnone
  · intro hfour
    rw [Option.eq_none_iff_forall_ne_some]
    intro found hfound
    obtain ⟨segments, haddress, hsegments⟩ := (hread found).mp hfound
    cases found with
    | localPath path => exact ofSegments?_ne_localPath segments path hsegments
    | publicRegistry publisher name provider =>
        obtain ⟨-, ⟨rfl, hpublisher⟩ | rfl⟩ := ofSegments?_eq_public_iff.mp hsegments
        · exact hpublisher (hdot publisher (h.mem_of_isAddress haddress (by simp))).1
        · exact hfour _ _ _ _ haddress
    | privateRegistry host publisher name provider =>
        obtain ⟨-, rfl, -⟩ := ofSegments?_eq_private_iff.mp hsegments
        exact hfour _ _ _ _ haddress

/-- A source with a Git host in front is taken for nothing, and leads nowhere, exactly if it is no
address with four segments. -/
theorem gitHosted_leads_nowhere_iff {source : String} (h : IsGitHosted (trimChars source.toList)) :
    (ofString? source = none ∧ ∀ files document version registryUrl,
        DocTarget.ofModule? files document source version registryUrl = none) ↔
      ∀ host publisher name provider,
        ¬ IsAddress (trimChars source.toList) [host, publisher, name, provider] := by
  rw [← h.ofString?_eq_none_iff]
  refine and_iff_left_of_imp fun hnone files document version registryUrl => ?_
  rw [DocTarget.ofModule?, hnone]

theorem gitHosted_leads_nowhere_directory :
    let source := " github.com/acme/network//modules/vpc"
    IsGitHosted (trimChars source.toList) ∧ ofString? source = none ∧
      DocTarget.ofModule? (.emptyAt []) ⟨"main.tf"⟩ source none "https://r.io" = none := by
  intro source
  have hgit : IsGitHosted (trimChars source.toList) := by decide +kernel
  have hfour : ∀ host publisher name provider,
      ¬ IsAddress (trimChars source.toList) [host, publisher, name, provider] := by
    intro host publisher name provider haddress
    have hsegments : ["github.com", "acme", "network"] = [host, publisher, name, provider] := by
      rw [← haddress.segments_eq (by simp)]
      decide +kernel
    cases hsegments
  obtain ⟨hnone, htarget⟩ := (gitHosted_leads_nowhere_iff hgit).mpr hfour
  exact ⟨hgit, hnone, htarget _ _ _ _⟩

/-- Without them, the directory is taken for the provider of a registry's module. -/
theorem gitHosted_taken_for_registry :
    let source := "github.com/acme/network/vpc"
    IsGitHosted (trimChars source.toList) ∧
      ofString? source = some (.privateRegistry "github.com" "acme" "network" "vpc") ∧
      DocTarget.ofModule? (.emptyAt []) ⟨"main.tf"⟩ source none "https://r.io" =
        some (.url "https://github.com/app/acme/registry/modules/private/acme/network/vpc") := by
  decide +kernel

end ModuleSource

end TerraformDocs
