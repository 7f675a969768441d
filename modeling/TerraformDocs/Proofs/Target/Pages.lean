import TerraformDocs.Proofs.Declaration.Grammar
import TerraformDocs.Proofs.Target.Cursor
import TerraformDocs.Proofs.Text.Reading

/-!
# Different constructs have different pages

An address is taken apart from its front.  The publisher and the name of a provider have no slash,
so they are read up to the next one.  The version may hold any character, but it goes with the
provider, and is the same wherever the provider is.  What follows it tells the kind, the type and
the section (`resourceTarget_eq_iff`).
-/

namespace TerraformDocs

open TerraformDocs.Text

/-! ## Sections -/

namespace AttributeContext

def levelChars (level : Nat) : List Char := if level = 0 then [] else '-' :: level.repr.toList

theorem toList_fragment (assigned : AttributeContext) :
    assigned.fragment.toList = assigned.name.toList ++ levelChars assigned.level := by
  unfold fragment levelChars
  split <;> simp

theorem head?_levelChars (level : Nat) :
    ∀ c ∈ (levelChars level).head?, isAttributeChar c = false := by
  unfold levelChars
  split
  · simp
  · intro c hc
    obtain rfl : '-' = c := by simpa using hc
    decide

theorem levelChars_inj {level other : Nat} :
    levelChars level = levelChars other ↔ level = other := by
  refine ⟨fun h => ?_, congrArg levelChars⟩
  unfold levelChars at h
  split at h
  · next hlevel =>
    split at h
    · next hother => rw [hlevel, hother]
    · cases h
  · split at h
    · cases h
    · have hvalue := congrArg (Nat.ofDigitChars 10 · 0) (List.cons.inj h).2
      simpa only [Nat.toList_repr, Nat.ofDigitChars_ten_toDigits] using hvalue

theorem eq_of_fragment_eq {assigned other : AttributeContext}
    (hname : ∀ c ∈ assigned.name.toList, isAttributeChar c = true)
    (hother : ∀ c ∈ other.name.toList, isAttributeChar c = true)
    (h : assigned.fragment = other.fragment) : assigned = other := by
  have hread := takeWhile_append_of_head hname (head?_levelChars assigned.level)
  rw [← toList_fragment, h, toList_fragment] at hread
  obtain ⟨htake, hdrop⟩ := takeWhile_append_of_head hother (head?_levelChars other.level)
  rw [htake, hdrop, String.toList_inj, levelChars_inj] at hread
  obtain ⟨hsame, hlevel⟩ := hread
  cases assigned
  cases other
  cases hsame
  cases hlevel
  rfl

theorem eq_of_map_fragment_eq {place other : Option AttributeContext}
    (hplace : ∀ assigned ∈ place, ∀ c ∈ assigned.name.toList, isAttributeChar c = true)
    (hother : ∀ assigned ∈ other, ∀ c ∈ assigned.name.toList, isAttributeChar c = true)
    (h : place.map (·.fragment) = other.map (·.fragment)) : place = other := by
  cases place with
  | none => simpa [eq_comm] using h
  | some assigned =>
      cases other with
      | none => simp at h
      | some otherAssigned =>
          exact congrArg some
            (eq_of_fragment_eq (hplace _ rfl) (hother _ rfl) (Option.some.inj h))

end AttributeContext

theorem ResourceReference.Labelled.not_mem_sign {reference : ResourceReference}
    (h : reference.Labelled) : '#' ∉ reference.type.toList := by
  intro hsign
  exact absurd (h.type '#' hsign) (by decide)

/-! ## Providers -/

theorem ProviderSource.not_mem_slash_defaultPublisher : '/' ∉ defaultPublisher.toList := by decide

theorem ProviderSource.not_mem_slash_of_ofChars? {cs : List Char} {source : ProviderSource}
    (h : ofChars? cs = some source) : '/' ∉ source.publisher.toList := by
  have hpieces : ∀ piece ∈ (trimChars cs).splitOn '/', '/' ∉ piece :=
    fun piece => not_mem_of_mem_splitOn
  unfold ofChars? at h
  split at h
  · next heq =>
    rw [heq] at hpieces
    split at h
    · cases h
      simpa using hpieces _ (by simp)
    · cases h
  · next heq =>
    rw [heq] at hpieces
    split at h
    · cases h
      simpa using hpieces _ (by simp)
    · cases h
  · split at h
    · cases h
      exact not_mem_slash_defaultPublisher
    · cases h
  · cases h

theorem LockFile.not_mem_slash_of_ofText {text : String} {lock : ProviderLock}
    (h : lock ∈ (ofText text).providers) : '/' ∉ lock.source.publisher.toList := by
  obtain ⟨header, -, hlock⟩ := List.mem_filterMap.mp h
  simp only [lockAt?, Option.bind_eq_bind, Option.bind_eq_some_iff, Option.pure_def,
    Option.some.injEq] at hlock
  obtain ⟨source, hsource, body, -, rfl⟩ := hlock
  exact ProviderSource.not_mem_slash_of_ofChars? hsource

namespace LookupContext

variable {σ : Type} {context : LookupContext σ}

theorem name_providerSource (name : String) : (context.providerSource name).name = name := by
  unfold providerSource
  split
  · rfl
  · next lock hlock =>
    obtain ⟨lockFile, -, hnamed⟩ := Option.bind_eq_some_iff.mp hlock
    simpa using List.find?_some hnamed

theorem not_mem_slash_publisher (hread : ∀ lockFile ∈ context.lockFile, ∃ text,
    LockFile.ofText text = lockFile) (name : String) :
    '/' ∉ (context.providerSource name).publisher.toList := by
  unfold providerSource
  split
  · exact ProviderSource.not_mem_slash_defaultPublisher
  · next lock hlock =>
    obtain ⟨lockFile, hlockFile, hnamed⟩ := Option.bind_eq_some_iff.mp hlock
    obtain ⟨text, rfl⟩ := hread lockFile hlockFile
    exact LockFile.not_mem_slash_of_ofText (List.mem_of_find?_eq_some hnamed)

end LookupContext

/-! ## Addresses -/

namespace DocTarget

def sectionChars : Option String → List Char
  | none => []
  | some fragment => '#' :: fragment.toList

theorem toList_docsUrl (registryUrl : String) (provider : ProviderSource) (version : String)
    (reference : ResourceReference) (fragment : Option String) :
    (docsUrl registryUrl provider version reference fragment).toList =
      (registryUrl ++ "/providers/").toList ++ (provider.publisher.toList ++ '/' ::
        (provider.name.toList ++ '/' :: (version.toList ++ ("/docs/".toList ++
          (reference.kind.docsCategory.toList ++ '/' ::
            (reference.type.toList ++ sectionChars fragment)))))) := by
  cases fragment with
  | none => simp [docsUrl, sectionChars]
  | some fragment => simp [docsUrl, sectionChars]

variable {registryUrl : String} {provider otherProvider : ProviderSource}
  {version otherVersion : String} {reference other : ResourceReference}
  {fragment otherFragment : Option String}

theorem provider_eq_of_docsUrl_eq (hpublisher : '/' ∉ provider.publisher.toList)
    (hotherPublisher : '/' ∉ otherProvider.publisher.toList) (hname : '/' ∉ provider.name.toList)
    (hotherName : '/' ∉ otherProvider.name.toList)
    (h : docsUrl registryUrl provider version reference fragment =
      docsUrl registryUrl otherProvider otherVersion other otherFragment) :
    provider = otherProvider := by
  have hchars := congrArg String.toList h
  rw [toList_docsUrl, toList_docsUrl, List.append_cancel_left_eq] at hchars
  obtain ⟨hsame, hrest⟩ := eq_of_append_mark hpublisher hotherPublisher hchars
  obtain ⟨hsameName, -⟩ := eq_of_append_mark hname hotherName hrest
  cases provider
  cases otherProvider
  cases String.toList_inj.mp hsame
  cases String.toList_inj.mp hsameName
  rfl

theorem section_eq_of_append_eq {type otherType : List Char} (htype : '#' ∉ type)
    (hother : '#' ∉ otherType)
    (h : type ++ sectionChars fragment = otherType ++ sectionChars otherFragment) :
    type = otherType ∧ fragment = otherFragment := by
  cases fragment with
  | none =>
      cases otherFragment with
      | none => simpa [sectionChars] using h
      | some other =>
          rw [sectionChars, List.append_nil] at h
          simp [h, sectionChars] at htype
  | some fragment =>
      cases otherFragment with
      | none =>
          rw [sectionChars, sectionChars, List.append_nil] at h
          simp [← h] at hother
      | some other =>
          obtain ⟨hsame, hsection⟩ := eq_of_append_mark htype hother h
          exact ⟨hsame, congrArg some (String.toList_inj.mp hsection)⟩

theorem docsCategory_inj {kind other : BlockKind} (h : kind.docsCategory = other.docsCategory) :
    kind = other := by
  cases kind <;> cases other <;> first | rfl | exact absurd h (by decide)

theorem reference_eq_of_docsUrl_eq (htype : '#' ∉ reference.type.toList)
    (hother : '#' ∉ other.type.toList)
    (h : docsUrl registryUrl provider version reference fragment =
      docsUrl registryUrl provider version other otherFragment) :
    reference.kind = other.kind ∧ reference.type = other.type ∧ fragment = otherFragment := by
  have hchars := congrArg String.toList h
  simp only [toList_docsUrl, List.append_cancel_left_eq, List.cons.injEq, true_and] at hchars
  have hcategory (kind : BlockKind) : '/' ∉ kind.docsCategory.toList := by
    cases kind <;> decide
  obtain ⟨hkind, hrest⟩ := eq_of_append_mark (hcategory _) (hcategory _) hchars
  obtain ⟨hsame, hfragment⟩ := section_eq_of_append_eq htype hother hrest
  exact ⟨docsCategory_inj (String.toList_inj.mp hkind), String.toList_inj.mp hsame, hfragment⟩

end DocTarget

namespace LookupContext

variable {σ : Type} {context : LookupContext σ}

theorem not_mem_slash_name {reference : ResourceReference} (h : reference.Labelled) :
    '/' ∉ (context.providerSource reference.provider).name.toList := by
  rw [name_providerSource]
  intro hslash
  exact absurd (h.provider '/' hslash) (by decide)

/--
Two pages of declared references, each with the section of an attribute or without one, have the
same address exactly if they have the same kind, provider and type and the same section, or none.
-/
theorem resourceTarget_eq_iff (context : LookupContext σ) (steady : context.Steady)
    (hread : ∀ lockFile ∈ context.lockFile, ∃ text, LockFile.ofText text = lockFile)
    {reference other : ResourceReference}
    (hreference : ∃ line, Declaration.ofLine? line = some (.resource reference))
    (hother : ∃ line, Declaration.ofLine? line = some (.resource other))
    {place otherPlace : Option AttributeContext}
    (hplace : ∀ assigned ∈ place, ∀ c ∈ assigned.name.toList, isAttributeChar c = true)
    (hotherPlace : ∀ assigned ∈ otherPlace, ∀ c ∈ assigned.name.toList, isAttributeChar c = true)
    {first second : LookupState σ} (hfirst : context.Reached first)
    (hsecond : context.Reached second) :
    (context.resourceTarget reference (place.map (·.fragment)) first).1 =
        (context.resourceTarget other (otherPlace.map (·.fragment)) second).1 ↔
      reference.kind = other.kind ∧ reference.provider = other.provider ∧
        reference.type = other.type ∧ place = otherPlace := by
  obtain ⟨line, hline⟩ := hreference
  obtain ⟨otherLine, hotherLine⟩ := hother
  have labelled := Declaration.labelled_of_ofLine? hline
  have otherLabelled := Declaration.labelled_of_ofLine? hotherLine
  choose version hversion using providerVersion_yields steady.settled
  rw [(resourceTarget_yields (hversion reference.provider) _ first hfirst).1,
    (resourceTarget_yields (hversion other.provider) _ second hsecond).1, DocTarget.url.injEq]
  constructor
  · intro h
    have hsource := DocTarget.provider_eq_of_docsUrl_eq (not_mem_slash_publisher hread _)
      (not_mem_slash_publisher hread _) (not_mem_slash_name labelled)
      (not_mem_slash_name otherLabelled) h
    have hprovider : reference.provider = other.provider := by
      simpa only [name_providerSource] using congrArg ProviderSource.name hsource
    rw [hprovider] at h
    obtain ⟨hkind, htype, hsection⟩ := DocTarget.reference_eq_of_docsUrl_eq
      labelled.not_mem_sign otherLabelled.not_mem_sign h
    exact ⟨hkind, hprovider, htype,
      AttributeContext.eq_of_map_fragment_eq hplace hotherPlace hsection⟩
  · rintro ⟨hkind, hprovider, htype, rfl⟩
    simp only [DocTarget.docsUrl, hkind, hprovider, htype]

theorem resourceTarget_ne_of_slashes :
    let text := "provider \"corp#1/aws\" \x7b\n  version = \"5/docs/resources/disk#size\"\n\x7d\n"
    let context : LookupContext Unit :=
      ⟨.emptyAt [], some (LockFile.ofText text), "https://r.io", .high, none⟩
    let state : LookupState Unit := ⟨.empty, ()⟩
    let disk : ResourceReference := ⟨.resource, "aws", "disk", "main"⟩
    let found : ResourceReference := ⟨.dataSource, "aws", "disk", "main"⟩
    let size : AttributeContext := ⟨"size", 12⟩
    context.Steady ∧ context.Reached state ∧
      (∀ lockFile ∈ context.lockFile, ∃ text, LockFile.ofText text = lockFile) ∧
      Declaration.ofLine? "resource \"aws_disk\" \"main\" \x7b" = some (.resource disk) ∧
      Declaration.ofLine? "data \"aws_disk\" \"main\" \x7b" = some (.resource found) ∧
      (∀ c ∈ size.name.toList, isAttributeChar c = true) ∧
      (context.resourceTarget disk (some size.fragment) state).1 ≠
        (context.resourceTarget found (some size.fragment) state).1 ∧
      (context.resourceTarget disk (some size.fragment) state).1 ≠
        (context.resourceTarget disk none state).1 := by
  intro text context state disk found size
  have steady : context.Steady := by simp [Steady, context]
  have reached : context.Reached state := by simp [Reached, context]
  have hread : ∀ lockFile ∈ context.lockFile, ∃ text, LockFile.ofText text = lockFile := by
    simp [context]
  have hdisk : Declaration.ofLine? "resource \"aws_disk\" \"main\" \x7b" =
      some (.resource disk) := by
    decide
  have hfound : Declaration.ofLine? "data \"aws_disk\" \"main\" \x7b" = some (.resource found) := by
    decide
  have hsize : ∀ c ∈ size.name.toList, isAttributeChar c = true :=
    List.all_eq_true.mp (by decide)
  have hplace : ∀ assigned ∈ some size, ∀ c ∈ assigned.name.toList, isAttributeChar c = true := by
    simpa using hsize
  refine ⟨steady, reached, hread, hdisk, hfound, hsize, fun h => ?_, fun h => ?_⟩
  · obtain ⟨hkind, -⟩ := (resourceTarget_eq_iff context steady hread ⟨_, hdisk⟩ ⟨_, hfound⟩ hplace
      hplace reached reached).mp h
    cases hkind
  · have hnowhere : ∀ assigned ∈ (none : Option AttributeContext),
        ∀ c ∈ assigned.name.toList, isAttributeChar c = true := by simp
    obtain ⟨-, -, -, hsection⟩ := (resourceTarget_eq_iff context steady hread ⟨_, hdisk⟩
      ⟨_, hdisk⟩ hplace hnowhere reached reached).mp h
    cases hsection

end LookupContext

end TerraformDocs
