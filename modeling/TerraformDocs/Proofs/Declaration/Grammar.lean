import Mathlib.Data.Option.Basic
import TerraformDocs.Declaration.Recognizer
import TerraformDocs.Proofs.Text.Exact

/-!
# The grammar of declarations

A declaration is written as a keyword and its quoted labels, with blanks between them.  A line
declares something exactly if, behind its indentation, it starts in this way, and then it declares
one thing only (`ofLine?_exact`).  The provider and the type of a resource are the two parts of one
label, so they hold neither a slash nor a number sign.
-/

namespace TerraformDocs

open TerraformDocs.Text

structure ResourceReference.Labelled (reference : ResourceReference) : Prop where
  provider : ∀ c ∈ reference.provider.toList, Declaration.isProviderChar c = true
  type : ∀ c ∈ reference.type.toList, Declaration.isTypeChar c = true

/-- Labels that can stand between quotes as they are, with the type label in two parts. -/
structure ResourceReference.Writable (reference : ResourceReference) : Prop
    extends reference.Labelled where
  provider_ne : reference.provider ≠ ""
  type_ne : reference.type ≠ ""
  name_ne : reference.name ≠ ""
  name_quote : '"' ∉ reference.name.toList

namespace Declaration

/-! ## The grammar -/

inductive Written : List Char → Declaration → Prop
  | resource {reference : ResourceReference} {gap between : List Char}
      (writable : reference.Writable) (hgap : IsGap gap) (hbetween : IsGap between)
      (rest : List Char) :
      Written (reference.kind.keyword.toList ++ (gap ++ '"' ::
        ((reference.provider.toList ++ '_' :: reference.type.toList) ++ '"' ::
          (between ++ '"' :: (reference.name.toList ++ '"' :: rest))))) (.resource reference)
  | moduleCall {name : String} {gap : List Char} (hname : name ≠ "")
      (hquote : '"' ∉ name.toList) (hgap : IsGap gap) (rest : List Char) :
      Written ("module".toList ++ (gap ++ '"' :: (name.toList ++ '"' :: rest))) (.moduleCall name)

def Declares (line : String) (declaration : Declaration) : Prop :=
  ∃ indent written, Blanks indent ∧ Written written declaration ∧ indent ++ written = line.toList

/-! ## Labels -/

theorem isProviderChar_ne {c : Char} (h : isProviderChar c = true) : c ≠ '_' ∧ c ≠ '"' := by
  constructor <;> rintro rfl <;> exact absurd h (by decide)

theorem isTypeChar_ne {c : Char} (h : isTypeChar c = true) : c ≠ '"' := by
  rintro rfl
  exact absurd h (by decide)

theorem typeLabel?_eq_some_iff {label provider type : List Char} :
    typeLabel? label = some (provider, type) ↔
      provider ≠ [] ∧ type ≠ [] ∧ (∀ c ∈ provider, isProviderChar c = true) ∧
        (∀ c ∈ type, isTypeChar c = true) ∧ provider ++ '_' :: type = label := by
  simp only [typeLabel?, Option.bind_eq_bind, Option.bind_eq_some_iff, Prod.exists,
    upTo?_eq_some_iff]
  constructor
  · rintro ⟨front, rest, ⟨-, hlabel⟩, h⟩
    split at h
    · next hparts =>
      cases h
      obtain ⟨hprovider, hproviderChars, htype, htypeChars⟩ := hparts
      exact ⟨hprovider, htype, List.all_eq_true.mp hproviderChars,
        List.all_eq_true.mp htypeChars, hlabel⟩
    · cases h
  · rintro ⟨hprovider, htype, hproviderChars, htypeChars, hlabel⟩
    have hunderscore : '_' ∉ provider :=
      fun hmem => (isProviderChar_ne (hproviderChars '_' hmem)).1 rfl
    refine ⟨provider, type, ⟨hunderscore, hlabel⟩, if_pos ?_⟩
    exact ⟨hprovider, List.all_eq_true.mpr hproviderChars, htype, List.all_eq_true.mpr htypeChars⟩

theorem typeLabel?_writable {reference : ResourceReference}
    (h : reference.Writable) :
    typeLabel? (reference.provider.toList ++ '_' :: reference.type.toList) =
      some (reference.provider.toList, reference.type.toList) :=
  typeLabel?_eq_some_iff.mpr ⟨by simpa using h.provider_ne, by simpa using h.type_ne, h.provider,
    h.type, rfl⟩

/-! ## Keywords and their labels -/

theorem written_of_resourceLabels? {kind : BlockKind} {cs : List Char}
    {reference : ResourceReference} (h : resourceLabels? kind cs = some reference) :
    Written cs (.resource reference) := by
  simp only [resourceLabels?, Option.bind_eq_bind, Option.bind_eq_some_iff, Prod.exists,
    Option.pure_def, Option.some.injEq, List.isPrefixOf?_eq_some_iff_append_eq,
    afterGap?_eq_some_iff, label?_eq_some_iff, typeLabel?_eq_some_iff] at h
  obtain ⟨_, rfl, _, ⟨gap, hgap, -, rfl⟩, _, _, ⟨-, -, rfl⟩, provider, type,
    ⟨hprovider, htype, hproviderChars, htypeChars, rfl⟩, _, ⟨between, hbetween, -, rfl⟩, name, rest,
    ⟨hname, hquote, rfl⟩, rfl⟩ := h
  have writable : ResourceReference.Writable
      ⟨kind, String.ofList provider, String.ofList type, String.ofList name⟩ :=
    { provider := by simpa using hproviderChars
      type := by simpa using htypeChars
      provider_ne := by simpa using hprovider
      type_ne := by simpa using htype
      name_ne := by simpa using hname
      name_quote := by simpa using hquote }
  simpa using Written.resource writable hgap hbetween rest

theorem resourceLabels?_written {reference : ResourceReference} {gap between : List Char}
    (writable : reference.Writable) (hgap : IsGap gap) (hbetween : IsGap between)
    (rest : List Char) :
    resourceLabels? reference.kind (reference.kind.keyword.toList ++ (gap ++ '"' ::
      ((reference.provider.toList ++ '_' :: reference.type.toList) ++ '"' ::
        (between ++ '"' :: (reference.name.toList ++ '"' :: rest))))) = some reference := by
  have hquote : '"' ∉ reference.provider.toList ++ '_' :: reference.type.toList := by
    simp only [List.mem_append, List.mem_cons, not_or]
    exact ⟨fun hmem => (isProviderChar_ne (writable.provider _ hmem)).2 rfl, by decide,
      fun hmem => isTypeChar_ne (writable.type _ hmem) rfl⟩
  have hname : reference.name.toList ≠ [] := by simpa using writable.name_ne
  have hblank : isBlank '"' = false := by decide
  simp only [resourceLabels?, List.isPrefixOf?_eq_some_iff_append_eq.mpr rfl,
    afterGap?_append hgap hblank, afterGap?_append hbetween hblank, label?_append (by simp) hquote,
    typeLabel?_writable writable, label?_append hname writable.name_quote, Option.bind_eq_bind,
    Option.bind_some, Option.pure_def, String.ofList_toList]

theorem written_of_moduleLabel? {cs : List Char} {name : String}
    (h : moduleLabel? cs = some name) : Written cs (.moduleCall name) := by
  simp only [moduleLabel?, Option.bind_eq_bind, Option.bind_eq_some_iff, Prod.exists,
    Option.pure_def, Option.some.injEq, List.isPrefixOf?_eq_some_iff_append_eq,
    afterGap?_eq_some_iff, label?_eq_some_iff] at h
  obtain ⟨_, rfl, _, ⟨gap, hgap, -, rfl⟩, name, rest, ⟨hne, hquote, rfl⟩, rfl⟩ := h
  have hname : String.ofList name ≠ "" := by simpa using hne
  have hquoteName : '"' ∉ (String.ofList name).toList := by simpa using hquote
  simpa using Written.moduleCall hname hquoteName hgap rest

theorem moduleLabel?_written {name : String} {gap : List Char} (hname : name ≠ "")
    (hquote : '"' ∉ name.toList) (hgap : IsGap gap) (rest : List Char) :
    moduleLabel? ("module".toList ++ (gap ++ '"' :: (name.toList ++ '"' :: rest))) =
      some name := by
  have hne : name.toList ≠ [] := by simpa using hname
  have hblank : isBlank '"' = false := by decide
  simp only [moduleLabel?, List.isPrefixOf?_eq_some_iff_append_eq.mpr rfl,
    afterGap?_append hgap hblank, label?_append hne hquote, Option.bind_eq_bind, Option.bind_some,
    Option.pure_def, String.ofList_toList]

/-! ## Lines -/

theorem Written.flush {cs : List Char} {declaration : Declaration}
    (h : Written cs declaration) : Flush cs := by
  cases h with
  | @resource reference gap between writable hgap hbetween rest =>
      cases hkind : reference.kind <;> exact flush_cons.mpr (by decide)
  | moduleCall => exact flush_cons.mpr (by decide)

theorem resourceLabels?_eq_none {kind : BlockKind} {word : List Char} (hne : word ≠ [])
    (h : kind.keyword.toList.head? ≠ word.head?) (rest : List Char) :
    resourceLabels? kind (word ++ rest) = none := by
  rw [Option.eq_none_iff_forall_ne_some]
  intro reference hread
  simp only [resourceLabels?, Option.bind_eq_bind, Option.bind_eq_some_iff,
    List.isPrefixOf?_eq_some_iff_append_eq] at hread
  obtain ⟨behind, hword, -⟩ := hread
  cases word with
  | nil => exact hne rfl
  | cons c word =>
      have hhead := congrArg List.head? hword
      cases kind <;> exact h hhead

theorem ofLine?_of_written {line : String} {declaration : Declaration}
    (h : Written (dropBlanks line.toList) declaration) : ofLine? line = some declaration := by
  simp only [ofLine?, Option.orElse_eq_some, Option.map_eq_some_iff, Option.map_eq_none_iff]
  generalize dropBlanks line.toList = cs at h
  cases h with
  | @resource reference gap between writable hgap hbetween rest =>
      have hread := resourceLabels?_written writable hgap hbetween rest
      cases hkind : reference.kind with
      | resource =>
          rw [hkind] at hread
          exact .inl ⟨reference, hread, rfl⟩
      | dataSource =>
          rw [hkind] at hread
          exact .inr ⟨resourceLabels?_eq_none (by decide) (by decide) _,
            .inl ⟨reference, hread, rfl⟩⟩
  | moduleCall hname hquote hgap rest =>
      have hread := moduleLabel?_written hname hquote hgap rest
      exact .inr ⟨resourceLabels?_eq_none (by decide) (by decide) _,
        .inr ⟨resourceLabels?_eq_none (by decide) (by decide) _, _, hread, rfl⟩⟩

theorem ofLine?_eq_some_iff {line : String} {declaration : Declaration} :
    ofLine? line = some declaration ↔ Declares line declaration := by
  constructor
  · intro h
    obtain ⟨indent, hindent, hline⟩ := exists_blanks_append line.toList
    refine ⟨indent, _, hindent, ?_, hline⟩
    simp only [ofLine?, Option.orElse_eq_some, Option.map_eq_some_iff] at h
    rcases h with ⟨reference, h, rfl⟩ | ⟨-, ⟨reference, h, rfl⟩ | ⟨-, name, h, rfl⟩⟩
    · exact written_of_resourceLabels? h
    · exact written_of_resourceLabels? h
    · exact written_of_moduleLabel? h
  · rintro ⟨indent, written, hindent, hwritten, hline⟩
    apply ofLine?_of_written
    rwa [← hline, dropBlanks_append hindent hwritten.flush]

theorem labelled_of_ofLine? {line : String} {reference : ResourceReference}
    (h : ofLine? line = some (.resource reference)) : reference.Labelled := by
  obtain ⟨indent, written, -, hwritten, -⟩ := ofLine?_eq_some_iff.mp h
  cases hwritten with
  | resource writable => exact writable.toLabelled

theorem Declares.eq {line : String} {declaration other : Declaration}
    (h : Declares line declaration) (hother : Declares line other) : declaration = other := by
  rw [← ofLine?_eq_some_iff] at h hother
  exact Option.some.inj (h.symm.trans hother)

/-- A line is read as what it declares, it declares one thing at most, and a line that declares
nothing is read as nothing. -/
theorem ofLine?_exact (line : String) :
    (∀ declaration, ofLine? line = some declaration ↔ Declares line declaration) ∧
      (∀ declaration other, Declares line declaration → Declares line other →
        declaration = other) ∧
      (ofLine? line = none ↔ ∀ declaration, ¬ Declares line declaration) := by
  refine ⟨fun _ => ofLine?_eq_some_iff, fun _ _ => Declares.eq, ?_⟩
  simp only [Option.eq_none_iff_forall_ne_some, ne_eq, ofLine?_eq_some_iff]

theorem ofLine?_exact_indented :
    Declares "  data\t\"aws_s3_bucket\"  \"web\" \x7b"
        (.resource ⟨.dataSource, "aws", "s3_bucket", "web"⟩) ∧
      ∀ other, Declares "  data\t\"aws_s3_bucket\"  \"web\" \x7b" other →
        other = .resource ⟨.dataSource, "aws", "s3_bucket", "web"⟩ := by
  obtain ⟨hreads, hunique, -⟩ := ofLine?_exact "  data\t\"aws_s3_bucket\"  \"web\" \x7b"
  have hdeclares := (hreads (.resource ⟨.dataSource, "aws", "s3_bucket", "web"⟩)).mp
    (by decide +kernel)
  exact ⟨hdeclares, fun other hother => hunique _ _ hother hdeclares⟩

end Declaration
end TerraformDocs
