import TerraformDocs.LockFile.Parser
import TerraformDocs.Proofs.LockFile.Nested
import TerraformDocs.Proofs.Text.Exact
import TerraformDocs.Proofs.Text.Places

/-!
# Headers inside blocks

A provider header may stand inside the block of another provider.  The search for headers goes on
right behind each header, so it finds such a header too, and a lock file reads as its outer blocks
alone exactly if the sources of the headers inside cannot be read (`readsTopLevel_iff`).
-/

namespace TerraformDocs

open TerraformDocs.Text

namespace LockFile

/-! ## Headers -/

/-- The word `provider`, a quoted source and an opening brace, with blanks in front and between. -/
def IsHeader (start source behind : List Char) : Prop :=
  ∃ indent gap space, Blanks indent ∧ IsGap gap ∧ Blanks space ∧ source ≠ [] ∧ '"' ∉ source ∧
    indent ++ ("provider".toList ++
      (gap ++ '"' :: (source ++ '"' :: (space ++ '{' :: behind)))) = start

theorem header?_eq_some_iff {start source behind : List Char} :
    header? start = some (source, behind) ↔ IsHeader start source behind := by
  have hquote : isBlank '"' = false := by decide
  have hbrace : isBlank '{' = false := by decide
  have hword : isBlank 'p' = false := by decide
  constructor
  · intro h
    simp only [header?, Option.bind_eq_bind, Option.bind_eq_some_iff, Prod.exists,
      Option.pure_def, Option.some.injEq, Prod.mk.injEq, List.isPrefixOf?_eq_some_iff_append_eq,
      afterGap?_eq_some_iff, label?_eq_some_iff] at h
    obtain
      ⟨_, hstart, _, ⟨gap, hgap, -, rfl⟩, _, closed, ⟨hne, hsource, rfl⟩, _, hopen, rfl, rfl⟩ := h
    obtain ⟨indent, hindent, hcut⟩ := exists_blanks_append start
    obtain ⟨space, hspace, hclosed⟩ := exists_blanks_append closed
    refine ⟨indent, gap, space, hindent, hgap, hspace, hne, hsource, ?_⟩
    rw [← hcut, ← hstart, ← hclosed, ← hopen]
    rfl
  · rintro ⟨indent, gap, space, hindent, hgap, hspace, hne, hsource, rfl⟩
    have hdrop (rest : List Char) : dropBlanks (indent ++ ("provider".toList ++ rest)) =
        "provider".toList ++ rest :=
      dropBlanks_append hindent (flush_cons.mpr hword)
    simp only [header?, hdrop, List.isPrefixOf?_eq_some_iff_append_eq.mpr rfl,
      afterGap?_append hgap hquote, label?_append hne hsource,
      dropBlanks_append hspace (flush_cons.mpr hbrace), isPrefixOf?_mark,
      Option.bind_eq_bind, Option.bind_some, Option.pure_def]

theorem isHeader_eq_reads : IsHeader = headerReader.Reads := by
  funext start source behind
  exact propext header?_eq_some_iff.symm

theorem headerReader_endsWithinLine : headerReader.EndsWithinLine := by
  intro start source behind h
  rw [← isHeader_eq_reads] at h
  obtain ⟨indent, gap, space, -, -, -, -, -, rfl⟩ := h
  exact ⟨indent ++ ("provider".toList ++ (gap ++ '"' :: (source ++ '"' :: space))), '{',
    by decide, by simp⟩

abbrev Header := Place (List Char)

def HeadersOf (text : String) (headers : List Header) : Prop :=
  IsScan IsHeader (withoutComments text.toList) headers

variable {text : String} {headers : List Header}

theorem headersOf_iff :
    HeadersOf text headers ↔ IsScan headerReader.Reads (withoutComments text.toList) headers := by
  rw [HeadersOf, isHeader_eq_reads]

theorem exists_headersOf (text : String) : ∃ headers, HeadersOf text headers := by
  obtain ⟨headers, hscan, -⟩ :=
    LineReader.exists_isScan headerReader_endsWithinLine (withoutComments text.toList)
  exact ⟨headers, headersOf_iff.mpr hscan⟩

theorem HeadersOf.readings_eq (h : HeadersOf text headers) :
    headerReader.readings (withoutComments text.toList) =
      headers.map fun header => (header.item, header.behind) := by
  obtain ⟨found, hfound, hreadings⟩ :=
    LineReader.exists_isScan headerReader_endsWithinLine (withoutComments text.toList)
  rw [← hreadings, LineReader.isScan_eq (headersOf_iff.mp h) hfound]

/-! ## Blocks -/

namespace Header

def body? (header : Header) : Option (List Char) := Quoting.blockBody? 0 .outside header.behind

def lock? (header : Header) : Option ProviderLock := lockAt? (header.item, header.behind)

/-- All of the inner header, up to its brace, stands in the body of the outer one. -/
def Within (inner outer : Header) : Prop :=
  ∃ before header after, outer.body? = some (before ++ (header ++ after)) ∧
    inner.start = header ++ inner.behind ∧ outer.behind = before ++ inner.start

theorem within_iff {inner outer : Header} :
    inner.Within outer ↔ inner.behind <:+ inner.start ∧ inner.start <:+ outer.behind ∧
      ∃ body ∈ outer.body?, outer.behind.length ≤ body.length + inner.behind.length := by
  constructor
  · rintro ⟨before, header, after, hbody, hstart, hbehind⟩
    refine ⟨⟨header, hstart.symm⟩, ⟨before, hbehind.symm⟩, _, hbody, ?_⟩
    rw [hbehind, hstart]
    simp only [List.length_append]
    omega
  · rintro ⟨⟨header, hstart⟩, ⟨before, hbehind⟩, body, hbody, hlength⟩
    obtain ⟨-, -, rest, hrest⟩ := Quoting.blockBody?_eq_some_iff.mp hbody
    have hfront : before ++ header <+: outer.behind :=
      ⟨inner.behind, by rw [List.append_assoc, hstart, hbehind]⟩
    have hfrontLength : (before ++ header).length ≤ body.length := by
      rw [← hbehind, ← hstart] at hlength
      simp only [List.length_append] at hlength ⊢
      omega
    obtain ⟨after, hafter⟩ :=
      List.prefix_of_prefix_length_le hfront ⟨'}' :: rest, hrest⟩ hfrontLength
    exact ⟨before, header, after, by rw [← List.append_assoc, hafter]; exact hbody, hstart.symm,
      hbehind.symm⟩

instance (inner outer : Header) : Decidable (inner.Within outer) :=
  decidable_of_iff _ within_iff.symm

theorem lock?_eq_none_iff {header : Header} (hclosed : header.body?.isSome) :
    header.lock? = none ↔ ProviderSource.ofChars? header.item = none := by
  obtain ⟨body, hbody⟩ := Option.isSome_iff_exists.mp hclosed
  rw [body?] at hbody
  cases hsource : ProviderSource.ofChars? header.item <;> simp [lock?, lockAt?, hbody, hsource]

end Header

theorem HeadersOf.providers_eq (h : HeadersOf text headers) :
    (ofText text).providers = headers.filterMap Header.lock? := by
  rw [ofText, ofChars, h.readings_eq, List.filterMap_map]
  rfl

theorem HeadersOf.within_iff (h : HeadersOf text headers) {inner outer : Header}
    (hinner : inner ∈ headers) (houter : outer ∈ headers) :
    inner.Within outer ↔ inner.behind.length < outer.behind.length ∧
      ∃ body ∈ outer.body?, outer.behind.length ≤ body.length + inner.behind.length := by
  rw [headersOf_iff] at h
  have hlength := LineReader.length_lt_of_mem h hinner
  rw [Header.within_iff]
  constructor
  · rintro ⟨-, hsuffix, hbody⟩
    exact ⟨Nat.lt_of_lt_of_le hlength hsuffix.length_le, hbody⟩
  · rintro ⟨hlater, hbody⟩
    have hne : outer ≠ inner := by
      rintro rfl
      exact Nat.lt_irrefl _ hlater
    refine ⟨headerReader_endsWithinLine.suffix (h.sound inner hinner).2, ?_, hbody⟩
    rcases h.suffix_or_suffix houter hinner hne with hsuffix | hsuffix
    · exact hsuffix
    · have hle := hsuffix.length_le
      have hlengthOuter := LineReader.length_lt_of_mem h houter
      omega

theorem HeadersOf.forall_within_iff (h : HeadersOf text headers)
    {p : List Char × List Char → Prop} :
    (∀ inner ∈ headers, ∀ outer ∈ headers, inner.Within outer → p (inner.item, inner.behind)) ↔
      ∀ inner ∈ headerReader.readings (withoutComments text.toList),
      ∀ outer ∈ headerReader.readings (withoutComments text.toList),
        inner.2.length < outer.2.length ∧
          (∃ body ∈ Quoting.blockBody? 0 .outside outer.2,
            outer.2.length ≤ body.length + inner.2.length) → p inner := by
  simp only [h.readings_eq, List.forall_mem_map]
  exact forall₂_congr fun inner hinner => forall₂_congr fun outer houter => by
    rw [h.within_iff hinner houter, Header.body?]

/-! ## Blocks inside blocks -/

/-- The headers that stand in no other header's body. -/
def topLevel (headers : List Header) : List Header :=
  headers.filter fun header => ∀ outer ∈ headers, ¬ header.Within outer

def ReadsTopLevel (text : String) (headers : List Header) : Prop :=
  (ofText text).providers = (topLevel headers).filterMap Header.lock?

theorem filterMap_eq_filterMap_filter_iff {α β : Type} {p : α → Bool} {f : α → Option β}
    {l : List α} :
    l.filterMap f = (l.filter p).filterMap f ↔ ∀ a ∈ l, p a = false → f a = none := by
  induction l with
  | nil => simp
  | cons a l ih =>
      cases hp : p a with
      | true => cases hf : f a <;> simp [hp, hf, ih]
      | false =>
          cases hf : f a with
          | none => simp [hp, hf, ih]
          | some b =>
              have hle := ((List.filter_sublist (p := p) (l := l)).filterMap f).length_le
              have hne : (a :: l).filterMap f ≠ ((a :: l).filter p).filterMap f := by
                intro heq
                have hlength := congrArg List.length heq
                simp only [List.filterMap_cons_some hf, List.filter_cons, hp, List.length_cons,
                  Bool.false_eq_true, if_false] at hlength
                omega
              exact iff_of_false hne fun hall => by simpa [hf] using hall a (by simp) hp

theorem readsTopLevel_iff_lock? (h : HeadersOf text headers) :
    ReadsTopLevel text headers ↔
      ∀ inner ∈ headers, ∀ outer ∈ headers, inner.Within outer → inner.lock? = none := by
  rw [ReadsTopLevel, h.providers_eq, topLevel, filterMap_eq_filterMap_filter_iff]
  simp only [decide_eq_false_iff_not, not_forall, not_not]
  exact forall₂_congr fun inner _ =>
    ⟨fun hnone outer houter hwithin => hnone ⟨outer, houter, hwithin⟩,
      fun hnone ⟨outer, houter, hwithin⟩ => hnone outer houter hwithin⟩

/-- Where all blocks are closed, a text reads as its outer headers exactly if no source of a header
inside another block can be read. -/
theorem readsTopLevel_iff (hheaders : HeadersOf text headers)
    (hclosed : ∀ header ∈ headers, header.body?.isSome) :
    ReadsTopLevel text headers ↔
      ∀ inner ∈ headers, ∀ outer ∈ headers, inner.Within outer →
        ProviderSource.ofChars? inner.item = none := by
  rw [readsTopLevel_iff_lock? hheaders]
  exact forall₂_congr fun inner hinner => by rw [Header.lock?_eq_none_iff (hclosed inner hinner)]

def nestedText (source : String) : String :=
  "provider \"null\" \x7b\n  provider \"" ++ source ++
    "\" \x7b \x7d\n\x7d\nprovider \"aws\" \x7b \x7d"

theorem readsTopLevel_unreadable :
    ∃ headers, HeadersOf (nestedText "a/b/c/d") headers ∧
      (∀ header ∈ headers, header.body?.isSome) ∧ headers.length = 3 ∧
      ReadsTopLevel (nestedText "a/b/c/d") headers := by
  obtain ⟨headers, hheaders⟩ := exists_headersOf (nestedText "a/b/c/d")
  have hclosed : ∀ header ∈ headers, header.body?.isSome := by
    have hall : ∀ reading ∈ headerReader.readings (withoutComments (nestedText "a/b/c/d").toList),
        (Quoting.blockBody? 0 .outside reading.2).isSome := by decide +kernel
    rwa [hheaders.readings_eq, List.forall_mem_map] at hall
  have hlength : headers.length = 3 := by
    rw [← List.length_map, ← hheaders.readings_eq]
    decide +kernel
  refine ⟨headers, hheaders, hclosed, hlength, ?_⟩
  rw [readsTopLevel_iff hheaders hclosed,
    hheaders.forall_within_iff (p := fun reading => ProviderSource.ofChars? reading.1 = none)]
  decide +kernel

theorem not_readsTopLevel_nested :
    ∃ headers, HeadersOf (nestedText "other/aws") headers ∧
      (∀ header ∈ headers, header.body?.isSome) ∧
      ¬ ReadsTopLevel (nestedText "other/aws") headers := by
  obtain ⟨headers, hheaders⟩ := exists_headersOf (nestedText "other/aws")
  have hclosed : ∀ header ∈ headers, header.body?.isSome := by
    have hall : ∀ reading ∈
        headerReader.readings (withoutComments (nestedText "other/aws").toList),
        (Quoting.blockBody? 0 .outside reading.2).isSome := by decide +kernel
    rwa [hheaders.readings_eq, List.forall_mem_map] at hall
  refine ⟨headers, hheaders, hclosed, fun hreads => ?_⟩
  have hnone := (hheaders.forall_within_iff (p := fun reading => lockAt? reading = none)).mp
    ((readsTopLevel_iff_lock? hheaders).mp hreads)
  exact absurd hnone (by decide +kernel)

end LockFile

end TerraformDocs
