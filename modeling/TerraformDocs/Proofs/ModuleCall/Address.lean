import TerraformDocs.ModuleCall.Source
import TerraformDocs.Proofs.Text.Exact

/-!
# Registry addresses of modules

An address consists of segments with a slash between them, and may name a directory of the module
behind two slashes.  A source that is not local is read exactly if it is written in this way, with
three segments or four, and has none of the marks of a remote source (`ofString?_eq_some_iff`).
-/

namespace TerraformDocs

open TerraformDocs.Text

namespace ModuleSource

/-! ## The form of an address -/

def remoteMarks : List (List Char) := ["::".toList, "://".toList, "?".toList]

def Unmarked (cs : List Char) : Prop := ∀ mark ∈ remoteMarks, ¬ mark <:+: cs

theorem isRemote_eq_false_iff {source : List Char} : isRemote source = false ↔ Unmarked source := by
  simp [isRemote, Unmarked, remoteMarks, ← occurs_iff]

instance (cs : List Char) : Decidable (Unmarked cs) :=
  decidable_of_iff (isRemote cs = false) isRemote_eq_false_iff

/-- The address with these segments, and the directory of the module if it names one. -/
def address (segments : List String) (directory : Option (List Char)) : List Char :=
  ['/'].intercalate (segments.map String.toList) ++ directory.elim [] fun cs => '/' :: '/' :: cs

structure IsAddress (source : List Char) (segments : List String) : Prop where
  segments_ne : ∀ segment ∈ segments, segment ≠ "" ∧ '/' ∉ segment.toList
  unmarked : Unmarked source
  written : ∃ directory, address segments directory = source

theorem address_singleton (segment : String) (directory : Option (List Char)) :
    address [segment] directory =
      segment.toList ++ directory.elim [] fun cs => '/' :: '/' :: cs := by
  simp [address]

theorem address_cons (segment : String) {segments : List String} (h : segments ≠ [])
    (directory : Option (List Char)) :
    address (segment :: segments) directory =
      segment.toList ++ '/' :: address segments directory := by
  rw [address, List.map_cons, List.intercalate_cons_of_ne_nil (by simpa using h),
    List.append_assoc, List.append_assoc, List.singleton_append, ← address]

/-! ## Reading an address -/

theorem before_append_segment {segment : List Char} (h : '/' ∉ segment) (rest : List Char) :
    before ['/', '/'] (segment ++ rest) = segment ++ before ['/', '/'] rest := by
  induction segment with
  | nil => rfl
  | cons c segment ih =>
      simp only [List.mem_cons, not_or] at h
      rw [List.cons_append, before, if_neg (by simp [h.1]), ih h.2, List.cons_append]

theorem before_slash {rest : List Char} (h : rest.head? ≠ some '/') :
    before ['/', '/'] ('/' :: rest) = '/' :: before ['/', '/'] rest := by
  rw [before, if_neg]
  intro hslashes
  obtain ⟨behind, hbehind⟩ := List.isPrefixOf_iff_prefix.mp hslashes
  obtain ⟨-, rfl⟩ := List.cons.inj hbehind
  exact h rfl

theorem head?_address_ne {segments : List String} (hne : segments ≠ [])
    (h : ∀ segment ∈ segments, segment ≠ "" ∧ '/' ∉ segment.toList)
    (directory : Option (List Char)) : (address segments directory).head? ≠ some '/' := by
  obtain ⟨segment, others, rfl⟩ := List.exists_cons_of_ne_nil hne
  obtain ⟨hsegment, hslash⟩ := h segment List.mem_cons_self
  obtain ⟨c, cs, hcs⟩ := List.exists_cons_of_ne_nil (l := segment.toList) (by simpa using hsegment)
  have hc : '/' ≠ c := by
    rintro rfl
    exact hslash (by simp [hcs])
  by_cases hothers : others = []
  · subst hothers
    simpa [address_singleton, hcs] using hc.symm
  · simpa [address_cons segment hothers, hcs] using hc.symm

theorem before_address {segments : List String}
    (h : ∀ segment ∈ segments, segment ≠ "" ∧ '/' ∉ segment.toList)
    (directory : Option (List Char)) :
    before ['/', '/'] (address segments directory) =
      ['/'].intercalate (segments.map String.toList) := by
  have hend : before ['/', '/'] (directory.elim [] fun cs => '/' :: '/' :: cs) = [] := by
    cases directory <;> rfl
  induction segments with
  | nil => exact hend
  | cons segment segments ih =>
      obtain ⟨⟨-, hsegment⟩, hothers⟩ := List.forall_mem_cons.mp h
      by_cases hne : segments = []
      · subst hne
        rw [address_singleton, before_append_segment hsegment, hend]
        simp
      · rw [address_cons segment hne, before_append_segment hsegment,
          before_slash (head?_address_ne hne hothers directory), ih hothers, List.map_cons,
          List.intercalate_cons_of_ne_nil (by simpa using hne), List.append_assoc,
          List.singleton_append]

theorem exists_address (cs : List Char) :
    ∃ directory, address (((before "//".toList cs).splitOn '/').map String.ofList) directory =
      cs := by
  have hjoin : ['/'].intercalate ((((before "//".toList cs).splitOn '/').map String.ofList).map
      String.toList) = before "//".toList cs := by
    rw [List.map_map]
    simp [Function.comp_def]
  rcases before_append "//".toList cs with hall | ⟨rest, hrest⟩
  · exact ⟨none, by rw [address, hjoin, hall, Option.elim_none, List.append_nil]⟩
  · exact ⟨some rest, by rw [address, hjoin, Option.elim_some]; exact hrest⟩

theorem not_mem_of_ofSegments? {segments : List String} {found : ModuleSource}
    (h : ofSegments? segments = some found) : "" ∉ segments := by
  intro hmem
  unfold ofSegments? at h
  rw [if_pos hmem] at h
  cases h

theorem ofSegments?_ne_localPath (segments : List String) (path : Path) :
    ofSegments? segments ≠ some (localPath path) := by
  unfold ofSegments?
  grind

theorem ofSegments?_eq_public_iff {segments : List String} {publisher name provider : String} :
    ofSegments? segments = some (publicRegistry publisher name provider) ↔ "" ∉ segments ∧
      (segments = [publisher, name, provider] ∧ '.' ∉ publisher.toList ∨
        segments = [publicHost, publisher, name, provider]) := by
  unfold ofSegments?
  by_cases hempty : "" ∈ segments
  · simp [hempty]
  · rw [if_neg hempty]
    split <;> grind

theorem ofSegments?_eq_private_iff {segments : List String}
    {host publisher name provider : String} :
    ofSegments? segments = some (privateRegistry host publisher name provider) ↔
      "" ∉ segments ∧ segments = [host, publisher, name, provider] ∧ host ≠ publicHost ∧
        '.' ∈ host.toList := by
  unfold ofSegments?
  by_cases hempty : "" ∈ segments
  · simp [hempty]
  · rw [if_neg hempty]
    split <;> grind

theorem IsAddress.segments_eq {source : List Char} {segments : List String}
    (h : IsAddress source segments) (hne : segments ≠ []) :
    ((before "//".toList source).splitOn '/').map String.ofList = segments := by
  obtain ⟨directory, rfl⟩ := h.written
  have hslash : ∀ piece ∈ segments.map String.toList, '/' ∉ piece :=
    List.forall_mem_map.mpr fun segment hmem => (h.segments_ne segment hmem).2
  have hbefore : before "//".toList (address segments directory) =
      ['/'].intercalate (segments.map String.toList) := before_address h.segments_ne directory
  rw [hbefore, List.splitOn_intercalate '/' hslash (by simpa using hne), List.map_map]
  simp [Function.comp_def]

/-- Of the sources that are not local, only addresses are read, each by its segments. -/
theorem ofString?_eq_some_iff {source : String} {found : ModuleSource}
    (hlocal : isLocal (trimChars source.toList) = false) :
    ofString? source = some found ↔
      ∃ segments, IsAddress (trimChars source.toList) segments ∧
        ofSegments? segments = some found := by
  rw [ofString?]
  generalize trimChars source.toList = cs at hlocal ⊢
  simp only [hlocal, Bool.false_eq_true, if_false]
  constructor
  · intro h
    split at h
    · cases h
    · next hremote =>
      refine ⟨_, ⟨?_, isRemote_eq_false_iff.mp (by simpa using hremote), ?_⟩, h⟩
      · intro segment hsegment
        obtain ⟨piece, hpiece, rfl⟩ := List.mem_map.mp hsegment
        refine ⟨fun hempty => not_mem_of_ofSegments? h (hempty ▸ hsegment), ?_⟩
        simpa using not_mem_of_mem_splitOn hpiece
      · exact exists_address cs
  · rintro ⟨segments, haddress, hfound⟩
    have hne : segments ≠ [] := by
      rintro rfl
      cases hfound
    rw [if_neg (by simp [isRemote_eq_false_iff.mpr haddress.unmarked]), haddress.segments_eq hne,
      hfound]

/-! ## Local sources, and others -/

theorem eq_of_prefix_slash {first start : String} {rest : List Char} (hfirst : '/' ∉ first.toList)
    (hstart : '/' ∉ start.toList) (h : start.toList ++ ['/'] <+: first.toList ++ '/' :: rest) :
    first = start := by
  obtain ⟨behind, hbehind⟩ := h
  rw [List.append_assoc, List.singleton_append] at hbehind
  exact String.toList_inj.mp (eq_of_append_mark hstart hfirst hbehind).1.symm

theorem isLocal_eq_false {first : String} (hslash : '/' ∉ first.toList)
    (hfirst : first ∉ ["", ".", ".."]) (rest : List Char) :
    isLocal (first.toList ++ '/' :: rest) = false := by
  have hdots : ∀ start ∈ ["", ".", ".."], '/' ∉ start.toList := by decide
  have hwhole : ∀ start ∈ ["", ".", ".."], first.toList ++ '/' :: rest ≠ start.toList := by
    intro start hstart heq
    exact hdots start hstart (heq ▸ by simp)
  have hprefix : ∀ start ∈ ["", ".", ".."],
      ¬ start.toList ++ ['/'] <+: first.toList ++ '/' :: rest := by
    intro start hstart h
    exact hfirst (eq_of_prefix_slash hslash (hdots start hstart) h ▸ hstart)
  simp only [List.forall_mem_cons] at hwhole hprefix
  obtain ⟨-, hhere, hup, -⟩ := hwhole
  obtain ⟨hroot, hbelow, habove, -⟩ := hprefix
  simp only [isLocal, Bool.eq_false_iff, ne_eq, Bool.or_eq_true, decide_eq_true_eq, List.any_cons,
    List.any_nil, List.isPrefixOf_iff_prefix, Bool.false_eq_true, or_false, not_or]
  exact ⟨⟨hhere, hup⟩, hbelow, habove, hroot⟩

theorem isLocal_eq_false_of_ofString? {source : String} {found : ModuleSource}
    (h : ofString? source = some found) (hfound : ∀ path, found ≠ localPath path) :
    isLocal (trimChars source.toList) = false := by
  rw [Bool.eq_false_iff]
  intro hlocal
  simp only [ofString?, hlocal, if_true] at h
  exact hfound _ (Option.some.inj h).symm

theorem eq_of_ofString?_eq_localPath {source : String} {path : Path}
    (h : ofString? source = some (localPath path)) : path = ⟨trim source⟩ := by
  simp only [ofString?] at h
  split at h
  · cases h
    rfl
  · split at h
    · cases h
    · exact absurd h (ofSegments?_ne_localPath _ path)

/-! ## Addresses with their parts -/

/-- A part of an address from which nothing else can be read. -/
def IsPart (part : String) : Prop :=
  part ≠ "" ∧ ∀ c ∈ part.toList, c ∉ ['/', '?', ':'] ∧ isBlank c = false

instance (part : String) : Decidable (IsPart part) :=
  haveI := List.decidableBAll (fun c => c ∉ ['/', '?', ':'] ∧ isBlank c = false) part.toList
  instDecidableAnd

/-- The hosts of Git repositories that a source can name without saying that Git is meant. -/
def gitHosts : List String := ["github.com", "bitbucket.org"]

structure IsPrivateHost (host : String) : Prop where
  part : IsPart host
  dotted : '.' ∈ host.toList
  other : host ∉ [".", "..", publicHost]
  not_git : host ∉ gitHosts

theorem Unmarked.append {front back : List Char} (hcolon : ':' ∉ front) (hquery : '?' ∉ front)
    (hback : Unmarked back) : Unmarked (front ++ back) := by
  intro mark hmark hoccurs
  refine hback mark hmark ?_
  simp only [remoteMarks, List.mem_cons, List.not_mem_nil, or_false] at hmark
  rcases hmark with rfl | rfl | rfl
  · exact infix_of_append hcolon hoccurs
  · exact infix_of_append hcolon hoccurs
  · exact infix_of_append hquery hoccurs

theorem Unmarked.mono {front cs : List Char} (h : Unmarked cs) (hfront : front <+: cs) :
    Unmarked front :=
  fun mark hmark hoccurs => h mark hmark (List.IsInfix.trans hoccurs hfront.isInfix)

theorem of_mem_segments {segments : List String} (h : ∀ part ∈ segments, IsPart part) {c : Char}
    (hc : c ∈ ['/'].intercalate (segments.map String.toList)) :
    c ∉ ['?', ':'] ∧ isBlank c = false := by
  rcases mem_intercalate hc with rfl | ⟨piece, hpiece, hmem⟩
  · decide
  · obtain ⟨part, hpart, rfl⟩ := List.mem_map.mp hpiece
    obtain ⟨hmarks, hblank⟩ := (h part hpart).2 c hmem
    exact ⟨fun hmark => hmarks (List.mem_cons_of_mem _ hmark), hblank⟩

theorem unmarked_address {segments : List String} (h : ∀ part ∈ segments, IsPart part)
    {directory : Option (List Char)} (hdirectory : ∀ cs ∈ directory, Unmarked cs) :
    Unmarked (address segments directory) := by
  have hcolon : ':' ∉ ['/'].intercalate (segments.map String.toList) :=
    fun hmem => (of_mem_segments h hmem).1 (by simp)
  have hquery : '?' ∉ ['/'].intercalate (segments.map String.toList) :=
    fun hmem => (of_mem_segments h hmem).1 (by simp)
  refine .append hcolon hquery ?_
  cases directory with
  | none => exact fun mark hmark => by revert mark; decide
  | some cs =>
      have hcs : Unmarked (['/', '/'] ++ cs) := .append (by decide) (by decide) (hdirectory cs rfl)
      exact hcs

theorem exists_trimChars_address {segments : List String} (hne : segments ≠ [])
    (h : ∀ part ∈ segments, IsPart part) (directory : Option (List Char))
    {front back : List Char} (hfront : Blanks front) (hback : Blanks back) :
    ∃ other : Option (List Char), (∀ cs ∈ other, ∃ whole ∈ directory, cs <+: whole) ∧
      trimChars (front ++ (address segments directory ++ back)) = address segments other := by
  have hjoin : ['/'].intercalate (segments.map String.toList) ≠ [] := by
    obtain ⟨first, others, rfl⟩ := List.exists_cons_of_ne_nil hne
    exact intercalate_ne_nil (by simpa using (h first List.mem_cons_self).1) _
  have hblank : ∀ c ∈ ['/'].intercalate (segments.map String.toList), isBlank c = false :=
    fun c hc => (of_mem_segments h hc).2
  cases directory with
  | none =>
      refine ⟨none, by simp, ?_⟩
      rw [address, Option.elim_none, List.append_nil, trimChars_append hfront hback hjoin hblank]
  | some cs =>
      obtain ⟨blanks, hblanks, hcs⟩ := exists_append_blanks cs
      have hkept := flush_dropBlanks cs.reverse
      refine ⟨some (dropBlanks cs.reverse).reverse, by simpa using ⟨blanks, hcs⟩, ?_⟩
      have hcut : address segments (some cs) =
          address segments (some (dropBlanks cs.reverse).reverse) ++ blanks := by
        simp [address, hcs]
      have hends : Blanks (blanks ++ back) := List.forall_mem_append.mpr ⟨hblanks, hback⟩
      have hmark : Flush ['/', '/'] := flush_cons.mpr (by decide)
      rw [hcut, List.append_assoc]
      refine trimChars_append_flush hfront hends (by simp [address]) ?_ ?_
      · obtain ⟨c, cs, hcs⟩ := List.exists_cons_of_ne_nil hjoin
        rw [address, hcs]
        exact flush_cons.mpr (hblank c (by simp [hcs]))
      · simpa [address] using hkept.append (hmark.append (flush_of_forall fun c hc =>
          hblank c (List.mem_reverse.mp hc)))

theorem ofString?_address {first : String} {segments : List String} (hne : segments ≠ [])
    (h : ∀ part ∈ first :: segments, IsPart part) (hfirst : first ∉ [".", ".."])
    {directory : Option (List Char)} (hdirectory : ∀ cs ∈ directory, Unmarked cs)
    {front back : List Char} (hfront : Blanks front) (hback : Blanks back) {found : ModuleSource}
    (hfound : ofSegments? (first :: segments) = some found) :
    ofString? (String.ofList (front ++ (address (first :: segments) directory ++ back))) =
      some found := by
  obtain ⟨other, hother, htrim⟩ :=
    exists_trimChars_address (List.cons_ne_nil first segments) h directory hfront hback
  have hsegments : ∀ segment ∈ first :: segments, segment ≠ "" ∧ '/' ∉ segment.toList :=
    fun segment hmem =>
      ⟨(h segment hmem).1, fun hslash => ((h segment hmem).2 '/' hslash).1 (by simp)⟩
  have hlocal : isLocal (address (first :: segments) other) = false := by
    rw [address_cons first hne]
    obtain ⟨hfirstNe, hslash⟩ := hsegments first List.mem_cons_self
    exact isLocal_eq_false hslash (by simpa [hfirstNe] using hfirst) _
  have hunmarked : Unmarked (address (first :: segments) other) := by
    refine unmarked_address h fun cs hcs => ?_
    obtain ⟨whole, hwhole, hcut⟩ := hother cs hcs
    exact (hdirectory whole hwhole).mono hcut
  have htext : trimChars (String.ofList
      (front ++ (address (first :: segments) directory ++ back))).toList =
      address (first :: segments) other := by
    rw [String.toList_ofList, htrim]
  rw [ofString?_eq_some_iff (by rwa [htext]), htext]
  exact ⟨first :: segments, ⟨hsegments, hunmarked, other, rfl⟩, hfound⟩

/--
Addresses with three parts or with the public host in front lead to the public registry, and those
with another host in front to the private one there; blanks around the address and a directory
behind it make no difference.  And nothing else leads to a registry than such an address.
-/
theorem ofString?_registry {publisher name provider host : String}
    {directory : Option (List Char)} {front back : List Char}
    (hparts : ∀ part ∈ [publisher, name, provider], IsPart part)
    (hpublisher : '.' ∉ publisher.toList) (hhost : IsPrivateHost host)
    (hdirectory : ∀ cs ∈ directory, Unmarked cs) (hfront : Blanks front) (hback : Blanks back) :
    (∀ segments ∈ [[publisher, name, provider], [publicHost, publisher, name, provider]],
      ofString? (String.ofList (front ++ (address segments directory ++ back))) =
        some (publicRegistry publisher name provider)) ∧
    ofString? (String.ofList
        (front ++ (address [host, publisher, name, provider] directory ++ back))) =
      some (privateRegistry host publisher name provider) ∧
    (∀ source publisher name provider,
      ofString? source = some (publicRegistry publisher name provider) →
        IsAddress (trimChars source.toList) [publisher, name, provider] ∨
          IsAddress (trimChars source.toList) [publicHost, publisher, name, provider]) ∧
    ∀ source host publisher name provider,
      ofString? source = some (privateRegistry host publisher name provider) →
        IsAddress (trimChars source.toList) [host, publisher, name, provider] := by
  have hempty {segments : List String} (h : ∀ part ∈ segments, IsPart part) : "" ∉ segments :=
    fun hmem => (h "" hmem).1 rfl
  have hdotless : publisher ∉ [".", ".."] := by
    intro hmem
    have hdots : ∀ dots ∈ [".", ".."], '.' ∈ dots.toList := by decide
    exact hpublisher (hdots publisher hmem)
  have hpublic : ∀ part ∈ [publicHost, publisher, name, provider], IsPart part :=
    List.forall_mem_cons.mpr ⟨by decide +kernel, hparts⟩
  have hprivate : ∀ part ∈ [host, publisher, name, provider], IsPart part :=
    List.forall_mem_cons.mpr ⟨hhost.part, hparts⟩
  obtain ⟨hhere, hup, hother⟩ := by simpa using hhost.other
  refine ⟨List.forall_mem_cons.mpr ⟨?_, List.forall_mem_singleton.mpr ?_⟩, ?_, ?_, ?_⟩
  · exact ofString?_address (by simp) hparts hdotless hdirectory hfront hback
      (ofSegments?_eq_public_iff.mpr ⟨hempty hparts, .inl ⟨rfl, hpublisher⟩⟩)
  · exact ofString?_address (by simp) hpublic (by decide) hdirectory hfront hback
      (ofSegments?_eq_public_iff.mpr ⟨hempty hpublic, .inr rfl⟩)
  · exact ofString?_address (by simp) hprivate (by simp [hhere, hup]) hdirectory hfront hback
      (ofSegments?_eq_private_iff.mpr ⟨hempty hprivate, rfl, hother, hhost.dotted⟩)
  · intro source publisher name provider h
    have hlocal := isLocal_eq_false_of_ofString? h (by simp)
    obtain ⟨segments, haddress, hsegments⟩ := (ofString?_eq_some_iff hlocal).mp h
    obtain ⟨-, ⟨rfl, -⟩ | rfl⟩ := ofSegments?_eq_public_iff.mp hsegments
    · exact .inl haddress
    · exact .inr haddress
  · intro source host publisher name provider h
    have hlocal := isLocal_eq_false_of_ofString? h (by simp)
    obtain ⟨segments, haddress, hsegments⟩ := (ofString?_eq_some_iff hlocal).mp h
    obtain ⟨-, rfl, -⟩ := ofSegments?_eq_private_iff.mp hsegments
    exact haddress

theorem ofString?_registry_padded :
    let directory := some "./a.b/c/d//e\t".toList
    (∀ part ∈ ["acme", "consul.io", "aws"], IsPart part) ∧ '.' ∉ "acme".toList ∧
      IsPrivateHost "app.terraform.io" ∧ (∀ cs ∈ directory, Unmarked cs) ∧
      Blanks "\n ".toList ∧ Blanks "\u00a0".toList ∧
      ofString? "\n acme/consul.io/aws//./a.b/c/d//e\t\u00a0" =
        some (publicRegistry "acme" "consul.io" "aws") ∧
      ofString? "\n app.terraform.io/acme/consul.io/aws//./a.b/c/d//e\t\u00a0" =
        some (privateRegistry "app.terraform.io" "acme" "consul.io" "aws") ∧
      IsAddress "app.terraform.io/acme/consul.io/aws//./a.b/c/d//e".toList
        ["app.terraform.io", "acme", "consul.io", "aws"] := by
  intro directory
  have hparts : ∀ part ∈ ["acme", "consul.io", "aws"], IsPart part := by decide +kernel
  have hpublisher : '.' ∉ "acme".toList := by decide
  have hhost : IsPrivateHost "app.terraform.io" :=
    ⟨by decide +kernel, by decide +kernel, by decide +kernel, by decide +kernel⟩
  have hdirectory : ∀ cs ∈ directory, Unmarked cs := by decide +kernel
  have hfront : Blanks "\n ".toList := by decide +kernel
  have hback : Blanks "\u00a0".toList := by decide +kernel
  obtain ⟨hpublic, hprivate, -, haddress⟩ :=
    ofString?_registry hparts hpublisher hhost hdirectory hfront hback
  have hread : ofString? "\n app.terraform.io/acme/consul.io/aws//./a.b/c/d//e\t\u00a0" =
      some (privateRegistry "app.terraform.io" "acme" "consul.io" "aws") := by
    rw [← hprivate]
    decide +kernel
  refine ⟨hparts, hpublisher, hhost, hdirectory, hfront, hback, ?_, hread, ?_⟩
  · rw [← hpublic _ List.mem_cons_self]
    decide +kernel
  · convert haddress _ _ _ _ _ hread using 1
    decide +kernel

end ModuleSource

end TerraformDocs
