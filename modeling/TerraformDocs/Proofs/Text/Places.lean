import Mathlib.Data.List.Pairwise
import Mathlib.Data.List.Sort
import TerraformDocs.Proofs.Text.Reading

/-!
# What a scan of a text finds

A scan finds the places of a text where something can be read from the start of a line.  The places
stand one behind the other, and wherever else something could be read it would start within one of
them.  A text has one scan only (`isScan_eq`), and it is what a `LineReader` finds
(`exists_isScan`).
-/

namespace TerraformDocs.Text

def EndsLine (before : List Char) : Prop := ∀ c ∈ before.getLast?, c = '\n'

/-- `start` is the rest of `cs` from the beginning of one of its lines. -/
def IsLineStart (cs start : List Char) : Prop := ∃ before, EndsLine before ∧ before ++ start = cs

theorem endsLine_concat {before : List Char} {c : Char} : EndsLine (before ++ [c]) ↔ c = '\n' := by
  simp [EndsLine]

theorem isLineStart_append {before cs : List Char} :
    IsLineStart (before ++ cs) cs ↔ EndsLine before := by
  constructor
  · rintro ⟨other, hother, h⟩
    rwa [← List.append_cancel_right h]
  · intro h
    exact ⟨before, h, rfl⟩

theorem IsLineStart.length_le {cs start : List Char} (h : IsLineStart cs start) :
    start.length ≤ cs.length := by
  obtain ⟨before, -, rfl⟩ := h
  simp

structure Place (α : Type) where
  start : List Char
  item : α
  behind : List Char

variable {α : Type}

structure IsScan (reads : List Char → α → List Char → Prop) (cs : List Char)
    (places : List (Place α)) : Prop where
  sound : ∀ place ∈ places, IsLineStart cs place.start ∧
    reads place.start place.item place.behind
  apart : places.Pairwise fun first second => second.start <:+ first.behind
  covers : ∀ start item behind, IsLineStart cs start → reads start item behind →
    ∃ place ∈ places, start <:+ place.start ∧ place.behind.length < start.length

theorem IsScan.suffix_or_suffix {reads : List Char → α → List Char → Prop} {cs : List Char}
    {places : List (Place α)} (h : IsScan reads cs places) {first second : Place α}
    (hfirst : first ∈ places) (hsecond : second ∈ places) (hne : first ≠ second) :
    second.start <:+ first.behind ∨ first.start <:+ second.behind := by
  let Apart (first second : Place α) : Prop :=
    second.start <:+ first.behind ∨ first.start <:+ second.behind
  have : Std.Symm Apart := ⟨fun first second => Or.symm⟩
  have hpairwise : places.Pairwise Apart := h.apart.imp Or.inl
  exact hpairwise.forall hfirst hsecond hne

namespace LineReader

def Reads (reader : LineReader α) (start : List Char) (item : α) (behind : List Char) : Prop :=
  reader.read start = some (item, behind)

variable {reader : LineReader α} {cs : List Char} {places others : List (Place α)}

/-! ## Uniqueness -/

theorem Reads.place_eq {first second : Place α}
    (hfirst : reader.Reads first.start first.item first.behind)
    (hsecond : reader.Reads second.start second.item second.behind)
    (h : first.start = second.start) : first = second := by
  rw [Reads, h, hsecond] at hfirst
  cases first; cases second; cases h; cases hfirst
  rfl

theorem length_lt_of_mem (h : IsScan reader.Reads cs places) {place : Place α}
    (hmem : place ∈ places) : place.behind.length < place.start.length :=
  reader.shrinks (h.sound place hmem).2

theorem length_le_of_mem (h : IsScan reader.Reads cs places) {first second : Place α}
    (hfirst : first ∈ places) (hsecond : second ∈ places)
    (hlater : second.start.length < first.start.length) :
    second.start.length ≤ first.behind.length := by
  have hlength := length_lt_of_mem h hsecond
  have hne : first ≠ second := by
    rintro rfl
    exact Nat.lt_irrefl _ hlater
  rcases h.suffix_or_suffix hfirst hsecond hne with hsuffix | hsuffix
  · exact hsuffix.length_le
  · have hle := hsuffix.length_le
    omega

-- A place of the first scan starts within one of the second, which starts within one of the first.
-- If the first two differ, the third is an earlier place, so both scans have it by induction, and
-- it overlaps the second.
theorem mem_of_isScan (h : IsScan reader.Reads cs places) (hothers : IsScan reader.Reads cs others)
    {place : Place α} (hmem : place ∈ places) : place ∈ others := by
  induction hearlier : cs.length - place.start.length using Nat.strongRecOn generalizing place with
  | ind earlier ih =>
      obtain ⟨hline, hreads⟩ := h.sound place hmem
      obtain ⟨other, hother, hsuffix, hwithin⟩ := hothers.covers _ _ _ hline hreads
      obtain ⟨hlineOther, hreadsOther⟩ := hothers.sound other hother
      by_cases hstart : place.start.length = other.start.length
      · rwa [hreads.place_eq hreadsOther (hsuffix.eq_of_length hstart)]
      · obtain ⟨around, haround, hsuffixAround, hwithinAround⟩ :=
          h.covers _ _ _ hlineOther hreadsOther
        have hlater := hsuffix.length_le
        have haroundLater := hsuffixAround.length_le
        have haroundLength := (h.sound around haround).1.length_le
        have haroundOther : around ∈ others := ih _ (by omega) haround rfl
        by_cases hsame : other.start.length = around.start.length
        · have heq := hreadsOther.place_eq (h.sound around haround).2
            (hsuffixAround.eq_of_length hsame)
          have hbehind := length_le_of_mem h (heq ▸ haround) hmem (by omega)
          omega
        · have hbehind := length_le_of_mem hothers haroundOther hother (by omega)
          omega

theorem isScan_eq (h : IsScan reader.Reads cs places) (hothers : IsScan reader.Reads cs others) :
    places = others := by
  let Earlier (first second : Place α) : Prop := second.start.length < first.start.length
  have hordered {places : List (Place α)} (h : IsScan reader.Reads cs places) :
      places.Pairwise Earlier :=
    h.apart.imp_of_mem fun hfirst _ hsuffix =>
      Nat.lt_of_le_of_lt hsuffix.length_le (length_lt_of_mem h hfirst)
  have : Std.Irrefl Earlier := ⟨fun place => Nat.lt_irrefl _⟩
  have : Std.Antisymm Earlier := ⟨fun first second hlt hgt => absurd hlt (Nat.lt_asymm hgt)⟩
  exact (hordered h).eq_of_mem_iff (hordered hothers)
    fun place => ⟨mem_of_isScan h hothers, mem_of_isScan hothers h⟩

/-! ## Existence -/

structure IsScanOfRest (reader : LineReader α) (cs rest : List Char) (places : List (Place α)) :
    Prop where
  sound : ∀ place ∈ places, place.start <:+ rest ∧ IsLineStart cs place.start ∧
    reader.Reads place.start place.item place.behind
  apart : places.Pairwise fun first second => second.start <:+ first.behind
  covers : ∀ start item behind, start <:+ rest → IsLineStart cs start →
    reader.Reads start item behind →
      ∃ place ∈ places, start <:+ place.start ∧ place.behind.length < start.length

theorem IsScanOfRest.skip {rest : List Char} {c : Char}
    (h : reader.IsScanOfRest cs rest places)
    (hnone : IsLineStart cs (c :: rest) → reader.read (c :: rest) = none) :
    reader.IsScanOfRest cs (c :: rest) places := by
  refine ⟨fun place hmem => ?_, h.apart, fun start item behind hsuffix hline hreads => ?_⟩
  · obtain ⟨hsuffix, hline, hreads⟩ := h.sound place hmem
    exact ⟨hsuffix.trans (List.suffix_cons c rest), hline, hreads⟩
  · rcases List.suffix_cons_iff.mp hsuffix with rfl | hsuffix
    · rw [Reads, hnone hline] at hreads
      cases hreads
    · exact h.covers start item behind hsuffix hline hreads

theorem IsScanOfRest.cons {start behind : List Char} {item : α}
    (h : reader.IsScanOfRest cs behind places) (hline : IsLineStart cs start)
    (hreads : reader.Reads start item behind) (hsuffix : behind <:+ start) :
    reader.IsScanOfRest cs start (⟨start, item, behind⟩ :: places) := by
  refine ⟨?_, List.pairwise_cons.mpr ⟨fun other hmem => (h.sound other hmem).1, h.apart⟩, ?_⟩
  · simp only [List.forall_mem_cons]
    refine ⟨⟨List.suffix_rfl, hline, hreads⟩, fun other hmem => ?_⟩
    obtain ⟨hother, hsound⟩ := h.sound other hmem
    exact ⟨hother.trans hsuffix, hsound⟩
  · intro later found after hlater hlineLater hreadsLater
    by_cases hwithin : behind.length < later.length
    · exact ⟨_, List.mem_cons_self, hlater, hwithin⟩
    · have hbehind := List.suffix_of_suffix_length_le hlater hsuffix (Nat.le_of_not_lt hwithin)
      obtain ⟨other, hmem, hother⟩ := h.covers later found after hbehind hlineLater hreadsLater
      exact ⟨other, List.mem_cons_of_mem _ hmem, hother⟩

def EndsWithinLine (reader : LineReader α) : Prop :=
  ∀ start item behind, reader.Reads start item behind →
    ∃ front c, c ≠ '\n' ∧ front ++ c :: behind = start

theorem EndsWithinLine.suffix (hend : reader.EndsWithinLine) {start behind : List Char} {item : α}
    (h : reader.Reads start item behind) : behind <:+ start := by
  obtain ⟨front, c, -, hstart⟩ := hend _ _ _ h
  exact ⟨front ++ [c], by simpa using hstart⟩

theorem isScanOfRest_nil (cs : List Char) : reader.IsScanOfRest cs [] [] := by
  refine ⟨by simp, .nil, fun start item behind hsuffix _ hreads => ?_⟩
  obtain rfl := List.suffix_nil.mp hsuffix
  exact absurd (reader.shrinks hreads) (Nat.not_lt_zero _)

theorem exists_isScanOfRest (hend : reader.EndsWithinLine) {before rest : List Char}
    {lineStart : Bool} (hstart : lineStart = true ↔ EndsLine before) :
    ∃ places, reader.IsScanOfRest (before ++ rest) rest places ∧
      places.map (fun place => (place.item, place.behind)) =
        reader.readingsFrom lineStart rest := by
  induction hlength : rest.length using Nat.strongRecOn
    generalizing before rest lineStart with
  | ind length ih =>
      cases hread : if lineStart then reader.read rest else none with
      | some reading =>
          obtain ⟨item, behind⟩ := reading
          obtain ⟨rfl, hreads⟩ : lineStart = true ∧ reader.Reads rest item behind := by
            cases lineStart with
            | false => cases hread
            | true => exact ⟨rfl, hread⟩
          obtain ⟨front, c, hc, hrest⟩ := hend _ _ _ hreads
          have hwithin : false = true ↔ EndsLine (before ++ (front ++ [c])) := by
            rw [← List.append_assoc, endsLine_concat]
            simp [hc]
          obtain ⟨places, hscan, hplaces⟩ :=
            ih behind.length (hlength ▸ reader.shrinks hreads) hwithin rfl
          have hcs : before ++ (front ++ [c]) ++ behind = before ++ rest := by simp [← hrest]
          rw [hcs] at hscan
          have hline : IsLineStart (before ++ rest) rest :=
            isLineStart_append.mpr (hstart.mp rfl)
          refine ⟨⟨rest, item, behind⟩ :: places, hscan.cons hline hreads (hend.suffix hreads), ?_⟩
          rw [readingsFrom_of_some reader hreads, List.map_cons, hplaces]
      | none =>
          cases rest with
          | nil => exact ⟨[], isScanOfRest_nil _, by simp⟩
          | cons c rest =>
              have hnext : decide (c = '\n') = true ↔ EndsLine (before ++ [c]) := by
                rw [endsLine_concat, decide_eq_true_iff]
              obtain ⟨places, hscan, hplaces⟩ :=
                ih rest.length (by simp [← hlength]) hnext rfl
              rw [List.append_assoc, List.singleton_append] at hscan
              refine ⟨places, hscan.skip fun hline => ?_, ?_⟩
              · rw [hstart.mpr (isLineStart_append.mp hline)] at hread
                simpa using hread
              · rw [hplaces, readingsFrom_cons_of_none reader hread]

theorem exists_isScan (hend : reader.EndsWithinLine) (cs : List Char) :
    ∃ places, IsScan reader.Reads cs places ∧
      places.map (fun place => (place.item, place.behind)) = reader.readings cs := by
  have hstart : true = true ↔ EndsLine [] := by simp [EndsLine]
  obtain ⟨places, hscan, hplaces⟩ :
      ∃ places, reader.IsScanOfRest ([] ++ cs) cs places ∧ _ = reader.readingsFrom true cs :=
    exists_isScanOfRest hend hstart
  refine ⟨places, ⟨fun place hmem => (hscan.sound place hmem).2, hscan.apart, ?_⟩, hplaces⟩
  intro start item behind hline
  have hsuffix : start <:+ cs := by
    obtain ⟨before, -, hcs⟩ := hline
    exact ⟨before, hcs⟩
  exact hscan.covers start item behind hsuffix hline

end LineReader

end TerraformDocs.Text
