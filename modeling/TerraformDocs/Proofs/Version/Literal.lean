import TerraformDocs.Proofs.Version.Spelling
import TerraformDocs.Version.Constraint

/-!
# Literals in a clause

A literal has the shape of a version: three runs of digits with points between them and, it may
be, a hyphen and a tag.  Its digits need not be ASCII digits and have no limit.  A clause has a
literal if one stands anywhere in it (`isSome_firstLiteral?_iff`), and it is the leftmost, and the
longest that starts there (`firstLiteral?_eq_some_iff`).  This is a version's spelling if nothing
before that has a digit (`firstLiteral?_spelling`).
-/

namespace TerraformDocs.Version

open TerraformDocs.Text

/-! ## Shape -/

def IsDigits (cs : List Char) : Prop := cs ≠ [] ∧ ∀ c ∈ cs, isDecimalDigit c = true

instance (cs : List Char) : Decidable (IsDigits cs) :=
  decidable_of_iff (cs ≠ [] ∧ cs.all isDecimalDigit = true)
    (and_congr_right fun _ => List.all_eq_true)

def IsLiteral (word : List Char) : Prop :=
  ∃ major minor patch prerelease, IsDigits major ∧ IsDigits minor ∧ IsDigits patch ∧
    (∀ tag ∈ prerelease, IsTag tag) ∧
      word = major ++ '.' :: (minor ++ '.' :: (patch ++ tagChars prerelease))

/-- A literal stands somewhere in the clause. -/
def NamesLiteral (clause : List Char) : Prop :=
  ∃ front word back, IsLiteral word ∧ front ++ (word ++ back) = clause

theorem IsNumeral.isDigits {digits : List Char} {value : Nat} (h : IsNumeral digits value) :
    IsDigits digits :=
  ⟨h.ne_nil, fun c hc => isDecimalDigit_of_isDigit (h.isDigit c hc)⟩

theorem IsSpelling.isLiteral {cs : List Char} {v : Version} (h : IsSpelling cs v) :
    IsLiteral cs := by
  obtain ⟨htag, major, minor, patch, hmajor, hminor, hpatch, hcs⟩ := h
  exact ⟨major, minor, patch, v.prerelease, hmajor.isDigits, hminor.isDigits, hpatch.isDigits,
    htag, hcs⟩

theorem isDecimalDigit_of_isBlank {c : Char} (h : isBlank c = true) : isDecimalDigit c = false := by
  rw [Bool.eq_false_iff]
  intro hdigit
  obtain ⟨blank, hblank, hfrom, hto⟩ := inRanges_iff.mp h
  obtain ⟨digit, hdigit, hlow, hhigh⟩ := inRanges_iff.mp hdigit
  have hapart : ∀ blank ∈ blankRanges, ∀ digit ∈ digitRanges,
      blank.2 < digit.1 ∨ digit.2 < blank.1 := by decide
  have := hapart blank hblank digit hdigit
  omega

theorem isBlank_of_isDecimalDigit {c : Char} (h : isDecimalDigit c = true) : isBlank c = false := by
  rw [Bool.eq_false_iff]
  intro hblank
  rw [isDecimalDigit_of_isBlank hblank] at h
  cases h

theorem IsLiteral.isBlank_eq_false {word : List Char} (h : IsLiteral word) :
    ∀ c ∈ word, isBlank c = false := by
  obtain ⟨major, minor, patch, prerelease, hmajor, hminor, hpatch, htag, rfl⟩ := h
  have hdigits {digits : List Char} (h : IsDigits digits) : ∀ c ∈ digits, isBlank c = false :=
    fun c hc => isBlank_of_isDecimalDigit (h.2 c hc)
  have hpoint : isBlank '.' = false := by decide
  simp only [List.forall_mem_append, List.forall_mem_cons]
  exact ⟨hdigits hmajor, hpoint, hdigits hminor, hpoint, hdigits hpatch,
    fun c hc => isBlank_of_isTagChar (isTagChar_of_mem_tagChars htag c hc)⟩

theorem IsLiteral.exists_digit {word : List Char} (h : IsLiteral word) :
    ∃ c rest, isDecimalDigit c = true ∧ word = c :: rest := by
  obtain ⟨major, minor, patch, prerelease, ⟨hne, hdigits⟩, -, -, -, rfl⟩ := h
  obtain ⟨c, major, rfl⟩ := List.exists_cons_of_ne_nil hne
  exact ⟨c, _, hdigits c List.mem_cons_self, rfl⟩

/-! ## At a place -/

theorem literalTag_eq (cs : List Char) :
    ∃ prerelease back, (∀ tag ∈ prerelease, IsTag tag) ∧ literalTag cs = tagChars prerelease ∧
      tagChars prerelease ++ back = cs := by
  unfold literalTag
  split
  · next cs =>
    split
    · exact ⟨none, _, by simp, rfl, rfl⟩
    · next hne =>
      refine ⟨some (String.ofList (cs.takeWhile isTagChar)), cs.dropWhile isTagChar, ?_, ?_, ?_⟩
      · intro tag htag
        obtain rfl := Option.mem_some_iff.mp htag
        exact ⟨by simpa using hne, fun c hc => List.mem_takeWhile_imp (by simpa using hc)⟩
      · simp [tagChars]
      · simp [tagChars]
  · exact ⟨none, _, by simp, rfl, rfl⟩

theorem literalTag_append {prerelease : Option String} (htag : ∀ tag ∈ prerelease, IsTag tag)
    {back : List Char} (hback : ∀ c ∈ back.head?, isTagChar c = false) :
    literalTag (tagChars prerelease ++ back) = tagChars prerelease := by
  cases prerelease with
  | none =>
      rw [tagChars, List.nil_append, literalTag]
      rintro cs rfl
      exact absurd (hback '-' rfl) (by decide)
  | some tag =>
      obtain ⟨hne, hchars⟩ := htag tag rfl
      rw [tagChars, List.cons_append, literalTag, (takeWhile_append_of_head hchars hback).1]
      split
      · next hnil => exact absurd hnil hne
      · rfl

theorem literalAt?_append {major minor : List Char} (hmajor : IsDigits major)
    (hminor : IsDigits minor) (cs : List Char) :
    literalAt? (major ++ '.' :: (minor ++ '.' :: cs)) =
      (run? isDecimalDigit cs).map fun (patch, back) =>
        major ++ '.' :: (minor ++ '.' :: (patch ++ literalTag back)) := by
  have hrun {digits : List Char} (h : IsDigits digits) (rest : List Char) :
      run? isDecimalDigit (digits ++ '.' :: rest) = some (digits, '.' :: rest) :=
    run?_append h.1 h.2 (by decide) rest
  cases hpatch : run? isDecimalDigit cs with
  | none => simp [literalAt?, hrun hmajor, hrun hminor, hpatch]
  | some found => simp [literalAt?, hrun hmajor, hrun hminor, hpatch]

theorem isLiteral_of_literalAt? {cs word : List Char} (h : literalAt? cs = some word) :
    IsLiteral word ∧ ∃ back, word ++ back = cs := by
  simp only [literalAt?, Option.bind_eq_bind, Option.bind_eq_some_iff, Prod.exists,
    Option.pure_def, Option.some.injEq] at h
  obtain ⟨major, _, hmajor, _, hfirst, minor, _, hminor, _, hsecond, patch, rest, hpatch, rfl⟩ := h
  obtain ⟨hmajorNe, hmajorDigits, -, rfl⟩ := run?_eq_some_iff.mp hmajor
  obtain rfl := List.isPrefixOf?_eq_some_iff_append_eq.mp hfirst
  obtain ⟨hminorNe, hminorDigits, -, rfl⟩ := run?_eq_some_iff.mp hminor
  obtain rfl := List.isPrefixOf?_eq_some_iff_append_eq.mp hsecond
  obtain ⟨hpatchNe, hpatchDigits, -, rfl⟩ := run?_eq_some_iff.mp hpatch
  obtain ⟨prerelease, back, htag, htagChars, rfl⟩ := literalTag_eq rest
  refine ⟨⟨major, minor, patch, prerelease, ⟨hmajorNe, hmajorDigits⟩, ⟨hminorNe, hminorDigits⟩,
    ⟨hpatchNe, hpatchDigits⟩, htag, ?_⟩, back, ?_⟩
  · simp [htagChars]
  · simp [htagChars]

-- What follows the literal may make it longer, but not unmake it.
theorem isSome_literalAt? {word : List Char} (h : IsLiteral word) (back : List Char) :
    (literalAt? (word ++ back)).isSome := by
  obtain ⟨major, minor, patch, prerelease, hmajor, hminor, ⟨hne, hdigits⟩, -, rfl⟩ := h
  obtain ⟨c, patch, rfl⟩ := List.exists_cons_of_ne_nil hne
  have hc : isDecimalDigit c = true := hdigits c List.mem_cons_self
  simp [literalAt?_append hmajor hminor, run?, hc]

theorem literalAt?_cons_eq_none {c : Char} (h : isDecimalDigit c = false) (cs : List Char) :
    literalAt? (c :: cs) = none := by
  simp [literalAt?, run?, h]

theorem isDecimalDigit_of_head (prerelease : Option String) {back : List Char}
    (hback : ∀ c ∈ back.head?, isDecimalDigit c = false) :
    ∀ c ∈ (tagChars prerelease ++ back).head?, isDecimalDigit c = false := by
  cases prerelease with
  | none => exact hback
  | some tag =>
      intro c hc
      obtain rfl : '-' = c := by simpa [tagChars] using hc
      decide

theorem literalAt?_literal {word back : List Char} (h : IsLiteral word)
    (hdigit : ∀ c ∈ back.head?, isDecimalDigit c = false)
    (htag : ∀ c ∈ back.head?, isTagChar c = false) : literalAt? (word ++ back) = some word := by
  obtain ⟨major, minor, patch, prerelease, hmajor, hminor, ⟨hne, hdigits⟩, hprerelease, rfl⟩ := h
  have hrun : run? isDecimalDigit (patch ++ (tagChars prerelease ++ back)) =
      some (patch, tagChars prerelease ++ back) :=
    run?_eq_some_iff.mpr ⟨hne, hdigits, isDecimalDigit_of_head prerelease hdigit, rfl⟩
  simp [literalAt?_append hmajor hminor, hrun, literalTag_append hprerelease htag]

theorem length_tagChars_le {prerelease : Option String} (htag : ∀ tag ∈ prerelease, IsTag tag)
    {cs : List Char} (h : tagChars prerelease <+: cs) :
    (tagChars prerelease).length ≤ (literalTag cs).length := by
  cases prerelease with
  | none => exact Nat.zero_le _
  | some tag =>
      obtain ⟨back, rfl⟩ := h
      obtain ⟨hne, hchars⟩ := htag tag rfl
      rw [tagChars, List.cons_append, literalTag, List.takeWhile_append_of_pos hchars]
      split
      · next hnil => exact absurd (List.append_eq_nil_iff.mp hnil).1 hne
      · simp

theorem length_le_of_literalAt? {cs word other : List Char} (h : literalAt? cs = some word)
    (hother : IsLiteral other) (hstart : other <+: cs) : other.length ≤ word.length := by
  obtain ⟨major, minor, patch, prerelease, hmajor, hminor, ⟨hne, hdigits⟩, htag, rfl⟩ := hother
  obtain ⟨back, rfl⟩ := hstart
  simp only [List.append_assoc, List.cons_append, literalAt?_append hmajor hminor,
    run?_append_members hne hdigits, Option.map_some, Option.some.injEq] at h
  -- The run of digits may go on behind the literal's own, but not if a tag follows these.
  have htail : (tagChars prerelease).length ≤
      ((tagChars prerelease ++ back).takeWhile isDecimalDigit).length +
        (literalTag ((tagChars prerelease ++ back).dropWhile isDecimalDigit)).length := by
    cases prerelease with
    | none => exact Nat.zero_le _
    | some tag =>
        have hhyphen : isDecimalDigit '-' = false := by decide
        have hread := length_tagChars_le htag (List.prefix_append _ back)
        simp only [tagChars, List.cons_append, List.takeWhile_cons, List.dropWhile_cons,
          hhyphen] at hread ⊢
        simpa using hread
  rw [← h]
  simp only [List.length_append, List.length_cons]
  omega

theorem literalAt?_eq_some_iff {cs word : List Char} :
    literalAt? cs = some word ↔ IsLiteral word ∧ word <+: cs ∧
      ∀ other, IsLiteral other → other <+: cs → other.length ≤ word.length := by
  constructor
  · intro h
    obtain ⟨hword, back, hback⟩ := isLiteral_of_literalAt? h
    exact ⟨hword, ⟨back, hback⟩, fun other => length_le_of_literalAt? h⟩
  · rintro ⟨hword, hprefix, hlongest⟩
    obtain ⟨back, rfl⟩ := hprefix
    obtain ⟨read, hread⟩ := Option.isSome_iff_exists.mp (isSome_literalAt? hword back)
    obtain ⟨hliteral, hstart⟩ := isLiteral_of_literalAt? hread
    have hle := length_le_of_literalAt? hread hword (List.prefix_append word back)
    have hge := hlongest read hliteral hstart
    have hwithin := List.prefix_of_prefix_length_le hstart (List.prefix_append word back) hge
    rw [hread, hwithin.eq_of_length (Nat.le_antisymm hge hle)]

theorem prefix_append_blanks_iff {word cs back : List Char} (hword : IsLiteral word)
    (hback : Blanks back) : word <+: cs ++ back ↔ word <+: cs := by
  constructor
  · intro h
    obtain ⟨rest, hrest⟩ := h
    rcases List.append_eq_append_iff.mp hrest with ⟨more, rfl, -⟩ | ⟨more, rfl, rfl⟩
    · exact List.prefix_append word more
    · have hnil : more = [] := by
        rw [List.eq_nil_iff_forall_not_mem]
        intro c hc
        have hblank := hback c (List.mem_append_left rest hc)
        rw [hword.isBlank_eq_false c (List.mem_append_right cs hc)] at hblank
        cases hblank
      simp [hnil]
  · exact fun h => h.trans (List.prefix_append cs back)

/-! ## The first one -/

theorem firstLiteral?_of_literalAt? {cs word : List Char} (h : literalAt? cs = some word) :
    firstLiteral? cs = some word := by
  cases cs with
  | nil => cases h
  | cons c cs => simp [firstLiteral?, h]

theorem firstLiteral?_append {front : List Char} (h : ∀ c ∈ front, isDecimalDigit c = false)
    (cs : List Char) : firstLiteral? (front ++ cs) = firstLiteral? cs := by
  induction front with
  | nil => rfl
  | cons c front ih =>
      rw [List.forall_mem_cons] at h
      rw [List.cons_append, firstLiteral?, literalAt?_cons_eq_none h.1, ih h.2]
      rfl

theorem isSome_firstLiteral?_append (front : List Char) {cs : List Char}
    (h : (firstLiteral? cs).isSome) : (firstLiteral? (front ++ cs)).isSome := by
  induction front with
  | nil => exact h
  | cons c front ih =>
      rw [List.cons_append, firstLiteral?]
      cases literalAt? (c :: (front ++ cs)) with
      | none => exact ih
      | some word => rfl

theorem isSome_firstLiteral?_iff {clause : List Char} :
    (firstLiteral? clause).isSome ↔ NamesLiteral clause := by
  constructor
  · intro h
    induction clause with
    | nil => cases h
    | cons c clause ih =>
        rw [firstLiteral?] at h
        cases hhere : literalAt? (c :: clause) with
        | some word =>
            obtain ⟨hword, back, hback⟩ := isLiteral_of_literalAt? hhere
            exact ⟨[], word, back, hword, hback⟩
        | none =>
            rw [hhere] at h
            obtain ⟨front, word, back, hword, rfl⟩ := ih h
            exact ⟨c :: front, word, back, hword, rfl⟩
  · rintro ⟨front, word, back, hword, rfl⟩
    obtain ⟨longer, hlonger⟩ := Option.isSome_iff_exists.mp (isSome_literalAt? hword back)
    exact isSome_firstLiteral?_append front
      (Option.isSome_of_eq_some (firstLiteral?_of_literalAt? hlonger))

/-! ## Leftmost and longest -/

def StandsBehind (clause front word : List Char) : Prop := IsLiteral word ∧ front ++ word <+: clause

structure IsFirstLongest (clause front word : List Char) : Prop where
  stands : StandsBehind clause front word
  first : ∀ other longer, StandsBehind clause other longer → front.length ≤ other.length
  longest : ∀ longer, StandsBehind clause front longer → longer.length ≤ word.length

theorem standsBehind_cons_iff {c d : Char} {clause front word : List Char} :
    StandsBehind (c :: clause) (d :: front) word ↔ d = c ∧ StandsBehind clause front word := by
  rw [StandsBehind, List.cons_append, List.cons_prefix_cons, StandsBehind]
  exact and_left_comm

theorem isFirstLongest_nil_iff {clause word : List Char} :
    IsFirstLongest clause [] word ↔ literalAt? clause = some word := by
  rw [literalAt?_eq_some_iff]
  constructor
  · rintro ⟨⟨hword, hprefix⟩, -, hlongest⟩
    exact ⟨hword, hprefix, fun other hother hstart => hlongest other ⟨hother, hstart⟩⟩
  · rintro ⟨hword, hprefix, hlongest⟩
    exact ⟨⟨hword, hprefix⟩, fun _ _ _ => Nat.zero_le _, fun longer h => hlongest longer h.1 h.2⟩

theorem isFirstLongest_cons_iff {c : Char} {clause front word : List Char}
    (hnone : ∀ other, ¬ StandsBehind (c :: clause) [] other) :
    IsFirstLongest (c :: clause) (c :: front) word ↔ IsFirstLongest clause front word := by
  have hcons (front word : List Char) :
      StandsBehind (c :: clause) (c :: front) word ↔ StandsBehind clause front word := by
    simp [standsBehind_cons_iff]
  constructor
  · rintro ⟨hstands, hfirst, hlongest⟩
    refine ⟨(hcons front word).mp hstands, fun other longer h => ?_, fun longer h => ?_⟩
    · exact Nat.le_of_succ_le_succ (hfirst (c :: other) longer ((hcons other longer).mpr h))
    · exact hlongest longer ((hcons front longer).mpr h)
  · rintro ⟨hstands, hfirst, hlongest⟩
    refine ⟨(hcons front word).mpr hstands, fun other longer h => ?_, fun longer h => ?_⟩
    · cases other with
      | nil => exact absurd h (hnone longer)
      | cons d other =>
          exact Nat.succ_le_succ (hfirst other longer (standsBehind_cons_iff.mp h).2)
    · exact hlongest longer ((hcons front longer).mp h)

theorem firstLiteral?_eq_some_iff {clause word : List Char} :
    firstLiteral? clause = some word ↔ ∃ front, IsFirstLongest clause front word := by
  induction clause with
  | nil =>
      constructor
      · intro h
        cases h
      · rintro ⟨front, ⟨hword, hprefix⟩, -, -⟩
        obtain ⟨c, rest, -, rfl⟩ := hword.exists_digit
        simp at hprefix
  | cons c clause ih =>
      rw [firstLiteral?]
      cases hhere : literalAt? (c :: clause) with
      | some read =>
          change some read = some word ↔ _
          rw [← hhere, ← isFirstLongest_nil_iff]
          refine ⟨fun h => ⟨[], h⟩, ?_⟩
          rintro ⟨front, h⟩
          have hread := (isFirstLongest_nil_iff.mpr hhere).stands
          obtain rfl := List.eq_nil_of_length_eq_zero (Nat.le_zero.mp (h.first [] read hread))
          exact h
      | none =>
          have hnone : ∀ other, ¬ StandsBehind (c :: clause) [] other := by
            rintro other ⟨hother, back, hback⟩
            have hsome := isSome_literalAt? hother back
            rw [List.nil_append] at hback
            rw [hback, hhere] at hsome
            cases hsome
          change firstLiteral? clause = some word ↔ _
          rw [ih]
          constructor
          · rintro ⟨front, h⟩
            exact ⟨c :: front, (isFirstLongest_cons_iff hnone).mpr h⟩
          · rintro ⟨front, h⟩
            cases front with
            | nil => exact absurd h.stands (hnone word)
            | cons d front =>
                obtain ⟨rfl, -⟩ := standsBehind_cons_iff.mp h.stands
                exact ⟨front, (isFirstLongest_cons_iff hnone).mp h⟩

/-! ## Blanks around a clause -/

theorem literalAt?_append_blanks (cs : List Char) {back : List Char} (hback : Blanks back) :
    literalAt? (cs ++ back) = literalAt? cs := by
  ext word
  rw [literalAt?_eq_some_iff, literalAt?_eq_some_iff]
  refine and_congr_right fun hword => and_congr (prefix_append_blanks_iff hword hback) ?_
  exact forall₂_congr fun other hother => by rw [prefix_append_blanks_iff hother hback]

theorem firstLiteral?_append_blanks (cs : List Char) {back : List Char} (hback : Blanks back) :
    firstLiteral? (cs ++ back) = firstLiteral? cs := by
  induction cs with
  | nil =>
      have hdigits : ∀ c ∈ back, isDecimalDigit c = false :=
        fun c hc => isDecimalDigit_of_isBlank (hback c hc)
      simpa using firstLiteral?_append hdigits []
  | cons c cs ih =>
      rw [List.cons_append, firstLiteral?, firstLiteral?, ih, ← List.cons_append,
        literalAt?_append_blanks _ hback]

theorem firstLiteral?_trimChars (cs : List Char) :
    firstLiteral? (trimChars cs) = firstLiteral? cs := by
  obtain ⟨front, back, hfront, hback, hcs⟩ := exists_blanks_trimChars cs
  have hdigits : ∀ c ∈ front, isDecimalDigit c = false :=
    fun c hc => isDecimalDigit_of_isBlank (hfront c hc)
  have hread := firstLiteral?_append hdigits (trimChars cs ++ back)
  rw [← hcs, firstLiteral?_append_blanks _ hback] at hread
  exact hread.symm

theorem firstLiteral?_spelling {front spelling back : List Char} {v : Version}
    (hfront : ∀ c ∈ front, isDecimalDigit c = false) (h : IsSpelling spelling v)
    (hback : Blanks back) : firstLiteral? (front ++ (spelling ++ back)) = some spelling := by
  have hblank : ∀ c ∈ back.head?, isBlank c = true := fun c hc => hback c (List.mem_of_mem_head? hc)
  rw [firstLiteral?_append hfront]
  refine firstLiteral?_of_literalAt? (literalAt?_literal h.isLiteral ?_ ?_)
  · intro c hc
    exact isDecimalDigit_of_isBlank (hblank c hc)
  · intro c hc
    rw [Bool.eq_false_iff]
    intro htag
    exact absurd (hblank c hc) (by simp [isBlank_of_isTagChar htag])

end TerraformDocs.Version
