import TerraformDocs.Proofs.Text.Reading

/-!
# What recognisers accept

Each recogniser accepts exactly the texts that start with a piece of its kind, and the piece and
the rest are the only ones into which such a text can be cut.  So a grammar that puts pieces in a
row is read by running the recognisers in a row.
-/

namespace TerraformDocs.Text

/-! ## Blanks -/

def Blanks (cs : List Char) : Prop := ∀ c ∈ cs, isBlank c = true

instance : DecidablePred Blanks := fun cs =>
  decidable_of_iff (cs.all isBlank = true) List.all_eq_true

def Flush (cs : List Char) : Prop := ∀ c ∈ cs.head?, isBlank c = false

theorem Blanks.not_mem {cs : List Char} (h : Blanks cs) {c : Char} (hc : isBlank c = false) :
    c ∉ cs := by
  intro hmem
  rw [h c hmem] at hc
  cases hc

theorem isBlank_of_toNat {c : Char} (hlow : 45 ≤ c.toNat) (hhigh : c.toNat ≤ 122) :
    isBlank c = false := by
  rw [Bool.eq_false_iff]
  intro hblank
  obtain ⟨range, hmem, hfrom, hto⟩ := inRanges_iff.mp hblank
  have houtside : ∀ range ∈ blankRanges, range.2 < 45 ∨ 122 < range.1 := by decide
  have := houtside range hmem
  omega

theorem toNat_of_isLower {c : Char} (h : c.isLower = true) : 97 ≤ c.toNat ∧ c.toNat ≤ 122 := by
  obtain ⟨hfrom, hto⟩ := Bool.and_eq_true_iff.mp h
  exact ⟨of_decide_eq_true hfrom, of_decide_eq_true hto⟩

theorem Blanks.reverse {cs : List Char} (h : Blanks cs) : Blanks cs.reverse := by
  simpa [Blanks] using h

theorem flush_cons {c : Char} {cs : List Char} : Flush (c :: cs) ↔ isBlank c = false := by
  simp [Flush]

theorem flush_dropBlanks (cs : List Char) : Flush (dropBlanks cs) := by
  intro c hc
  cases hdrop : dropBlanks cs with
  | nil => simp [hdrop] at hc
  | cons d rest =>
      obtain rfl : d = c := by simpa [hdrop] using hc
      exact dropBlanks_head hdrop

theorem dropBlanks_append {front rest : List Char} (hfront : Blanks front) (hrest : Flush rest) :
    dropBlanks (front ++ rest) = rest :=
  (takeWhile_append_of_head hfront hrest).2

theorem exists_blanks_append (cs : List Char) :
    ∃ front, Blanks front ∧ front ++ dropBlanks cs = cs :=
  ⟨cs.takeWhile isBlank, fun _ => List.mem_takeWhile_imp, List.takeWhile_append_dropWhile⟩

theorem exists_append_blanks (cs : List Char) :
    ∃ back, Blanks back ∧ (dropBlanks cs.reverse).reverse ++ back = cs := by
  obtain ⟨back, hback, hcs⟩ := exists_blanks_append cs.reverse
  refine ⟨back.reverse, hback.reverse, ?_⟩
  rw [← List.reverse_append, hcs, List.reverse_reverse]

theorem exists_blanks_trimChars (cs : List Char) :
    ∃ front back, Blanks front ∧ Blanks back ∧ cs = front ++ (trimChars cs ++ back) := by
  obtain ⟨front, hfront, hcs⟩ := exists_blanks_append cs
  obtain ⟨back, hback, hrest⟩ := exists_append_blanks (dropBlanks cs)
  exact ⟨front, back, hfront, hback, by rw [trimChars, hrest, hcs]⟩

theorem Flush.append {front back : List Char} (hfront : Flush front) (hback : Flush back) :
    Flush (front ++ back) := by
  cases front with
  | nil => exact hback
  | cons c front => exact flush_cons.mpr (flush_cons.mp hfront)

theorem flush_of_forall {cs : List Char} (h : ∀ c ∈ cs, isBlank c = false) : Flush cs :=
  fun c hc => h c (List.mem_of_mem_head? hc)

theorem trimChars_append_flush {front core back : List Char} (hfront : Blanks front)
    (hback : Blanks back) (hne : core ≠ []) (hstart : Flush core) (hend : Flush core.reverse) :
    trimChars (front ++ (core ++ back)) = core := by
  have hrest : Flush (core ++ back) := by
    cases core with
    | nil => exact absurd rfl hne
    | cons c core => exact flush_cons.mpr (flush_cons.mp hstart)
  rw [trimChars, dropBlanks_append hfront hrest, List.reverse_append,
    dropBlanks_append hback.reverse hend, List.reverse_reverse]

theorem trimChars_append {front core back : List Char} (hfront : Blanks front)
    (hback : Blanks back) (hne : core ≠ []) (hcore : ∀ c ∈ core, isBlank c = false) :
    trimChars (front ++ (core ++ back)) = core :=
  trimChars_append_flush hfront hback hne (flush_of_forall hcore)
    (flush_of_forall fun c hc => hcore c (List.mem_reverse.mp hc))

theorem trimChars_blanks_append {front : List Char} (hfront : Blanks front) (cs : List Char) :
    trimChars (front ++ cs) = trimChars cs := by
  have hdrop : dropBlanks (front ++ cs) = dropBlanks cs := List.dropWhile_append_of_pos hfront
  rw [trimChars, hdrop, ← trimChars]

theorem dropBlanks_of_flush {cs : List Char} (h : Flush cs) : dropBlanks cs = cs := by
  have hnil : Blanks [] := by simp [Blanks]
  simpa using dropBlanks_append hnil h

theorem flush_trimChars (cs : List Char) : Flush (trimChars cs) := by
  obtain ⟨back, -, hdrop⟩ := exists_append_blanks (dropBlanks cs)
  rw [← trimChars] at hdrop
  intro c hc
  refine flush_dropBlanks cs c ?_
  rw [← hdrop, List.head?_append, Option.mem_def.mp hc]
  rfl

theorem trimChars_trimChars (cs : List Char) : trimChars (trimChars cs) = trimChars cs := by
  have hend : Flush (trimChars cs).reverse := by
    rw [trimChars, List.reverse_reverse]
    exact flush_dropBlanks _
  rw [trimChars, dropBlanks_of_flush (flush_trimChars cs), dropBlanks_of_flush hend,
    List.reverse_reverse]

/-! ## Pieces -/

def IsGap (cs : List Char) : Prop := cs ≠ [] ∧ Blanks cs

theorem afterGap?_eq_some_iff {cs rest : List Char} :
    afterGap? cs = some rest ↔ ∃ gap, IsGap gap ∧ Flush rest ∧ gap ++ rest = cs := by
  constructor
  · intro h
    cases cs with
    | nil => simp [afterGap?] at h
    | cons c cs =>
        rw [afterGap?] at h
        split at h
        · next hc =>
          cases h
          obtain ⟨front, hfront, hcs⟩ := exists_blanks_append cs
          refine ⟨c :: front, ⟨by simp, ?_⟩, flush_dropBlanks cs, by simp [hcs]⟩
          simpa [Blanks, hc] using hfront
        · cases h
  · rintro ⟨gap, ⟨hne, hgap⟩, hrest, rfl⟩
    cases gap with
    | nil => exact absurd rfl hne
    | cons c gap =>
        have hc : isBlank c = true := hgap c (by simp)
        have hgap' : Blanks gap := fun d hd => hgap d (by simp [hd])
        simp [afterGap?, hc, dropBlanks_append hgap' hrest]

theorem afterGap?_append {gap : List Char} (h : IsGap gap) {c : Char} (hc : isBlank c = false)
    (rest : List Char) : afterGap? (gap ++ c :: rest) = some (c :: rest) :=
  afterGap?_eq_some_iff.mpr ⟨gap, h, flush_cons.mpr hc, rfl⟩

theorem upTo?_eq_some_iff {mark : Char} {cs front rest : List Char} :
    upTo? mark cs = some (front, rest) ↔ mark ∉ front ∧ front ++ mark :: rest = cs := by
  constructor
  · intro h
    rw [upTo?] at h
    split at h
    · cases h
    · next d tail hdrop =>
      cases h
      have hhead := List.head?_dropWhile_not (· ≠ mark) cs
      rw [hdrop] at hhead
      obtain rfl : d = mark := by simpa using hhead
      refine ⟨fun hmem => ?_, ?_⟩
      · simpa using List.mem_takeWhile_imp hmem
      · rw [← hdrop]
        exact List.takeWhile_append_dropWhile
  · rintro ⟨hfront, rfl⟩
    exact upTo?_append hfront rest

theorem quoted?_eq_some_iff {cs content rest : List Char} :
    quoted? cs = some (content, rest) ↔ '"' ∉ content ∧ '"' :: (content ++ '"' :: rest) = cs := by
  constructor
  · intro h
    unfold quoted? at h
    split at h
    · obtain ⟨hquote, rfl⟩ := upTo?_eq_some_iff.mp h
      exact ⟨hquote, rfl⟩
    · cases h
  · rintro ⟨hquote, rfl⟩
    exact quoted?_append hquote rest

theorem label?_eq_some_iff {cs content rest : List Char} :
    label? cs = some (content, rest) ↔
      content ≠ [] ∧ '"' ∉ content ∧ '"' :: (content ++ '"' :: rest) = cs := by
  rw [← quoted?_eq_some_iff]
  constructor
  · intro h
    unfold label? at h
    split at h
    · next hquoted =>
      cases h
      exact ⟨by simp, hquoted⟩
    · cases h
  · rintro ⟨hne, hquoted⟩
    cases content with
    | nil => exact absurd rfl hne
    | cons c content => rw [label?, hquoted]

theorem label?_append {content : List Char} (hne : content ≠ []) (hquote : '"' ∉ content)
    (rest : List Char) : label? ('"' :: (content ++ '"' :: rest)) = some (content, rest) :=
  label?_eq_some_iff.mpr ⟨hne, hquote, rfl⟩

/-! ## Words in a text -/

theorem occurs_iff {word cs : List Char} : occurs word cs = true ↔ word <:+: cs := by
  induction cs with
  | nil => simp [occurs]
  | cons c cs ih => simp [occurs, ih, List.infix_cons_iff]

theorem before_append (word cs : List Char) :
    before word cs = cs ∨ ∃ rest, before word cs ++ (word ++ rest) = cs := by
  induction cs with
  | nil => exact .inl rfl
  | cons c cs ih =>
      rw [before]
      split
      · next hword =>
        obtain ⟨rest, hrest⟩ := List.isPrefixOf_iff_prefix.mp hword
        exact .inr ⟨rest, hrest⟩
      · rcases ih with hall | ⟨rest, hrest⟩
        · exact .inl (by rw [hall])
        · exact .inr ⟨rest, by rw [List.cons_append, hrest]⟩

theorem infix_of_append {c : Char} {word front back : List Char} (hc : c ∉ front)
    (h : c :: word <:+: front ++ back) : c :: word <:+: back := by
  induction front with
  | nil => exact h
  | cons d front ih =>
      simp only [List.mem_cons, not_or] at hc
      rcases List.infix_cons_iff.mp h with hstart | hbehind
      · exact absurd (List.cons_prefix_cons.mp hstart).1 hc.1
      · exact ih hc.2 hbehind

end TerraformDocs.Text
