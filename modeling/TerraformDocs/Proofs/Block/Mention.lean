import TerraformDocs.Block.Attribute
import TerraformDocs.Block.Cursor
import TerraformDocs.Proofs.Text.Exact

/-!
# Mentions of an attribute

A text mentions an attribute where the name stands behind a blank or a semicolon, with an equals
sign and a quote behind it.  The search for a value finds what is quoted behind the first mention
(`firstValue?_eq`).  The first mention of some lines is found line by line, as long as none of them
goes on with what another has begun (`mention?_append_feed`).
-/

namespace TerraformDocs

open TerraformDocs.Text

/-! ## Mentions -/

def afterMark? (mark : Char) (cs : List Char) : Option (List Char) :=
  [mark].isPrefixOf? (dropBlanks cs)

def openedHere? (name cs : List Char) : Option (List Char) :=
  ((name.isPrefixOf? cs).bind (afterMark? '=')).bind (afterMark? '"')

def mention? (name : List Char) : List Char → Option (List Char)
  | [] => none
  | c :: cs =>
    (if isBlank c || c = ';' then openedHere? name cs else none).or (mention? name cs)

def quotedText? (cs : List Char) : Option (List Char) := (upTo? '"' cs).map Prod.fst

theorem afterMark?_eq_some_iff {mark : Char} (hmark : isBlank mark = false) {cs rest : List Char} :
    afterMark? mark cs = some rest ↔ ∃ gap, Blanks gap ∧ gap ++ mark :: rest = cs := by
  constructor
  · intro h
    obtain ⟨gap, hgap, hcs⟩ := exists_blanks_append cs
    rw [← List.isPrefixOf?_eq_some_iff_append_eq.mp h] at hcs
    exact ⟨gap, hgap, hcs⟩
  · rintro ⟨gap, hgap, rfl⟩
    rw [afterMark?, dropBlanks_append hgap (flush_cons.mpr hmark), isPrefixOf?_mark]

theorem openedHere?_eq_some_iff {name cs rest : List Char} :
    openedHere? name cs = some rest ↔ ∃ gap space, Blanks gap ∧ Blanks space ∧
      name ++ (gap ++ '=' :: (space ++ '"' :: rest)) = cs := by
  have hequals {cs rest : List Char} : afterMark? '=' cs = some rest ↔ _ :=
    afterMark?_eq_some_iff (by decide)
  have hquote {cs rest : List Char} : afterMark? '"' cs = some rest ↔ _ :=
    afterMark?_eq_some_iff (by decide)
  simp only [openedHere?, Option.bind_eq_some_iff, List.isPrefixOf?_eq_some_iff_append_eq, hequals,
    hquote]
  constructor
  · rintro ⟨_, ⟨_, rfl, gap, hgap, rfl⟩, space, hspace, rfl⟩
    exact ⟨gap, space, hgap, hspace, rfl⟩
  · rintro ⟨gap, space, hgap, hspace, rfl⟩
    exact ⟨_, ⟨_, rfl, gap, hgap, rfl⟩, space, hspace, rfl⟩

theorem quotedText?_eq_none_iff {cs : List Char} : quotedText? cs = none ↔ '"' ∉ cs := by
  rw [quotedText?, Option.map_eq_none_iff]
  constructor
  · intro h hmem
    obtain ⟨front, rest, rfl, hfront⟩ := List.eq_append_cons_of_mem hmem
    rw [upTo?_append hfront] at h
    cases h
  · exact upTo?_eq_none

theorem quotedText?_append {content : List Char} (h : '"' ∉ content) (rest : List Char) :
    quotedText? (content ++ '"' :: rest) = some content := by
  rw [quotedText?, upTo?_append h, Option.map_some]

theorem valueHere?_eq (name cs : List Char) :
    valueHere? name cs = (openedHere? name cs).bind quotedText? := by
  have hquoted (cs : List Char) : (quoted? cs).map Prod.fst =
      (['"'].isPrefixOf? cs).bind quotedText? := by
    cases cs with
    | nil => rfl
    | cons c cs =>
        by_cases hc : c = '"'
        · subst hc
          rfl
        · have hquoted : quoted? (c :: cs) = none := by
            unfold quoted?
            split
            · next heq => exact absurd (List.cons.inj heq).1 hc
            · rfl
          simp [hquoted, List.isPrefixOf?, Ne.symm hc]
  simp only [valueHere?, openedHere?, afterMark?, Option.bind_eq_bind, Option.pure_def,
    Option.bind_assoc]
  refine Option.bind_congr fun behind _ => Option.bind_congr fun value _ => ?_
  rw [← hquoted, Option.map_eq_bind]
  rfl

/-! ## What follows a line -/

/-- The text does not go on with an assignment that the line before it has begun. -/
def Interrupts (cs : List Char) : Prop := ∀ c ∈ (dropBlanks cs).head?, c ≠ '=' ∧ c ≠ '"'

theorem isPrefixOf?_append_feed {word : List Char} (hfeed : '\n' ∉ word) (cs rest : List Char) :
    word.isPrefixOf? (cs ++ '\n' :: rest) = (word.isPrefixOf? cs).map (· ++ '\n' :: rest) := by
  induction word generalizing cs with
  | nil => rfl
  | cons c word ih =>
      simp only [List.mem_cons, not_or] at hfeed
      cases cs with
      | nil => simp [List.isPrefixOf?, Ne.symm hfeed.1]
      | cons d cs =>
          rw [List.cons_append, List.isPrefixOf?, List.isPrefixOf?, ih hfeed.2]
          split <;> rfl

theorem afterMark?_append_feed {mark : Char} {rest : List Char}
    (hrest : ∀ c ∈ (dropBlanks rest).head?, c ≠ mark) (cs : List Char) :
    afterMark? mark (cs ++ '\n' :: rest) = (afterMark? mark cs).map (· ++ '\n' :: rest) := by
  obtain ⟨front, hfront, hcs⟩ := exists_blanks_append cs
  rw [afterMark?, afterMark?]
  cases hdrop : dropBlanks cs with
  | nil =>
      have hrun : dropBlanks (cs ++ '\n' :: rest) = dropBlanks rest := by
        rw [hdrop, List.append_nil] at hcs
        rw [← hcs, dropBlanks, List.dropWhile_append_of_pos hfront]
        exact dropBlanks_feed rest
      rw [hrun]
      cases hnext : dropBlanks rest with
      | nil => rfl
      | cons c others =>
          have hne : mark ≠ c := (hrest c (by simp [hnext])).symm
          simp [List.isPrefixOf?, hne]
  | cons c others =>
      rw [hdrop] at hcs
      have hc : Flush (c :: (others ++ '\n' :: rest)) := flush_cons.mpr (dropBlanks_head hdrop)
      rw [← hcs, List.append_assoc, List.cons_append, dropBlanks_append hfront hc]
      simp only [List.isPrefixOf?]
      split <;> rfl

/-! ## The search -/

def IsAttributeName (name : List Char) : Prop := name ≠ [] ∧ ∀ c ∈ name, isAttributeChar c = true

instance : DecidablePred IsAttributeName := fun name =>
  decidable_of_iff (name ≠ [] ∧ name.all isAttributeChar = true)
    (and_congr_right fun _ => List.all_eq_true)

theorem isBlank_of_isAttributeChar {c : Char} (h : isAttributeChar c = true) :
    isBlank c = false := by
  simp only [isAttributeChar, Bool.or_eq_true, decide_eq_true_eq] at h
  rcases h with (hlower | hdigit) | rfl
  · have hrange := toNat_of_isLower hlower
    exact isBlank_of_toNat (by omega) (by omega)
  · have hrange : 48 ≤ c.toNat ∧ c.toNat ≤ 57 := Char.isDigit_iff_toNat.mp hdigit
    exact isBlank_of_toNat (by omega) (by omega)
  · decide

theorem isAttributeChar_of_isBlank {c : Char} (h : isBlank c = true) :
    isAttributeChar c = false := by
  rw [Bool.eq_false_iff]
  intro hc
  rw [isBlank_of_isAttributeChar hc] at h
  cases h

theorem mention?_append_plain {front : List Char}
    (hfront : ∀ c ∈ front, isBlank c = false ∧ c ≠ ';') (name rest : List Char) :
    mention? name (front ++ rest) = mention? name rest := by
  induction front with
  | nil => rfl
  | cons c front ih =>
      obtain ⟨hc, hothers⟩ := List.forall_mem_cons.mp hfront
      simp [mention?, hc.1, hc.2, ih hothers]

section Name

variable {name : List Char} (hname : IsAttributeName name)

include hname

theorem IsAttributeName.not_mem {c : Char} (h : isAttributeChar c = false) : c ∉ name := by
  intro hmem
  rw [hname.2 c hmem] at h
  cases h

theorem openedHere?_eq_none {cs : List Char} (h : ∀ c ∈ cs.head?, isAttributeChar c = false) :
    openedHere? name cs = none := by
  obtain ⟨first, others, rfl⟩ := List.exists_cons_of_ne_nil hname.1
  have hfirst := hname.2 first List.mem_cons_self
  cases cs with
  | nil => rfl
  | cons c cs =>
      have hne : first ≠ c := by
        rintro rfl
        rw [h first rfl] at hfirst
        cases hfirst
      simp [openedHere?, List.isPrefixOf?, hne]

theorem openedHere?_cons_eq_none {c : Char} (h : isAttributeChar c = false) (cs : List Char) :
    openedHere? name (c :: cs) = none :=
  openedHere?_eq_none hname (by simpa using h)

theorem eq_append_of_openedHere? {cs rest : List Char} (h : openedHere? name cs = some rest) :
    ∃ front, '"' ∉ front ∧ cs = front ++ '"' :: rest := by
  obtain ⟨gap, space, hgap, hspace, rfl⟩ := openedHere?_eq_some_iff.mp h
  have hquote : '"' ∉ name := hname.not_mem (by decide)
  have hquote' : '"' ∉ gap ∧ '"' ∉ space := ⟨hgap.not_mem (by decide), hspace.not_mem (by decide)⟩
  exact ⟨name ++ (gap ++ '=' :: space), by simp [hquote, hquote'], by simp⟩

theorem eq_append_of_mention? {cs rest : List Char} (h : mention? name cs = some rest) :
    ∃ front, cs = front ++ '"' :: rest := by
  induction cs with
  | nil => cases h
  | cons c cs ih =>
      rw [mention?, Option.or_eq_some_iff] at h
      rcases h with h | ⟨-, h⟩
      · split at h
        · obtain ⟨front, -, rfl⟩ := eq_append_of_openedHere? hname h
          exact ⟨c :: front, rfl⟩
        · cases h
      · obtain ⟨front, rfl⟩ := ih h
        exact ⟨c :: front, rfl⟩

-- there is one quote only from such a mention on, and a value takes two
theorem bind_mention?_eq_none {cs rest : List Char} (h : openedHere? name cs = some rest)
    (hrest : quotedText? rest = none) : (mention? name cs).bind quotedText? = none := by
  cases hmention : mention? name cs with
  | none => rfl
  | some later =>
      obtain ⟨front, hfront, rfl⟩ := eq_append_of_openedHere? hname h
      obtain ⟨other, hother⟩ := eq_append_of_mention? hname hmention
      have hcount := congrArg (List.count '"') hother
      rw [quotedText?_eq_none_iff] at hrest
      simp only [List.count_append, List.count_cons_self, List.count_eq_zero.mpr hfront,
        List.count_eq_zero.mpr hrest] at hcount
      have hlater : '"' ∉ later := List.count_eq_zero.mp (by omega)
      exact quotedText?_eq_none_iff.mpr hlater

theorem firstValue?_eq (lineStart : Bool) (cs : List Char) :
    firstValue? name lineStart cs = (if lineStart then valueHere? name cs else none).or
      ((mention? name cs).bind quotedText?) := by
  induction cs generalizing lineStart with
  | nil =>
      have hnone : openedHere? name [] = none := openedHere?_eq_none hname (by simp)
      simp [firstValue?, mention?, valueHere?_eq, hnone]
  | cons c cs ih =>
      rw [firstValue?, ih, mention?, Option.orElse_eq_orElse, Option.orElse_eq_or,
        Option.orElse_eq_or]
      congr 1
      by_cases hc : (isBlank c || c = ';') = true
      · simp only [hc, if_true]
        cases hopened : openedHere? name cs with
        | none => simp [valueHere?_eq, hopened]
        | some rest =>
            cases hrest : quotedText? rest with
            | none =>
                have hlater := bind_mention?_eq_none hname hopened hrest
                simp [valueHere?_eq, hopened, hrest, hlater]
            | some value => simp [valueHere?_eq, hopened, hrest]
      · have hfeed : c ≠ '\n' := by
          rintro rfl
          exact hc (by decide)
        simp [hc, hfeed]

theorem mention?_append_gap {gap : List Char} (hgap : IsGap gap) (rest : List Char) :
    mention? name (gap ++ rest) = (openedHere? name rest).or (mention? name rest) := by
  obtain ⟨hne, hblanks⟩ := hgap
  induction gap with
  | nil => exact absurd rfl hne
  | cons c gap ih =>
      obtain ⟨hc, hothers⟩ := List.forall_mem_cons.mp hblanks
      rw [List.cons_append, mention?, hc, Bool.true_or, if_pos rfl]
      cases gap with
      | nil => rfl
      | cons d gap =>
          have hd := isAttributeChar_of_isBlank (hothers d List.mem_cons_self)
          rw [List.cons_append, openedHere?_cons_eq_none hname hd, Option.none_or,
            ← List.cons_append, ih (by simp) hothers]

theorem openedHere?_append_feed {rest : List Char} (hrest : Interrupts rest) (cs : List Char) :
    openedHere? name (cs ++ '\n' :: rest) = (openedHere? name cs).map (· ++ '\n' :: rest) := by
  have hfeed : '\n' ∉ name := hname.not_mem (by decide)
  rw [openedHere?, openedHere?, isPrefixOf?_append_feed hfeed]
  cases name.isPrefixOf? cs with
  | none => rfl
  | some behind =>
      rw [Option.map_some, Option.bind_some, Option.bind_some,
        afterMark?_append_feed fun c hc => (hrest c hc).1]
      cases afterMark? '=' behind with
      | none => rfl
      | some value => exact afterMark?_append_feed (fun c hc => (hrest c hc).2) value

theorem mention?_append_feed {rest : List Char} (hrest : Interrupts rest) (cs : List Char) :
    mention? name (cs ++ '\n' :: rest) =
      ((mention? name cs).map (· ++ '\n' :: rest)).or (mention? name ('\n' :: rest)) := by
  induction cs with
  | nil => simp [mention?]
  | cons c cs ih =>
      rw [List.cons_append, mention?, mention?, ih, openedHere?_append_feed hname hrest,
        Option.map_or, Option.or_assoc]
      split <;> rfl

end Name

end TerraformDocs
