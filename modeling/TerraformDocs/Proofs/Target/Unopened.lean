import Mathlib.Data.List.Infix
import Mathlib.Order.Bounds.Basic
import Mathlib.Order.Nat
import TerraformDocs.Proofs.Block.Mention
import TerraformDocs.Proofs.Block.OwnText
import TerraformDocs.Target.Lookup

/-!
# Declarations without a block

A module call whose block is not opened before the next declaration has nothing of its own to be
read.  But the search for its attributes goes on to the first opening brace, and so it reads the
block of the next declaration (`blockText_eq_of_isLeast`).  Nothing is found exactly if that block
does not assign a quoted text to anything (`unopened_moduleCall_finds_nothing_iff`).
-/

namespace TerraformDocs

open TerraformDocs.Text

/-! ## Texts that assign nothing -/

def AssignsQuoted (cs : List Char) : Prop :=
  ∃ front gap value rest, Blanks gap ∧ '"' ∉ value ∧
    front ++ '=' :: (gap ++ '"' :: (value ++ '"' :: rest)) = cs

instance : DecidablePred AssignsQuoted := fun cs =>
  decidable_of_iff
    (∃ tail ∈ cs.tails, (((['='].isPrefixOf? tail).map dropBlanks).bind quoted?).isSome) <| by
    simp only [List.mem_tails, Option.isSome_iff_exists, Option.bind_eq_some_iff,
      Option.map_eq_some_iff, Prod.exists, quoted?_eq_some_iff,
      List.isPrefixOf?_eq_some_iff_append_eq]
    constructor
    · rintro ⟨_, ⟨front, rfl⟩, value, rest, _, ⟨behind, rfl, hbehind⟩, hvalue, hquoted⟩
      obtain ⟨gap, hgap, hcut⟩ := exists_blanks_append behind
      refine ⟨front, gap, value, rest, hgap, hvalue, ?_⟩
      rw [hquoted, ← hbehind, hcut]
      rfl
    · rintro ⟨front, gap, value, rest, hgap, hvalue, rfl⟩
      have hquote : Flush ('"' :: (value ++ '"' :: rest)) := flush_cons.mpr (by decide)
      exact ⟨_, ⟨front, rfl⟩, value, rest, _, ⟨_, rfl, dropBlanks_append hgap hquote⟩, hvalue, rfl⟩

theorem valueHere?_eq_some_iff {name cs value : List Char} :
    valueHere? name cs = some value ↔ ∃ space gap rest, Blanks space ∧ Blanks gap ∧
      '"' ∉ value ∧ name ++ (space ++ '=' :: (gap ++ '"' :: (value ++ '"' :: rest))) = cs := by
  rw [valueHere?_eq, Option.bind_eq_some_iff]
  simp only [openedHere?_eq_some_iff, quotedText?, Option.map_eq_some_iff, Prod.exists,
    exists_and_right, exists_eq_right, upTo?_eq_some_iff]
  constructor
  · rintro ⟨_, ⟨space, gap, hspace, hgap, rfl⟩, rest, hvalue, rfl⟩
    exact ⟨space, gap, rest, hspace, hgap, hvalue, rfl⟩
  · rintro ⟨space, gap, rest, hspace, hgap, hvalue, rfl⟩
    exact ⟨_, ⟨space, gap, hspace, hgap, rfl⟩, rest, hvalue, rfl⟩

theorem AssignsQuoted.append {cs : List Char} (h : AssignsQuoted cs) (front : List Char) :
    AssignsQuoted (front ++ cs) := by
  obtain ⟨before, gap, value, rest, hgap, hvalue, rfl⟩ := h
  exact ⟨front ++ before, gap, value, rest, hgap, hvalue, List.append_assoc _ _ _⟩

theorem assignsQuoted_of_valueHere? {name cs value : List Char}
    (h : valueHere? name cs = some value) : AssignsQuoted cs := by
  obtain ⟨space, gap, rest, -, hgap, hvalue, rfl⟩ := valueHere?_eq_some_iff.mp h
  exact ⟨name ++ space, gap, value, rest, hgap, hvalue, List.append_assoc _ _ _⟩

theorem assignsQuoted_of_firstValue? {name cs value : List Char} {lineStart : Bool}
    (h : firstValue? name lineStart cs = some value) : AssignsQuoted cs := by
  induction cs generalizing lineStart with
  | nil => cases h
  | cons c cs ih =>
      simp only [firstValue?, Option.orElse_eq_orElse, Option.orElse_eq_or,
        Option.or_eq_some_iff] at h
      rcases h with h | ⟨-, h | ⟨-, h⟩⟩
      · split at h
        · exact assignsQuoted_of_valueHere? h
        · cases h
      · split at h
        · exact (assignsQuoted_of_valueHere? h).append [c]
        · cases h
      · exact (ih h).append [c]

theorem forall_firstValue?_eq_none_iff {cs : List Char} :
    (∀ name, firstValue? name true cs = none) ↔ ¬ AssignsQuoted cs := by
  constructor
  · rintro h ⟨front, gap, value, rest, hgap, hvalue, rfl⟩
    -- any text is a name here, and so all that stands before the equals sign is one
    have hhere : valueHere? front (front ++ '=' :: (gap ++ '"' :: (value ++ '"' :: rest))) =
        some value :=
      valueHere?_eq_some_iff.mpr ⟨[], gap, rest, by simp [Blanks], hgap, hvalue, rfl⟩
    have hfound := h front
    cases hcs : front ++ '=' :: (gap ++ '"' :: (value ++ '"' :: rest)) with
    | nil => simp at hcs
    | cons c cs =>
        rw [hcs] at hhere hfound
        simp [firstValue?, hhere] at hfound
  · intro h name
    cases hfound : firstValue? name true cs with
    | none => rfl
    | some value => exact absurd (assignsQuoted_of_firstValue? hfound) h

/-! ## Lines before the opening brace -/

namespace Document

variable {document : Document} {line next : Nat}

def declaredBelow (document : Document) (line : Nat) : Set Nat :=
  {later | line < later ∧ ((document.line? later).bind Declaration.ofLine?).isSome}

/-- No brace is opened from `line` on, up to the next line that declares something. -/
def Unopened (document : Document) (line : Nat) : Prop :=
  ∀ index text, line ≤ index → (∀ later ∈ document.declaredBelow line, index < later) →
    document.line? index = some text → '{' ∉ text.toList

instance : DecidablePred (· ∈ document.declaredBelow line) := fun later =>
  inferInstanceAs (Decidable (line < later ∧
    ((document.line? later).bind Declaration.ofLine?).isSome))

theorem isLeast_declaredBelow_iff : IsLeast (document.declaredBelow line) next ↔
    next ∈ document.declaredBelow line ∧ ∀ later < next, later ∉ document.declaredBelow line := by
  constructor
  · rintro ⟨hnext, hleast⟩
    exact ⟨hnext, fun later hlt hlater => absurd (hleast hlater) (Nat.not_le_of_lt hlt)⟩
  · rintro ⟨hnext, hbefore⟩
    exact ⟨hnext, fun later hlater => Nat.le_of_not_lt fun hlt => hbefore later hlt hlater⟩

instance : Decidable (IsLeast (document.declaredBelow line) next) :=
  decidable_of_iff _ isLeast_declaredBelow_iff.symm

-- only the lines of the document need to be looked at, since a line exists if it has a text
instance : Decidable (document.Unopened line) :=
  decidable_of_iff (∀ index < document.lineCount, line ≤ index →
      (∀ later < document.lineCount, later ∈ document.declaredBelow line → index < later) →
        '{' ∉ ((document.line? index).getD "").toList) <| by
    constructor
    · intro h index text hle hbelow htext
      have hindex : index < document.lineCount := (List.getElem?_eq_some_iff.mp htext).1
      simpa [htext] using h index hindex hle fun later _ hlater => hbelow later hlater
    · intro h index hindex hle hbelow
      have htext : document.line? index = some document.lines[index] :=
        List.getElem?_eq_getElem hindex
      rw [htext]
      refine h index _ hle (fun later hlater => ?_) htext
      obtain ⟨declaration, hdeclares⟩ := Option.isSome_iff_exists.mp hlater.2
      obtain ⟨own, hown, -⟩ := Option.bind_eq_some_iff.mp hdeclares
      exact hbelow later (List.getElem?_eq_some_iff.mp hown).1 hlater

theorem blockText_skip (hle : line ≤ next)
    (h : ∀ index text, line ≤ index → index < next → document.line? index = some text →
      '{' ∉ text.toList) :
    document.blockText line = document.blockText next := by
  have hcut : document.lines.drop line =
      (document.lines.drop line).take (next - line) ++ document.lines.drop next := by
    rw [← Nat.add_sub_cancel' hle, ← List.drop_drop, Nat.add_sub_cancel_left,
      List.take_append_drop]
  rw [blockText, hcut, List.map_append, BlockState.ownLines_unopened, blockText]
  intro text htext
  obtain ⟨own, hown, rfl⟩ := List.mem_map.mp htext
  obtain ⟨offset, hoffset⟩ := List.mem_iff_getElem?.mp hown
  rw [List.getElem?_take] at hoffset
  split at hoffset
  · next hlt =>
    rw [List.getElem?_drop] at hoffset
    exact h (line + offset) own (Nat.le_add_right _ _) (by omega) hoffset
  · cases hoffset

theorem blockText_eq_of_isLeast (hunopened : document.Unopened line)
    (hnext : IsLeast (document.declaredBelow line) next) :
    document.blockText line = document.blockText next := by
  refine blockText_skip hnext.1.1.le fun index text hindex hlt htext => ?_
  exact hunopened index text hindex (fun later hlater => hlt.trans_le (hnext.2 hlater)) htext

theorem blockText_eq_nil (hunopened : document.Unopened line)
    (hlast : document.declaredBelow line = ∅) : document.blockText line = [] := by
  by_cases hle : line ≤ document.lineCount
  · rw [blockText_skip hle fun index text hindex _ htext =>
      hunopened index text hindex (by simp [hlast]) htext]
    simp [blockText, lineCount]
  · rw [blockText, List.drop_eq_nil_of_le (Nat.le_of_not_le hle)]
    rfl

theorem forall_blockAttribute?_eq_none_iff :
    (∀ name, document.blockAttribute? line name = none) ↔
      ¬ AssignsQuoted (document.blockText line) := by
  rw [← forall_firstValue?_eq_none_iff]
  constructor
  · intro h name
    simpa [blockAttribute?] using h (String.ofList name)
  · intro h name
    rw [blockAttribute?, h, Option.map_none]

end Document

/-! ## Links -/

theorem mem_fst_mapM {α β τ : Type} {run : α → StateM τ β} {items : List α} {state : τ} {value : β}
    (h : value ∈ (items.mapM run state).1) :
    ∃ item ∈ items, ∃ before, (run item before).1 = value := by
  induction items generalizing state with
  | nil => cases h
  | cons item items ih =>
      rw [List.mapM_cons] at h
      change value ∈ (run item state).1 :: (items.mapM run (run item state).2).1 at h
      rcases List.mem_cons.mp h with rfl | hmem
      · exact ⟨item, List.mem_cons_self, state, rfl⟩
      · obtain ⟨other, hother, before, hvalue⟩ := ih hmem
        exact ⟨other, List.mem_cons_of_mem item hother, before, hvalue⟩

namespace LookupContext

variable {σ : Type} {context : LookupContext σ} {document : Document} {path : Path}

theorem exists_of_mem_links {state : LookupState σ} {link : DocumentLink}
    (h : link ∈ (context.links document path state).1) :
    ∃ index declaration before target, link.line = index + 1 ∧
      (document.line? index).bind Declaration.ofLine? = some declaration ∧
      (context.declarationTarget document path index declaration before).1 = some target := by
  change link ∈ ((((List.range document.lineCount).mapM
    (context.linkAt document path)) state).1).filterMap id at h
  obtain ⟨_, hmem, rfl⟩ := List.mem_filterMap.mp h
  obtain ⟨index, -, before, hlink⟩ := mem_fst_mapM hmem
  unfold linkAt at hlink
  cases hdeclares : (document.line? index).bind Declaration.ofLine? with
  | none =>
      rw [hdeclares] at hlink
      cases hlink
  | some declaration =>
      rw [hdeclares] at hlink
      obtain ⟨target, htarget, rfl⟩ := Option.map_eq_some_iff.mp hlink
      exact ⟨index, declaration, before, target, rfl, hdeclares, htarget⟩

theorem line_ne_of_mem_links {line : Nat} {name : String}
    (hdeclares : (document.line? line).bind Declaration.ofLine? = some (.moduleCall name))
    (hsource : document.blockAttribute? line "source" = none) {state : LookupState σ}
    {link : DocumentLink} (h : link ∈ (context.links document path state).1) :
    link.line ≠ line + 1 := by
  obtain ⟨index, declaration, before, target, hline, hindex, htarget⟩ := exists_of_mem_links h
  intro hsame
  obtain rfl : index = line := by omega
  rw [hdeclares] at hindex
  cases hindex
  rw [declarationTarget, hsource] at htarget
  cases htarget

/--
A module call whose block is not opened before the next declaration has no attributes and no link
exactly if there is no next declaration, or none whose block assigns a quoted text to anything.
-/
theorem unopened_moduleCall_finds_nothing_iff (context : LookupContext σ) (document : Document)
    (path : Path) (state : LookupState σ) {line : Nat} {name : String}
    (hdeclares : (document.line? line).bind Declaration.ofLine? = some (.moduleCall name))
    (hunopened : document.Unopened line) :
    ((∀ key, document.blockAttribute? line key = none) ∧
        ∀ link ∈ (context.links document path state).1, link.line ≠ line + 1) ↔
      ∀ next, IsLeast (document.declaredBelow line) next →
        ¬ AssignsQuoted (document.blockText next) := by
  rw [Document.forall_blockAttribute?_eq_none_iff]
  constructor
  · rintro ⟨hassigns, -⟩ next hnext
    rwa [← Document.blockText_eq_of_isLeast hunopened hnext]
  · intro h
    have hassigns : ¬ AssignsQuoted (document.blockText line) := by
      -- the text that is read is that of the next declaration, or none is
      rcases (document.declaredBelow line).eq_empty_or_nonempty with hlast | hbelow
      · rw [Document.blockText_eq_nil hunopened hlast]
        rintro ⟨front, gap, value, rest, -, -, hcs⟩
        simp at hcs
      · classical
        have hnext := hbelow.isLeast_natFind
        rw [Document.blockText_eq_of_isLeast hunopened hnext]
        exact h _ hnext
    have hsource := Document.forall_blockAttribute?_eq_none_iff.mpr hassigns "source"
    exact ⟨hassigns, fun link hlink => line_ne_of_mem_links hdeclares hsource hlink⟩

theorem unopened_moduleCall_finds_nothing_count :
    let context : LookupContext Unit := ⟨.emptyAt [], none, "https://r.io", .high, none⟩
    let document : Document := ⟨["module \"net\"", "  source = \"./net\"", "\x7d",
      "resource \"aws_instance\" \"web\" \x7b", "  count = 2 # \"two\"", "\x7d"]⟩
    (document.line? 0).bind Declaration.ofLine? = some (.moduleCall "net") ∧
      document.Unopened 0 ∧ document.blockAttribute? 0 "source" = none ∧
      ∀ link ∈ (context.links document ⟨"main.tf"⟩ ⟨.empty, ()⟩).1, link.line ≠ 1 := by
  intro context document
  have hdeclares : (document.line? 0).bind Declaration.ofLine? = some (.moduleCall "net") := by
    decide +kernel
  have hunopened : document.Unopened 0 := by decide +kernel
  have hnext : IsLeast (document.declaredBelow 0) 3 := by decide +kernel
  have hassigns : ¬ AssignsQuoted (document.blockText 3) := by decide +kernel
  have hnothing := (unopened_moduleCall_finds_nothing_iff context document ⟨"main.tf"⟩ ⟨.empty, ()⟩
    hdeclares hunopened).mpr fun next hleast => by rwa [hleast.unique hnext]
  exact ⟨hdeclares, hunopened, hnothing.1 "source", hnothing.2⟩

/-- A call that is still being typed takes the source of the call below it. -/
theorem unopened_moduleCall_finds_next :
    let context : LookupContext Unit := ⟨.emptyAt [], none, "https://r.io", .high, none⟩
    let document : Document := ⟨["module \"net\"", "", "module \"vpc\" \x7b",
      "  source = \"hashicorp/vpc/aws\"", "\x7d"]⟩
    (document.line? 0).bind Declaration.ofLine? = some (.moduleCall "net") ∧
      IsLeast (document.declaredBelow 0) 2 ∧ document.Unopened 0 ∧
      document.blockAttribute? 0 "source" = some "hashicorp/vpc/aws" ∧
      ⟨"module.net", 1, .url "https://r.io/modules/hashicorp/vpc/aws/latest"⟩ ∈
        (context.links document ⟨"main.tf"⟩ ⟨.empty, ()⟩).1 := by
  decide +kernel

end LookupContext

end TerraformDocs
