import TerraformDocs.Block.Cursor
import TerraformDocs.Proofs.Block.Balance
import TerraformDocs.Proofs.Text.Reading

/-!
# How deep a position lies

A brace is closed by the first closing brace behind it that balanced text leads to.  While a block
is open, the count of its nested blocks is the number of braces that have been opened in it and not
been closed (`nestingAfter_of_isInside`), whatever has been opened and closed before.
-/

namespace TerraformDocs

def ClosedIn (cs : List Char) : Prop := ∃ inner rest, cs = inner ++ '}' :: rest ∧ Balanced inner

namespace BlockState

theorem step_of_not_brace (state : BlockState) {c : Char} (hopen : c ≠ '{') (hclose : c ≠ '}') :
    state.step c = state := by
  cases state <;> simp [step, hopen, hclose]

theorem step_inside_eq_closed {nested : Nat} {c : Char} :
    step (inside nested) c = closed ↔ c = '}' ∧ nested = 0 := by
  simp only [step]
  grind

theorem step_inside_of_ne_closed {nested : Nat} {c : Char} (h : step (inside nested) c ≠ closed) :
    step (inside nested) c = inside (nestingStep nested c) := by
  simp only [step, nestingStep] at h ⊢
  grind

theorem step_inside_succ {nested next : Nat} {c : Char} (h : step (inside nested) c = inside next) :
    step (inside (nested + 1)) c = inside (next + 1) := by
  have hne : step (inside nested) c ≠ closed := by simp [h]
  rw [step_inside_of_ne_closed hne, inside.injEq] at h
  by_cases hopen : c = '{'
  · simp_all [step, nestingStep]
  · by_cases hclose : c = '}'
    · have : nested ≠ 0 := fun hzero => hne (step_inside_eq_closed.mpr ⟨hclose, hzero⟩)
      simp_all [step, nestingStep]
      omega
    · simp_all [step, nestingStep]

theorem foldl_step_eq_closed {nested : Nat} {cs : List Char}
    (h : cs.foldl step (inside nested) = closed) :
    ∃ inner rest, cs = inner ++ '}' :: rest ∧ inner.foldl step (inside nested) = inside 0 := by
  induction cs generalizing nested with
  | nil => simp at h
  | cons c cs ih =>
      rw [List.foldl_cons] at h
      by_cases hclosed : step (inside nested) c = closed
      · obtain ⟨rfl, rfl⟩ := step_inside_eq_closed.mp hclosed
        exact ⟨[], cs, rfl, rfl⟩
      · have hnext := step_inside_of_ne_closed hclosed
        rw [hnext] at h
        obtain ⟨inner, rest, rfl, hinner⟩ := ih h
        exact ⟨c :: inner, rest, rfl, by rw [List.foldl_cons, hnext, hinner]⟩

/-- A block stays open as long as no part of its text closes more braces than it opens, those around
it included. -/
theorem foldl_step_ne_closed_iff {nested : Nat} {cs : List Char} :
    cs.foldl step (inside nested) ≠ closed ↔
      ∀ part, part <+: cs → part.count '}' ≤ part.count '{' + nested := by
  constructor
  · rintro h part ⟨rest, rfl⟩
    rw [List.foldl_append] at h
    cases hpart : part.foldl step (inside nested) with
    | unopened => exact absurd hpart (foldl_step_inside_ne_unopened nested part)
    | closed => simp [hpart] at h
    | inside last =>
        have := count_of_foldl_step_inside hpart
        omega
  · intro h hclosed
    obtain ⟨inner, rest, rfl, hinner⟩ := foldl_step_eq_closed hclosed
    have hcount := count_of_foldl_step_inside hinner
    have hle := h (inner ++ ['}']) ⟨rest, by simp⟩
    simp only [List.count_append, List.count_singleton] at hle
    simp at hle
    omega

theorem balanced_of_foldl_step {cs : List Char} (h : cs.foldl step (inside 0) = inside 0) :
    Balanced cs := by
  constructor
  · intro front hfront
    have hopen : cs.foldl step (inside 0) ≠ closed := by simp [h]
    exact foldl_step_ne_closed_iff.mp hopen front hfront
  · have := count_of_foldl_step_inside h
    omega

theorem foldl_step_of_balanced {cs : List Char} (h : Balanced cs) (nested : Nat) :
    cs.foldl step (inside nested) = inside nested := by
  cases hlast : cs.foldl step (inside nested) with
  | unopened => exact absurd hlast (foldl_step_inside_ne_unopened nested cs)
  | inside last =>
      have := count_of_foldl_step_inside hlast
      have := h.closes_all
      congr 1
      omega
  | closed =>
      refine absurd hlast (foldl_step_ne_closed_iff.mpr fun part hpart => ?_)
      exact (h.closes_le hpart).trans (Nat.le_add_right _ _)

theorem foldl_step_braces {inner : List Char} (h : Balanced inner) {state : BlockState}
    (hstate : state ≠ unopened) (rest : List Char) :
    ('{' :: (inner ++ '}' :: rest)).foldl step state = rest.foldl step state := by
  cases state with
  | unopened => exact absurd rfl hstate
  | closed => rw [foldl_step_closed, foldl_step_closed]
  | inside nested =>
      have hopen : step (inside nested) '{' = inside (nested + 1) := rfl
      have hclose : step (inside (nested + 1)) '}' = inside nested := rfl
      rw [List.foldl_cons, hopen, List.foldl_append, foldl_step_of_balanced h, List.foldl_cons,
        hclose]

theorem closedIn_iff {cs : List Char} :
    ClosedIn cs ↔ cs.foldl step (inside 0) = closed := by
  constructor
  · rintro ⟨inner, rest, rfl, hinner⟩
    rw [List.foldl_append, foldl_step_of_balanced hinner, List.foldl_cons]
    exact foldl_step_closed rest
  · intro h
    obtain ⟨inner, rest, hcs, hinner⟩ := foldl_step_eq_closed h
    exact ⟨inner, rest, hcs, balanced_of_foldl_step hinner⟩

end BlockState

instance (cs : List Char) : Decidable (ClosedIn cs) :=
  decidable_of_iff _ BlockState.closedIn_iff.symm

def unclosed : List Char → Nat
  | [] => 0
  | c :: cs => if c = '{' ∧ ¬ ClosedIn cs then unclosed cs + 1 else unclosed cs

namespace BlockState

theorem exists_foldl_step_inside (cs : List Char) :
    ∃ left, ∀ nested, cs.foldl step (inside nested) =
      if left ≤ nested then inside (nested - left + unclosed cs) else closed := by
  induction cs with
  | nil => exact ⟨0, by simp [unclosed]⟩
  | cons c cs ih =>
      obtain ⟨left, hleft⟩ := ih
      have hclosed : ClosedIn cs ↔ left ≠ 0 := by
        rw [closedIn_iff, hleft]
        split <;> simp <;> omega
      by_cases hopen : c = '{'
      · refine ⟨left - 1, fun nested => ?_⟩
        cases left with
        | zero =>
            simp [step, hopen, hleft, unclosed, hclosed]
            omega
        | succ outer => simp [step, hopen, hleft, unclosed, hclosed]
      · by_cases hclose : c = '}'
        · refine ⟨left + 1, fun nested => ?_⟩
          cases nested with
          | zero => simp [step, hclose]
          | succ outer => simp [step, hclose, hleft, unclosed]
        · refine ⟨left, fun nested => ?_⟩
          simp [step, hopen, hclose, hleft, unclosed]

theorem foldl_step_inside_eq {cs : List Char} {last : Nat}
    (h : cs.foldl step (inside 0) = inside last) : last = unclosed cs := by
  obtain ⟨left, hleft⟩ := exists_foldl_step_inside cs
  rw [hleft] at h
  split at h
  · next hzero =>
    cases h
    omega
  · cases h

theorem foldl_nestingStep_eq {nested last : Nat} {cs : List Char}
    (h : cs.foldl step (inside nested) = inside last) : cs.foldl nestingStep nested = last := by
  induction cs generalizing nested with
  | nil => simpa using h
  | cons c cs ih =>
      rw [List.foldl_cons] at h ⊢
      by_cases hclosed : step (inside nested) c = closed
      · simp [hclosed] at h
      · rw [step_inside_of_ne_closed hclosed] at h
        exact ih h

theorem exists_of_isInside {cs : List Char} (h : (after cs).isInside = true) :
    ∃ front inner last, cs = front ++ '{' :: inner ∧ '{' ∉ front ∧
      inner.foldl step (inside 0) = inside last := by
  have hopen : '{' ∈ cs := by
    by_contra hmem
    simp [after, foldl_step_unopened hmem, isInside] at h
  obtain ⟨front, inner, rfl, hfront⟩ := List.eq_append_cons_of_mem hopen
  rw [after_append_open hfront] at h
  cases hlast : inner.foldl step (inside 0) with
  | unopened => simp [hlast, isInside] at h
  | closed => simp [hlast, isInside] at h
  | inside last => exact ⟨front, inner, last, rfl, hfront, hlast⟩

end BlockState

theorem nestingAfter_append_open {front : List Char} (h : '{' ∉ front) (inner : List Char) :
    nestingAfter (front ++ '{' :: inner) = inner.foldl nestingStep 0 := by
  rw [nestingAfter, (Text.takeWhile_append_mark h inner).2]
  rfl

theorem nestingAfter_eq_zero {cs : List Char} (h : '{' ∉ cs) : nestingAfter cs = 0 := by
  rw [nestingAfter, Text.dropWhile_eq_nil_of_not_mem h]
  rfl

theorem nestingAfter_of_isInside {cs : List Char} (h : (BlockState.after cs).isInside = true) :
    ∃ front inner, cs = front ++ '{' :: inner ∧ '{' ∉ front ∧ nestingAfter cs = unclosed inner := by
  obtain ⟨front, inner, last, rfl, hfront, hlast⟩ := BlockState.exists_of_isInside h
  refine ⟨front, inner, rfl, hfront, ?_⟩
  rw [nestingAfter_append_open hfront, BlockState.foldl_nestingStep_eq hlast,
    BlockState.foldl_step_inside_eq hlast]

end TerraformDocs
