import Mathlib.Data.List.Infix
import TerraformDocs.Block.State

/-!
# Balanced braces

A text is balanced when no part of it from its start closes more braces than it opens, and all of
it closes as many as it opens.  The number of braces read inside a block tells how many nested
blocks are open, so a balanced text that opens a block closes it as well.
-/

namespace TerraformDocs

structure Balanced (cs : List Char) : Prop where
  closes_le : ∀ {front : List Char}, front <+: cs → front.count '}' ≤ front.count '{'
  closes_all : cs.count '}' = cs.count '{'

instance (cs : List Char) : Decidable (Balanced cs) :=
  decidable_of_iff
    ((∀ front ∈ cs.inits, front.count '}' ≤ front.count '{') ∧ cs.count '}' = cs.count '{')
    ⟨fun ⟨closes_le, closes_all⟩ => ⟨fun h => closes_le _ ((List.mem_inits _ _).2 h), closes_all⟩,
      fun ⟨closes_le, closes_all⟩ => ⟨fun _ h => closes_le ((List.mem_inits _ _).1 h), closes_all⟩⟩

theorem foldl_eq_self {α β : Type} {f : β → α → β} {b : β} {items : List α}
    (h : ∀ a ∈ items, f b a = b) : items.foldl f b = b := by
  induction items with
  | nil => rfl
  | cons a items ih =>
      obtain ⟨hfirst, hothers⟩ := List.forall_mem_cons.mp h
      rw [List.foldl_cons, hfirst, ih hothers]

namespace BlockState

@[simp] theorem foldl_step_closed (cs : List Char) : cs.foldl step closed = closed :=
  foldl_eq_self fun _ _ => rfl

theorem foldl_step_inside_ne_unopened (nested : Nat) (cs : List Char) :
    cs.foldl step (inside nested) ≠ unopened := by
  induction cs generalizing nested with
  | nil => simp
  | cons c cs ih =>
      simp only [List.foldl_cons, step]
      split
      · exact ih _
      · split
        · cases nested with
          | zero => simp
          | succ outer => exact ih _
        · exact ih _

theorem count_of_foldl_step_inside {nested last : Nat} {cs : List Char}
    (h : cs.foldl step (inside nested) = inside last) :
    cs.count '{' + nested = cs.count '}' + last := by
  induction cs generalizing nested with
  | nil =>
      simp only [List.foldl_nil, inside.injEq] at h
      simp [h]
  | cons c cs ih =>
      simp only [List.foldl_cons, step] at h
      split at h
      · next hopen =>
        have rest := ih h
        simp [hopen]
        omega
      · next hopen =>
        split at h
        · next hclose =>
          cases nested with
          | zero => simp at h
          | succ outer =>
              have rest := ih h
              simp [hclose]
              omega
        · next hclose =>
          have rest := ih h
          simpa [List.count_cons, hopen, hclose] using rest

theorem foldl_step_unopened {cs : List Char} (h : '{' ∉ cs) :
    cs.foldl step unopened = unopened :=
  foldl_eq_self fun _ hc => if_neg (ne_of_mem_of_not_mem hc h)

theorem after_append_open {front : List Char} (h : '{' ∉ front) (rest : List Char) :
    after (front ++ '{' :: rest) = rest.foldl step (inside 0) := by
  rw [after, List.foldl_append, foldl_step_unopened h]
  rfl

theorem after_eq_closed {cs : List Char} (balanced : Balanced cs) (opens : '{' ∈ cs) :
    after cs = closed := by
  obtain ⟨front, rest, rfl, hfront⟩ := List.eq_append_cons_of_mem opens
  have front_closes := balanced.closes_le (List.prefix_append front ('{' :: rest))
  have total := balanced.closes_all
  rw [List.count_eq_zero_of_not_mem hfront] at front_closes
  simp [List.count_eq_zero_of_not_mem hfront] at total
  rw [after_append_open hfront]
  cases hlast : rest.foldl step (inside 0) with
  | unopened => exact absurd hlast (foldl_step_inside_ne_unopened 0 rest)
  | closed => rfl
  | inside last =>
      have := count_of_foldl_step_inside hlast
      omega

end BlockState

end TerraformDocs
