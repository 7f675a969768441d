import TerraformDocs.LockFile.Parser
import TerraformDocs.Proofs.Block.Nesting
import TerraformDocs.Proofs.LockFile.Quoting

/-!
# Blocks nested in a provider's block

A nested block is read twice: to find the end of the provider's block, and to leave the nested text
out of what counts for the lock.  Both scans follow strings and depth in step.  The block ends at
the one brace before which its text closes its strings and balances its braces outside them
(`blockBody?_exact`).  The scans go into a nested block in one state, stay in it at the same depth
or deeper, and come out in the state from before, so the nested text can be replaced by any other of
this kind (`lockOf_replaced`).
-/

namespace TerraformDocs

open TerraformDocs.Text

namespace Quoting

/-- A text that closes its strings and, outside of them, balances its braces. -/
structure WellNested (cs : List Char) : Prop where
  closes : outside.after cs = outside
  balanced : Balanced (outside.exposed cs)

theorem wellNested_iff {cs : List Char} :
    WellNested cs ↔ outside.after cs = outside ∧
      (outside.exposed cs).foldl BlockState.step (.inside 0) = .inside 0 :=
  ⟨fun ⟨closes, balanced⟩ => ⟨closes, BlockState.foldl_step_of_balanced balanced 0⟩,
    fun ⟨closes, hinside⟩ => ⟨closes, BlockState.balanced_of_foldl_step hinside⟩⟩

/-- How a character changes what is open; in a string it changes nothing. -/
def blockStep (quoting : Quoting) (state : BlockState) (c : Char) : BlockState :=
  if quoting = outside then state.step c else state

theorem foldl_exposed_cons (quoting : Quoting) (state : BlockState) (c : Char) (cs : List Char) :
    (quoting.exposed (c :: cs)).foldl BlockState.step state =
      ((quoting.step c).exposed cs).foldl BlockState.step (quoting.blockStep state c) := by
  simp only [exposed, blockStep]
  split <;> rfl

theorem exists_blockStep {quoting : Quoting} {nested last : Nat} {c : Char} {cs : List Char}
    (h : (quoting.exposed (c :: cs)).foldl BlockState.step (.inside nested) = .inside last) :
    ∃ next, quoting.blockStep (.inside nested) c = .inside next ∧
      ((quoting.step c).exposed cs).foldl BlockState.step (.inside next) = .inside last := by
  rw [foldl_exposed_cons] at h
  cases hstep : quoting.blockStep (.inside nested) c with
  | unopened =>
      rw [blockStep] at hstep
      split at hstep
      · exact absurd hstep (BlockState.foldl_step_inside_ne_unopened nested [c])
      · cases hstep
  | closed => simp [hstep] at h
  | inside next => exact ⟨next, rfl, by rwa [hstep] at h⟩

/-! ## The end of the block -/

theorem blockBody?_cons_of_blockStep {quoting : Quoting} {nested next : Nat} {c : Char}
    (h : quoting.blockStep (.inside nested) c = .inside next) (cs : List Char) :
    blockBody? nested quoting (c :: cs) =
      (blockBody? next (quoting.step c) cs).map (c :: ·) := by
  rw [blockBody?.eq_def]
  dsimp only
  by_cases hout : quoting = outside
  · subst hout
    rw [blockStep, if_pos rfl] at h
    by_cases hopen : c = '{'
    · subst hopen
      cases h
      rfl
    · by_cases hclose : c = '}'
      · subst hclose
        cases nested with
        | zero => cases h
        | succ outer =>
            cases h
            rfl
      · rw [BlockState.step_of_not_brace _ hopen hclose] at h
        cases h
        simp [hopen, hclose]
  · rw [blockStep, if_neg hout] at h
    cases h
    simp [hout]

theorem blockBody?_append_of_inside {quoting : Quoting} {nested last : Nat} {cs : List Char}
    (h : (quoting.exposed cs).foldl BlockState.step (.inside nested) = .inside last)
    (rest : List Char) :
    blockBody? nested quoting (cs ++ rest) =
      (blockBody? last (quoting.after cs) rest).map (cs ++ ·) := by
  induction cs generalizing quoting nested with
  | nil =>
      cases h
      simp
  | cons c cs ih =>
      obtain ⟨next, hstep, hrest⟩ := exists_blockStep h
      rw [List.cons_append, blockBody?_cons_of_blockStep hstep, ih hrest, after_cons,
        Option.map_map]
      rfl

/-- The block ends at the first closing brace outside strings that leads out of it. -/
theorem blockBody?_eq_some_iff {quoting : Quoting} {nested : Nat} {cs body : List Char} :
    blockBody? nested quoting cs = some body ↔
      quoting.after body = outside ∧
        (quoting.exposed body).foldl BlockState.step (.inside nested) = .inside 0 ∧
        ∃ rest, body ++ '}' :: rest = cs := by
  have hends {front : List Char} (hafter : quoting.after front = outside)
      (hinside : (quoting.exposed front).foldl BlockState.step (.inside nested) = .inside 0)
      (rest : List Char) : blockBody? nested quoting (front ++ '}' :: rest) = some front := by
    rw [blockBody?_append_of_inside hinside, hafter]
    simp [blockBody?]
  constructor
  · intro h
    -- Where the scan of the whole text ends up says whether the block is closed in it.
    cases hlast : (quoting.exposed cs).foldl BlockState.step (.inside nested) with
    | unopened => exact absurd hlast (BlockState.foldl_step_inside_ne_unopened _ _)
    | inside last =>
        have hnone := blockBody?_append_of_inside hlast []
        rw [List.append_nil, h] at hnone
        cases hnone
    | closed =>
        obtain ⟨inner, behind, hexposed, hinner⟩ := BlockState.foldl_step_eq_closed hlast
        obtain ⟨front, back, rfl, hafter, rfl⟩ := exists_append_of_exposed hexposed
        rw [hends hafter hinner] at h
        cases h
        exact ⟨hafter, hinner, back, rfl⟩
  · rintro ⟨hafter, hinside, rest, rfl⟩
    exact hends hafter hinside rest

theorem blockBody?_eq_some_iff_wellNested {cs body : List Char} :
    blockBody? 0 outside cs = some body ↔ WellNested body ∧ ∃ rest, body ++ '}' :: rest = cs := by
  rw [blockBody?_eq_some_iff, wellNested_iff, and_assoc]

theorem blockBody?_close_iff {body rest : List Char} :
    blockBody? 0 outside (body ++ '}' :: rest) = some body ↔ WellNested body :=
  blockBody?_eq_some_iff_wellNested.trans (and_iff_left ⟨rest, rfl⟩)

/--
A block's body is the text before a closing brace that closes its strings and balances its braces
outside them.  No other text before a closing brace does so, and the block has no end only if none
does.
-/
theorem blockBody?_exact (cs : List Char) :
    (∀ body, blockBody? 0 outside cs = some body ↔
      WellNested body ∧ ∃ rest, body ++ '}' :: rest = cs) ∧
    (∀ body other rest behind, WellNested body → body ++ '}' :: rest = cs →
      WellNested other → other ++ '}' :: behind = cs → body = other ∧ rest = behind) ∧
    (blockBody? 0 outside cs = none ↔
      ∀ body rest, WellNested body → body ++ '}' :: rest ≠ cs) := by
  refine ⟨fun _ => blockBody?_eq_some_iff_wellNested, ?_, ?_⟩
  · intro body other rest behind hbody hrest hother hbehind
    -- Both are what the scan returns.
    have hfirst := blockBody?_eq_some_iff_wellNested.mpr ⟨hbody, rest, hrest⟩
    have hsecond := blockBody?_eq_some_iff_wellNested.mpr ⟨hother, behind, hbehind⟩
    obtain rfl : body = other := Option.some.inj (hfirst.symm.trans hsecond)
    have htails := List.append_cancel_left (hrest.trans hbehind.symm)
    exact ⟨rfl, (List.cons.inj htails).2⟩
  · rw [Option.eq_none_iff_forall_ne_some]
    constructor
    · intro hnone body rest hbody hrest
      exact hnone body (blockBody?_eq_some_iff_wellNested.mpr ⟨hbody, rest, hrest⟩)
    · intro hnone body hbody
      obtain ⟨hnested, rest, hrest⟩ := blockBody?_eq_some_iff_wellNested.mp hbody
      exact hnone body rest hnested hrest

theorem blockBody?_exact_quoted :
    let body := " a = \"\\\" \x7d\" b \x7b c = \"\x7b\" \x7d\n".toList
    let rest := " provider \x7b \x7d".toList
    let unclosed := " a = \"\x7d \x7d\n".toList
    WellNested body ∧ blockBody? 0 outside (body ++ '}' :: rest) = some body ∧
      (∀ other behind, WellNested other → other ++ '}' :: behind = body ++ '}' :: rest →
        body = other ∧ rest = behind) ∧
      ∀ other behind, WellNested other → other ++ '}' :: behind ≠ unclosed := by
  intro body rest unclosed
  have hbody : WellNested body := ⟨by decide +kernel, by decide +kernel⟩
  obtain ⟨hread, hunique, -⟩ := blockBody?_exact (body ++ '}' :: rest)
  refine ⟨hbody, (hread body).mpr ⟨hbody, rest, rfl⟩, ?_, ?_⟩
  · exact fun other behind => hunique body other rest behind hbody rfl
  · exact (blockBody?_exact unclosed).2.2.mp (by decide +kernel)

/-! ## The text outside nested blocks -/

def levelStep (quoting : Quoting) (nested : Nat) (c : Char) : Nat :=
  if quoting = outside then nestingStep nested c else nested

/-- What is kept of a character: no brace of a block, and in a nested block only a line feed. -/
def kept (quoting : Quoting) (nested : Nat) (c : Char) : List Char :=
  if quoting = outside ∧ (c = '{' ∨ c = '}') then []
  else if nested = 0 ∨ c = '\n' then [c] else []

theorem ownText_cons (nested : Nat) (quoting : Quoting) (c : Char) (cs : List Char) :
    ownText nested quoting (c :: cs) =
      quoting.kept nested c ++ ownText (quoting.levelStep nested c) (quoting.step c) cs := by
  rw [ownText, kept, levelStep, nestingStep]
  by_cases hout : quoting = outside
  · subst hout
    by_cases hopen : c = '{'
    · subst hopen
      rfl
    · by_cases hclose : c = '}'
      · subst hclose
        rfl
      · by_cases hkept : nested = 0 ∨ c = '\n' <;> simp [hopen, hclose, hkept]
  · by_cases hkept : nested = 0 ∨ c = '\n' <;> simp [hout, hkept]

theorem ownText_append (nested : Nat) (quoting : Quoting) (front rest : List Char) :
    ownText nested quoting (front ++ rest) =
      ownText nested quoting front ++
        ownText ((quoting.exposed front).foldl nestingStep nested) (quoting.after front) rest := by
  induction front generalizing nested quoting with
  | nil => rfl
  | cons c front ih =>
      rw [List.cons_append, ownText_cons, ih, ownText_cons, List.append_assoc, after_cons]
      simp only [exposed, levelStep]
      split <;> rfl

theorem kept_succ (quoting : Quoting) (nested : Nat) (c : Char) :
    quoting.kept (nested + 1) c = List.replicate ([c].count '\n') '\n' := by
  by_cases hfeed : c = '\n'
  · simp [kept, hfeed]
  · simp [kept, hfeed]

theorem levelStep_succ {quoting : Quoting} {nested next : Nat} {c : Char}
    (h : quoting.blockStep (.inside nested) c = .inside next) :
    quoting.levelStep (nested + 1) c = next + 1 := by
  rw [blockStep] at h
  rw [levelStep]
  split at h
  · next hout =>
    have hdeep := BlockState.step_inside_succ h
    have hne : BlockState.step (.inside (nested + 1)) c ≠ .closed := by simp [hdeep]
    rw [BlockState.step_inside_of_ne_closed hne, BlockState.inside.injEq] at hdeep
    rw [if_pos hout, hdeep]
  · next hout =>
    cases h
    rw [if_neg hout]

theorem ownText_succ {quoting : Quoting} {nested last : Nat} {cs : List Char}
    (h : (quoting.exposed cs).foldl BlockState.step (.inside nested) = .inside last) :
    ownText (nested + 1) quoting cs = List.replicate (cs.count '\n') '\n' := by
  induction cs generalizing quoting nested with
  | nil => rfl
  | cons c cs ih =>
      obtain ⟨next, hstep, hrest⟩ := exists_blockStep h
      rw [ownText_cons, kept_succ, levelStep_succ hstep, ih hrest, ← List.replicate_add,
        ← List.count_append, List.singleton_append]

theorem ownText_eq_self {quoting : Quoting} {cs : List Char}
    (hopen : '{' ∉ quoting.exposed cs) (hclose : '}' ∉ quoting.exposed cs) :
    ownText 0 quoting cs = cs := by
  induction cs generalizing quoting with
  | nil => rfl
  | cons c cs ih =>
      have hrest := ih (not_mem_exposed_step hopen) (not_mem_exposed_step hclose)
      rw [ownText, if_neg (ne_of_not_mem_exposed hopen), if_neg (ne_of_not_mem_exposed hclose),
        if_pos (.inl rfl), hrest]

/-! ## Plain texts -/

theorem Plain.wellNested {cs : List Char} (h : Plain cs) : WellNested cs := by
  rw [wellNested_iff]
  refine ⟨h.closes, foldl_eq_self fun c hc => BlockState.step_of_not_brace _ ?_ ?_⟩
  · rintro rfl
    exact h.not_mem_exposed (by simp) hc
  · rintro rfl
    exact h.not_mem_exposed (by simp) hc

theorem Plain.blockBody?_close {cs : List Char} (h : Plain cs) (rest : List Char) :
    blockBody? 0 outside (cs ++ '}' :: rest) = some cs :=
  blockBody?_close_iff.mpr h.wellNested

theorem Plain.ownText {cs : List Char} (h : Plain cs) : Quoting.ownText 0 outside cs = cs :=
  ownText_eq_self (h.not_mem_exposed (by simp)) (h.not_mem_exposed (by simp))

/-! ## A nested block -/

theorem WellNested.after_braces {inner : List Char} (h : WellNested inner) (rest : List Char) :
    outside.after ('{' :: (inner ++ '}' :: rest)) = outside.after rest := by
  have hopen :
      outside.after ('{' :: (inner ++ '}' :: rest)) = outside.after (inner ++ '}' :: rest) :=
    rfl
  rw [hopen, after_append, h.closes]
  rfl

theorem WellNested.exposed_braces {inner : List Char} (h : WellNested inner) (rest : List Char) :
    outside.exposed ('{' :: (inner ++ '}' :: rest)) =
      '{' :: (outside.exposed inner ++ '}' :: outside.exposed rest) := by
  have hopen : outside.exposed ('{' :: (inner ++ '}' :: rest)) =
      '{' :: outside.exposed (inner ++ '}' :: rest) := rfl
  rw [hopen, exposed_append, h.closes]
  rfl

theorem WellNested.ownText_braces {inner : List Char} (h : WellNested inner) (nested : Nat)
    (rest : List Char) :
    ownText nested outside ('{' :: (inner ++ '}' :: rest)) =
      List.replicate (inner.count '\n') '\n' ++ ownText nested outside rest := by
  have hinside := BlockState.foldl_step_of_balanced h.balanced
  have hdepth : (outside.exposed inner).foldl nestingStep (nested + 1) = nested + 1 :=
    BlockState.foldl_nestingStep_eq (hinside (nested + 1))
  have hopen : ownText nested outside ('{' :: (inner ++ '}' :: rest)) =
      ownText (nested + 1) outside (inner ++ '}' :: rest) := ownText_cons _ _ _ _
  have hclose : ownText (nested + 1) outside ('}' :: rest) = ownText nested outside rest :=
    ownText_cons _ _ _ _
  rw [hopen, ownText_append, ownText_succ (hinside nested), hdepth, h.closes, hclose]

end Quoting

namespace LockFile

open Quoting

def withBraces (front inner back : List Char) : List Char := front ++ '{' :: (inner ++ '}' :: back)

theorem ownText_withBraces {front inner : List Char} (hfront : outside.after front = outside)
    (hinner : WellNested inner) (back : List Char) :
    ownText 0 outside (withBraces front inner back) =
      ownText 0 outside front ++ (List.replicate (inner.count '\n') '\n' ++
        ownText ((outside.exposed front).foldl nestingStep 0) outside back) := by
  rw [withBraces, ownText_append, hfront, hinner.ownText_braces]

theorem wellNested_withBraces_iff {front inner : List Char}
    (hfront : outside.after front = outside) (hinner : WellNested inner) (back : List Char) :
    WellNested (withBraces front inner back) ↔ WellNested (front ++ back) := by
  have hafter : outside.after (withBraces front inner back) = outside.after (front ++ back) := by
    rw [withBraces, after_append, hfront, hinner.after_braces, after_append, hfront]
  have hfold : (outside.exposed (withBraces front inner back)).foldl BlockState.step (.inside 0) =
      (outside.exposed (front ++ back)).foldl BlockState.step (.inside 0) := by
    rw [withBraces, exposed_append, exposed_append, hfront, hinner.exposed_braces,
      List.foldl_append, List.foldl_append]
    exact BlockState.foldl_step_braces hinner.balanced
      (BlockState.foldl_step_inside_ne_unopened 0 _) _
  rw [wellNested_iff, wellNested_iff, hafter, hfold]

/--
What stands in a nested block of a provider's block can be replaced by any other text that closes
its strings, balances its braces outside them and has as many line feeds: the lock stays the same in
every part, and the provider's block still ends at the same brace.
-/
theorem lockOf_replaced (front inner other back : List Char)
    (hfront : outside.after front = outside) (hinner : WellNested inner)
    (hother : WellNested other) (hfeeds : other.count '\n' = inner.count '\n') :
    (∀ source, lockOf source (withBraces front other back) =
      lockOf source (withBraces front inner back)) ∧
    ∀ rest, blockBody? 0 outside (withBraces front other back ++ '}' :: rest) =
        some (withBraces front other back) ↔
      blockBody? 0 outside (withBraces front inner back ++ '}' :: rest) =
        some (withBraces front inner back) := by
  constructor
  · intro source
    rw [lockOf, lockOf, ownText_withBraces hfront hother, ownText_withBraces hfront hinner, hfeeds]
  · intro rest
    rw [blockBody?_close_iff, blockBody?_close_iff, wellNested_withBraces_iff hfront hother,
      wellNested_withBraces_iff hfront hinner]

theorem lockOf_replaced_meta :
    let front := "\n  version = \"5.31.0\"\n  meta ".toList
    let inner := "\n    version = \"9.9.9\"\n    note = \"\\\" \x7d\"\n  ".toList
    let other := " a \x7b\n hashes = [\"h1:nested=\"] \x7d\r\n b = \"\x7b\"\n".toList
    let back := "\n  hashes = [\"h1:top=\"]\n".toList
    outside.after front = outside ∧ WellNested inner ∧ WellNested other ∧
      other.count '\n' = inner.count '\n' ∧
      lockOf ⟨"hashicorp", "aws"⟩ (withBraces front other back) =
        ⟨⟨"hashicorp", "aws"⟩, some "5.31.0", none, ["h1:top="], []⟩ ∧
      blockBody? 0 outside (withBraces front other back ++ ['}', '}']) =
        some (withBraces front other back) := by
  intro front inner other back
  have hfront : outside.after front = outside := by decide +kernel
  have hinner : WellNested inner := ⟨by decide +kernel, by decide +kernel⟩
  have hother : WellNested other := ⟨by decide +kernel, by decide +kernel⟩
  have hfeeds : other.count '\n' = inner.count '\n' := by decide +kernel
  obtain ⟨hlock, hblock⟩ := lockOf_replaced front inner other back hfront hinner hother hfeeds
  refine ⟨hfront, hinner, hother, hfeeds, ?_, ?_⟩
  · rw [hlock]
    decide +kernel
  · rw [hblock ['}']]
    decide +kernel

end LockFile

end TerraformDocs
