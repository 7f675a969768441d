import TerraformDocs.Command.Usage

/-!
# Options are not lost

Words are read one by one, and what an option has set stays set while the others are read.  So a
command line with the option `--offline` leads to an invocation with it, or to an error
(`offline_of_ofWords`).  Behind two hyphens alone the word is no option but an argument.
-/

namespace TerraformDocs

theorem exists_of_bind_eq_ok {ε α β : Type} {attempt : Except ε α} {next : α → Except ε β}
    {result : β} (h : attempt >>= next = .ok result) :
    ∃ value, attempt = .ok value ∧ next value = .ok result := by
  cases attempt with
  | error problem => cases h
  | ok value => exact ⟨value, rfl, h⟩

def Invocation.linkFlags? : Invocation → Option LinkFlags
  | links _ flags | lookup _ _ _ flags | versions flags => some flags
  | init | status => none

theorem WordForm.eq_of_endOfOptions {word : String} (h : WordForm.of word = .endOfOptions) :
    word = "--" := by
  unfold WordForm.of at h
  split at h
  · next hchars => exact String.toList_inj.mp hchars
  · split at h <;> cases h
  · cases h
  · cases h

theorem WordForm.eq_of_long {word : String} {name : List Char}
    (h : WordForm.of word = .long name none) : word.toList = '-' :: '-' :: name := by
  unfold WordForm.of at h
  split at h
  · cases h
  · next option hchars =>
    split at h
    · cases h
    · cases h
      exact hchars
  · cases h
  · cases h

theorem WordForm.ne_offline {word : String}
    (h : WordForm.of word ≠ .long "offline".toList none) : word ≠ "--offline" :=
  fun hword => h (hword ▸ rfl)

theorem WordForm.ne_end {word : String} (h : WordForm.of word ≠ .endOfOptions) : word ≠ "--" :=
  fun hword => h (hword ▸ rfl)

namespace Reading

structure Keeps (reading next : Reading) : Prop where
  offline : next.flags.offline = reading.flags.offline
  optionsEnded : next.optionsEnded = reading.optionsEnded

theorem Keeps.trans {reading middle next : Reading} (hfirst : reading.Keeps middle)
    (hsecond : middle.Keeps next) : reading.Keeps next :=
  ⟨hsecond.offline.trans hfirst.offline, hsecond.optionsEnded.trans hfirst.optionsEnded⟩

variable {reading next : Reading}

theorem keeps_of_complete (h : reading.complete = .ok next) : reading.Keeps next := by
  unfold complete at h
  split at h
  · cases h
    exact ⟨rfl, rfl⟩
  · cases h
  · split at h
    · cases h
    · cases h
      exact ⟨rfl, rfl⟩
  · split at h
    · cases h
    · split at h
      · cases h
      · cases h
        exact ⟨rfl, rfl⟩

theorem keeps_of_takeArgument {word : String} (h : reading.takeArgument word = .ok next) :
    reading.Keeps next := by
  unfold takeArgument at h
  split at h
  · cases h
  · obtain ⟨completed, hcomplete, hnext⟩ := exists_of_bind_eq_ok h
    cases hnext
    exact (keeps_of_complete hcomplete).trans ⟨rfl, rfl⟩

theorem keeps_of_takeLetters {letters : List Char} (h : reading.takeLetters letters = .ok next) :
    reading.Keeps next := by
  induction letters generalizing reading with
  | nil =>
      cases h
      exact ⟨rfl, rfl⟩
  | cons letter letters ih =>
      simp only [takeLetters] at h
      split at h
      · obtain ⟨completed, hcomplete, hnext⟩ := exists_of_bind_eq_ok h
        exact (keeps_of_complete hcomplete).trans (ih hnext)
      · split at h
        · obtain ⟨_, -, hnext⟩ := exists_of_bind_eq_ok h
          cases hnext
        · cases h

theorem keeps_of_takeLong {name : List Char} {value : Option (List Char)}
    (h : reading.takeLong name value = .ok next) (hname : name ≠ "offline".toList) :
    reading.Keeps next := by
  unfold takeLong at h
  dsimp only at h
  split at h
  · obtain ⟨completed, hcomplete, hnext⟩ := exists_of_bind_eq_ok h
    refine (keeps_of_complete hcomplete).trans ?_
    cases value with
    | none =>
        cases hnext
        exact ⟨rfl, rfl⟩
    | some value =>
        have hkept := keeps_of_complete hnext
        exact ⟨hkept.offline, hkept.optionsEnded⟩
  · split at h
    · split at h
      · cases h
      · obtain ⟨completed, hcomplete, hnext⟩ := exists_of_bind_eq_ok h
        refine (keeps_of_complete hcomplete).trans ?_
        split at hnext
        · cases hnext
        · split at hnext
          · cases hnext
          · cases hnext
            exact ⟨rfl, rfl⟩
        · next hoffline =>
          exact absurd (by rw [← hoffline, String.toList_ofList]) hname
        · cases hnext
          exact ⟨rfl, rfl⟩
    · cases h

theorem of_takeLong_offline {value : Option (List Char)}
    (h : reading.takeLong "offline".toList value = .ok next) :
    value = none ∧ next.flags.offline = true ∧ next.optionsEnded = reading.optionsEnded := by
  unfold takeLong at h
  simp only [String.ofList_toList] at h
  rw [if_neg (by simp)] at h
  split at h
  · split at h
    · cases h
    · next hvalue =>
      obtain ⟨completed, hcomplete, hnext⟩ := exists_of_bind_eq_ok h
      split at hnext
      · cases hnext
      · cases hnext
        exact ⟨by simpa using hvalue, rfl, (keeps_of_complete hcomplete).optionsEnded⟩
  · cases h

structure Reads (reading : Reading) (word : String) (next : Reading) : Prop where
  offline_iff : next.flags.offline = true ↔
    reading.flags.offline = true ∨ reading.optionsEnded = false ∧ word = "--offline"
  optionsEnded_iff : next.optionsEnded = true ↔ reading.optionsEnded = true ∨ word = "--"

theorem Keeps.reads {word : String} (hkept : reading.Keeps next)
    (hoption : WordForm.of word ≠ .long "offline".toList none)
    (hend : WordForm.of word ≠ .endOfOptions) : reading.Reads word next := by
  constructor
  · simp [hkept.offline, WordForm.ne_offline hoption]
  · simp [hkept.optionsEnded, WordForm.ne_end hend]

theorem reads_of_take {word : String} (h : reading.take word = .ok next) :
    reading.Reads word next := by
  unfold take at h
  split at h
  · next hended =>
    have hkept := keeps_of_takeArgument h
    constructor
    · simp [hkept.offline, hended]
    · simp [hkept.optionsEnded, hended]
  · next hended =>
    split at h
    · next hform =>
      cases h
      constructor
      · simp [WordForm.eq_of_endOfOptions hform]
      · simp [WordForm.eq_of_endOfOptions hform]
    · next name value hform =>
      by_cases hname : name = "offline".toList
      · subst hname
        obtain ⟨rfl, hset, hkept⟩ := of_takeLong_offline h
        have hword : word = "--offline" := String.toList_inj.mp (WordForm.eq_of_long hform)
        constructor
        · simp [hset, hword, hended]
        · simp [hkept, hword]
      · refine (keeps_of_takeLong h hname).reads (fun hlong => ?_) (by simp [hform])
        rw [hform] at hlong
        cases hlong
        exact hname rfl
    · next letters hform =>
      exact (keeps_of_takeLetters h).reads (by simp [hform]) (by simp [hform])
    · next hform =>
      refine Keeps.reads ?_ (by simp [hform]) (by simp [hform])
      split at h
      · cases h
        exact ⟨rfl, rfl⟩
      · exact keeps_of_takeArgument h

theorem foldlM_take_offline_iff {words : List String} {last : Reading}
    (h : words.foldlM take reading = .ok last) :
    last.flags.offline = true ↔
      reading.flags.offline = true ∨
        reading.optionsEnded = false ∧ "--offline" ∈ words.takeWhile (· ≠ "--") := by
  induction words generalizing reading with
  | nil =>
      cases h
      simp
  | cons word words ih =>
      rw [List.foldlM_cons] at h
      obtain ⟨middle, hmiddle, hlast⟩ := exists_of_bind_eq_ok h
      obtain ⟨hoffline, hended⟩ := reads_of_take hmiddle
      rw [ih hlast, hoffline]
      by_cases hword : word = "--"
      · have : middle.optionsEnded = true := hended.mpr (.inr hword)
        simp [this, hword]
      · have : middle.optionsEnded = reading.optionsEnded := by
          rw [Bool.eq_iff_iff, hended]
          simp [hword]
        simp only [this, List.takeWhile_cons, hword, ne_eq, not_false_eq_true, decide_true,
          if_true, List.mem_cons, eq_comm (a := "--offline"), and_or_left, or_assoc]

theorem offline_of_finish {invocation : Invocation} (h : reading.finish = .ok invocation) :
    ∀ flags ∈ invocation.linkFlags?, flags.offline = reading.flags.offline := by
  intro flags hflags
  obtain ⟨completed, hcomplete, hinvocation⟩ := exists_of_bind_eq_ok h
  suffices flags = completed.flags by rw [this, (keeps_of_complete hcomplete).offline]
  split at hinvocation
  · cases hinvocation
    cases hflags
  · cases hinvocation
    cases hflags
  · cases hinvocation
    exact (Option.some.inj hflags).symm
  · cases hinvocation
    exact (Option.some.inj hflags).symm
  · split at hinvocation
    · cases hinvocation
      exact (Option.some.inj hflags).symm
    · cases hinvocation
  · cases hinvocation

end Reading

namespace Invocation

theorem offline_mem_cons_iff {word : String} {words : List String}
    (hoption : WordForm.of word ≠ .long "offline".toList none)
    (hend : WordForm.of word ≠ .endOfOptions) :
    "--offline" ∈ (word :: words).takeWhile (· ≠ "--") ↔
      "--offline" ∈ words.takeWhile (· ≠ "--") := by
  rw [List.takeWhile_cons_of_pos (by simpa using WordForm.ne_end hend), List.mem_cons]
  simp [(WordForm.ne_offline hoption).symm]

theorem offline_iff_of_ofWordsFrom {verbose : Bool} {words : List String} {invocation : Invocation}
    (h : ofWordsFrom verbose words = .ok invocation) :
    ∀ flags ∈ invocation.linkFlags?,
      flags.offline = true ↔ "--offline" ∈ words.takeWhile (· ≠ "--") := by
  intro flags hflags
  fun_induction ofWordsFrom verbose words with
  | case1 | case2 | case3 | case5 | case6 | case9 => cases h
  | case4 verbose word words name value hform _ _ _ hverbose ih =>
      rw [offline_mem_cons_iff ?_ (by simp [hform])]
      · exact ih h
      · intro hlong
        rw [hform] at hlong
        cases hlong
        exact absurd (String.ofList_toList.symm.trans hverbose) (by decide)
  | case7 verbose word words letters hform ih =>
      obtain ⟨_, -, hinvocation⟩ := exists_of_bind_eq_ok h
      rw [offline_mem_cons_iff (by simp [hform]) (by simp [hform])]
      exact ih hinvocation
  | case8 verbose word words hform command hcommand =>
      obtain ⟨last, hlast, hinvocation⟩ := exists_of_bind_eq_ok h
      rw [offline_mem_cons_iff (by simp [hform]) (by simp [hform]),
        Reading.offline_of_finish hinvocation flags hflags, Reading.foldlM_take_offline_iff hlast]
      simp [Reading.start]

theorem offline_iff_of_ofWords {words : List String} {invocation : Invocation}
    (h : ofWords words = .ok invocation) :
    ∀ flags ∈ invocation.linkFlags?,
      flags.offline = true ↔ "--offline" ∈ words.takeWhile (· ≠ "--") :=
  offline_iff_of_ofWordsFrom h

end Invocation

end TerraformDocs
