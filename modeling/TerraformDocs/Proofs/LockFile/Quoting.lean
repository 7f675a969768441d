import TerraformDocs.LockFile.Quoting
import TerraformDocs.Proofs.Text.Reading

/-!
# What stands outside strings

Comments and blocks are made by the characters outside strings alone, which `exposed` collects.  A
line is cut at the first comment mark outside its strings, so it is kept whole exactly if it has
none there (`beforeComment_eq_self_iff`).
-/

namespace TerraformDocs

open TerraformDocs.Text

namespace Quoting

/-- The characters that are read outside strings; a string's opening quote is one of them. -/
def exposed : Quoting → List Char → List Char
  | _, [] => []
  | quoting, c :: cs =>
      if quoting = outside then c :: exposed (quoting.step c) cs else exposed (quoting.step c) cs

@[simp] theorem after_nil (quoting : Quoting) : quoting.after [] = quoting := rfl

@[simp] theorem after_cons (quoting : Quoting) (c : Char) (cs : List Char) :
    quoting.after (c :: cs) = (quoting.step c).after cs := rfl

theorem after_append (quoting : Quoting) (first second : List Char) :
    quoting.after (first ++ second) = (quoting.after first).after second :=
  List.foldl_append

theorem exposed_append (quoting : Quoting) (first second : List Char) :
    quoting.exposed (first ++ second) =
      quoting.exposed first ++ (quoting.after first).exposed second := by
  induction first generalizing quoting with
  | nil => rfl
  | cons c first ih =>
      simp only [List.cons_append, exposed, after_cons, ih]
      split <;> rfl

theorem outside_of_not_mem {cs : List Char} (h : '"' ∉ cs) :
    outside.after cs = outside ∧ outside.exposed cs = cs := by
  induction cs with
  | nil => exact ⟨rfl, rfl⟩
  | cons c cs ih =>
      simp only [List.mem_cons, not_or] at h
      simpa [exposed, step, Ne.symm h.1] using ih h.2

theorem inside_of_not_mem {cs : List Char} (hquote : '"' ∉ cs) (hbackslash : '\\' ∉ cs) :
    inside.after cs = inside ∧ inside.exposed cs = [] := by
  induction cs with
  | nil => exact ⟨rfl, rfl⟩
  | cons c cs ih =>
      simp only [List.mem_cons, not_or] at hquote hbackslash
      simpa [exposed, step, Ne.symm hquote.1, Ne.symm hbackslash.1] using
        ih hquote.2 hbackslash.2

theorem not_mem_exposed_step {quoting : Quoting} {c d : Char} {cs : List Char}
    (h : d ∉ quoting.exposed (c :: cs)) : d ∉ (quoting.step c).exposed cs := by
  intro hmem
  apply h
  simp only [exposed]
  split
  · exact List.mem_cons_of_mem _ hmem
  · exact hmem

theorem ne_of_not_mem_exposed {quoting : Quoting} {c d : Char} {cs : List Char}
    (h : d ∉ quoting.exposed (c :: cs)) : ¬ (quoting = outside ∧ c = d) := by
  rintro ⟨rfl, rfl⟩
  simp [exposed] at h

theorem exists_append_of_exposed {quoting : Quoting} {cs before behind : List Char} {c : Char}
    (h : quoting.exposed cs = before ++ c :: behind) :
    ∃ front back, cs = front ++ c :: back ∧ quoting.after front = outside ∧
      quoting.exposed front = before := by
  induction cs generalizing quoting before with
  | nil => simp [exposed] at h
  | cons d cs ih =>
      rw [exposed] at h
      split at h
      · next hout =>
        cases before with
        | nil =>
            obtain ⟨rfl, -⟩ := List.cons.inj h
            exact ⟨[], cs, rfl, hout, rfl⟩
        | cons e before =>
            obtain ⟨rfl, hrest⟩ := List.cons.inj h
            obtain ⟨front, back, rfl, hafter, rfl⟩ := ih hrest
            exact ⟨d :: front, back, rfl, hafter, by rw [exposed, if_pos hout]⟩
      · next hout =>
        obtain ⟨front, back, rfl, hafter, rfl⟩ := ih h
        exact ⟨d :: front, back, rfl, hafter, by rw [exposed, if_neg hout]⟩

/-! ## Where a line is cut -/

def commentMarks : List (List Char) := [['#'], ['/', '/']]

def OpensComment (cs : List Char) : Prop := ∃ mark ∈ commentMarks, mark <+: cs

instance (cs : List Char) : Decidable (OpensComment cs) :=
  List.decidableBEx (fun mark => mark <+: cs) commentMarks

def Uncommented (quoting : Quoting) (cs : List Char) : Prop :=
  ∀ front back, front ++ back = cs → OpensComment back → quoting.after front ≠ outside

theorem opensComment_cons {c : Char} {cs : List Char} :
    OpensComment (c :: cs) ↔ c = '#' ∨ c = '/' ∧ cs.head? = some '/' := by
  cases cs <;> simp [OpensComment, commentMarks, eq_comm]

theorem beforeComment_of_opensComment {cs : List Char} (h : OpensComment cs) :
    beforeComment outside cs = [] := by
  cases cs with
  | nil => rfl
  | cons c cs =>
      rcases opensComment_cons.mp h with rfl | ⟨rfl, hhead⟩
      · rfl
      · obtain ⟨rest, rfl⟩ := List.head?_eq_some_iff.mp hhead
        rfl

theorem beforeComment_cons {quoting : Quoting} {c : Char} {cs : List Char}
    (h : ¬ (quoting = outside ∧ OpensComment (c :: cs))) :
    beforeComment quoting (c :: cs) = c :: beforeComment (quoting.step c) cs := by
  rw [opensComment_cons] at h
  rw [beforeComment]
  · rintro rfl rfl
    exact h ⟨rfl, .inl rfl⟩
  · rintro rest rfl rfl rfl
    exact h ⟨rfl, .inr ⟨rfl, rfl⟩⟩

/-- A comment behind a text that closes its strings goes away, unless it takes a slash from it. -/
theorem beforeComment_append {quoting : Quoting} {line comment : List Char}
    (hline : quoting.after line = outside) (hcomment : OpensComment comment)
    (hslash : line.getLast? = some '/' → comment.head? ≠ some '/') :
    beforeComment quoting (line ++ comment) = beforeComment quoting line := by
  induction line generalizing quoting with
  | nil =>
      obtain rfl : quoting = outside := hline
      exact beforeComment_of_opensComment hcomment
  | cons c line ih =>
      -- A mark has two characters at most, so the comment can complete one only behind the
      -- last `c`.
      have hopens : OpensComment (c :: (line ++ comment)) ↔ OpensComment (c :: line) := by
        rw [opensComment_cons, opensComment_cons]
        cases line with
        | nil =>
            have hne : ¬ (c = '/' ∧ comment.head? = some '/') := by
              rintro ⟨rfl, hhead⟩
              exact hslash rfl hhead
            simp [hne]
        | cons d line => rfl
      by_cases hcut : quoting = outside ∧ OpensComment (c :: line)
      · obtain ⟨rfl, hopen⟩ := hcut
        rw [beforeComment_of_opensComment hopen, List.cons_append,
          beforeComment_of_opensComment (hopens.mpr hopen)]
      · have hslash' : line.getLast? = some '/' → comment.head? ≠ some '/' := by
          intro hlast
          exact hslash (by simp [List.getLast?_cons, hlast])
        rw [beforeComment_cons hcut, List.cons_append, beforeComment_cons (by rwa [hopens]),
          ih hline hslash']

theorem uncommented_cons {quoting : Quoting} {c : Char} {cs : List Char} :
    Uncommented quoting (c :: cs) ↔
      ¬ (quoting = outside ∧ OpensComment (c :: cs)) ∧ Uncommented (quoting.step c) cs := by
  constructor
  · intro h
    refine ⟨fun ⟨hout, hopen⟩ => h [] (c :: cs) rfl hopen hout, ?_⟩
    rintro front back rfl hopen
    exact h (c :: front) back rfl hopen
  · rintro ⟨hfirst, hothers⟩ front back hcs hopen hout
    cases front with
    | nil =>
        obtain rfl : back = c :: cs := hcs
        exact hfirst ⟨hout, hopen⟩
    | cons d front =>
        obtain ⟨rfl, hrest⟩ := List.cons.inj hcs
        exact hothers front back hrest hopen hout

theorem beforeComment_eq_self_iff {quoting : Quoting} {cs : List Char} :
    beforeComment quoting cs = cs ↔ Uncommented quoting cs := by
  induction cs generalizing quoting with
  | nil =>
      refine iff_of_true rfl fun front back hcs hopen => ?_
      obtain ⟨-, rfl⟩ := List.append_eq_nil_iff.mp hcs
      exact absurd hopen (by decide)
  | cons c cs ih =>
      rw [uncommented_cons]
      by_cases hcut : quoting = outside ∧ OpensComment (c :: cs)
      · obtain ⟨rfl, hopen⟩ := hcut
        simp [beforeComment_of_opensComment hopen, hopen]
      · rw [beforeComment_cons hcut, List.cons.injEq, ih]
        simp [hcut]

theorem beforeComment_eq_self {quoting : Quoting} {cs : List Char}
    (hsign : '#' ∉ quoting.exposed cs) (hslash : '/' ∉ quoting.exposed cs) :
    beforeComment quoting cs = cs := by
  rw [beforeComment_eq_self_iff]
  rintro front back rfl hopens hout
  rw [exposed_append, hout, List.mem_append, not_or] at hsign hslash
  cases back with
  | nil => exact absurd hopens (by decide)
  | cons c back =>
      rcases opensComment_cons.mp hopens with rfl | ⟨rfl, -⟩
      · exact hsign.2 (by simp [exposed])
      · exact hslash.2 (by simp [exposed])

/-! ## Plain texts -/

/-- A text that closes its strings and stands neither in a comment nor at the edge of a block. -/
structure Plain (cs : List Char) : Prop where
  closes : outside.after cs = outside
  exposes : ∀ c ∈ outside.exposed cs, c ∉ ['#', '/', '{', '}']

theorem Plain.of_unquoted {cs : List Char} (h : ∀ c ∈ cs, c ∉ ['"', '#', '/', '{', '}']) :
    Plain cs := by
  have hquote : '"' ∉ cs := fun hmem => h '"' hmem (by simp)
  obtain ⟨hafter, hexposed⟩ := outside_of_not_mem hquote
  refine ⟨hafter, ?_⟩
  rw [hexposed]
  exact fun c hc hmem => h c hc (List.mem_cons_of_mem _ hmem)

theorem Plain.of_quoted {content : List Char} (hquote : '"' ∉ content)
    (hbackslash : '\\' ∉ content) : Plain ('"' :: (content ++ ['"'])) := by
  obtain ⟨hafter, hexposed⟩ := inside_of_not_mem hquote hbackslash
  constructor
  · rw [after_cons]
    simp [step, after_append, hafter]
  · simp [exposed, step, exposed_append, hafter, hexposed]

theorem Plain.append {first second : List Char} (hfirst : Plain first) (hsecond : Plain second) :
    Plain (first ++ second) := by
  constructor
  · rw [after_append, hfirst.closes, hsecond.closes]
  · intro c hc
    rw [exposed_append, hfirst.closes, List.mem_append] at hc
    rcases hc with hc | hc
    · exact hfirst.exposes c hc
    · exact hsecond.exposes c hc

theorem Plain.unlines {ls : List (List Char)} (h : ∀ line ∈ ls, Plain line) :
    Plain (Text.unlines ls) := by
  induction ls with
  | nil => exact .of_unquoted (by simp)
  | cons line ls ih =>
      have hfeed : Plain ['\n'] := .of_unquoted (by simp)
      have hrest := hfeed.append (ih fun other hmem => h other (by simp [hmem]))
      simpa using (h line (by simp)).append hrest

theorem Plain.not_mem_exposed {cs : List Char} (h : Plain cs) {c : Char}
    (hc : c ∈ ['#', '/', '{', '}']) : c ∉ outside.exposed cs :=
  fun hmem => h.exposes c hmem hc

theorem Plain.beforeComment_append {cs : List Char} (h : Plain cs) {rest : List Char}
    (hsign : '#' ∉ outside.exposed rest) (hslash : '/' ∉ outside.exposed rest) :
    beforeComment outside (cs ++ rest) = cs ++ rest := by
  apply beforeComment_eq_self <;> rw [exposed_append, h.closes, List.mem_append, not_or]
  · exact ⟨h.not_mem_exposed (by simp), hsign⟩
  · exact ⟨h.not_mem_exposed (by simp), hslash⟩

end Quoting

end TerraformDocs
