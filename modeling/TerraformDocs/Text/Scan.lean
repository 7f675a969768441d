import TerraformDocs.Text.Blank

/-!
# Recognisers

A recogniser reads something at the start of a list of characters and returns what it read with
the rest, or nothing.  None of them looks back, and each piece that a recogniser reads ends where
the next character cannot extend it, so a reading never depends on a choice made earlier.  The
`_length` lemmas say that the rest is shorter.
-/

namespace TerraformDocs.Text

def afterGap? : List Char → Option (List Char)
  | c :: cs => if isBlank c then some (dropBlanks cs) else none
  | [] => none

/-- The longest run of `member`s at the start, which must not be empty. -/
def run? (member : Char → Bool) (cs : List Char) : Option (List Char × List Char) :=
  match cs.takeWhile member with
  | [] => none
  | word => some (word, cs.dropWhile member)

def upTo? (mark : Char) (cs : List Char) : Option (List Char × List Char) :=
  match cs.dropWhile (· ≠ mark) with
  | [] => none
  | _ :: rest => some (cs.takeWhile (· ≠ mark), rest)

def quoted? : List Char → Option (List Char × List Char)
  | '"' :: cs => upTo? '"' cs
  | _ => none

def label? (cs : List Char) : Option (List Char × List Char) :=
  match quoted? cs with
  | some (c :: content, rest) => some (c :: content, rest)
  | _ => none

def occurs (word : List Char) : List Char → Bool
  | [] => word.isEmpty
  | c :: cs => word.isPrefixOf (c :: cs) || occurs word cs

def before (word : List Char) : List Char → List Char
  | [] => []
  | c :: cs => if word.isPrefixOf (c :: cs) then [] else c :: before word cs

/-! ## What is left is shorter -/

theorem isPrefixOf?_length {word cs rest : List Char} (h : word.isPrefixOf? cs = some rest) :
    rest.length + word.length = cs.length := by
  induction word generalizing cs with
  | nil =>
    cases h
    rfl
  | cons c word ih =>
    cases cs with
    | nil => cases h
    | cons d cs =>
      change (if c == d then word.isPrefixOf? cs else none) = some rest at h
      split at h
      · rw [List.length_cons, List.length_cons, ← ih h, Nat.add_assoc]
      · cases h

theorem afterGap?_length {cs rest : List Char} (h : afterGap? cs = some rest) :
    rest.length < cs.length := by
  cases cs with
  | nil => simp [afterGap?] at h
  | cons c cs =>
    simp only [afterGap?] at h
    split at h
    · cases h
      exact Nat.lt_succ_of_le (dropBlanks_length_le cs)
    · cases h

theorem run?_length {member : Char → Bool} {cs word rest : List Char}
    (h : run? member cs = some (word, rest)) : rest.length < cs.length := by
  simp only [run?] at h
  split at h
  · cases h
  · next hne =>
    cases h
    have whole := congrArg List.length (List.takeWhile_append_dropWhile (p := member) (l := cs))
    have : 0 < (cs.takeWhile member).length := List.length_pos_iff.mpr hne
    simp only [List.length_append] at whole
    omega

theorem upTo?_length {mark : Char} {cs before rest : List Char}
    (h : upTo? mark cs = some (before, rest)) : rest.length < cs.length := by
  simp only [upTo?] at h
  split at h
  · cases h
  · next c tail hdrop =>
    cases h
    have := (List.dropWhile_sublist (l := cs) (· ≠ mark)).length_le
    rw [hdrop] at this
    exact this

theorem quoted?_length {cs content rest : List Char} (h : quoted? cs = some (content, rest)) :
    rest.length < cs.length := by
  simp only [quoted?] at h
  split at h
  · exact Nat.lt_succ_of_lt (upTo?_length h)
  · cases h

theorem label?_length {cs content rest : List Char} (h : label? cs = some (content, rest)) :
    rest.length < cs.length := by
  simp only [label?] at h
  split at h
  · next heq => cases h; exact quoted?_length heq
  · cases h

end TerraformDocs.Text
