import TerraformDocs.Text.CharRange

/-!
# Blanks and the ends of a text

A character is blank when it has the Unicode property White_Space.  `dropBlanks` and `trim` remove
blanks at one end or at both, and `withoutTrailing` the marks at the end.  Main statement: what
`dropBlanks` leaves starts with no blank.
-/

namespace TerraformDocs.Text

/-- The code points with the property White_Space, as inclusive ranges in ascending order. -/
def blankRanges : List (Nat × Nat) :=
  [(0x9, 0xD), (0x20, 0x20), (0x85, 0x85), (0xA0, 0xA0), (0x1680, 0x1680), (0x2000, 0x200A),
   (0x2028, 0x2029), (0x202F, 0x202F), (0x205F, 0x205F), (0x3000, 0x3000)]

def isBlank (c : Char) : Bool := inRanges blankRanges c

def dropBlanks (cs : List Char) : List Char := cs.dropWhile isBlank

def trimChars (cs : List Char) : List Char := (dropBlanks (dropBlanks cs).reverse).reverse

def trim (text : String) : String := String.ofList (trimChars text.toList)

def withoutTrailing (mark : Char) (text : String) : String :=
  String.ofList (text.toList.reverse.dropWhile (· = mark)).reverse

@[simp] theorem toList_trim (text : String) : (trim text).toList = trimChars text.toList := by
  simp [trim]

theorem dropBlanks_length_le (cs : List Char) : (dropBlanks cs).length ≤ cs.length :=
  (List.dropWhile_sublist _).length_le

theorem dropBlanks_head {cs rest : List Char} {c : Char} (h : dropBlanks cs = c :: rest) :
    isBlank c = false := by
  induction cs with
  | nil => simp [dropBlanks] at h
  | cons d ds ih =>
    by_cases hd : isBlank d = true
    · exact ih (by simpa [dropBlanks, hd] using h)
    · have : d = c ∧ ds = rest := by simpa [dropBlanks, hd] using h
      simpa [← this.1] using hd

end TerraformDocs.Text
