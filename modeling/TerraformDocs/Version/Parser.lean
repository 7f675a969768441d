import TerraformDocs.Text.Scan
import TerraformDocs.Version.Basic

/-!
# Reading versions

A version is written `major.minor.patch` or `major.minor.patch-tag`, with blanks around it or not.
The components are ASCII decimal numbers below `componentLimit`, leading zeros allowed, and the tag
is a nonempty run of ASCII letters, digits, points and hyphens.
-/

namespace TerraformDocs.Version

open TerraformDocs.Text

def componentLimit : Nat := 18446744073709551616

def isTagChar (c : Char) : Bool := c.isAlphanum || c = '.' || c = '-'

def component? (cs : List Char) : Option (Nat × List Char) := do
  let (digits, rest) ← run? Char.isDigit cs
  let value := Nat.ofDigitChars 10 digits 0
  if value < componentLimit then some (value, rest) else none

def tag? : List Char → Option (Option String)
  | [] => some none
  | '-' :: tag =>
    if tag ≠ [] ∧ tag.all isTagChar then some (some (String.ofList tag)) else none
  | _ => none

def ofChars? (cs : List Char) : Option Version := do
  let (major, cs) ← component? cs
  let cs ← ['.'].isPrefixOf? cs
  let (minor, cs) ← component? cs
  let cs ← ['.'].isPrefixOf? cs
  let (patch, cs) ← component? cs
  let prerelease ← tag? cs
  return ⟨major, minor, patch, prerelease⟩

def ofString? (text : String) : Option Version := ofChars? (trimChars text.toList)

/-- The versions among some texts, oldest first; equal ones keep their places. -/
def sortedOf (texts : List String) : List Version :=
  (texts.filterMap ofString?).mergeSort fun a b => (compare a b).isLE

end TerraformDocs.Version
