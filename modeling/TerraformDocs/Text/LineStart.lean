import TerraformDocs.Text.Scan

/-!
# Readings at line starts

A `LineReader` reads an item somewhere at the start of a text and uses some of it up.  `readings`
are the items that a reader finds in a text when it is tried at every line start, from left to
right, and after an item goes on behind it.
-/

namespace TerraformDocs.Text

structure LineReader (α : Type) where
  read : List Char → Option (α × List Char)
  shrinks : ∀ {cs item rest}, read cs = some (item, rest) → rest.length < cs.length

/-- The readings in `cs`, each with the text behind it; `lineStart` says whether a line starts
here. -/
def LineReader.readingsFrom {α : Type} (reader : LineReader α) (lineStart : Bool)
    (cs : List Char) : List (α × List Char) :=
  match _h : if lineStart then reader.read cs else none with
  | some (item, rest) => (item, rest) :: reader.readingsFrom false rest
  | none =>
    match cs with
    | [] => []
    | c :: cs => reader.readingsFrom (c = '\n') cs
termination_by cs.length
decreasing_by
  · split at _h
    · exact reader.shrinks _h
    · cases _h
  · simp

def LineReader.readings {α : Type} (reader : LineReader α) (cs : List Char) :
    List (α × List Char) :=
  reader.readingsFrom true cs

end TerraformDocs.Text
