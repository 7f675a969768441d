import TerraformDocs.Text.Line

/-!
# Documents and positions

A document is its list of lines.  A position counts lines and characters from zero and may lie
outside the document.
-/

namespace TerraformDocs

structure Position where
  line : Nat
  character : Nat
deriving DecidableEq, Repr

structure Document where
  lines : List String
deriving DecidableEq, Repr

namespace Document

def ofText (text : String) : Document := ⟨(Text.lines text.toList).map String.ofList⟩

def lineCount (document : Document) : Nat := document.lines.length

def line? (document : Document) (index : Nat) : Option String := document.lines[index]?

/-- The characters from the start of line `start` up to `position`, without line ends. -/
def textBefore (document : Document) (start : Nat) (position : Position) : List Char :=
  ((document.lines.take position.line).drop start).flatMap String.toList ++
    if start ≤ position.line then
      ((document.line? position.line).getD "").toList.take position.character
    else []

end Document

end TerraformDocs
