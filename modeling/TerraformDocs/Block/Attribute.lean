import TerraformDocs.Block.State
import TerraformDocs.Document
import TerraformDocs.Text.Scan

/-!
# Attributes of a block

The attributes of a block are looked up in its own text: what stands between its braces, without
the nested blocks and without any brace.  An attribute's name starts a line of that text or
follows a blank or a semicolon, and its value is a quoted text.
-/

namespace TerraformDocs

open TerraformDocs.Text

namespace BlockState

def ownText : BlockState → List Char → List Char × BlockState
  | state, [] => ([], state)
  | state, c :: cs =>
    match state.step c with
    | closed => ([], closed)
    | next =>
      let (own, last) := ownText next cs
      (if state = inside 0 ∧ c ≠ '{' ∧ c ≠ '}' then c :: own else own, last)

/-- The block's own text in some lines; a line ends with a line feed once the block is open. -/
def ownLines : BlockState → List (List Char) → List Char
  | _, [] => []
  | state, line :: lines =>
    match ownText state line with
    | (own, closed) => own
    | (own, unopened) => own ++ ownLines unopened lines
    | (own, inside nested) => own ++ '\n' :: ownLines (inside nested) lines

end BlockState

def valueHere? (name cs : List Char) : Option (List Char) := do
  let cs ← name.isPrefixOf? cs
  let cs ← ['='].isPrefixOf? (dropBlanks cs)
  let (value, _) ← quoted? (dropBlanks cs)
  return value

def firstValue? (name : List Char) (lineStart : Bool) : List Char → Option (List Char)
  | [] => none
  | c :: cs =>
    (if lineStart then valueHere? name (c :: cs) else none) <|>
      (if isBlank c || c = ';' then valueHere? name cs else none) <|>
        firstValue? name (c = '\n') cs

namespace Document

def blockText (document : Document) (start : Nat) : List Char :=
  BlockState.ownLines .unopened ((document.lines.drop start).map String.toList)

def blockAttribute? (document : Document) (start : Nat) (name : String) : Option String :=
  (firstValue? name.toList true (document.blockText start)).map String.ofList

end Document

end TerraformDocs
