import TerraformDocs.Block.State
import TerraformDocs.Declaration.Recognizer
import TerraformDocs.Document

/-!
# What a position stands in

The enclosing block of a position is that of the nearest declaration at or above it whose block is
still open there.  The attribute at a position is the one whose name the position touches; it
belongs to the enclosing block, at some depth of nested blocks.
-/

namespace TerraformDocs

open TerraformDocs.Text

structure EnclosingBlock where
  declaration : Declaration
  line : Nat
deriving DecidableEq, Repr

/-- An attribute's name, and the number of nested blocks between it and its declaration. -/
structure AttributeContext where
  name : String
  level : Nat
deriving DecidableEq, Repr

namespace AttributeContext

def fragment (context : AttributeContext) : String :=
  if context.level = 0 then context.name else context.name ++ "-" ++ context.level.repr

end AttributeContext

def isAttributeChar (c : Char) : Bool := c.isLower || c.isDigit || c = '_'

/-- The attribute assigned on a line: the number of blanks before its name, and the name.  The
value may start on a later line, but it does not go on to another. -/
def assignment? (line : List Char) : Option (Nat × List Char) := do
  let (name, rest) ← run? isAttributeChar (dropBlanks line)
  let value ← ['='].isPrefixOf? (dropBlanks rest)
  if '\n' ∈ dropBlanks value then none
  else some ((line.takeWhile isBlank).length, name)

/-- The attribute whose name `character` touches; both ends of the name count. -/
def attributeAt? (line : String) (character : Nat) : Option String := do
  let (start, name) ← assignment? line.toList
  if start ≤ character ∧ character ≤ start + name.length then some (String.ofList name) else none

namespace Document

def openAt (document : Document) (start : Nat) (position : Position) : Bool :=
  (BlockState.after (document.textBefore start position)).isInside

/-- The number of nested blocks between `position` and the block that opens at line `start`. -/
def nestingLevel (document : Document) (start : Nat) (position : Position) : Nat :=
  nestingAfter (document.textBefore start position)

def enclosingAbove? (document : Document) (position : Position) : Nat → Option EnclosingBlock
  | 0 => none
  | line + 1 =>
    match (document.line? line).bind Declaration.ofLine? with
    | some declaration =>
      if document.openAt line position then some ⟨declaration, line⟩
      else document.enclosingAbove? position line
    | none => document.enclosingAbove? position line

def enclosingBlock? (document : Document) (position : Position) : Option EnclosingBlock :=
  document.enclosingAbove? position (min (position.line + 1) document.lineCount)

def attributeContext? (document : Document) (position : Position) :
    Option (EnclosingBlock × AttributeContext) := do
  let line ← document.line? position.line
  let name ← attributeAt? line position.character
  let block ← document.enclosingBlock? position
  return (block, ⟨name, document.nestingLevel block.line position⟩)

end Document

end TerraformDocs
