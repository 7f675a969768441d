import TerraformDocs.Text.Digit
import TerraformDocs.Version.Clause

/-!
# Constraint expressions

An expression is a list of clauses with commas between them.  The literal of a clause is the first
full version written in it, whatever stands around it.  Literals are found by shape alone: their
digits may come from any script and have any length, so a literal need not be a version.
-/

namespace TerraformDocs.Version

open TerraformDocs.Text

def literalTag : List Char → List Char
  | '-' :: cs =>
    match cs.takeWhile isTagChar with
    | [] => []
    | tag => '-' :: tag
  | _ => []

def literalAt? (cs : List Char) : Option (List Char) := do
  let (major, cs) ← run? isDecimalDigit cs
  let cs ← ['.'].isPrefixOf? cs
  let (minor, cs) ← run? isDecimalDigit cs
  let cs ← ['.'].isPrefixOf? cs
  let (patch, cs) ← run? isDecimalDigit cs
  return major ++ '.' :: minor ++ '.' :: patch ++ literalTag cs

def firstLiteral? : List Char → Option (List Char)
  | [] => none
  | c :: cs => literalAt? (c :: cs) <|> firstLiteral? cs

def clauses (expression : List Char) : List (List Char) :=
  (expression.splitOn ',').map trimChars

def literals (expression : String) : List String :=
  ((clauses expression.toList).filterMap fun clause =>
    (firstLiteral? clause).map String.ofList).eraseDups

def lockedSatisfies (locked expression : String) : Bool :=
  ((clauses expression.toList).filter fun clause => (firstLiteral? clause).isSome).all
    fun clause => satisfies locked (String.ofList clause)

end TerraformDocs.Version
