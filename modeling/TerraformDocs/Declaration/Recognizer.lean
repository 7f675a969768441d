import TerraformDocs.Declaration.Basic
import TerraformDocs.Text.Scan

/-!
# Recognising declarations

A line declares something when it starts, after blanks, with `resource`, `data` or `module` and
the quoted labels that belong to the word.  What follows the labels does not matter.
-/

namespace TerraformDocs.Declaration

open TerraformDocs.Text

def isProviderChar (c : Char) : Bool := c.isAlpha || c = '-'

def isTypeChar (c : Char) : Bool := c.isLower || c.isDigit || c = '_'

/-- The provider and the type in a label: what stands before its first underscore and after it. -/
def typeLabel? (label : List Char) : Option (List Char × List Char) := do
  let (provider, type) ← upTo? '_' label
  if provider ≠ [] ∧ provider.all isProviderChar ∧ type ≠ [] ∧ type.all isTypeChar then
    some (provider, type)
  else none

def resourceLabels? (kind : BlockKind) (cs : List Char) : Option ResourceReference := do
  let cs ← kind.keyword.toList.isPrefixOf? cs
  let cs ← afterGap? cs
  let (label, cs) ← label? cs
  let (provider, type) ← typeLabel? label
  let cs ← afterGap? cs
  let (name, _) ← label? cs
  return ⟨kind, String.ofList provider, String.ofList type, String.ofList name⟩

def moduleLabel? (cs : List Char) : Option String := do
  let cs ← "module".toList.isPrefixOf? cs
  let cs ← afterGap? cs
  let (name, _) ← label? cs
  return String.ofList name

def ofLine? (line : String) : Option Declaration :=
  let cs := dropBlanks line.toList
  (resourceLabels? .resource cs).map resource <|> (resourceLabels? .dataSource cs).map resource <|>
    (moduleLabel? cs).map moduleCall

end TerraformDocs.Declaration
