import TerraformDocs.Text.Blank

/-!
# Provider locks

A lock file records, for each provider of a configuration, the exact version in use, the
constraints that led to it, and the checksums and platforms of its packages.
-/

namespace TerraformDocs

open TerraformDocs.Text

/-- A provider, whichever registry hosts it. -/
structure ProviderSource where
  publisher : String
  name : String
deriving DecidableEq, Repr

namespace ProviderSource

def defaultPublisher : String := "hashicorp"

/-- Reads `host/publisher/name`, `publisher/name` or `name`, between blanks. -/
def ofChars? (source : List Char) : Option ProviderSource :=
  match (trimChars source).splitOn '/' with
  | [_, publisher, name] | [publisher, name] =>
    if publisher ≠ [] ∧ name ≠ [] then
      some ⟨String.ofList publisher, String.ofList name⟩
    else none
  | [name] => if name ≠ [] then some ⟨defaultPublisher, String.ofList name⟩ else none
  | _ => none

def ofString? (source : String) : Option ProviderSource := ofChars? source.toList

def text (source : ProviderSource) : String := source.publisher ++ "/" ++ source.name

end ProviderSource

structure ProviderLock where
  source : ProviderSource
  version : Option String
  constraints : Option String
  hashes : List String
  platforms : List String
deriving DecidableEq, Repr

structure LockFile where
  providers : List ProviderLock
deriving DecidableEq, Repr

namespace LockFile

/-- The first lock of a provider with this name, whoever publishes it. -/
def providerNamed? (lockFile : LockFile) (name : String) : Option ProviderLock :=
  lockFile.providers.find? fun lock => lock.source.name = name

end LockFile

end TerraformDocs
