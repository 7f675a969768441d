import TerraformDocs.Files.Path
import TerraformDocs.Text.Scan

/-!
# Sources of modules

A module call says where its module comes from.  Paths and registry addresses lead to
documentation; sources that are fetched in other ways, from Git or by HTTP, do not.
-/

namespace TerraformDocs

open TerraformDocs.Text

inductive ModuleSource where
  | localPath (path : Path)
  | publicRegistry (publisher name provider : String)
  | privateRegistry (host publisher name provider : String)
deriving DecidableEq, Repr

namespace ModuleSource

def publicHost : String := "registry.terraform.io"

def isLocal (source : List Char) : Bool :=
  source = ".".toList || source = "..".toList ||
    ["./", "../", "/"].any fun start => start.toList.isPrefixOf source

/-- Whether a source has a form that no registry address has. -/
def isRemote (source : List Char) : Bool :=
  ["::", "://", "?"].any fun mark => occurs mark.toList source

def ofSegments? (segments : List String) : Option ModuleSource :=
  if "" ∈ segments then none
  else
    match segments with
    | [publisher, name, provider] =>
      if '.' ∈ publisher.toList then none else some (publicRegistry publisher name provider)
    | [host, publisher, name, provider] =>
      if host = publicHost then some (publicRegistry publisher name provider)
      else if '.' ∈ host.toList then some (privateRegistry host publisher name provider)
      else none
    | _ => none

/-- Reads a source between blanks.  What follows two slashes in a registry address is a directory
of the same module. -/
def ofString? (source : String) : Option ModuleSource :=
  let source := trimChars source.toList
  if isLocal source then some (localPath (Path.ofChars source))
  else if isRemote source then none
  else ofSegments? (((before "//".toList source).splitOn '/').map String.ofList)

end ModuleSource

end TerraformDocs
