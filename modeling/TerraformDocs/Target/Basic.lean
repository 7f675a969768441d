import TerraformDocs.Declaration.Basic
import TerraformDocs.Files.Tree
import TerraformDocs.LockFile.Basic
import TerraformDocs.ModuleCall.Source
import TerraformDocs.Version.Parser

/-!
# Documentation targets

A target is a documentation page or a place in the file tree.  The page of a resource or data
source lies in the registry under its provider and version; a module has a page in its registry or
a directory of its own.
-/

namespace TerraformDocs

inductive DocTarget where
  | navigate (path : Path)
  | url (address : String)
deriving DecidableEq, Repr

namespace DocTarget

def text : DocTarget → String
  | navigate path => path.text
  | url address => address

def latest : String := "latest"

def docsUrl (registryUrl : String) (provider : ProviderSource) (version : String)
    (reference : ResourceReference) (fragment : Option String) : String :=
  registryUrl ++ "/providers/" ++ provider.publisher ++ "/" ++ provider.name ++ "/" ++ version ++
    "/docs/" ++ reference.kind.docsCategory ++ "/" ++ reference.type ++
    match fragment with
    | some section_ => "#" ++ section_
    | none => ""

def exactVersion? (version : Option String) : Option String :=
  version.filter fun text => (Version.ofString? text).isSome

/-- The target of a module.  A path starts at the directory of the declaring document and leads to
the main file of the module if there is one. -/
def ofModule? (files : FileTree) (document : Path) (source : String) (version : Option String)
    (registryUrl : String) : Option DocTarget :=
  match ModuleSource.ofString? source with
  | none => none
  | some (.localPath path) =>
    let directory := ((document.parent?.getD ⟨""⟩).join path).normalize
    let main := directory.join ⟨"main.tf"⟩
    some (navigate (if files.isFile main then main else directory))
  | some (.publicRegistry publisher name provider) =>
    some (url (registryUrl ++ "/modules/" ++ publisher ++ "/" ++ name ++ "/" ++ provider ++ "/" ++
      (exactVersion? version).getD latest))
  | some (.privateRegistry host publisher name provider) =>
    some (url ("https://" ++ host ++ "/app/" ++ publisher ++ "/registry/modules/private/" ++
      publisher ++ "/" ++ name ++ "/" ++ provider ++
      match exactVersion? version with
      | some text => "/" ++ text
      | none => ""))

end DocTarget

end TerraformDocs
