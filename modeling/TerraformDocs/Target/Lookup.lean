import TerraformDocs.Block.Attribute
import TerraformDocs.Block.Cursor
import TerraformDocs.Registry.Cache
import TerraformDocs.Target.Basic
import TerraformDocs.Version.Strategy

/-!
# Looking up documentation

A lookup takes a position of a document to a target, and the links of a document are the targets
of all its declarations.  Both need the provider locks and, if newest versions are to be shown as
`latest`, a version source, whose cache the lookups share.
-/

namespace TerraformDocs

/-- What lookups need besides the document; `newest` is absent when versions stay as they are. -/
structure LookupContext (σ : Type) where
  files : FileTree
  lockFile : Option LockFile
  registryUrl : String
  strategy : Strategy
  newest : Option (VersionSource σ)

/-- A declaration with its target; lines count from one. -/
structure DocumentLink where
  address : String
  line : Nat
  target : DocTarget
deriving DecidableEq, Repr

namespace LookupContext

variable {σ : Type}

/-- The provider with a short name, and the version of it to show.  A provider that is not locked
is taken to be one of the default publisher's, in its newest version. -/
def providerVersion (context : LookupContext σ) (name : String) :
    StateM (LookupState σ) (ProviderSource × String) :=
  match context.lockFile.bind (·.providerNamed? name) with
  | none => return (⟨ProviderSource.defaultPublisher, name⟩, DocTarget.latest)
  | some lock =>
    match lock.version with
    | none => return (lock.source, DocTarget.latest)
    | some locked => do
      let resolved := context.strategy.resolve locked lock.constraints
      match context.newest with
      | none => return (lock.source, resolved)
      | some ask =>
        if ← isNewest ask lock.source resolved then return (lock.source, DocTarget.latest)
        else return (lock.source, resolved)

def resourceTarget (context : LookupContext σ) (reference : ResourceReference)
    (fragment : Option String) : StateM (LookupState σ) DocTarget := do
  let (provider, version) ← context.providerVersion reference.provider
  return .url (DocTarget.docsUrl context.registryUrl provider version reference fragment)

def declarationTarget (context : LookupContext σ) (document : Document) (path : Path)
    (line : Nat) : Declaration → StateM (LookupState σ) (Option DocTarget)
  | .resource reference => do return some (← context.resourceTarget reference none)
  | .moduleCall _ =>
    return (document.blockAttribute? line "source").bind fun source =>
      DocTarget.ofModule? context.files path source (document.blockAttribute? line "version")
        context.registryUrl

/-- The target of what stands at a position: a declaration on its line, an attribute of a resource
or data source, or the source of a module call. -/
def targetAt (context : LookupContext σ) (document : Document) (path : Path)
    (position : Position) : StateM (LookupState σ) (Option DocTarget) :=
  match document.line? position.line with
  | none => return none
  | some line =>
    match Declaration.ofLine? line with
    | some declaration => context.declarationTarget document path position.line declaration
    | none =>
      match document.attributeContext? position with
      | none => return none
      | some (block, assigned) =>
        match block.declaration with
        | .resource reference => do
          return some (← context.resourceTarget reference (some assigned.fragment))
        | .moduleCall _ =>
          if assigned.name = "source" ∧ assigned.level = 0 then
            context.declarationTarget document path block.line block.declaration
          else return none

def linkAt (context : LookupContext σ) (document : Document) (path : Path) (line : Nat) :
    StateM (LookupState σ) (Option DocumentLink) :=
  match (document.line? line).bind Declaration.ofLine? with
  | none => return none
  | some declaration => do
    let target ← context.declarationTarget document path line declaration
    return target.map fun target => ⟨declaration.address, line + 1, target⟩

def links (context : LookupContext σ) (document : Document) (path : Path) :
    StateM (LookupState σ) (List DocumentLink) := do
  return (← (List.range document.lineCount).mapM (context.linkAt document path)).filterMap id

end LookupContext

end TerraformDocs
