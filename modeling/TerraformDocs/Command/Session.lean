import TerraformDocs.Command.Usage
import TerraformDocs.Config
import TerraformDocs.LockFile.Discovery
import TerraformDocs.Project.Tool
import TerraformDocs.Registry.Client
import TerraformDocs.Target.Lookup

/-!
# Sessions

The commands work in an environment: files, a network and tools.  A session is what a command that
looks up documentation knows of it: the configuration, with the options of the command line in
place of its settings, the nearest lock file, and whether the registry may be asked.
-/

namespace TerraformDocs

structure Environment where
  files : FileTree
  network : Registry.Network
  tools : Toolbox

structure CommandRun where
  exitCode : Nat
  output : String
  errors : String
  requests : List String
  failure : Option Error

namespace CommandRun

def succeed (output : String) (requests : List String) : CommandRun :=
  ⟨0, output, "", requests, none⟩

end CommandRun

structure Session where
  config : Config
  lockFile : Option LockFile
  online : Bool

namespace Session

def open? (files : FileTree) (start : Path) (flags : LinkFlags) : Except Error Session := do
  let config ← Config.load files ⟨"."⟩
  let config := match flags.strategy with
    | some name => { config with strategy := Strategy.ofName name }
    | none => config
  let lockFile ← LockFile.discover files start config.lockFile
  return ⟨config, lockFile, config.latest && !flags.offline⟩

def context (session : Session) (environment : Environment) : LookupContext (List String) where
  files := environment.files
  lockFile := session.lockFile
  registryUrl := session.config.registryUrl
  strategy := session.config.strategy
  newest :=
    if session.online then some (Registry.source environment.network session.config.registryUrl)
    else none

end Session

def LookupState.fresh {σ : Type} (source : σ) : LookupState σ := ⟨.empty, source⟩

def Document.read (files : FileTree) (path : Path) : Except Error Document :=
  (files.readNamed path).map Document.ofText

end TerraformDocs
