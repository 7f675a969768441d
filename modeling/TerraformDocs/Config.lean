import TerraformDocs.Error
import TerraformDocs.Files.Tree
import TerraformDocs.Toml.Settings
import TerraformDocs.Version.Strategy

/-!
# Configuration

A project may have a settings file, `.tfdoc.toml`.  Without the file every setting has its default;
a file with a fault in it is an error, never a reason to fall back to the defaults.
-/

namespace TerraformDocs

structure Config where
  initCommand : List String
  latest : Bool
  lockFile : String
  lookupTimeout : Nat  -- in milliseconds
  registryUrl : String
  strategy : Strategy
deriving DecidableEq, Repr

namespace Config

def fileName : String := ".tfdoc.toml"

def default : Config where
  initCommand := ["terraform", "init"]
  latest := true
  lockFile := ".terraform.lock.hcl"
  lookupTimeout := 3000
  registryUrl := "https://registry.terraform.io"
  strategy := .high

def set? (config : Config) : String × Toml.Value → Option Config
  | ("init_command", .strings items) => some { config with initCommand := items }
  | ("latest", .boolean value) => some { config with latest := value }
  | ("lockfile", .string text) => some { config with lockFile := text }
  | ("lookup_timeout_ms", .integer value) =>
    if 0 ≤ value then some { config with lookupTimeout := value.toNat } else none
  | ("registry_url", .string text) =>
    some { config with registryUrl := Text.withoutTrailing '/' text }
  | ("strategy", .string text) => some { config with strategy := Strategy.ofName text }
  | _ => none

def ofText? (text : String) : Option Config := do
  (← Toml.settings? text).foldlM set? default

def load (files : FileTree) (root : Path) : Except Error Config :=
  match files.readText (root.join ⟨fileName⟩) with
  | .error .notFound => .ok default
  | .error cause => .error (.io cause)
  | .ok text =>
    match ofText? text with
    | some config => .ok config
    | none => .error .invalidConfig

end Config

end TerraformDocs
