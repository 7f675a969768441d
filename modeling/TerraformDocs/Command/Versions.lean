import TerraformDocs.Command.Session
import TerraformDocs.Json.Printer

/-!
# Listing locked versions

One row for each locked provider: what the lock file says, and the version that documentation links
show.
-/

namespace TerraformDocs

structure VersionRow where
  source : ProviderSource
  locked : Option String
  constraints : Option String
  hashCount : Nat
  platforms : List String
  satisfies : Option Bool
  resolved : Option String
  isLatest : Option Bool
deriving DecidableEq, Repr

namespace VersionRow

variable {σ : Type}

def ofLock (context : LookupContext σ) (lock : ProviderLock) :
    StateM (LookupState σ) VersionRow := do
  let resolved := lock.version.map fun locked => context.strategy.resolve locked lock.constraints
  let isLatest ← match context.newest, resolved with
    | some ask, some version => some <$> isNewest ask lock.source version
    | _, _ => pure none
  let satisfies := match lock.version, lock.constraints with
    | some locked, some constraints => some (Version.lockedSatisfies locked constraints)
    | _, _ => none
  return {
    source := lock.source
    locked := lock.version
    constraints := lock.constraints
    hashCount := lock.hashes.length
    platforms := lock.platforms
    satisfies
    resolved
    isLatest }

def json (row : VersionRow) : JsonValue :=
  .object [
    ("constraints", .ofOption .string row.constraints),
    ("hash_count", .number row.hashCount),
    ("latest", .ofOption .boolean row.isLatest),
    ("locked", .ofOption .string row.locked),
    ("locked_satisfies", .ofOption .boolean row.satisfies),
    ("platforms", .array (row.platforms.map .string)),
    ("resolved", .ofOption .string row.resolved),
    ("source", .string row.source.text)]

def text (row : VersionRow) : String :=
  let constraints := match row.constraints with
    | some expression => "  (" ++ expression ++ ")"
    | none => ""
  let violation := if row.satisfies = some false then "  [outside constraints]" else ""
  let marker := if row.isLatest = some true then "  [latest]" else ""
  row.source.text ++ "  " ++ row.locked.getD "-" ++ constraints ++ violation ++ "  -> " ++
    row.resolved.getD DocTarget.latest ++ marker

end VersionRow

def runVersions (environment : Environment) (flags : LinkFlags) : Except Error CommandRun := do
  let root : Path := ⟨"."⟩
  let session ← Session.open? environment.files root flags
  match session.lockFile with
  | none => .error (.lockFileNotFound root)
  | some lockFile =>
    let context := session.context environment
    let (rows, state) := (lockFile.providers.mapM (VersionRow.ofLock context)) (.fresh [])
    let output :=
      if flags.json then JsonValue.render 0 (.array (rows.map VersionRow.json)) ++ "\n"
      else String.join (rows.map fun row => row.text ++ "\n")
    return .succeed output state.source

end TerraformDocs
