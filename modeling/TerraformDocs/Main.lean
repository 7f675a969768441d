import TerraformDocs.Command.Run
import TerraformDocs.Shell.Run

/-!
# The program

The program takes a picture of the files around it, runs its command on the picture, and writes
what the command has written.  It is connected to no network, and an init tool that it runs sees
and changes only the picture.
-/

namespace TerraformDocs.Picture

def locationOf (path : String) : Location :=
  (Path.components ⟨path⟩).filterMap fun
    | .name text => some text
    | _ => none

def sizeLimit : UInt64 := 16777216

def contentOf (path : String) : IO Node := do
  try
    return .file (← IO.FS.readBinFile path).toList
  catch _ => return .file []

/-- What stands at and below the entries of a directory.  Hidden directories are not entered, nor
any if `deep` is false. -/
partial def below (deep : Bool) (directory : String) : IO (List (Location × Node)) := do
  let mut nodes := []
  let entries ← try (← IO.FS.realPath directory).readDir catch _ => pure #[]
  for entry in entries do
    let path := entry.path.toString
    let place := locationOf path
    let found ← entry.path.symlinkMetadata
    match found.type with
    | .dir =>
      nodes := (place, .directory) :: nodes
      if deep && !entry.fileName.startsWith "." then nodes := (← below true path) ++ nodes
    | .symlink =>
      let target := (← IO.FS.realPath path).toString
      nodes := (place, .link ⟨target⟩) :: nodes
    | .file =>
      let node ← if found.byteSize ≤ sizeLimit then contentOf path else pure (Node.file [])
      nodes := (place, node) :: nodes
    | .other => pure ()
  return nodes

def directoriesTo (place : Location) : List (Location × Node) :=
  (List.range place.length).map fun count => (place.take (count + 1), .directory)

def take (words : List String) : IO FileTree := do
  let here := (← IO.currentDir).toString
  let named := (words.filter fun word => word.startsWith "/" || word.contains "..").map fun word =>
    (Path.directory ⟨word⟩).text
  let mut nodes := directoriesTo (locationOf here) ++ (← below true here)
  for directory in named do
    let start := locationOf (← IO.FS.realPath directory).toString
    nodes := nodes ++ directoriesTo start ++ (← below true directory)
    for above in (directoriesTo start).dropLast do
      nodes := nodes ++ (← below false ("/" ++ "/".intercalate above.1))
  return ⟨nodes, locationOf here⟩

end TerraformDocs.Picture

namespace TerraformDocs

def UsageError.report : UsageError → String
  | .displayVersion => "tfdoc 0.1.0\n"
  | _ =>
    "Documentation lookup and navigation for Terraform configuration\n\n" ++
      "Usage: tfdoc [-v] <init|links|lookup|status|versions> [arguments and options]\n"

end TerraformDocs

open TerraformDocs in
def main (words : List String) : IO UInt32 := do
  let environment : Environment := ⟨← Picture.take words, Registry.disconnected, Shell.start⟩
  match runCommandLine environment words with
  | .ok run =>
    IO.print run.output
    IO.eprint run.errors
    return run.exitCode.toUInt32
  | .error problem =>
    if problem.exitCode = 0 then IO.print problem.report else IO.eprint problem.report
    return problem.exitCode.toUInt32
