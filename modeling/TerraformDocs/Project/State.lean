import TerraformDocs.Declaration.Recognizer
import TerraformDocs.Error
import TerraformDocs.Files.Tree
import TerraformDocs.Text.Line

/-!
# States of a project

A directory is a configuration when it holds a configuration file, and is ready for lookups when
the init tool has run there: it has left its working directory and, if anything is declared that
needs a provider, a lock file.
-/

namespace TerraformDocs

/-- The node that a path names, not followed if it is a link. -/
def FileTree.nodeAt? (files : FileTree) (path : Path) : Option Node :=
  match path.pieces.getLast? with
  | none => none
  | some last =>
    if Path.isFiller last ∨ last = ['.', '.'] then (files.lookup path).toOption
    else
      match files.locate path.directory with
      | .ok place => files.node? (place ++ [String.ofList last])
      | .error _ => none

inductive UninitializedReason where
  | missingLockFile
  | missingWorkingDirectory
deriving DecidableEq, Repr

inductive ProjectState where
  | initialized
  | notAConfiguration
  | uninitialized (reason : UninitializedReason)
deriving DecidableEq, Repr

namespace ProjectState

def workingDirectory : String := ".terraform"

def isConfigurationName (name : String) : Bool :=
  ".tf".toList.isSuffixOf name.toList && 3 < name.toList.length

/-- The content of the configuration files of a directory, or of the one file that `root` is.
Links count as no files. -/
def configurationFiles (files : FileTree) (root : Path) : List (List UInt8) :=
  match files.lookup root with
  | .ok .directory =>
    match files.locate root with
    | .ok place =>
      (files.entries place).filterMap fun (name, node) =>
        match node with
        | .file bytes => if isConfigurationName name then some bytes else none
        | _ => none
    | .error _ => []
  | .ok (.file bytes) =>
    match files.nodeAt? root, root.components.getLast? with
    | some (.file _), some (.name name) => if isConfigurationName name then [bytes] else []
    | _, _ => []
  | _ => []

def declaresResource (cs : List Char) : Bool :=
  (Text.lines cs).any fun line =>
    match Declaration.ofLine? (String.ofList line) with
    | some (.resource _) => true
    | _ => false

def detect (files : FileTree) (root : Path) (lockFile : String) : Except Error ProjectState :=
  let contents := configurationFiles files root
  match contents.mapM Text.Utf8.decode? with
  | none => .error (.io .notUtf8)
  | some texts =>
    if texts = [] then .ok notAConfiguration
    else if !files.isDirectory (root.join ⟨workingDirectory⟩) then
      .ok (uninitialized .missingWorkingDirectory)
    else if texts.any declaresResource ∧ !files.isFile (root.join ⟨lockFile⟩) then
      .ok (uninitialized .missingLockFile)
    else .ok initialized

end ProjectState

end TerraformDocs
