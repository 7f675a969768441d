import TerraformDocs.Error
import TerraformDocs.Project.Tool
import TerraformDocs.Text.Line
import TerraformDocs.Text.Utf8

/-!
# Initializing a project

The init tool runs in the project's directory, and each line of its output is passed on as soon as
it is there.  A line that is not text stops the tool: the lines before it have been passed on, none
behind it will be.
-/

namespace TerraformDocs

structure InitRun where
  lines : List String
  errors : List UInt8
  outcome : Except Error Unit

namespace InitRun

/-- The texts before the first item that is none, and whether there is such an item. -/
def textsBefore : List (List UInt8) → List String × Bool
  | [] => ([], false)
  | bytes :: others =>
    match Text.Utf8.decode? bytes with
    | none => ([], true)
    | some cs =>
      let (texts, stopped) := textsBefore others
      (String.ofList cs :: texts, stopped)

def verdict (command : String) : ExitStatus → Except Error Unit
  | .code 0 => .ok ()
  | .code (value + 1) => .error (.initFailed command (some (value + 1 : Nat)))
  | .signal => .error (.initFailed command none)

def ofToolRun (command : String) (run : ToolRun) : InitRun :=
  let (lines, stopped) := textsBefore (Text.byteLines run.output)
  { lines
    errors := run.errors
    outcome := if stopped then .error (.io .notUtf8) else verdict command run.status }

end InitRun

def runInit (tools : Toolbox) (files : FileTree) (command : List String) : InitRun :=
  match command with
  | [] => ⟨[], [], .error .initCommandEmpty⟩
  | program :: arguments =>
    let name := " ".intercalate command
    match tools files program arguments with
    | .error cause => ⟨[], [], .error (.initSpawn name cause)⟩
    | .ok run => InitRun.ofToolRun name run

end TerraformDocs
