import TerraformDocs.Files.Path
import TerraformDocs.Files.SystemError

/-!
# Errors

The ways in which a command can fail.  A lookup that finds nothing is no error.  Each error has a
one-line message and a longer explanation in Markdown, which starts with a heading and ends with a
line feed.
-/

namespace TerraformDocs

inductive Error where
  | fileNotFound (path : Path)
  | initCommandEmpty
  | initFailed (command : String) (code : Option Int)  -- no code: stopped by a signal
  | initSpawn (command : String) (cause : SystemError)
  | invalidPosition (path : Path) (line column lineCount : Nat)  -- counted from one
  | io (cause : SystemError)
  | json (wording : String)
  | lockFileNotFound (path : Path)
  | notAConfiguration (path : Path)
  | invalidConfig
deriving DecidableEq, Repr

namespace Error

def message : Error → String
  | fileNotFound path => s!"file not found: {path.text}"
  | initCommandEmpty => "init command is empty"
  | initFailed command none => "`" ++ command ++ "` failed"
  | initFailed command (some code) => "`" ++ command ++ "` failed with exit code " ++ toString code
  | initSpawn command cause => "could not start `" ++ command ++ "`: " ++ cause.message
  | invalidPosition path line column lineCount =>
    s!"position {line}:{column} is outside {path.text} ({lineCount} lines)"
  | io cause => "io: " ++ cause.message
  | json wording => "json: " ++ wording
  | lockFileNotFound path => s!"lockfile not found: {path.text}"
  | notAConfiguration path => s!"no .tf files in {path.text}"
  | invalidConfig => "toml deserialize: invalid configuration"

def explain (heading : String) (paragraphs : List String) : String :=
  "\n\n".intercalate (("# " ++ heading) :: paragraphs) ++ "\n"

def markdown : Error → String
  | fileNotFound path =>
    explain "Error: File Not Found" ["`" ++ path.text ++ "` does not exist."]
  | initCommandEmpty =>
    explain "Error: Empty Init Command"
      ["`init_command` in `.tfdoc.toml` must name a program.", "## Fix",
        "    init_command = [\"terraform\", \"init\"]"]
  | initFailed command code =>
    let status := match code with
      | some code => "exited with code " ++ toString code
      | none => "was terminated by a signal"
    explain "Error: Init Failed"
      ["`" ++ command ++ "` " ++ status ++ ". Its output is shown above."]
  | initSpawn command cause =>
    explain "Error: Init Command Not Started"
      ["`" ++ command ++ "` could not be started: " ++ cause.message, "## Fix",
        "Install the tool, or point `init_command` in `.tfdoc.toml` at it."]
  | invalidPosition path line column lineCount =>
    explain "Error: Invalid Position"
      ["`" ++ toString line ++ ":" ++ toString column ++ "` is outside `" ++ path.text ++
        "`, which has " ++ toString lineCount ++ " lines.",
        "Lines and columns are one-based."]
  | io cause => explain "Error: I/O" [cause.message]
  | json wording => explain "Error" ["json: " ++ wording]
  | lockFileNotFound path =>
    explain "Error: Lockfile Not Found"
      ["No `.terraform.lock.hcl` in `" ++ path.text ++ "` or any parent directory.", "## Fix",
        "Initialize the configuration to create it:", "    tfdoc init"]
  | notAConfiguration path =>
    explain "Error: Not A Configuration" ["`" ++ path.text ++ "` contains no `.tf` files."]
  | invalidConfig =>
    explain "Error: Invalid Config"
      ["`.tfdoc.toml` could not be parsed:", "invalid configuration", "## Fix",
        "Recognized keys: `strategy`, `registry_url`, `latest`, `lookup_timeout_ms`,\n" ++
          "`lockfile`, `init_command`."]

end Error

end TerraformDocs
