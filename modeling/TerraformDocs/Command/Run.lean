import TerraformDocs.Command.Links
import TerraformDocs.Command.Versions
import TerraformDocs.Project.Init
import TerraformDocs.Project.State

/-!
# Running commands

A command that fails explains its error and exits with 3.  Headings of the explanation are bold.
-/

namespace TerraformDocs

def bold (text : String) : String := "\x1b[1m" ++ text ++ "\x1b[0m"

def Error.display (error : Error) : String :=
  String.join ((Text.lines error.markdown.toList).map fun line =>
    let text := String.ofList line
    (if line.head? = some '#' then bold text else text) ++ "\n")

namespace CommandRun

def fail (output errors : String) (error : Error) : CommandRun :=
  ⟨3, output, errors ++ error.display, [], some error⟩

end CommandRun

def runStatus (environment : Environment) : Except Error CommandRun := do
  let root : Path := ⟨"."⟩
  let config ← Config.load environment.files root
  let uninitialized (reason : String) : CommandRun :=
    { exitCode := 1
      output := "Uninitialized (" ++ reason ++ ")\n"
      errors := "\nhint: documentation links fall back to latest versions until the project is " ++
        "initialized:\n  tfdoc init\n"
      requests := []
      failure := none }
  match ← ProjectState.detect environment.files root config.lockFile with
  | .initialized => return .succeed "Initialized\n" []
  | .notAConfiguration => .error (.notAConfiguration root)
  | .uninitialized .missingLockFile => return uninitialized "no provider lock file"
  | .uninitialized .missingWorkingDirectory => return uninitialized "no .terraform directory"

def runInitCommand (environment : Environment) : Except Error CommandRun := do
  let root : Path := ⟨"."⟩
  let config ← Config.load environment.files root
  if (← ProjectState.detect environment.files root config.lockFile) = .notAConfiguration then
    .error (.notAConfiguration root)
  else
    let run := runInit environment.tools environment.files config.initCommand
    let output := String.join (run.lines.map (· ++ "\n"))
    let errors :=
      "Running `" ++ " ".intercalate config.initCommand ++ "`\n" ++ Text.Utf8.shown run.errors
    match run.outcome with
    | .ok () =>
      let done := "Initialized. Documentation lookups now use locked provider versions.\n"
      return { CommandRun.succeed output [] with errors := errors ++ done }
    | .error error => return .fail output errors error

namespace Invocation

def run (environment : Environment) (invocation : Invocation) : CommandRun :=
  let result := match invocation with
    | init => runInitCommand environment
    | links file flags => runLinks environment file flags
    | lookup file line column flags => runLookup environment file line column flags
    | status => runStatus environment
    | versions flags => runVersions environment flags
  match result with
  | .ok run => run
  | .error error => .fail "" "" error

end Invocation

def runCommandLine (environment : Environment) (words : List String) :
    Except UsageError CommandRun :=
  (Invocation.ofWords words).map (Invocation.run environment)

end TerraformDocs
