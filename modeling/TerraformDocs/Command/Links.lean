import TerraformDocs.Command.Session
import TerraformDocs.Json.Printer

/-!
# Links and lookups

`links` lists the declarations of a file with their targets; `lookup` finds the target at one
place, which is given by a line and a column that count from one.
-/

namespace TerraformDocs

def DocTarget.json : DocTarget → JsonValue
  | navigate path => .object [("kind", .string "navigate"), ("path", .string path.text)]
  | url address => .object [("kind", .string "url"), ("url", .string address)]

namespace DocumentLink

def json (link : DocumentLink) : JsonValue :=
  .object [
    ("address", .string link.address),
    ("line", .number link.line),
    ("target", link.target.json)]

def text (file : Path) (link : DocumentLink) : String :=
  file.text ++ ":" ++ toString link.line ++ "\t" ++ link.address ++ "\t" ++ link.target.text

end DocumentLink

def runLinks (environment : Environment) (file : Path) (flags : LinkFlags) :
    Except Error CommandRun := do
  let document ← Document.read environment.files file
  let session ← Session.open? environment.files file.directory flags
  let (links, state) := ((session.context environment).links document file) (.fresh [])
  let output :=
    if flags.json then JsonValue.render 0 (.array (links.map DocumentLink.json)) ++ "\n"
    else String.join (links.map fun link => link.text file ++ "\n")
  return .succeed output state.source

/-- The position that a line and a column name.  The line must be in the document; the column may
lie behind the line's end. -/
def Document.position (document : Document) (file : Path) (line column : Nat) :
    Except Error Position :=
  if 1 ≤ line ∧ line ≤ document.lineCount ∧ 1 ≤ column then .ok ⟨line - 1, column - 1⟩
  else .error (.invalidPosition file line column document.lineCount)

def runLookup (environment : Environment) (file : Path) (line column : Nat) (flags : LinkFlags) :
    Except Error CommandRun := do
  let document ← Document.read environment.files file
  let position ← document.position file line column
  let session ← Session.open? environment.files file.directory flags
  let (target, state) :=
    ((session.context environment).targetAt document file position) (.fresh [])
  match target with
  | none =>
    let place := file.text ++ ":" ++ toString line ++ ":" ++ toString column
    return ⟨1, "", "No documentation target at " ++ place ++ "\n", state.source, none⟩
  | some target =>
    let output := if flags.json then JsonValue.render 0 target.json else target.text
    return .succeed (output ++ "\n") state.source

end TerraformDocs
