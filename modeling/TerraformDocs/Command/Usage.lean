import TerraformDocs.Files.Path
import TerraformDocs.Text.Scan

/-!
# Command lines

A command line names a command, its arguments and its options.  Options may stand anywhere behind
the command; two hyphens alone end them.  An option or argument is completed, and only then
checked, when the next one is met or the line ends; a word that cannot be placed is refused before
that.  `Invocation.ofWords` reads a command line, and `UsageError` says how it may be at fault.
-/

namespace TerraformDocs

open TerraformDocs.Text

inductive UsageError where
  | displayHelp
  | displayVersion
  | displayHelpOnMissingCommand
  | missingCommand
  | invalidCommand
  | missingArgument
  | unknownArgument
  | invalidNumber
  | missingValue
  | unwantedValue
  | repeatedOption
deriving DecidableEq, Repr

namespace UsageError

def exitCode : UsageError → Nat
  | displayHelp | displayVersion => 0
  | _ => 2

end UsageError

structure LinkFlags where
  json : Bool := false
  offline : Bool := false
  strategy : Option String := none
deriving DecidableEq, Repr

inductive Invocation where
  | init
  | links (file : Path) (flags : LinkFlags)
  | lookup (file : Path) (line column : Nat) (flags : LinkFlags)
  | status
  | versions (flags : LinkFlags)
deriving DecidableEq, Repr

/-! ## Words -/

inductive WordForm where
  | endOfOptions
  | long (name : List Char) (value : Option (List Char))
  | short (letters : List Char)
  | plain
deriving DecidableEq, Repr

def WordForm.of (word : String) : WordForm :=
  match word.toList with
  | ['-', '-'] => endOfOptions
  | '-' :: '-' :: option =>
    match upTo? '=' option with
    | some (name, value) => long name (some value)
    | none => long option none
  | '-' :: letter :: letters => short (letter :: letters)
  | _ => plain

def numberLimit : Nat := 18446744073709551615

def number? (word : String) : Option Nat :=
  let digits := match word.toList with
    | '+' :: digits => digits
    | digits => digits
  if digits = [] ∨ !(digits.all Char.isDigit) then none
  else
    let value := Nat.ofDigitChars 10 digits 0
    if value ≤ numberLimit then some value else none

/-! ## Commands -/

inductive CommandName where
  | init
  | links
  | lookup
  | status
  | versions
deriving DecidableEq, Repr

inductive ArgumentKind where
  | file
  | number
deriving DecidableEq, Repr

namespace CommandName

def ofWord? : String → Option CommandName
  | "init" => some init
  | "links" => some links
  | "lookup" => some lookup
  | "status" => some status
  | "versions" => some versions
  | _ => none

def arguments : CommandName → List ArgumentKind
  | links => [.file]
  | lookup => [.file, .number, .number]
  | init | status | versions => []

def hasLinkFlags : CommandName → Bool
  | links | lookup | versions => true
  | init | status => false

end CommandName

inductive Pending where
  | nothing
  | strategy (value : Option String)
  | argument (kind : ArgumentKind) (word : String)
deriving DecidableEq, Repr

structure Reading where
  command : CommandName
  flags : LinkFlags
  arguments : List String
  pending : Pending
  optionsEnded : Bool
deriving DecidableEq, Repr

namespace Reading

def start (command : CommandName) : Reading := ⟨command, {}, [], .nothing, false⟩

def complete (reading : Reading) : Except UsageError Reading :=
  match reading.pending with
  | .nothing => .ok reading
  | .strategy none => .error .missingValue
  | .strategy (some value) =>
    if reading.flags.strategy.isSome then .error .repeatedOption
    else
      .ok { reading with
        flags := { reading.flags with strategy := some value }
        pending := .nothing }
  | .argument kind word =>
    if kind = .file ∧ word = "" then .error .missingValue
    else if kind = .number ∧ number? word = none then .error .invalidNumber
    else .ok { reading with arguments := reading.arguments ++ [word], pending := .nothing }

def nextKind? (reading : Reading) : Option ArgumentKind :=
  let met := match reading.pending with
    | .argument _ _ => reading.arguments.length + 1
    | _ => reading.arguments.length
  reading.command.arguments[met]?

def takeArgument (reading : Reading) (word : String) : Except UsageError Reading :=
  match reading.nextKind? with
  | none => .error .unknownArgument
  | some kind => do
    let reading ← reading.complete
    return { reading with pending := .argument kind word }

def takeLetters (reading : Reading) : List Char → Except UsageError Reading
  | [] => .ok reading
  | letter :: letters =>
    if letter = 'v' then do (← reading.complete).takeLetters letters
    else if letter = 'h' then do
      let _ ← reading.complete
      .error .displayHelp
    else .error .unknownArgument

def takeLong (reading : Reading) (name : List Char) (value : Option (List Char)) :
    Except UsageError Reading :=
  let name := String.ofList name
  if name = "strategy" ∧ reading.command.hasLinkFlags then do
    let reading ← reading.complete
    match value with
    | none => return { reading with pending := .strategy none }
    | some value =>
      complete { reading with pending := .strategy (some (String.ofList value)) }
  else if name ∈ ["verbose", "help"] ∨
      name ∈ ["json", "offline"] ∧ reading.command.hasLinkFlags then
    if value.isSome then .error .unwantedValue
    else do
      let reading ← reading.complete
      match name with
      | "help" => .error .displayHelp
      | "json" =>
        if reading.flags.json then .error .repeatedOption
        else return { reading with flags := { reading.flags with json := true } }
      | "offline" =>
        if reading.flags.offline then .error .repeatedOption
        else return { reading with flags := { reading.flags with offline := true } }
      | _ => return reading
  else .error .unknownArgument

def take (reading : Reading) (word : String) : Except UsageError Reading :=
  if reading.optionsEnded then reading.takeArgument word
  else
    match WordForm.of word with
    | .endOfOptions => .ok { reading with optionsEnded := true }
    | .long name value => reading.takeLong name value
    | .short letters => reading.takeLetters letters
    | .plain =>
      match reading.pending with
      | .strategy none => .ok { reading with pending := .strategy (some word) }
      | _ => reading.takeArgument word

def finish (reading : Reading) : Except UsageError Invocation := do
  let reading ← reading.complete
  match reading.command, reading.arguments with
  | .init, _ => return .init
  | .status, _ => return .status
  | .versions, _ => return .versions reading.flags
  | .links, [file] => return .links ⟨file⟩ reading.flags
  | .lookup, [file, line, column] =>
    match number? line, number? column with
    | some line, some column => return .lookup ⟨file⟩ line column reading.flags
    | _, _ => .error .invalidNumber
  | _, _ => .error .missingArgument

end Reading

namespace Invocation

def isCommandWord (word : String) : Bool :=
  (CommandName.ofWord? word).isSome || word == "help"

def helpFor : List String → UsageError
  | [] => .displayHelp
  | [word] => if isCommandWord word then .displayHelp else .invalidCommand
  | _ => .invalidCommand

def withoutCommand (verbose : Bool) : UsageError :=
  if verbose then .missingCommand else .displayHelpOnMissingCommand

def rootLetters : List Char → Except UsageError Unit
  | [] => .ok ()
  | 'v' :: letters => rootLetters letters
  | 'h' :: _ => .error .displayHelp
  | 'V' :: _ => .error .displayVersion
  | _ => .error .unknownArgument

/-- Reads the rest of a command line whose command has not been met.  `verbose` says whether an
option has been.  Behind two hyphens no word is a command: one that would be is an argument too
many, any other is no command. -/
def ofWordsFrom (verbose : Bool) : List String → Except UsageError Invocation
  | [] => .error (withoutCommand verbose)
  | word :: words =>
    match WordForm.of word with
    | .endOfOptions =>
      .error <|
        match words with
        | [] => withoutCommand verbose
        | word :: _ => if isCommandWord word then .unknownArgument else .invalidCommand
    | .long name value =>
      let name := String.ofList name
      if name ∈ ["verbose", "help", "version"] then
        if value.isSome then .error .unwantedValue
        else if name = "verbose" then ofWordsFrom true words
        else .error (if name = "help" then .displayHelp else .displayVersion)
      else .error .unknownArgument
    | .short letters => do
      rootLetters letters
      ofWordsFrom true words
    | .plain =>
      match CommandName.ofWord? word with
      | some command => do (← words.foldlM Reading.take (Reading.start command)).finish
      | none => .error (if word = "help" then helpFor words else .invalidCommand)

def ofWords (words : List String) : Except UsageError Invocation := ofWordsFrom false words

end Invocation

end TerraformDocs
