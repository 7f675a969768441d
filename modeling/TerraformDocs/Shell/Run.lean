import TerraformDocs.Project.Tool
import TerraformDocs.Shell.Parser
import TerraformDocs.Shell.Utility

/-!
# Running shell scripts

Commands run one after another on a state: the file tree, the variables, and what has been written.
A pipeline runs its left side to the end before its right side.  Every function that runs commands
is given a depth, which bounds loops as well; a script that needs more depth ends there.
-/

namespace TerraformDocs.Shell

inductive Sink where
  | output
  | errors
  | captured
  | nowhere
  | file (path : Path)
deriving DecidableEq, Repr

structure State where
  files : FileTree
  bindings : List (String × String)
  arguments : List String
  input : List UInt8
  standard : Sink
  diagnostic : Sink
  -- What has been written, last part first.
  output : List (List UInt8)
  errors : List (List UInt8)
  captured : List (List UInt8)
  status : Nat
  strict : Bool
  ended : Option ExitStatus

namespace State

def write (state : State) (sink : Sink) (bytes : List UInt8) : State :=
  match sink with
  | .output => { state with output := bytes :: state.output }
  | .errors => { state with errors := bytes :: state.errors }
  | .captured => { state with captured := bytes :: state.captured }
  | .nowhere => state
  | .file path =>
    let before := (state.files.readBytes path).toOption.getD []
    { state with files := state.files.insert path (.file (before ++ bytes)) }

def report (state : State) (status : Nat) (text : String) : State :=
  let name := state.arguments.headD "sh"
  { state.write state.diagnostic (bytesOf (name ++ ": 1: " ++ text ++ "\n")) with status }

def apply (state : State) (effect : Effect) : State :=
  let state := { state with files := effect.files, status := effect.status }
  (state.write state.standard effect.output).write state.diagnostic effect.errors

def find? (state : State) (name : String) : Option String :=
  (state.bindings.find? fun binding => binding.1 = name).map Prod.snd

def assign (state : State) (name value : String) : State :=
  { state with
    bindings := (name, value) :: state.bindings.filter fun binding => binding.1 ≠ name }

def settle (state : State) : State :=
  if state.strict ∧ state.status ≠ 0 ∧ state.ended.isNone then
    { state with ended := some (.code state.status) }
  else state

end State

def processNumber : String := "4242"

def matchesPattern : List Char → List Char → Bool
  | [], name => name = []
  | '*' :: pattern, [] => matchesPattern pattern []
  | '*' :: pattern, c :: name =>
    matchesPattern pattern (c :: name) || matchesPattern ('*' :: pattern) name
  | '?' :: pattern, _ :: name => matchesPattern pattern name
  | p :: pattern, c :: name => p = c && matchesPattern pattern name
  | _ :: _, [] => false
termination_by pattern name => pattern.length + name.length

def withoutStart (longest : Bool) (pattern value : List Char) : List Char :=
  let counts := List.range (value.length + 1)
  let counts := if longest then counts.reverse else counts
  match counts.find? fun count => matchesPattern pattern (value.take count) with
  | some count => value.drop count
  | none => value

def withoutEnd (longest : Bool) (pattern value : List Char) : List Char :=
  let counts := List.range (value.length + 1)
  let counts := if longest then counts else counts.reverse
  match counts.find? fun count => matchesPattern pattern (value.drop count) with
  | some count => value.take count
  | none => value

namespace State

def setting? (state : State) (name : String) : Option String :=
  match name with
  | "$" => some processNumber
  | "?" => some (toString state.status)
  | "#" => some (toString (state.arguments.length - 1))
  | "@" | "*" => some (" ".intercalate (state.arguments.drop 1))
  | _ =>
    match name.toNat?, state.find? name with
    | some index, _ => state.arguments[index]?
    | none, some value => some value
    | none, none => if name = "PWD" then some (pathOf state.files.working) else none

def parameter (state : State) (text : String) : String :=
  match text.toList with
  | '#' :: c :: cs => toString (((state.setting? (String.ofList (c :: cs))).getD "").length)
  | cs =>
    let name := cs.takeWhile isNameChar
    let set := state.setting? (String.ofList name)
    let value := set.getD ""
    match name, cs.dropWhile isNameChar with
    | [], _ | _, [] => (state.setting? text).getD ""
    | _, ':' :: '-' :: other => if value = "" then String.ofList other else value
    | _, '-' :: other => if set.isNone then String.ofList other else value
    | _, ':' :: '+' :: other => if value = "" then "" else String.ofList other
    | _, '+' :: other => if set.isNone then "" else String.ofList other
    | _, '#' :: '#' :: pattern => String.ofList (withoutStart true pattern value.toList)
    | _, '#' :: pattern => String.ofList (withoutStart false pattern value.toList)
    | _, '%' :: '%' :: pattern => String.ofList (withoutEnd true pattern value.toList)
    | _, '%' :: pattern => String.ofList (withoutEnd false pattern value.toList)
    | _, _ => value

end State

/-! ## Arithmetic -/

/-- The binary operators by how tightly they bind, the tightest first. -/
def binary : List (List (String × (Int → Int → Int))) :=
  let truth (p : Bool) : Int := if p then 1 else 0
  [[("*", fun a b => a * b), ("/", Int.tdiv), ("%", Int.tmod)],
   [("+", fun a b => a + b), ("-", fun a b => a - b)],
   [("<=", fun a b => truth (a ≤ b)), (">=", fun a b => truth (a ≥ b)),
    ("<", fun a b => truth (a < b)), (">", fun a b => truth (a > b))],
   [("==", fun a b => truth (a = b)), ("!=", fun a b => truth (a ≠ b))]]

def operatorAt? (level : Nat) (cs : List Char) : Option ((Int → Int → Int) × List Char) :=
  ((binary[level]?).getD []).findSome? fun (mark, apply) =>
    (mark.toList.isPrefixOf? cs).map fun rest => (apply, rest)

mutual

/-- The value of an operand, or of operands joined by the operators of the levels below `level`. -/
def evaluate? (state : State) : Nat → Nat → List Char → Option (Int × List Char)
  | 0, _, _ => none
  | steps + 1, 0, cs =>
    match cs.dropWhile (· = ' ') with
    | '(' :: rest => do
      let (value, rest) ← evaluate? state steps binary.length rest
      match rest.dropWhile (· = ' ') with
      | ')' :: rest => some (value, rest)
      | _ => none
    | '-' :: rest => (evaluate? state steps 0 rest).map fun (value, rest) => (-value, rest)
    | '$' :: rest | rest =>
      let name := rest.takeWhile isNameChar
      if name = [] then none
      else
        let text := String.ofList name
        some ((text.toInt? <|> (state.find? text).bind String.toInt?).getD 0,
          rest.drop name.length)
  | steps + 1, level + 1, cs => do
    let (value, rest) ← evaluate? state steps level cs
    evaluateFrom? state steps level value rest

def evaluateFrom? (state : State) : Nat → Nat → Int → List Char → Option (Int × List Char)
  | 0, _, _, _ => none
  | steps + 1, level, value, cs =>
    match operatorAt? level (cs.dropWhile (· = ' ')) with
    | none => some (value, cs)
    | some (apply, rest) => do
      let (operand, rest) ← evaluate? state steps level rest
      evaluateFrom? state steps level (apply value operand) rest

end

def arithmetic (state : State) (cs : List Char) : Int :=
  ((evaluate? state (8 * cs.length + 8) binary.length cs).map Prod.fst).getD 0

/-! ## Words -/

/-- A value as the fields between its blanks; an edge that is blank joins nothing. -/
def fieldsOf (value : String) : List String :=
  ((value.toList.splitBy fun a b => (isGap a) = (isGap b)).filter fun field =>
    !(field.head?.any isGap)).map String.ofList
where
  isGap (c : Char) : Bool := c = ' ' || c = '\t' || c = '\n'

def filesMatching (files : FileTree) (pattern : String) : List String :=
  let names := (files.entries files.working).map Prod.fst
  let found := names.filter fun name =>
    (pattern.startsWith "." || !name.startsWith ".") && matchesPattern pattern.toList name.toList
  if found = [] then [pattern] else found.mergeSort fun a b => decide (a ≤ b)

def extend (fields : List String) (value : String) : List String :=
  match fields.getLast? with
  | some last => fields.dropLast ++ [last ++ value]
  | none => [value]

/-- The fields that a word with its substitutions carried out stands for.  A word of nothing but
empty unquoted values stands for no field. -/
def fields (state : State) (word : Word) (values : List String) : List String :=
  let step (found : List String × Bool) (item : Part × String) : List String × Bool :=
    let (fields, present) := found
    match item with
    | (.text cs _, _) => (extend fields (String.ofList cs), true)
    | (.parameter _ true, value) | (.substitution _ true, value) => (extend fields value, true)
    | (.arithmetic _, value) => (extend fields value, true)
    | (_, value) =>
      match fieldsOf value with
      | [] => (fields, present)
      | first :: others => (extend fields first ++ others, true)
  let (found, present) := (word.zip values).foldl step ([], false)
  let isPattern := word.any fun part =>
    match part with
    | .text cs false => cs.contains '*' || cs.contains '?'
    | _ => false
  if !present then []
  else if isPattern then found.flatMap (filesMatching state.files)
  else found

/-! ## Commands -/

def utility? (name : String) : Option Utility :=
  if name = "echo" then some (echo true)
  else if name = ":" then some (silent 0)
  else if name = "[" then
    some fun files arguments input =>
      if arguments.getLast? = some "]" then test files arguments.dropLast input
      else complain files 2 "sh: 1: [: missing ]"
  else (programs.find? fun entry => entry.1 = name).map Prod.snd

def harmlessSignals : List String := ["-0", "-CHLD", "-CONT", "-17", "-18", "-URG", "-WINCH"]

def splitBinding (text : String) : String × Option String :=
  let name := text.toList.takeWhile (· ≠ '=')
  (String.ofList name, ((text.toList.drop name.length).tail?).map String.ofList)

/-- Gives each variable a field, and the last one all that are left. -/
def State.assignFields (state : State) : List String → List String → State
  | [], _ => state
  | [name], fields => state.assign name (" ".intercalate fields)
  | name :: names, fields => (state.assign name (fields.headD "")).assignFields names fields.tail

def special? (state : State) (name : String) (arguments : List String) : Option State :=
  match name with
  | "exit" =>
    match arguments with
    | [] => some { state with ended := some (.code state.status) }
    | code :: _ =>
      match code.toNat? with
      | some code => some { state with ended := some (.code (code % 256)), status := code % 256 }
      | none =>
        some { state.report 2 ("exit: Illegal number: " ++ code) with ended := some (.code 2) }
  | "kill" =>
    match arguments with
    | [target] =>
      if target = processNumber then some { state with ended := some .signal } else none
    | ["-s", _, target] =>
      if target = processNumber then some { state with ended := some .signal } else none
    | [signal, target] =>
      if target ≠ processNumber then none
      else if signal ∈ harmlessSignals then some { state with status := 0 }
      else some { state with ended := some .signal }
    | _ => none
  | "cd" =>
    let path : Path := ⟨arguments.headD "/"⟩
    if state.files.isDirectory path then
      match state.files.locate path with
      | .ok place => some { state with files := { state.files with working := place }, status := 0 }
      | .error _ => none
    else some (state.report 2 ("cd: can't cd to " ++ path.text))
  | "export" =>
    some <| arguments.foldl (fun state argument =>
      match splitBinding argument with
      | (name, some value) => state.assign name value
      | _ => state) { state with status := 0 }
  | "unset" =>
    some { state with
      bindings := state.bindings.filter fun binding => binding.1 ∉ arguments
      status := 0 }
  | "set" =>
    let strict := arguments ≠ ["+e"] && (state.strict || arguments.contains "-e")
    some { state with strict, status := 0 }
  | "read" =>
    let line := state.input.takeWhile (· ≠ 10)
    let names := arguments.filter fun argument => !argument.startsWith "-"
    let text := String.ofList ((Text.Utf8.decode? line).getD [])
    some { (state.assignFields names (fieldsOf text)) with
      input := state.input.drop (line.length + 1)
      status := if line.length < state.input.length then 0 else 1 }
  | "umask" | "trap" | "wait" => some { state with status := 0 }
  | _ => none

def programName (program : String) : String :=
  (["/bin/", "/usr/bin/"].findSome? fun directory =>
    (directory.toList.isPrefixOf? program.toList).map String.ofList).getD program

def shells : List String := ["sh", "dash", "bash"]

def openingFault (path : String) : SystemError → String
  | .notFound | .notADirectory => "cannot open " ++ path ++ ": No such file"
  | cause => "cannot open " ++ path ++ ": " ++ cause.reason

structure Job where
  strict : Bool
  script : String
  arguments : List String

def jobOf (files : FileTree) (program : String) (strict : Bool) (arguments : List String) :
    Except String Job :=
  match arguments with
  | [] => .ok ⟨strict, "", [program]⟩
  | word :: rest =>
    match word.toList with
    | '-' :: letter :: letters =>
      let options := letter :: letters
      let strict := strict || options.contains 'e'
      if options.contains 'c' then
        match rest with
        | [] => .error (program ++ ": 0: -c requires an argument\n")
        | [script] => .ok ⟨strict, script, [program]⟩
        | script :: others => .ok ⟨strict, script, others⟩
      else jobOf files program strict rest
    | _ =>
      match files.readText ⟨word⟩ with
      | .ok script => .ok ⟨strict, script, word :: rest⟩
      | .error cause => .error (program ++ ": 0: " ++ openingFault word cause ++ "\n")

def call (state : State) (label name : String) (arguments : List String) : State :=
  match special? state name arguments with
  | some state => state
  | none =>
    match utility? (programName name) with
    | some utility => state.apply (utility state.files arguments state.input)
    | none =>
      if name.contains '/' ∧ (state.files.lookup ⟨name⟩).isOk then
        state.report 126 (label ++ name ++ ": Permission denied")
      else state.report 127 (label ++ name ++ ": not found")

def creationFault? (files : FileTree) (path : String) : Option String :=
  if files.isDirectory ⟨path⟩ then some ("cannot create " ++ path ++ ": Is a directory")
  else if files.isDirectory (Path.directory ⟨path⟩) then none
  else some ("cannot create " ++ path ++ ": Directory nonexistent")

def redirect (state : State) (descriptor : Nat) (kind : RedirectKind) (target : String) :
    Except State State :=
  let aim (sink : Sink) : State :=
    if descriptor = 1 then { state with standard := sink }
    else if descriptor = 2 then { state with diagnostic := sink }
    else state
  match kind with
  | .duplicate =>
    match target with
    | "1" => .ok (aim state.standard)
    | "2" => .ok (aim state.diagnostic)
    | _ => .ok (aim .nowhere)
  | .output append =>
    if target = "/dev/null" then .ok (aim .nowhere)
    else
      match creationFault? state.files target with
      | some fault => .error (state.report 2 fault)
      | none =>
        let files :=
          if append ∧ state.files.isFile ⟨target⟩ then state.files
          else state.files.insert ⟨target⟩ (.file [])
        .ok { aim (.file ⟨target⟩) with files }
  | .input =>
    if target = "/dev/null" then .ok { state with input := [] }
    else
      match state.files.readBytes ⟨target⟩ with
      | .ok bytes => .ok { state with input := bytes }
      | .error cause => .error (state.report 2 (openingFault target cause))

def State.leave (after before : State) (redirects : List Redirect) : State :=
  { after with
    standard := before.standard
    diagnostic := before.diagnostic
    input := if redirects.any (·.descriptor = 0) then before.input else after.input }

def State.leaveSubshell (after before : State) : State :=
  let status := match after.ended with
    | some (.code code) => code
    | _ => after.status
  { after with
    standard := before.standard
    diagnostic := before.diagnostic
    input := before.input
    bindings := before.bindings
    arguments := before.arguments
    strict := before.strict
    files := { after.files with working := before.files.working }
    status
    ended := if after.ended = some .signal then some .signal else before.ended }

def State.substitute (state : State) : String :=
  let bytes := state.captured.reverse.flatten
  let bytes := (bytes.reverse.dropWhile (· = 10)).reverse
  String.ofList ((Text.Utf8.decode? bytes).getD [])

mutual

def run : Nat → Command → State → State
  | 0, _, state => { state with ended := some .signal }
  | depth + 1, command, state =>
    if state.ended.isSome then state
    else
      match command with
      | .simple assignments words redirects =>
        let (names, state) := expand depth words state
        let (values, state) := values depth assignments state
        match names with
        | [] =>
          values.foldl (fun state binding => state.assign binding.1 binding.2)
            { state with status := 0 }
        | name :: arguments =>
          match name, arguments, aimAll depth redirects state with
          | "exec", _, .error after => { after with ended := some (.code 2) }
          | "exec", [], .ok aimed => aimed
          | "exec", name :: arguments, .ok aimed =>
            let after := invoke depth "exec: " name arguments aimed
            { after with ended := after.ended <|> some (.code after.status) }
          | _, _, .error after => (after.leave state redirects).settle
          | _, _, .ok aimed =>
            ((invoke depth "" name arguments aimed).leave state redirects).settle
      | .pipe left right =>
        let inner := run depth left { state with standard := .captured, captured := [] }
        let piped := inner.captured.reverse.flatten
        let state := { inner.leaveSubshell state with captured := state.captured }
        ((run depth right { state with input := piped }).leaveSubshell state).settle
      | .negation command =>
        let after := check depth command state
        { after with status := if after.status = 0 then 1 else 0 }
      | .both left right =>
        let after := check depth left state
        if after.status = 0 then run depth right after else after
      | .either left right =>
        let after := check depth left state
        if after.status = 0 then after else run depth right after
      | .sequence left right => run depth right (run depth left state)
      | .group body redirects =>
        match aimAll depth redirects state with
        | .ok aimed => (run depth body aimed).leave state redirects
        | .error after => (after.leave state redirects).settle
      | .subshell body redirects =>
        match aimAll depth redirects state with
        | .ok aimed => ((run depth body aimed).leaveSubshell state).settle
        | .error after => (after.leaveSubshell state).settle
      | .conditional condition yes no =>
        let after := check depth condition state
        if after.status = 0 then run depth yes after else run depth no { after with status := 0 }
      | .loop repeatWhile condition body =>
        let after := check depth condition state
        if after.ended.isSome then after
        else if (after.status = 0) = repeatWhile then
          run depth (.loop repeatWhile condition body) (run depth body after)
        else { after with status := 0 }
      | .iteration name words body =>
        let (items, state) := expand depth words state
        items.foldl (fun state item => run depth body (state.assign name item)) state

/-- Runs a command whose failure is no failure of the script. -/
def check : Nat → Command → State → State
  | 0, _, state => { state with ended := some .signal }
  | depth + 1, command, state =>
    { run depth command { state with strict := false } with strict := state.strict }

def invoke : Nat → String → String → List String → State → State
  | 0, _, _, _, state => { state with ended := some .signal }
  | depth + 1, label, name, arguments, state =>
    if name = "." then
      let path := arguments.headD ""
      match state.files.readText ⟨path⟩ with
      | .error cause =>
        { state.report 2 (".: " ++ openingFault path cause) with ended := some (.code 2) }
      | .ok script =>
        match Command.ofScript? script.toList with
        | none => state.report 2 "Syntax error"
        | some command => run depth command { state with status := 0 }
    else if programName name ∈ shells then
      match jobOf state.files name false arguments with
      | .error message => { state.write state.diagnostic (bytesOf message) with status := 2 }
      | .ok job =>
        let inner := { state with arguments := job.arguments, strict := job.strict, status := 0 }
        match Command.ofScript? job.script.toList with
        | none => (inner.report 2 "Syntax error").leaveSubshell state
        | some command => (run depth command inner).leaveSubshell state
    else call state label name arguments

def value : Nat → Part → State → String × State
  | 0, _, state => ("", state)
  | depth + 1, part, state =>
    match part with
    | .text cs _ => (String.ofList cs, state)
    | .parameter name _ => (state.parameter name, state)
    | .arithmetic expression => (toString (arithmetic state expression), state)
    | .substitution script _ =>
      match Command.ofScript? script with
      | none => ("", state.report 2 "Syntax error")
      | some command =>
        let after := run depth command { state with standard := .captured, captured := [] }
        (after.substitute, { after.leaveSubshell state with captured := state.captured })

def expand : Nat → List Word → State → List String × State
  | 0, _, state => ([], state)
  | _, [], state => ([], state)
  | depth + 1, word :: words, state =>
    let (values, state) := word.foldl (fun (values, state) part =>
      let (text, state) := value depth part state
      (values ++ [text], state)) (([] : List String), state)
    let here := fields state word values
    let (others, state) := expand depth words state
    (here ++ others, state)

def values : Nat → List (String × Word) → State → List (String × String) × State
  | 0, _, state => ([], state)
  | _, [], state => ([], state)
  | depth + 1, (name, word) :: bindings, state =>
    let (text, state) := word.foldl (fun (text, state) part =>
      let (more, state) := value depth part state
      (text ++ more, state)) ("", state)
    let (others, state) := values depth bindings state
    ((name, text) :: others, state)

def aimAll : Nat → List Redirect → State → Except State State
  | 0, _, state => .ok state
  | _, [], state => .ok state
  | depth + 1, target :: targets, state => do
    let (words, state) := expand depth [target.target] state
    aimAll depth targets (← redirect state target.descriptor target.kind (words.headD ""))

end

def depthLimit : Nat := 8192

def Job.run (job : Job) (files : FileTree) : ToolRun :=
  let start : State :=
    { files, bindings := [], arguments := job.arguments, input := [], standard := .output
      diagnostic := .errors, output := [], errors := [], captured := [], status := 0
      strict := job.strict, ended := none }
  let final :=
    match Command.ofScript? job.script.toList with
    | some command => Shell.run depthLimit command start
    | none => start.report 2 "Syntax error"
  { output := final.output.reverse.flatten
    errors := final.errors.reverse.flatten
    status := final.ended.getD (.code final.status) }

/-! ## Programs -/

/-- Starts a program: the shell, a utility, or a file of the tree, none of which can be run. -/
def start : Toolbox := fun files program arguments =>
  if (program :: arguments).any fun word => word.contains '\x00' then .error .nulInArgument
  else
    let name := programName program
    if name ∈ shells then
      match jobOf files program false arguments with
      | .ok job => .ok (job.run files)
      | .error message => .ok ⟨[], bytesOf message, .code 2⟩
    else
      match programs.find? fun entry => entry.1 = name with
      | some (_, utility) =>
        let effect := utility files arguments []
        .ok ⟨effect.output, effect.errors, .code effect.status⟩
      | none =>
        if program.contains '/' then
          match files.lookup ⟨program⟩ with
          | .ok _ => .error .permissionDenied
          | .error cause => .error cause
        else if program = "." ∨ program = ".." then .error .permissionDenied
        else .error .notFound

end TerraformDocs.Shell
