import TerraformDocs.Shell.Lexer

/-!
# Reading shell scripts

A script is a list of commands.  Reserved words have their meaning only where a command may start,
and only when no part of them is quoted.
-/

namespace TerraformDocs.Shell

def plainWord? : Token → Option String
  | .word [.text cs false] => some (String.ofList cs)
  | _ => none

def reservedWords : List String :=
  ["if", "then", "else", "elif", "fi", "while", "until", "for", "do", "done", "!"]

def isReserved (name : String) : Bool :=
  name ∈ reservedWords || name = String.singleton '{' || name = String.singleton '}'

def expect? (name : String) : List Token → Option (List Token)
  | token :: rest =>
    if token = .operator name ∨ plainWord? token = some name then some rest else none
  | [] => none

def dropSeparators (tokens : List Token) : List Token :=
  tokens.dropWhile fun token => token = .operator ";" || token = .operator "&"

def assignment? : Word → Option (String × Word)
  | .text cs false :: parts =>
    match cs.dropWhile (· ≠ '=') with
    | _ :: value =>
      let name := cs.takeWhile (· ≠ '=')
      if name ≠ [] ∧ name.all isNameChar ∧ !(name.head?.any Char.isDigit) then
        some (String.ofList name, .text value false :: parts)
      else none
    | [] => none
  | _ => none

def redirects : List Token → List Redirect × List Token
  | .redirect descriptor kind :: .word target :: rest =>
    let (others, rest) := redirects rest
    (⟨descriptor, kind, target⟩ :: others, rest)
  | rest => ([], rest)

def simple (assignments : List (String × Word)) (words : List Word) (targets : List Redirect) :
    List Token → Command × List Token
  | .redirect descriptor kind :: .word target :: rest =>
    simple assignments words (targets ++ [⟨descriptor, kind, target⟩]) rest
  | .word word :: rest =>
    match (if words = [] then assignment? word else none) with
    | some binding => simple (assignments ++ [binding]) words targets rest
    | none => simple assignments (words ++ [word]) targets rest
  | rest => (.simple assignments words targets, rest)

def wordsOf : List Token → List Word × List Token
  | .word word :: rest =>
    let (others, rest) := wordsOf rest
    (word :: others, rest)
  | rest => ([], rest)

def endsList : List Token → Bool
  | [] => true
  | token :: _ =>
    token = .operator ")" ||
      (plainWord? token).any fun name =>
        name ∈ ["then", "else", "elif", "fi", "do", "done", String.singleton '}']

/-- Puts a command in front of a list of conditions, which group to the left. -/
def regroup (left : Command) (both : Bool) : Command → Command
  | .both first rest => .both (regroup left both first) rest
  | .either first rest => .either (regroup left both first) rest
  | right => if both then .both left right else .either left right

inductive Level where
  | list
  | andOr
  | pipeline
  | command
  | branches
  | loop (repeatWhile : Bool)
  | iteration

def Level.ofKeyword? : String → Option Level
  | "if" => some branches
  | "while" => some (loop true)
  | "until" => some (loop false)
  | "for" => some iteration
  | _ => none

def withRedirects (command : Command) (tokens : List Token) : Command × List Token :=
  match redirects tokens with
  | ([], rest) => (command, rest)
  | (targets, rest) => (.group command targets, rest)

def parse? : Nat → Level → List Token → Option (Command × List Token)
  | 0, _, _ => none
  | steps + 1, .list, tokens => do
    let (first, rest) ← parse? steps .andOr (dropSeparators tokens)
    let more := dropSeparators rest
    if endsList more ∨ more.length = rest.length then some (first, more)
    else do
      let (second, rest) ← parse? steps .list more
      some (.sequence first second, rest)
  | steps + 1, .andOr, tokens => do
    let (left, rest) ← parse? steps .pipeline tokens
    match rest with
    | .operator "&&" :: more => do
      let (right, rest) ← parse? steps .andOr (dropSeparators more)
      some (regroup left true right, rest)
    | .operator "||" :: more => do
      let (right, rest) ← parse? steps .andOr (dropSeparators more)
      some (regroup left false right, rest)
    | _ => some (left, rest)
  | steps + 1, .pipeline, tokens =>
    match expect? "!" tokens with
    | some rest => do
      let (command, rest) ← parse? steps .pipeline rest
      some (.negation command, rest)
    | none => do
      let (left, rest) ← parse? steps .command tokens
      match rest with
      | .operator "|" :: more => do
        let (right, rest) ← parse? steps .pipeline (dropSeparators more)
        some (.pipe left right, rest)
      | _ => some (left, rest)
  | steps + 1, .command, tokens =>
    match tokens with
    | .operator "(" :: rest => do
      let (body, rest) ← parse? steps .list rest
      let (targets, rest) := redirects (← expect? ")" rest)
      some (.subshell body targets, rest)
    | .operator _ :: _ | [] => none
    | token :: rest =>
      match plainWord? token with
      | some name =>
        if name = String.singleton '{' then do
          let (body, rest) ← parse? steps .list rest
          let (targets, rest) := redirects (← expect? (String.singleton '}') rest)
          some (.group body targets, rest)
        else
          match Level.ofKeyword? name with
          | some level => do
            let (command, rest) ← parse? steps level rest
            some (withRedirects command rest)
          | none => if isReserved name then none else some (simple [] [] [] tokens)
      | none => some (simple [] [] [] tokens)
  | steps + 1, .branches, tokens => do
    let (condition, rest) ← parse? steps .list tokens
    let (yes, rest) ← parse? steps .list (← expect? "then" rest)
    match expect? "elif" rest, expect? "else" rest with
    | some rest, _ => do
      let (no, rest) ← parse? steps .branches rest
      some (.conditional condition yes no, rest)
    | none, some rest => do
      let (no, rest) ← parse? steps .list rest
      some (.conditional condition yes no, ← expect? "fi" rest)
    | none, none => do some (.conditional condition yes .skip, ← expect? "fi" rest)
  | steps + 1, .loop repeatWhile, tokens => do
    let (condition, rest) ← parse? steps .list tokens
    let (body, rest) ← parse? steps .list (← expect? "do" rest)
    some (.loop repeatWhile condition body, ← expect? "done" rest)
  | steps + 1, .iteration, tokens =>
    match tokens with
    | token :: rest => do
      let name ← plainWord? token
      let (words, rest) := wordsOf (← expect? "in" rest)
      let (body, rest) ← parse? steps .list (← expect? "do" (dropSeparators rest))
      some (.iteration name words body, ← expect? "done" rest)
    | [] => none

/-- The command that a script is.  Reading it takes a few steps for each token. -/
def Command.ofScript? (script : List Char) : Option Command := do
  let tokens ← tokens? (script.length + 1) script
  if dropSeparators tokens = [] then some .skip
  else
    let (command, rest) ← parse? (8 * tokens.length + 8) .list tokens
    if rest = [] then some command else none

end TerraformDocs.Shell
