/-!
# Shell commands

The commands of a POSIX shell script, as far as init commands use them: simple commands with
assignments and redirections, pipelines, lists, groups, conditionals and loops.
-/

namespace TerraformDocs.Shell

/-- A part of a word.  Only the value of an unquoted part is split into several words. -/
inductive Part where
  | text (cs : List Char) (quoted : Bool)
  | parameter (name : String) (quoted : Bool)
  | substitution (script : List Char) (quoted : Bool)
  | arithmetic (expression : List Char)
deriving DecidableEq, Repr

abbrev Word := List Part

inductive RedirectKind where
  | input
  | output (append : Bool)
  | duplicate
deriving DecidableEq, Repr

structure Redirect where
  descriptor : Nat
  kind : RedirectKind
  target : Word
deriving DecidableEq, Repr

inductive Token where
  | word (word : Word)
  | operator (text : String)
  | redirect (descriptor : Nat) (kind : RedirectKind)
deriving DecidableEq, Repr

inductive Command where
  | simple (assignments : List (String × Word)) (words : List Word) (redirects : List Redirect)
  | pipe (left right : Command)
  | negation (command : Command)
  | both (left right : Command)
  | either (left right : Command)
  | sequence (left right : Command)
  | group (body : Command) (redirects : List Redirect)
  | subshell (body : Command) (redirects : List Redirect)
  | conditional (condition yes no : Command)
  | loop (repeatWhile : Bool) (condition body : Command)
  | iteration (name : String) (words : List Word) (body : Command)
deriving Repr

def Command.skip : Command := .simple [] [] []

end TerraformDocs.Shell
