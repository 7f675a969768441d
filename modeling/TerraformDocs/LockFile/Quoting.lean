import TerraformDocs.Text.Line

/-!
# Strings, comments and blocks of a lock file

`Quoting` follows double-quoted strings, in which a backslash takes the next character with it.
Outside strings, a number sign or two slashes start a comment up to the end of the line, and
braces open and close blocks.
-/

namespace TerraformDocs

open TerraformDocs.Text

inductive Quoting where
  | outside
  | inside
  | escaped  -- in a string, right after a backslash
deriving DecidableEq, Repr

namespace Quoting

def step : Quoting → Char → Quoting
  | outside, c => if c = '"' then inside else outside
  | inside, c => if c = '\\' then escaped else if c = '"' then outside else inside
  | escaped, _ => inside

def after (quoting : Quoting) (cs : List Char) : Quoting := cs.foldl step quoting

def beforeComment : Quoting → List Char → List Char
  | _, [] => []
  | outside, '#' :: _ => []
  | outside, '/' :: '/' :: _ => []
  | quoting, c :: cs => c :: beforeComment (quoting.step c) cs

/-- The rest of a block up to its closing brace, with `nested` blocks open inside it. -/
def blockBody? (nested : Nat) (quoting : Quoting) : List Char → Option (List Char)
  | [] => none
  | c :: cs =>
    if quoting = outside ∧ c = '{' then
      (blockBody? (nested + 1) outside cs).map (c :: ·)
    else if quoting = outside ∧ c = '}' then
      match nested with
      | 0 => some []
      | outer + 1 => (blockBody? outer outside cs).map (c :: ·)
    else
      (blockBody? nested (quoting.step c) cs).map (c :: ·)

/-- The text outside nested blocks, and the line feeds inside of them; no brace of a block. -/
def ownText (nested : Nat) (quoting : Quoting) : List Char → List Char
  | [] => []
  | c :: cs =>
    if quoting = outside ∧ c = '{' then ownText (nested + 1) outside cs
    else if quoting = outside ∧ c = '}' then ownText (nested - 1) outside cs
    else if nested = 0 ∨ c = '\n' then c :: ownText nested (quoting.step c) cs
    else ownText nested (quoting.step c) cs

end Quoting

/-- A text without its comments; every line ends with a line feed.  A string ends with its line. -/
def withoutComments (cs : List Char) : List Char :=
  (lines cs).flatMap fun line => Quoting.beforeComment .outside line ++ ['\n']

end TerraformDocs
