import TerraformDocs.Shell.Syntax

/-!
# Tokens of a shell script

A script is cut into words, operators and redirections.  Quotes and backslashes take their meaning
from characters; a dollar sign starts an expansion.  Every function that goes on reading behind
what it has read is given a number of steps, which the length of the script bounds.
-/

namespace TerraformDocs.Shell

def isNameChar (c : Char) : Bool := c.isAlphanum || c = '_'

def upToParenthesis? (nested : Nat) : List Char → Option (List Char × List Char)
  | [] => none
  | c :: cs =>
    if c = ')' then
      match nested with
      | 0 => some ([], cs)
      | outer + 1 => (upToParenthesis? outer cs).map fun (body, rest) => (c :: body, rest)
    else
      (upToParenthesis? (if c = '(' then nested + 1 else nested) cs).map
        fun (body, rest) => (c :: body, rest)

def expansion? (quoted : Bool) (cs : List Char) : Option (Part × List Char) :=
  match cs with
  | '(' :: '(' :: cs => do
    let (body, rest) ← upToParenthesis? 0 cs
    match rest with
    | ')' :: rest => some (.arithmetic body, rest)
    | _ => none
  | '(' :: cs => (upToParenthesis? 0 cs).map fun (body, rest) => (.substitution body quoted, rest)
  | '{' :: cs =>
    match cs.dropWhile (· ≠ '}') with
    | _ :: rest => some (.parameter (String.ofList (cs.takeWhile (· ≠ '}'))) quoted, rest)
    | [] => none
  | c :: cs =>
    if c ∈ ['$', '?', '#', '@', '*', '!'] ∨ c.isDigit then
      some (.parameter (String.singleton c) quoted, cs)
    else if isNameChar c then
      some (.parameter (String.ofList ((c :: cs).takeWhile isNameChar)) quoted,
        (c :: cs).dropWhile isNameChar)
    else some (.text ['$'] true, c :: cs)
  | [] => some (.text ['$'] true, [])

def quotedParts? : Nat → List Char → Option (List Part × List Char)
  | 0, _ => none
  | steps + 1, cs =>
    match cs with
    | [] => none
    | '"' :: rest => some ([.text [] true], rest)
    | '\\' :: c :: rest =>
      if c = '\n' then quotedParts? steps rest
      else
        let literal := if c ∈ ['$', '`', '"', '\\'] then [c] else ['\\', c]
        (quotedParts? steps rest).map fun (parts, rest) => (.text literal true :: parts, rest)
    | '$' :: rest => do
      let (part, rest) ← expansion? true rest
      (quotedParts? steps rest).map fun (parts, rest) => (part :: parts, rest)
    | '`' :: rest =>
      match rest.dropWhile (· ≠ '`') with
      | _ :: behind =>
        (quotedParts? steps behind).map fun (parts, rest') =>
          (.substitution (rest.takeWhile (· ≠ '`')) true :: parts, rest')
      | [] => none
    | c :: rest =>
      (quotedParts? steps rest).map fun (parts, rest) => (.text [c] true :: parts, rest)

def endsWord (c : Char) : Bool := c ∈ [' ', '\t', '\n', ';', '&', '|', '<', '>', '(', ')']

def wordParts? : Nat → List Char → Option (Word × List Char)
  | 0, _ => none
  | steps + 1, cs =>
    match cs with
    | [] => some ([], [])
    | '\'' :: rest =>
      match rest.dropWhile (· ≠ '\'') with
      | _ :: behind =>
        (wordParts? steps behind).map fun (parts, rest') =>
          (.text (rest.takeWhile (· ≠ '\'')) true :: parts, rest')
      | [] => none
    | '"' :: rest => do
      let (quoted, rest) ← quotedParts? steps rest
      (wordParts? steps rest).map fun (parts, rest) => (quoted ++ parts, rest)
    | '\\' :: '\n' :: rest => wordParts? steps rest
    | '\\' :: c :: rest =>
      (wordParts? steps rest).map fun (parts, rest) => (.text [c] true :: parts, rest)
    | '$' :: rest => do
      let (part, rest) ← expansion? false rest
      (wordParts? steps rest).map fun (parts, rest) => (part :: parts, rest)
    | '`' :: rest =>
      match rest.dropWhile (· ≠ '`') with
      | _ :: behind =>
        (wordParts? steps behind).map fun (parts, rest') =>
          (.substitution (rest.takeWhile (· ≠ '`')) false :: parts, rest')
      | [] => none
    | c :: rest =>
      if endsWord c then some ([], c :: rest)
      else (wordParts? steps rest).map fun (parts, rest) => (.text [c] false :: parts, rest)

def joinTexts : Word → Word
  | .text a quoted :: .text b quoted' :: parts =>
    match joinTexts (.text b quoted' :: parts) with
    | .text c quoted'' :: others =>
      if quoted = quoted'' then .text (a ++ c) quoted :: others
      else .text a quoted :: .text c quoted'' :: others
    | others => .text a quoted :: others
  | part :: parts => part :: joinTexts parts
  | [] => []

def redirect? (descriptor : Option Nat) (cs : List Char) : Option (Token × List Char) :=
  match cs with
  | '>' :: '>' :: rest => some (.redirect (descriptor.getD 1) (.output true), rest)
  | '>' :: '&' :: rest => some (.redirect (descriptor.getD 1) .duplicate, rest)
  | '>' :: '|' :: rest => some (.redirect (descriptor.getD 1) (.output false), rest)
  | '>' :: rest => some (.redirect (descriptor.getD 1) (.output false), rest)
  | '<' :: '&' :: rest => some (.redirect (descriptor.getD 0) .duplicate, rest)
  | '<' :: rest => some (.redirect (descriptor.getD 0) .input, rest)
  | _ => none

def operator? (cs : List Char) : Option (Token × List Char) :=
  match cs with
  | '&' :: '&' :: rest => some (.operator "&&", rest)
  | '|' :: '|' :: rest => some (.operator "||", rest)
  | '\n' :: rest => some (.operator ";", rest)
  | c :: rest =>
    if c ∈ [';', '&', '|', '(', ')'] then some (.operator (String.singleton c), rest) else none
  | [] => none

def tokens? : Nat → List Char → Option (List Token)
  | 0, _ => none
  | steps + 1, cs =>
    match cs with
    | [] => some []
    | c :: rest =>
      if c = ' ' ∨ c = '\t' then tokens? steps rest
      else if c = '#' then tokens? steps (rest.dropWhile (· ≠ '\n'))
      else
        let numbered :=
          if c.isDigit then redirect? (some (c.toNat - 0x30)) rest else redirect? none (c :: rest)
        match numbered <|> operator? (c :: rest) with
        | some (token, rest) => (tokens? steps rest).map (token :: ·)
        | none => do
          let (word, rest) ← wordParts? (rest.length + 2) (c :: rest)
          (tokens? steps rest).map (.word (joinTexts word) :: ·)

end TerraformDocs.Shell
