/-!
# TOML strings

TOML writes a string between one or three quotes of either kind: double quotes with escapes, single
quotes without.  Three quotes let the string go over several lines.  Every function here takes the
text behind the opening quotes and gives the string with the text behind the closing ones.  Line
ends have been made line feeds before.
-/

namespace TerraformDocs.Toml

def isSpace (c : Char) : Bool := c = ' ' || c = '\t'

def isPlain (c : Char) : Bool := c = '\t' || (0x20 ≤ c.toNat && c.toNat ≠ 0x7F)

def digitValue? (base : Nat) (c : Char) : Option Nat :=
  let value :=
    if c.isDigit then c.toNat - 0x30
    else if 'a' ≤ c ∧ c ≤ 'f' then c.toNat - 0x57
    else if 'A' ≤ c ∧ c ≤ 'F' then c.toNat - 0x37
    else base
  if value < base then some value else none

def scalar? (digits : List Char) : Option Char := do
  let values ← digits.mapM (digitValue? 16)
  let value := values.foldl (fun value digit => value * 16 + digit) 0
  if value.isValidChar then some (Char.ofNat value) else none

def escape? : Char → Option Char
  | 'b' => some '\x08'
  | 't' => some '\t'
  | 'n' => some '\n'
  | 'f' => some '\x0c'
  | 'r' => some '\r'
  | '"' => some '"'
  | '\\' => some '\\'
  | _ => none

def prepend (c : Char) (reading : Option (List Char × List Char)) :
    Option (List Char × List Char) :=
  reading.map fun (content, rest) => (c :: content, rest)

def basic? : List Char → Option (List Char × List Char)
  | [] => none
  | '"' :: cs => some ([], cs)
  | '\\' :: 'u' :: a :: b :: c :: d :: cs => do
    prepend (← scalar? [a, b, c, d]) (basic? cs)
  | '\\' :: 'U' :: a :: b :: c :: d :: e :: f :: g :: h :: cs => do
    prepend (← scalar? [a, b, c, d, e, f, g, h]) (basic? cs)
  | '\\' :: e :: cs => do prepend (← escape? e) (basic? cs)
  | c :: cs => if isPlain c ∧ c ≠ '\\' then prepend c (basic? cs) else none

def literal? : List Char → Option (List Char × List Char)
  | [] => none
  | '\'' :: cs => some ([], cs)
  | c :: cs => if isPlain c then prepend c (literal? cs) else none

/-- The end of a string that three quotes have just closed: up to two more belong to it. -/
def closing (quote : Char) : List Char → List Char × List Char
  | a :: b :: cs =>
    if a = quote ∧ b = quote then ([a, b], cs)
    else if a = quote then ([a], b :: cs)
    else ([], a :: b :: cs)
  | [a] => if a = quote then ([a], []) else ([], [a])
  | [] => ([], [])

/-- A string between three double quotes.  `trimming` holds after a backslash at the end of a line,
which takes with it the line end and all blanks and line ends behind it. -/
def multiline? (trimming : Bool) : List Char → Option (List Char × List Char)
  | [] => none
  | '"' :: '"' :: '"' :: cs => some (closing '"' cs)
  | '\\' :: 'u' :: a :: b :: c :: d :: cs => do
    prepend (← scalar? [a, b, c, d]) (multiline? false cs)
  | '\\' :: 'U' :: a :: b :: c :: d :: e :: f :: g :: h :: cs => do
    prepend (← scalar? [a, b, c, d, e, f, g, h]) (multiline? false cs)
  | '\\' :: e :: cs =>
    if ((e :: cs).dropWhile isSpace).head? = some '\n' then multiline? true (e :: cs)
    else do prepend (← escape? e) (multiline? false cs)
  | c :: cs =>
    if trimming ∧ (isSpace c ∨ c = '\n') then multiline? true cs
    else if (isPlain c ∧ c ≠ '\\') ∨ c = '\n' then prepend c (multiline? false cs)
    else none

def multilineLiteral? : List Char → Option (List Char × List Char)
  | [] => none
  | '\'' :: '\'' :: '\'' :: cs => some (closing '\'' cs)
  | c :: cs => if isPlain c ∨ c = '\n' then prepend c (multilineLiteral? cs) else none

def dropLineFeed : List Char → List Char
  | '\n' :: cs => cs
  | cs => cs

def string? : List Char → Option (List Char × List Char)
  | '"' :: '"' :: '"' :: cs => multiline? false (dropLineFeed cs)
  | '"' :: cs => basic? cs
  | '\'' :: '\'' :: '\'' :: cs => multilineLiteral? (dropLineFeed cs)
  | '\'' :: cs => literal? cs
  | _ => none

end TerraformDocs.Toml
