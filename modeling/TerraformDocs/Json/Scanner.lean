/-!
# Scanning JSON

A JSON text is scanned as bytes, here given as the characters with the same codes.  `value?` passes
over one value of any kind without building it; `string?` reads a string and keeps its content as
it is written, escapes included, and `content?` decodes such a content to bytes.  Nesting has no
limit.
-/

namespace TerraformDocs.Json

def isSpace (c : Char) : Bool := c = ' ' || c = '\t' || c = '\n' || c = '\r'

def isHexDigit (c : Char) : Bool :=
  c.isDigit || ('a' ≤ c && c ≤ 'f') || ('A' ≤ c && c ≤ 'F')

def dropSpace (cs : List Char) : List Char := cs.dropWhile isSpace

/-! ## Strings -/

def contentUpToQuote? : List Char → Option (List Char × List Char)
  | [] => none
  | '"' :: cs => some ([], cs)
  | '\\' :: 'u' :: a :: b :: c :: d :: cs =>
    if isHexDigit a && isHexDigit b && isHexDigit c && isHexDigit d then
      (contentUpToQuote? cs).map fun (content, rest) =>
        ('\\' :: 'u' :: a :: b :: c :: d :: content, rest)
    else none
  | '\\' :: e :: cs =>
    if e ∈ ['"', '\\', '/', 'b', 'f', 'n', 'r', 't'] then
      (contentUpToQuote? cs).map fun (content, rest) => ('\\' :: e :: content, rest)
    else none
  | c :: cs =>
    if c.toNat < 0x20 ∨ c = '\\' then none
    else (contentUpToQuote? cs).map fun (content, rest) => (c :: content, rest)

def string? : List Char → Option (List Char × List Char)
  | '"' :: cs => contentUpToQuote? cs
  | _ => none

def hexValue (digits : List Char) : Nat :=
  digits.foldl (fun value c =>
    value * 16 +
      if c.isDigit then c.toNat - 0x30 else if c.isUpper then c.toNat - 0x37
      else c.toNat - 0x57) 0

def octets? (value : Nat) : Option (List Char) :=
  if value.isValidChar then
    some ((String.utf8EncodeChar (Char.ofNat value)).map fun byte => Char.ofNat byte.toNat)
  else none

inductive Piece where
  | octet (c : Char)
  | unit (value : Nat)
deriving DecidableEq, Repr

def pieces : List Char → List Piece
  | [] => []
  | '\\' :: 'u' :: a :: b :: c :: d :: cs => .unit (hexValue [a, b, c, d]) :: pieces cs
  | '\\' :: e :: cs =>
    let plain :=
      match e with
      | 'b' => '\x08'
      | 'f' => '\x0c'
      | 'n' => '\n'
      | 'r' => '\r'
      | 't' => '\t'
      | other => other
    .octet plain :: pieces cs
  | c :: cs => .octet c :: pieces cs

/-- The bytes of some pieces, after the first half `high` of a surrogate pair if there is one.
Half a pair alone has no bytes. -/
def joinPieces? (high : Option Nat) : List Piece → Option (List Char)
  | [] => if high.isSome then none else some []
  | .octet c :: others =>
    if high.isSome then none else (joinPieces? none others).map (c :: ·)
  | .unit value :: others =>
    match high with
    | some first =>
      if 0xDC00 ≤ value ∧ value < 0xE000 then do
        let pair ← octets? (0x10000 + (first - 0xD800) * 0x400 + (value - 0xDC00))
        return pair ++ (← joinPieces? none others)
      else none
    | none =>
      if 0xD800 ≤ value ∧ value < 0xDC00 then joinPieces? (some value) others
      else do return (← octets? value) ++ (← joinPieces? none others)

def content? (cs : List Char) : Option (List Char) := joinPieces? none (pieces cs)

/-! ## Values -/

def afterDigits? (cs : List Char) : Option (List Char) :=
  if (cs.head?.any Char.isDigit) then some (cs.dropWhile Char.isDigit) else none

def afterFraction? : List Char → Option (List Char)
  | '.' :: cs => afterDigits? cs
  | cs => some cs

def afterExponent? (cs : List Char) : Option (List Char) :=
  match cs with
  | e :: more =>
    if e = 'e' ∨ e = 'E' then
      match more with
      | '+' :: digits | '-' :: digits => afterDigits? digits
      | digits => afterDigits? digits
    else some cs
  | [] => some []

def number? (cs : List Char) : Option (List Char) := do
  let digits := match cs with
    | '-' :: digits => digits
    | digits => digits
  let rest ← match digits with
    | '0' :: rest => if rest.head?.any Char.isDigit then none else some rest
    | digits => afterDigits? digits
  afterExponent? (← afterFraction? rest)

def scalar? (cs : List Char) : Option (List Char) :=
  match cs with
  | 't' :: 'r' :: 'u' :: 'e' :: rest => some rest
  | 'f' :: 'a' :: 'l' :: 's' :: 'e' :: rest => some rest
  | 'n' :: 'u' :: 'l' :: 'l' :: rest => some rest
  | _ => number? cs

inductive Container where
  | array
  | object
deriving DecidableEq, Repr

inductive Expected where
  | value
  | itemOrEnd
  | keyOrEnd
  | key
  | separator
deriving DecidableEq, Repr

/-- Passes over the rest of a value that lies in some open containers, in at most `steps` steps. -/
def scan : Nat → List Container → Expected → List Char → Option (List Char)
  | 0, _, _, _ => none
  | steps + 1, stack, expected, cs =>
    match expected, dropSpace cs with
    | .itemOrEnd, ']' :: rest => scan steps (stack.drop 1) .separator rest
    | .keyOrEnd, '}' :: rest => scan steps (stack.drop 1) .separator rest
    | .keyOrEnd, cs | .key, cs => do
      let (_, cs) ← string? cs
      match dropSpace cs with
      | ':' :: rest => scan steps stack .value rest
      | _ => none
    | .value, cs | .itemOrEnd, cs =>
      match cs with
      | '[' :: rest => scan steps (.array :: stack) .itemOrEnd rest
      | '{' :: rest => scan steps (.object :: stack) .keyOrEnd rest
      | '"' :: rest => do
        let (_, rest) ← contentUpToQuote? rest
        scan steps stack .separator rest
      | _ => do scan steps stack .separator (← scalar? cs)
    | .separator, spaced =>
      match stack, spaced with
      | [], _ => some cs
      | .array :: _, ',' :: rest => scan steps stack .value rest
      | .array :: below, ']' :: rest => scan steps below .separator rest
      | .object :: _, ',' :: rest => scan steps stack .key rest
      | .object :: below, '}' :: rest => scan steps below .separator rest
      | _, _ => none

/-- The text behind one value.  Each step but the last uses up a character. -/
def value? (cs : List Char) : Option (List Char) := scan (cs.length + 1) [] .value cs

end TerraformDocs.Json
