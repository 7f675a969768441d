import TerraformDocs.Toml.Text

/-!
# Settings in TOML

A settings file is a TOML document of keys and values alone.  The values are strings, booleans,
integers and lists of strings; a document with any other kind of value, with a table or with a
dotted key cannot be read as settings, and neither can one with an error.
-/

namespace TerraformDocs.Toml

inductive Value where
  | string (text : String)
  | boolean (value : Bool)
  | integer (value : Int)
  | strings (items : List String)
deriving DecidableEq, Repr

/-! ## Space -/

def dropSpace (cs : List Char) : List Char := cs.dropWhile isSpace

def dropComment : List Char → List Char
  | '#' :: cs => cs.dropWhile isPlain
  | cs => cs

def lineEnd? (cs : List Char) : Option (List Char) :=
  match dropComment (dropSpace cs) with
  | [] => some []
  | '\n' :: rest => some rest
  | _ => none

def dropGap (inComment : Bool) : List Char → List Char
  | [] => []
  | c :: cs =>
    if c = '\n' then dropGap false cs
    else if inComment then (if isPlain c then dropGap true cs else c :: cs)
    else if isSpace c then dropGap false cs
    else if c = '#' then dropGap true cs
    else c :: cs

/-! ## Integers -/

def moreDigits (base value : Nat) : List Char → Nat × List Char
  | '_' :: c :: cs =>
    match digitValue? base c with
    | some digit => moreDigits base (value * base + digit) cs
    | none => (value, '_' :: c :: cs)
  | c :: cs =>
    match digitValue? base c with
    | some digit => moreDigits base (value * base + digit) cs
    | none => (value, c :: cs)
  | [] => (value, [])

def digits? (base : Nat) : List Char → Option (Nat × List Char)
  | c :: cs => (digitValue? base c).map fun digit => moreDigits base digit cs
  | [] => none

def inRange (value : Int) : Bool := -9223372036854775808 ≤ value && value ≤ 9223372036854775807

def decimal? (cs : List Char) : Option (Nat × List Char) :=
  match cs with
  | '0' :: rest => some (0, rest)
  | _ => digits? 10 cs

def integer? (cs : List Char) : Option (Int × List Char) := do
  let (value, rest) ←
    match cs with
    | '0' :: 'x' :: cs => (digits? 16 cs).map fun (value, rest) => ((value : Int), rest)
    | '0' :: 'o' :: cs => (digits? 8 cs).map fun (value, rest) => ((value : Int), rest)
    | '0' :: 'b' :: cs => (digits? 2 cs).map fun (value, rest) => ((value : Int), rest)
    | '-' :: cs => (decimal? cs).map fun (value, rest) => (-(value : Int), rest)
    | '+' :: cs => (decimal? cs).map fun (value, rest) => ((value : Int), rest)
    | cs => (decimal? cs).map fun (value, rest) => ((value : Int), rest)
  if inRange value then some (value, rest) else none

/-! ## Values and entries -/

def items? : Nat → List Char → Option (List String × List Char)
  | 0, _ => none
  | steps + 1, cs =>
    match dropGap false cs with
    | ']' :: rest => some ([], rest)
    | cs => do
      let (item, cs) ← string? cs
      match dropGap false cs with
      | ']' :: rest => some ([String.ofList item], rest)
      | ',' :: rest =>
        (items? steps rest).map fun (items, rest) => (String.ofList item :: items, rest)
      | _ => none

def value? (cs : List Char) : Option (Value × List Char) :=
  match cs with
  | '[' :: cs => (items? cs.length cs).map fun (items, rest) => (.strings items, rest)
  | 't' :: 'r' :: 'u' :: 'e' :: rest => some (.boolean true, rest)
  | 'f' :: 'a' :: 'l' :: 's' :: 'e' :: rest => some (.boolean false, rest)
  | '"' :: _ | '\'' :: _ =>
    (string? cs).map fun (text, rest) => (.string (String.ofList text), rest)
  | _ => (integer? cs).map fun (value, rest) => (.integer value, rest)

def isBareKeyChar (c : Char) : Bool := c.isAlphanum || c = '_' || c = '-'

def key? (cs : List Char) : Option (String × List Char) :=
  match cs with
  | '"' :: cs => (basic? cs).map fun (key, rest) => (String.ofList key, rest)
  | '\'' :: cs => (literal? cs).map fun (key, rest) => (String.ofList key, rest)
  | _ =>
    match cs.takeWhile isBareKeyChar with
    | [] => none
    | key => some (String.ofList key, cs.dropWhile isBareKeyChar)

def entry? (cs : List Char) : Option ((String × Value) × List Char) := do
  let (key, cs) ← key? cs
  match dropSpace cs with
  | '=' :: cs => do
    let (value, cs) ← value? (dropSpace cs)
    let rest ← lineEnd? cs
    return ((key, value), rest)
  | _ => none

def entries? : Nat → List Char → Option (List (String × Value))
  | 0, cs => if cs = [] then some [] else none
  | steps + 1, cs =>
    match lineEnd? cs with
    | some [] => some []
    | some rest => entries? steps rest
    | none => do
      let (entry, rest) ← entry? (dropSpace cs)
      return entry :: (← entries? steps rest)

def unifyLineEnds : List Char → List Char
  | [] => []
  | '\r' :: '\n' :: cs => '\n' :: unifyLineEnds cs
  | c :: cs => c :: unifyLineEnds cs

def dropByteOrderMark : List Char → List Char
  | '\uFEFF' :: cs => cs
  | cs => cs

/-- The settings of a document; no key may occur twice. -/
def settings? (text : String) : Option (List (String × Value)) := do
  let cs := unifyLineEnds (dropByteOrderMark text.toList)
  let entries ← entries? (cs.length + 1) cs
  if (entries.map Prod.fst).Nodup then some entries else none

end TerraformDocs.Toml
