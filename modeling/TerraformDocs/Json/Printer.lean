/-!
# Writing JSON

Output is indented by two spaces a level, each item or member on a line of its own; an empty array
is written as two brackets.  Of the characters only quotes, backslashes and control characters are
escaped.
-/

namespace TerraformDocs

inductive JsonValue where
  | null
  | boolean (value : Bool)
  | number (value : Nat)
  | string (text : String)
  | array (items : List JsonValue)
  | object (members : List (String × JsonValue))

namespace JsonValue

def ofOption {α : Type} (write : α → JsonValue) : Option α → JsonValue
  | none => null
  | some value => write value

def hexDigit (n : Nat) : Char := Char.ofNat (if n < 10 then 0x30 + n else 0x57 + n)

def escapeChar (c : Char) : List Char :=
  if c = '"' then ['\\', '"']
  else if c = '\\' then ['\\', '\\']
  else if c = '\n' then ['\\', 'n']
  else if c = '\r' then ['\\', 'r']
  else if c = '\t' then ['\\', 't']
  else if c = '\x08' then ['\\', 'b']
  else if c = '\x0c' then ['\\', 'f']
  else if c.toNat < 0x20 then
    ['\\', 'u', '0', '0', hexDigit (c.toNat / 16), hexDigit (c.toNat % 16)]
  else [c]

def quote (text : String) : String :=
  String.ofList ('"' :: text.toList.flatMap escapeChar ++ ['"'])

def indent (level : Nat) : String := String.ofList (List.replicate (2 * level) ' ')

def enclose (opening closing : Char) (level : Nat) (lines : List String) : String :=
  if lines = [] then String.ofList [opening, closing]
  else
    String.singleton opening ++ "\n" ++
      ",\n".intercalate (lines.map fun line => indent (level + 1) ++ line) ++
      "\n" ++ indent level ++ String.singleton closing

mutual

def render (level : Nat) : JsonValue → String
  | null => "null"
  | boolean true => "true"
  | boolean false => "false"
  | number value => toString value
  | string text => quote text
  | array items => enclose '[' ']' level (renderItems (level + 1) items)
  | object members => enclose '{' '}' level (renderMembers (level + 1) members)

def renderItems (level : Nat) : List JsonValue → List String
  | [] => []
  | item :: items => render level item :: renderItems level items

def renderMembers (level : Nat) : List (String × JsonValue) → List String
  | [] => []
  | (key, value) :: members =>
    (quote key ++ ": " ++ render level value) :: renderMembers level members

end

end JsonValue

end TerraformDocs
