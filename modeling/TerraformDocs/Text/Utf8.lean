/-!
# UTF-8

`decode?` reads a sequence of bytes as UTF-8 and refuses every sequence that is not: a byte that
starts no character, a missing continuation byte, a value written with more bytes than it needs,
and a value that is no Unicode scalar value.
-/

namespace TerraformDocs.Text.Utf8

def continuation? (byte : UInt8) : Option Nat :=
  if 0x80 ≤ byte.toNat ∧ byte.toNat < 0xC0 then some (byte.toNat - 0x80) else none

/-- The scalar value `value`, if it is one and at least `least`. -/
def scalar? (least value : Nat) : Option Char :=
  if least ≤ value ∧ value.isValidChar then some (Char.ofNat value) else none

def decode? : List UInt8 → Option (List Char)
  | [] => some []
  | lead :: bytes =>
    if lead.toNat < 0x80 then
      (decode? bytes).map (Char.ofNat lead.toNat :: ·)
    else if lead.toNat < 0xC0 then
      none
    else if lead.toNat < 0xE0 then
      match bytes with
      | b :: rest => do
        let value := (lead.toNat - 0xC0) * 64 + (← continuation? b)
        return (← scalar? 0x80 value) :: (← decode? rest)
      | _ => none
    else if lead.toNat < 0xF0 then
      match bytes with
      | b :: c :: rest => do
        let value := ((lead.toNat - 0xE0) * 64 + (← continuation? b)) * 64 + (← continuation? c)
        return (← scalar? 0x800 value) :: (← decode? rest)
      | _ => none
    else if lead.toNat < 0xF8 then
      match bytes with
      | b :: c :: d :: rest => do
        let high := ((lead.toNat - 0xF0) * 64 + (← continuation? b)) * 64 + (← continuation? c)
        return (← scalar? 0x10000 (high * 64 + (← continuation? d))) :: (← decode? rest)
      | _ => none
    else
      none

/-! ## Showing what is no text -/

def replacement : Char := '\uFFFD'

def characterAt? (bytes : List UInt8) : Option (Char × Nat) :=
  [1, 2, 3, 4].findSome? fun count =>
    match decode? (bytes.take count) with
    | some [c] => some (c, count)
    | _ => none

def continues (lead next : UInt8) : Bool :=
  let lead := lead.toNat
  let next := next.toNat
  if lead = 0xE0 then 0xA0 ≤ next && next < 0xC0
  else if lead = 0xED then 0x80 ≤ next && next < 0xA0
  else if lead = 0xF0 then 0x90 ≤ next && next < 0xC0
  else if lead = 0xF4 then 0x80 ≤ next && next < 0x90
  else 0xE0 ≤ lead && lead < 0xF5 && 0x80 ≤ next && next < 0xC0

/-- The number of bytes at the start of a faulty text that one replacement stands for: those that
could have started a character. -/
def faultLength : List UInt8 → Nat
  | lead :: second :: third :: _ =>
    if !continues lead second then 1
    else if 0xF0 ≤ lead.toNat && (continuation? third).isSome then 3
    else 2
  | [lead, second] => if continues lead second then 2 else 1
  | _ => 1

def shownFrom (skipped : Nat) : List UInt8 → List Char
  | [] => []
  | byte :: bytes =>
    match skipped with
    | skipped + 1 => shownFrom skipped bytes
    | 0 =>
      match characterAt? (byte :: bytes) with
      | some (c, count) => c :: shownFrom (count - 1) bytes
      | none => replacement :: shownFrom (faultLength (byte :: bytes) - 1) bytes

def shown (bytes : List UInt8) : String := String.ofList (shownFrom 0 bytes)

def encode (text : String) : List UInt8 := text.toUTF8.toList

end TerraformDocs.Text.Utf8
