import TerraformDocs.Json.Scanner
import TerraformDocs.Text.Utf8

/-!
# What a registry answers

A registry describes a provider by a JSON object, of which only the newest version is read.  The
object names it exactly once, as a string; an array with that string alone is accepted too.
-/

namespace TerraformDocs.Registry

open TerraformDocs.Json

def textString? (cs : List Char) : Option (String × List Char) := do
  let (content, rest) ← string? cs
  let decoded ← content? content
  let text ← Text.Utf8.decode? (decoded.map fun c => UInt8.ofNat c.toNat)
  return (String.ofList text, rest)

/-- The version among the members of an object, given the one found so far, and the text behind
the object. -/
def memberVersion? (steps : Nat) (found : Option String) (cs : List Char) :
    Option (String × List Char) :=
  match steps with
  | 0 => none
  | steps + 1 => do
    let (key, cs) ← textString? (dropSpace cs)
    match dropSpace cs with
    | ':' :: cs =>
      let (found, cs) ←
        if key = "version" then
          match found with
          | some _ => none
          | none => (textString? (dropSpace cs)).map fun (version, rest) => (some version, rest)
        else (value? cs).map fun rest => (found, rest)
      match dropSpace cs with
      | ',' :: rest => memberVersion? steps found rest
      | '}' :: rest => found.map (·, rest)
      | _ => none
    | _ => none

def publishedVersion? (body : List UInt8) : Option String := do
  let cs := body.map fun byte => Char.ofNat byte.toNat
  let (version, rest) ←
    match dropSpace cs with
    | '{' :: members => memberVersion? members.length none members
    | '[' :: items => do
      let (version, rest) ← textString? (dropSpace items)
      match dropSpace rest with
      | ']' :: rest => some (version, rest)
      | _ => none
    | _ => none
  if dropSpace rest = [] then some version else none

end TerraformDocs.Registry
