import TerraformDocs.LockFile.Basic
import TerraformDocs.LockFile.Quoting
import TerraformDocs.Text.LineStart

/-!
# Reading lock files

A lock file is searched for provider headers at line starts.  A header whose source can be read and
whose block is closed makes a provider lock.  Within the block the settings outside nested blocks
count; of two with one key the later one does.
-/

namespace TerraformDocs.LockFile

open TerraformDocs.Text

/-! ## Headers -/

/-- A provider's source between quotes, from the word `provider` to the block's opening brace. -/
def header? (cs : List Char) : Option (List Char × List Char) := do
  let cs ← "provider".toList.isPrefixOf? (dropBlanks cs)
  let cs ← afterGap? cs
  let (source, cs) ← label? cs
  let rest ← ['{'].isPrefixOf? (dropBlanks cs)
  return (source, rest)

theorem header?_length {cs source rest : List Char} (h : header? cs = some (source, rest)) :
    rest.length < cs.length := by
  simp only [header?, Option.bind_eq_bind, Option.bind_eq_some_iff, Prod.exists,
    Option.pure_def, Option.some.injEq, Prod.mk.injEq] at h
  obtain ⟨_, hword, _, hgap, _, closed, hlabel, _, hopen, -, rfl⟩ := h
  have := isPrefixOf?_length hword
  have := afterGap?_length hgap
  have := label?_length hlabel
  have := isPrefixOf?_length hopen
  have := dropBlanks_length_le cs
  have := dropBlanks_length_le closed
  simp only [List.length_cons, List.length_nil] at *
  omega

def headerReader : LineReader (List Char) := ⟨header?, header?_length⟩

/-! ## Settings -/

def isKeyChar (c : Char) : Bool := c.isLower || c = '_'

def key? (cs : List Char) : Option (List Char × List Char) := do
  let (key, cs) ← run? isKeyChar (dropBlanks cs)
  let rest ← ['='].isPrefixOf? (dropBlanks cs)
  return (key, dropBlanks rest)

theorem key?_length {cs key rest : List Char} (h : key? cs = some (key, rest)) :
    rest.length < cs.length := by
  simp only [key?, Option.bind_eq_bind, Option.bind_eq_some_iff, Prod.exists,
    Option.pure_def, Option.some.injEq, Prod.mk.injEq] at h
  obtain ⟨_, middle, hrun, value, hword, -, rfl⟩ := h
  have := run?_length hrun
  have := isPrefixOf?_length hword
  have := dropBlanks_length_le cs
  have := dropBlanks_length_le middle
  have := dropBlanks_length_le value
  simp only [List.length_cons, List.length_nil] at *
  omega

def stringSetting? (cs : List Char) : Option ((List Char × List Char) × List Char) := do
  let (key, cs) ← key? cs
  let (value, rest) ← quoted? cs
  return ((key, value), rest)

def quotedItems (cs : List Char) : List (List Char) :=
  match _h : upTo? '"' cs with
  | none => []
  | some (_, afterOpen) =>
    match _h' : upTo? '"' afterOpen with
    | none => []
    | some (item, rest) => item :: quotedItems rest
termination_by cs.length
decreasing_by exact Nat.lt_trans (upTo?_length _h') (upTo?_length _h)

def listSetting? (cs : List Char) : Option ((List Char × List (List Char)) × List Char) := do
  let (key, cs) ← key? cs
  let cs ← ['['].isPrefixOf? cs
  let (items, rest) ← upTo? ']' cs
  return ((key, quotedItems items), rest)

def stringReader : LineReader (List Char × List Char) where
  read := stringSetting?
  shrinks h := by
    simp only [stringSetting?, Option.bind_eq_bind, Option.bind_eq_some_iff, Prod.exists,
      Option.pure_def, Option.some.injEq, Prod.mk.injEq] at h
    obtain ⟨_, _, hkey, _, _, hquoted, -, rfl⟩ := h
    exact Nat.lt_trans (quoted?_length hquoted) (key?_length hkey)

def listReader : LineReader (List Char × List (List Char)) where
  read := listSetting?
  shrinks h := by
    simp only [listSetting?, Option.bind_eq_bind, Option.bind_eq_some_iff, Prod.exists,
      Option.pure_def, Option.some.injEq, Prod.mk.injEq] at h
    obtain ⟨_, _, hkey, _, hword, _, _, hitems, -, rfl⟩ := h
    have := key?_length hkey
    have := isPrefixOf?_length hword
    have := upTo?_length hitems
    simp only [List.length_cons, List.length_nil] at *
    omega

/-- The last value that a key has among some settings. -/
def lastValue? {α : Type} (key : String) (settings : List (List Char × α)) : Option α :=
  (settings.reverse.find? fun setting => setting.1 = key.toList).map Prod.snd

def lockOf (source : ProviderSource) (body : List Char) : ProviderLock :=
  let own := Quoting.ownText 0 .outside body
  let strings := (stringReader.readings own).map Prod.fst
  let lists := (listReader.readings own).map Prod.fst
  let list key := ((lastValue? key lists).getD []).map String.ofList
  { source
    version := (lastValue? "version" strings).map String.ofList
    constraints := (lastValue? "constraints" strings).map String.ofList
    hashes := list "hashes"
    platforms := list "platforms" }

def lockAt? (header : List Char × List Char) : Option ProviderLock := do
  let source ← ProviderSource.ofChars? header.1
  let body ← Quoting.blockBody? 0 .outside header.2
  return lockOf source body

def ofChars (cs : List Char) : LockFile :=
  ⟨(headerReader.readings (withoutComments cs)).filterMap lockAt?⟩

def ofText (text : String) : LockFile := ofChars text.toList

end TerraformDocs.LockFile
