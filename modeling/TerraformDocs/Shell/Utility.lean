import TerraformDocs.Files.Tree
import TerraformDocs.Text.Line
import TerraformDocs.Text.Utf8

/-!
# Utilities

The programs that scripts call by name.  A utility reads its input and the file tree, writes to two
outputs, and may change the tree.
-/

namespace TerraformDocs.Shell

structure Effect where
  files : FileTree
  output : List UInt8 := []
  errors : List UInt8 := []
  status : Nat := 0

abbrev Utility := FileTree → List String → List UInt8 → Effect

def bytesOf (text : String) : List UInt8 := Text.Utf8.encode text

def say (files : FileTree) (text : String) : Effect := { files, output := bytesOf text }

def complain (files : FileTree) (status : Nat) (text : String) : Effect :=
  { files, errors := bytesOf (text ++ "\n"), status }

def Effect.then (first : Effect) (second : FileTree → Effect) : Effect :=
  let second := second first.files
  { files := second.files
    output := first.output ++ second.output
    errors := first.errors ++ second.errors
    status := max first.status second.status }

def forEach (files : FileTree) (arguments : List String) (act : FileTree → String → Effect) :
    Effect :=
  arguments.foldl (fun done argument => done.then fun files => act files argument) { files }

/-! ## Text with escapes -/

def octalValue (digits : List Char) : Nat :=
  digits.foldl (fun value c => value * 8 + (c.toNat - 0x30)) 0

def isOctal (c : Char) : Bool := '0' ≤ c && c ≤ '7'

/-- The bytes of the escape behind a backslash and the text behind it; `none` ends all output. -/
def escape (zeroFirst : Bool) (cs : List Char) : Option (List UInt8) × List Char :=
  match cs with
  | 'n' :: rest => (some [10], rest)
  | 't' :: rest => (some [9], rest)
  | 'r' :: rest => (some [13], rest)
  | 'a' :: rest => (some [7], rest)
  | 'b' :: rest => (some [8], rest)
  | 'f' :: rest => (some [12], rest)
  | 'v' :: rest => (some [11], rest)
  | 'e' :: rest => (some [27], rest)
  | '\\' :: rest => (some [92], rest)
  | c :: rest =>
    if c = 'c' ∧ zeroFirst then (none, rest)
    else if isOctal c ∧ (c = '0' ∨ !zeroFirst) then
      let digits :=
        if zeroFirst then (rest.takeWhile isOctal).take 3
        else ((c :: rest).takeWhile isOctal).take 3
      let behind := if zeroFirst then rest.drop digits.length else (c :: rest).drop digits.length
      (some [UInt8.ofNat (octalValue digits)], behind)
    else (some (bytesOf (String.ofList ['\\', c])), rest)
  | [] => (some [92], [])

def unescape (zeroFirst : Bool) : Nat → List Char → List UInt8 × Bool
  | 0, _ => ([], true)
  | steps + 1, cs =>
    match cs with
    | [] => ([], true)
    | '\\' :: rest =>
      match escape zeroFirst rest with
      | (none, _) => ([], false)
      | (some bytes, rest) =>
        let (more, goesOn) := unescape zeroFirst steps rest
        (bytes ++ more, goesOn)
    | c :: rest =>
      let (more, goesOn) := unescape zeroFirst steps rest
      (bytesOf (String.singleton c) ++ more, goesOn)

def echo (escapes : Bool) : Utility := fun files arguments _ =>
  let (arguments, lineEnd) :=
    match arguments with
    | "-n" :: rest => (rest, "")
    | all => (all, "\n")
  let text := " ".intercalate arguments
  if escapes then
    let (bytes, goesOn) := unescape true (text.length + 1) text.toList
    { files, output := bytes ++ if goesOn then bytesOf lineEnd else [] }
  else say files (text ++ lineEnd)

def padded (flags : List Char) (width : Nat) (text : String) : String :=
  let missing := width - text.length
  if '-' ∈ flags then text ++ String.ofList (List.replicate missing ' ')
  else if '0' ∈ flags then
    match text.toList with
    | '-' :: digits => String.ofList ('-' :: List.replicate missing '0' ++ digits)
    | digits => String.ofList (List.replicate missing '0' ++ digits)
  else String.ofList (List.replicate missing ' ') ++ text

/-- One pass over a format: the bytes, the arguments left, and whether output goes on. -/
def formatOnce : Nat → List Char → List String → List UInt8 × List String × Bool
  | 0, _, arguments => ([], arguments, true)
  | steps + 1, cs, arguments =>
    match cs with
    | [] => ([], arguments, true)
    | '\\' :: rest =>
      match escape false rest with
      | (none, _) => ([], arguments, false)
      | (some bytes, rest) =>
        let (more, left, goesOn) := formatOnce steps rest arguments
        (bytes ++ more, left, goesOn)
    | '%' :: '%' :: rest =>
      let (more, left, goesOn) := formatOnce steps rest arguments
      (37 :: more, left, goesOn)
    | '%' :: rest =>
      let flags := rest.takeWhile fun c => c = '-' || c = '0' || c = '+' || c = ' '
      let rest := rest.drop flags.length
      let digits := rest.takeWhile Char.isDigit
      let width := Nat.ofDigitChars 10 digits 0
      let argument := arguments.headD ""
      let left := arguments.drop 1
      match rest.drop digits.length with
      | [] => ([37], arguments, true)
      | 'b' :: rest =>
        let (bytes, goesOn) := unescape true (argument.length + 1) argument.toList
        if goesOn then
          let (more, left, goesOn) := formatOnce steps rest left
          (bytes ++ more, left, goesOn)
        else (bytes, left, false)
      | kind :: rest =>
        let text :=
          if kind = 's' then padded (flags.filter (· ≠ '0')) width argument
          else if kind = 'c' then padded flags width (String.ofList (argument.toList.take 1))
          else padded flags width (toString (argument.toInt?.getD 0))
        let (more, left, goesOn) := formatOnce steps rest left
        (bytesOf text ++ more, left, goesOn)
    | c :: rest =>
      let (more, left, goesOn) := formatOnce steps rest arguments
      (bytesOf (String.singleton c) ++ more, left, goesOn)

def formatAll : Nat → List Char → List String → List UInt8
  | 0, _, _ => []
  | steps + 1, format, arguments =>
    let (bytes, left, goesOn) := formatOnce (format.length + 1) format arguments
    if goesOn ∧ left ≠ [] ∧ left.length < arguments.length then
      bytes ++ formatAll steps format left
    else bytes

def printf : Utility := fun files arguments _ =>
  match arguments with
  | [] => complain files 2 "printf: usage: printf format [arg ...]"
  | format :: rest => { files, output := formatAll (rest.length + 1) format.toList rest }

/-! ## Reading -/

def inputs (name : String) (files : FileTree) (paths : List String) (input : List UInt8) :
    Effect :=
  if paths = [] then { files, output := input }
  else
    forEach files paths fun files path =>
      if path = "-" then { files, output := input }
      else
        match files.readBytes ⟨path⟩ with
        | .ok bytes => { files, output := bytes }
        | .error cause => complain files 1 (name ++ ": " ++ path ++ ": " ++ cause.reason)

def cat : Utility := fun files arguments input =>
  inputs "cat" files (arguments.filter fun argument => argument ≠ "-u") input

def part (name : String) (last : Bool) : Utility := fun files arguments input =>
  let (unit, count, paths) :=
    match arguments with
    | "-n" :: count :: paths => ('n', count, paths)
    | "-c" :: count :: paths => ('c', count, paths)
    | option :: paths =>
      match option.toList with
      | '-' :: 'n' :: count => ('n', String.ofList count, paths)
      | '-' :: 'c' :: count => ('c', String.ofList count, paths)
      | '-' :: count => ('n', String.ofList count, paths)
      | _ => ('n', "10", arguments)
    | [] => ('n', "10", [])
  let count := (count.toNat?).getD 0
  let read := inputs name files paths input
  let cut {α : Type} (xs : List α) : List α :=
    if last then xs.drop (xs.length - count) else xs.take count
  let output :=
    if unit = 'c' then cut read.output
    else
      let pieces := Text.linesOf (10 : UInt8) 10 read.output
      let ends := read.output.getLast? = some 10 || (!last && count < pieces.length)
      let chosen := cut pieces
      let joined := chosen.flatMap (· ++ [10])
      if ends then joined else joined.dropLast
  { read with output }

def wordCount (bytes : List UInt8) : Nat :=
  (bytes.foldl (fun (count, inWord) byte =>
    let blank := byte = 32 || (9 ≤ byte && byte ≤ 13)
    (if !blank && !inWord then count + 1 else count, !blank)) (0, false)).1

def wc : Utility := fun files arguments input =>
  let options := (arguments.filter fun argument => argument.startsWith "-").flatMap
    fun argument => argument.toList.drop 1
  let paths := arguments.filter fun argument => !argument.startsWith "-"
  let options := if options = [] then ['l', 'w', 'c'] else options
  let counts (bytes : List UInt8) :=
    (if 'l' ∈ options then [bytes.count 10] else []) ++
      (if 'w' ∈ options then [wordCount bytes] else []) ++
      if 'c' ∈ options then [bytes.length] else []
  let line (numbers : List Nat) (name : String) :=
    let width := if numbers.length > 1 ∧ name = "" then 7 else 0
    " ".intercalate (numbers.map fun number => padded [] width (toString number)) ++ name ++ "\n"
  if paths = [] then say files (line (counts input) "")
  else
    forEach files paths fun files path =>
      match files.readBytes ⟨path⟩ with
      | .ok bytes => say files (line (counts bytes) (" " ++ path))
      | .error cause => complain files 1 ("wc: " ++ path ++ ": " ++ cause.reason)

def characterSet : List Char → List Char
  | a :: '-' :: b :: rest =>
    (List.range (b.toNat + 1 - a.toNat)).map (fun i => Char.ofNat (a.toNat + i)) ++
      characterSet rest
  | '\\' :: 'n' :: rest => '\n' :: characterSet rest
  | '\\' :: 't' :: rest => '\t' :: characterSet rest
  | '\\' :: 'r' :: rest => '\r' :: characterSet rest
  | '\\' :: '0' :: rest => '\x00' :: characterSet rest
  | c :: rest => c :: characterSet rest
  | [] => []

def tr : Utility := fun files arguments input =>
  match arguments with
  | ["-d", set] =>
    let set := (characterSet set.toList).map fun c => UInt8.ofNat c.toNat
    { files, output := input.filter fun byte => byte ∉ set }
  | [source, target] =>
    let source := (characterSet source.toList).map fun c => UInt8.ofNat c.toNat
    let target := (characterSet target.toList).map fun c => UInt8.ofNat c.toNat
    let change (byte : UInt8) :=
      match source.idxOf? byte with
      | some index => (target[index]?).getD (target.getLast?.getD byte)
      | none => byte
    { files, output := input.map change }
  | _ => complain files 1 "tr: missing operand"

def sort : Utility := fun files arguments input =>
  let read := inputs "sort" files (arguments.filter fun argument => !argument.startsWith "-") input
  let lines := (Text.linesOf (10 : UInt8) 10 read.output).mergeSort fun a b => decide (a ≤ b)
  let lines := if arguments.contains "-r" then lines.reverse else lines
  { read with output := lines.flatMap (· ++ [10]) }

def seq : Utility := fun files arguments _ =>
  let numbers := arguments.filterMap String.toInt?
  let (first, step, last) :=
    match numbers with
    | [last] => (1, 1, last)
    | [first, last] => (first, 1, last)
    | [first, step, last] => (first, step, last)
    | _ => (1, 1, 0)
  let count := if step = 0 then 0 else (Int.fdiv (last - first) step + 1).toNat
  say files (String.join ((List.range count).map fun (i : Nat) =>
    toString (first + step * i) ++ "\n"))

/-! ## Directories -/

def pathOf (place : Location) : String := "/" ++ "/".intercalate place

def pwd : Utility := fun files _ _ => say files (pathOf files.working ++ "\n")

def basename : Utility := fun files arguments _ =>
  let name (path : String) : String :=
    match (Path.components ⟨path⟩).getLast? with
    | some component => component.path.text
    | none => path
  match arguments with
  | [path] => say files (name path ++ "\n")
  | [path, ending] => say files (((name path).dropSuffix ending).toString ++ "\n")
  | _ => complain files 1 "basename: missing operand"

def dirname : Utility := fun files arguments _ =>
  forEach files arguments fun files path => say files ((Path.directory ⟨path⟩).text ++ "\n")

def ls : Utility := fun files arguments _ =>
  let options := (arguments.filter fun argument => argument.startsWith "-").flatMap String.toList
  let paths := arguments.filter fun argument => !argument.startsWith "-"
  forEach files (if paths = [] then ["."] else paths) fun files path =>
    match files.locate ⟨path⟩ with
    | .error cause => complain files 2 ("ls: cannot access '" ++ path ++ "': " ++ cause.reason)
    | .ok place =>
      if files.node? place = some .directory ∧ 'd' ∉ options then
        let names := (files.entries place).map Prod.fst
        let shown :=
          if 'a' ∈ options then "." :: ".." :: names
          else if 'A' ∈ options then names
          else names.filter fun name => !name.startsWith "."
        say files (String.join ((shown.mergeSort fun a b => decide (a ≤ b)).map (· ++ "\n")))
      else say files (path ++ "\n")

def mkdir : Utility := fun files arguments _ =>
  let parents := arguments.contains "-p"
  forEach files (arguments.filter (· ≠ "-p")) fun files path =>
    let path : Path := ⟨path⟩
    if parents then { files := files.insertDirectory path }
    else
      let failure (reason : String) :=
        complain files 1 ("mkdir: cannot create directory ‘" ++ path.text ++ "’: " ++ reason)
      if (files.lookup path).isOk then failure "File exists"
      else if files.isDirectory path.directory then { files := files.insertDirectory path }
      else failure "No such file or directory"

def touch : Utility := fun files arguments _ =>
  forEach files arguments fun files path =>
    if (files.lookup ⟨path⟩).isOk then { files }
    else if files.isDirectory (Path.directory ⟨path⟩) then
      { files := files.insert ⟨path⟩ (.file []) }
    else complain files 1 ("touch: cannot touch '" ++ path ++ "': No such file or directory")

def remove : Utility := fun files arguments _ =>
  let quiet := arguments.any fun argument => argument.startsWith "-" && argument.contains 'f'
  forEach files (arguments.filter fun argument => !argument.startsWith "-") fun files path =>
    if (files.lookup ⟨path⟩).isOk then
      let place := files.placeOf ⟨path⟩
      { files := { files with nodes := files.nodes.filter fun node => !place.isPrefixOf node.1 } }
    else if quiet then { files }
    else complain files 1 ("rm: cannot remove '" ++ path ++ "': No such file or directory")

/-! ## Tests -/

def holds (files : FileTree) : List String → Bool
  | [] => false
  | "!" :: rest => !holds files rest
  | [text] => text ≠ ""
  | ["-n", text] => text ≠ ""
  | ["-z", text] => text = ""
  | ["-f", path] => files.isFile ⟨path⟩
  | ["-d", path] => files.isDirectory ⟨path⟩
  | ["-e", path] => (files.lookup ⟨path⟩).isOk
  | ["-s", path] => ((files.readBytes ⟨path⟩).toOption.getD []) ≠ []
  | [a, "=", b] => a = b
  | [a, "!=", b] => a ≠ b
  | [a, operator, b] =>
    match a.toInt?, b.toInt? with
    | some a, some b =>
      match operator with
      | "-eq" => a = b
      | "-ne" => a ≠ b
      | "-lt" => a < b
      | "-le" => a ≤ b
      | "-gt" => a > b
      | "-ge" => a ≥ b
      | _ => false
    | _, _ => false
  | _ => false

def test : Utility := fun files arguments _ =>
  { files, status := if holds files arguments then 0 else 1 }

def silent (status : Nat) : Utility := fun files _ _ => { files, status }

def endlessLines : Nat := 65536

def yes : Utility := fun files arguments _ =>
  let line := (if arguments = [] then "y" else " ".intercalate arguments) ++ "\n"
  say files (String.join (List.replicate endlessLines line))

def programs : List (String × Utility) :=
  [("true", silent 0), ("false", silent 1), ("echo", echo false), ("printf", printf),
   ("cat", cat), ("head", part "head" false), ("tail", part "tail" true), ("wc", wc), ("tr", tr),
   ("sort", sort), ("seq", seq), ("ls", ls), ("mkdir", mkdir), ("touch", touch), ("rm", remove),
   ("pwd", pwd), ("basename", basename), ("dirname", dirname), ("sleep", silent 0), ("test", test),
   ("yes", yes)]

end TerraformDocs.Shell
