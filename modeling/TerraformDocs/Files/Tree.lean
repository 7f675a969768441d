import TerraformDocs.Files.Path
import TerraformDocs.Files.SystemError
import TerraformDocs.Text.Utf8

/-!
# File trees

A file tree holds directories, files and symbolic links, each at the list of names that leads to
it from the root, and the directory in which relative paths start.  `locate` follows a path through
the tree; everything that reads a file goes through it.
-/

namespace TerraformDocs

abbrev Location := List String

inductive Node where
  | directory
  | file (bytes : List UInt8)
  | link (target : Path)
deriving DecidableEq, Repr

structure FileTree where
  nodes : List (Location × Node)
  working : Location
deriving DecidableEq, Repr

namespace FileTree

def node? (tree : FileTree) (location : Location) : Option Node :=
  if location = [] then some .directory else (tree.nodes.find? (·.1 = location)).map Prod.snd

/-! ## Following paths -/

def linkLimit : Nat := 40

/-- The longest name and the longest path, in bytes. -/
def nameLimit : Nat := 255

def pathLimit : Nat := 4095

/-- The place that some pieces of a path lead to from a place, through `links` links at most.
Every piece, an empty one too, asks for a directory. -/
def follow (tree : FileTree) (links : Nat) (place : Location) (pieces : List (List Char)) :
    Except SystemError Location :=
  match pieces with
  | [] => .ok place
  | piece :: others =>
    match tree.node? place with
    | none => .error .notFound
    | some (.file _) | some (.link _) => .error .notADirectory
    | some .directory =>
      if Path.isFiller piece then tree.follow links place others
      else if piece = ['.', '.'] then tree.follow links place.dropLast others
      else
        let name := String.ofList piece
        if name.utf8ByteSize > nameLimit then .error .nameTooLong
        else
          match tree.node? (place ++ [name]) with
          | none => .error .notFound
          | some (.link target) =>
            match links with
            | 0 => .error .tooManyLinks
            | links + 1 =>
              tree.follow links (if target.isAbsolute then [] else place) (target.pieces ++ others)
          | some _ => tree.follow links (place ++ [name]) others
termination_by (links, pieces.length)

def locate (tree : FileTree) (path : Path) : Except SystemError Location :=
  if path.text = "" then .error .notFound
  else if '\x00' ∈ path.chars then .error .nulInPath
  else if path.text.utf8ByteSize > pathLimit then .error .nameTooLong
  else tree.follow linkLimit (if path.isAbsolute then [] else tree.working) path.pieces

def lookup (tree : FileTree) (path : Path) : Except SystemError Node := do
  let place ← tree.locate path
  match tree.node? place with
  | some node => .ok node
  | none => .error .notFound

def isFile (tree : FileTree) (path : Path) : Bool :=
  match tree.lookup path with
  | .ok (.file _) => true
  | _ => false

def isDirectory (tree : FileTree) (path : Path) : Bool :=
  match tree.lookup path with
  | .ok .directory => true
  | _ => false

def readBytes (tree : FileTree) (path : Path) : Except SystemError (List UInt8) := do
  match ← tree.lookup path with
  | .file bytes => .ok bytes
  | .directory => .error .isADirectory
  | .link _ => .error .notFound

def readText (tree : FileTree) (path : Path) : Except SystemError String := do
  match Text.Utf8.decode? (← tree.readBytes path) with
  | some cs => .ok (String.ofList cs)
  | none => .error .notUtf8

def entries (tree : FileTree) (directory : Location) : List (String × Node) :=
  tree.nodes.filterMap fun (location, node) =>
    match location.getLast? with
    | some name => if location.dropLast = directory then some (name, node) else none
    | none => none

/-! ## Building -/

def addIfAbsent (tree : FileTree) (location : Location) (node : Node) : FileTree :=
  if (tree.node? location).isSome then tree
  else { tree with nodes := tree.nodes ++ [(location, node)] }

def makeDirectories (tree : FileTree) (place : Location) : List String → FileTree
  | [] => tree
  | name :: names =>
    (tree.addIfAbsent (place ++ [name]) .directory).makeDirectories (place ++ [name]) names

/-- The place that a path names from the working directory, by its text. -/
def placeOf (tree : FileTree) (path : Path) : Location :=
  path.components.foldl (fun place component =>
    match component with
    | .root => []
    | .here => place
    | .up => place.dropLast
    | .name text => place ++ [text]) tree.working

def insert (tree : FileTree) (path : Path) (node : Node) : FileTree :=
  let place := tree.placeOf path
  let tree := tree.makeDirectories [] place.dropLast
  { tree with nodes := tree.nodes.filter (·.1 ≠ place) ++ [(place, node)] }

def insertDirectory (tree : FileTree) (path : Path) : FileTree :=
  tree.makeDirectories [] (tree.placeOf path)

def emptyAt (working : Location) : FileTree :=
  (FileTree.mk [] working).makeDirectories [] working

end FileTree

end TerraformDocs
