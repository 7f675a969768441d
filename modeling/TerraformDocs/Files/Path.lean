/-!
# Paths

A path is kept as it is written.  Its components leave out what names no directory: repeated and
trailing slashes, and every `.` but a leading one.  Paths are taken apart by their text alone;
whether anything exists there is a question for a file tree.
-/

namespace TerraformDocs

structure Path where
  text : String
deriving DecidableEq, Repr

namespace Path

inductive Component where
  | root
  | here
  | up
  | name (text : String)
deriving DecidableEq, Repr

def chars (path : Path) : List Char := path.text.toList

def ofChars (cs : List Char) : Path := ⟨String.ofList cs⟩

def isAbsolute (path : Path) : Bool := path.chars.head? = some '/'

def pieces (path : Path) : List (List Char) := path.chars.splitOn '/'

/-! ## Components -/

def isFiller (piece : List Char) : Bool := piece = [] || piece = ['.']

def Component.ofPiece? (piece : List Char) : Option Component :=
  if isFiller piece then none
  else if piece = ['.', '.'] then some up
  else some (name (String.ofList piece))

def components (path : Path) : List Component :=
  match path.pieces with
  | [] => []
  | first :: others =>
    let start :=
      if first = [] ∧ others ≠ [] then some .root
      else if first = ['.'] then some .here
      else Component.ofPiece? first
    start.toList ++ others.filterMap Component.ofPiece?

/-! ## Joining -/

def join (base path : Path) : Path :=
  if path.isAbsolute then path
  else if base.chars = [] ∨ base.chars.getLast? = some '/' then ⟨base.text ++ path.text⟩
  else ⟨base.text ++ "/" ++ path.text⟩

def Component.path : Component → Path
  | root => ⟨"/"⟩
  | here => ⟨"."⟩
  | up => ⟨".."⟩
  | name text => ⟨text⟩

def ofComponents (components : List Component) : Path :=
  components.foldl (fun base component => base.join component.path) ⟨""⟩

/-! ## Ancestors -/

def anchored (anchor : List Char) (pieces : List (List Char)) : Path :=
  if anchor = ['.'] ∧ pieces ≠ [] then ofChars ('.' :: '/' :: ['/'].intercalate pieces)
  else ofChars (anchor ++ ['/'].intercalate pieces)

/-- The paths above some pieces, given last piece first; `anchor` is what stands before them. -/
def above (anchor : List Char) : List (List Char) → List Path
  | [] => if anchor = ['.'] then [⟨""⟩] else []
  | piece :: others =>
    if isFiller piece then above anchor others
    else anchored anchor (others.dropWhile isFiller).reverse :: above anchor others

/-- The path itself, then what is left of it as one component after another is taken off its end,
down to the root of an absolute path and to the empty path of a relative one. -/
def ancestors (path : Path) : List Path :=
  path ::
    match path.pieces with
    | [] => []
    | first :: others =>
      if first = [] ∧ others ≠ [] then above ['/'] others.reverse
      else if first = ['.'] then above ['.'] others.reverse
      else above [] (first :: others).reverse

def parent? (path : Path) : Option Path := path.ancestors.tail.head?

def directory (path : Path) : Path :=
  match path.parent? with
  | some parent => if parent.text = "" then ⟨"."⟩ else parent
  | none => ⟨"."⟩

/-! ## Normal form -/

/-- Adds a component to a path given last component first; `up` takes a name away if it can. -/
def pushComponent (stack : List Component) : Component → List Component
  | .here => stack
  | .up =>
    match stack with
    | .name _ :: below => below
    | _ => .up :: stack
  | component => component :: stack

/-- The same path without `.`, and with `..` at its start only. -/
def normalize (path : Path) : Path :=
  ofComponents (path.components.foldl pushComponent []).reverse

end Path

end TerraformDocs
