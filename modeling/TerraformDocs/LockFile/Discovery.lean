import TerraformDocs.Error
import TerraformDocs.Files.Tree
import TerraformDocs.LockFile.Parser

/-!
# Finding the lock file

The lock file of a directory is the one in it or in the nearest directory above it, as the
directory's path is written.
-/

namespace TerraformDocs

def FileTree.readNamed (files : FileTree) (path : Path) : Except Error String :=
  match files.readText path with
  | .ok text => .ok text
  | .error .notFound => .error (.fileNotFound path)
  | .error cause => .error (.io cause)

namespace LockFile

def read (files : FileTree) (path : Path) : Except Error LockFile :=
  (files.readNamed path).map ofText

def locate? (files : FileTree) (start : Path) (name : String) : Option Path :=
  (start.ancestors.map fun directory => directory.join ⟨name⟩).find? files.isFile

def discover (files : FileTree) (start : Path) (name : String) :
    Except Error (Option LockFile) :=
  match locate? files start name with
  | none => .ok none
  | some path => (read files path).map some

end LockFile

end TerraformDocs
