import TerraformDocs.Files.Tree

/-!
# Tools

A tool is a program that is started with some arguments in the working directory of a file tree.
Starting it may fail; if it does not, the tool writes to its two outputs and ends.
-/

namespace TerraformDocs

inductive ExitStatus where
  | code (value : Nat)
  | signal
deriving DecidableEq, Repr

structure ToolRun where
  output : List UInt8
  errors : List UInt8
  status : ExitStatus
deriving DecidableEq, Repr

abbrev Toolbox := FileTree → String → List String → Except SystemError ToolRun

end TerraformDocs
