/-!
# Declarations

A configuration declares resources, data sources and module calls.  The type of a resource or data
source is the short name of its provider, an underscore, and the rest.
-/

namespace TerraformDocs

inductive BlockKind where
  | resource
  | dataSource
deriving DecidableEq, Repr

namespace BlockKind

def keyword : BlockKind → String
  | resource => "resource"
  | dataSource => "data"

def docsCategory : BlockKind → String
  | resource => "resources"
  | dataSource => "data-sources"

end BlockKind

/-- A declared resource or data source: of `aws_instance`, `aws` is the provider and `instance`
the type. -/
structure ResourceReference where
  kind : BlockKind
  provider : String
  type : String
  name : String
deriving DecidableEq, Repr

inductive Declaration where
  | resource (reference : ResourceReference)
  | moduleCall (name : String)
deriving DecidableEq, Repr

namespace Declaration

def address : Declaration → String
  | moduleCall name => "module." ++ name
  | resource ⟨kind, provider, type, name⟩ =>
    let scope := match kind with
      | .dataSource => "data."
      | .resource => ""
    scope ++ provider ++ "_" ++ type ++ "." ++ name

end Declaration

end TerraformDocs
