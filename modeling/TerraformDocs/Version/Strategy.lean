import TerraformDocs.Version.Constraint

/-!
# Choosing a version

A lock entry names an exact version and, it may be, the constraints that led to it.  A strategy
chooses between them: `high` trusts the lock, `low` and `middle` take a version that the
constraints name.  A name that is none of the three is kept, and picks none of several versions.
-/

namespace TerraformDocs

inductive Strategy where
  | high
  | low
  | middle
  | unrecognized (name : String)
deriving DecidableEq, Repr

namespace Strategy

open TerraformDocs.Text

def ofName (name : String) : Strategy :=
  match trim name with
  | "high" => high
  | "low" => low
  | "middle" => middle
  | other => unrecognized other

def name : Strategy → String
  | high => "high"
  | low => "low"
  | middle => "middle"
  | unrecognized name => name

def pick? (ranked : List Version) : Strategy → Option Version
  | low => ranked.getLast?
  | middle => ranked[ranked.length / 2]?
  | high | unrecognized _ => none

def ranked (literals : List String) : List Version :=
  (literals.filterMap Version.ofString?).mergeSort fun a b => (compare b a).isLE

def resolve (locked : String) (constraints : Option String) (strategy : Strategy) : String :=
  match constraints with
  | none => locked
  | some expression =>
    if trimChars expression.toList = [] ∨ strategy = high then locked
    else
      match Version.literals expression with
      | [only] => only
      | literals => ((strategy.pick? (ranked literals)).map Version.text).getD locked

end Strategy

end TerraformDocs
