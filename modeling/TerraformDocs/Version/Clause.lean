import TerraformDocs.Version.Parser

/-!
# Constraint clauses

A clause is an operator and a version, such as `>= 1.2.0`; no operator means equality.  A clause
whose operand is no version, or a candidate that is none, is compared as text.
-/

namespace TerraformDocs.Version

open TerraformDocs.Text

inductive Operator where
  | pessimistic
  | atLeast
  | atMost
  | above
  | below
  | exactly
deriving DecidableEq, Repr

namespace Operator

/-- The written operators.  One that begins another comes after it. -/
def table : List (String × Operator) :=
  [("~>", pessimistic), (">=", atLeast), ("<=", atMost), (">", above), ("<", below),
   ("=", exactly)]

def Holds (candidate bound : Version) : Operator → Prop
  | pessimistic =>
    bound ≤ candidate ∧ candidate.major = bound.major ∧ candidate.minor = bound.minor
  | atLeast => bound ≤ candidate
  | atMost => candidate ≤ bound
  | above => bound < candidate
  | below => candidate < bound
  | exactly => candidate = bound

instance (candidate bound : Version) (op : Operator) : Decidable (op.Holds candidate bound) := by
  cases op <;> unfold Holds <;> infer_instance

end Operator

def clauseParts (clause : List Char) : Operator × List Char :=
  let reading := Operator.table.findSome? fun (mark, op) =>
    (mark.toList.isPrefixOf? clause).map fun operand => (op, trimChars operand)
  reading.getD (.exactly, clause)

def satisfies (version clause : String) : Bool :=
  let clause := trimChars clause.toList
  let (op, operand) := clauseParts clause
  match ofString? version, ofChars? operand with
  | some candidate, some bound => decide (op.Holds candidate bound)
  | _, _ => trimChars version.toList = clause

end TerraformDocs.Version
