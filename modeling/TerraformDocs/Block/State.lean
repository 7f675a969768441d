/-!
# Braces

Blocks are found by counting braces as they stand, in strings and comments as well.  `BlockState`
follows the block that a text opens with its first brace: not opened yet, inside of it with some
number of nested blocks open, or closed, which it stays.  `nestingAfter` is the number of open
nested blocks alone, counted on beyond the block's end.
-/

namespace TerraformDocs

inductive BlockState where
  | unopened
  | inside (nested : Nat)
  | closed
deriving DecidableEq, Repr

namespace BlockState

def step : BlockState → Char → BlockState
  | unopened, c => if c = '{' then inside 0 else unopened
  | inside nested, c =>
    if c = '{' then inside (nested + 1)
    else if c = '}' then
      match nested with
      | 0 => closed
      | outer + 1 => inside outer
    else inside nested
  | closed, _ => closed

def after (cs : List Char) : BlockState := cs.foldl step unopened

def isInside : BlockState → Bool
  | inside _ => true
  | _ => false

end BlockState

/-- One brace more or less; the count stops at zero. -/
def nestingStep (level : Nat) (c : Char) : Nat :=
  if c = '{' then level + 1 else if c = '}' then level - 1 else level

/-- The number of nested blocks open after `cs`, whose first brace opens the block itself. -/
def nestingAfter (cs : List Char) : Nat :=
  ((cs.dropWhile (· ≠ '{')).drop 1).foldl nestingStep 0

end TerraformDocs
