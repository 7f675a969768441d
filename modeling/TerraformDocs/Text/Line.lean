/-!
# Lines

A line ends at a line feed, or at the end of the text if something stands after the last line
feed.  A carriage return right before the line feed belongs to the line's end.  The rule is the
same for characters and for bytes, so `linesOf` takes the two marks as arguments.
-/

namespace TerraformDocs.Text

/-- The lines of a sequence whose lines end at `feed`, or at `ret` and then `feed`. -/
def linesOf {α : Type} [DecidableEq α] (feed ret : α) : List α → List (List α)
  | [] => []
  | x :: xs =>
    if x = feed then [] :: linesOf feed ret xs
    else if x = ret ∧ xs.head? = some feed then linesOf feed ret xs
    else
      match linesOf feed ret xs with
      | [] => [[x]]
      | first :: others => (x :: first) :: others

def lines (cs : List Char) : List (List Char) := linesOf '\n' '\r' cs

def byteLines (bytes : List UInt8) : List (List UInt8) := linesOf 10 13 bytes

end TerraformDocs.Text
