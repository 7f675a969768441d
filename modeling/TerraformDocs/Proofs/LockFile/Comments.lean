import TerraformDocs.LockFile.Parser
import TerraformDocs.Proofs.LockFile.Quoting
import TerraformDocs.Proofs.Text.Lines

/-!
# Comments are neutral

A line is cut at the first comment mark that stands outside strings, so a comment that is put behind
a line, wherever its strings are closed, goes away as a whole: its text may hold quotes, braces,
headers and more marks, and the lock file reads the same (`ofText_commented`).
-/

namespace TerraformDocs

open TerraformDocs.Text

/-! ## Lines -/

/-- A line as it is read: a carriage return at its end belongs to the line's end. -/
def withoutReturn (cs : List Char) : List Char :=
  if cs.getLast? = some '\r' then cs.dropLast else cs

theorem withoutReturn_append_cons {c : Char} (h : c ≠ '\r') (front cs : List Char) :
    withoutReturn (front ++ c :: cs) = front ++ c :: withoutReturn cs := by
  cases cs with
  | nil => simp [withoutReturn, List.getLast?_append, h]
  | cons d cs =>
      rw [withoutReturn, withoutReturn, List.getLast?_append, List.getLast?_cons_cons,
        List.dropLast_append_cons, List.dropLast_cons_of_ne_nil (by simp)]
      split <;> simp_all

theorem lines_append_line {line : List Char} (h : '\n' ∉ line) (rest : List Char) :
    lines (line ++ '\n' :: rest) = withoutReturn line :: lines rest := by
  rw [withoutReturn]
  split
  · next hlast =>
    obtain ⟨front, rfl⟩ := List.getLast?_eq_some_iff.mp hlast
    have hfront : '\n' ∉ front := fun hmem => h (List.mem_append_left _ hmem)
    rw [List.append_assoc, List.dropLast_concat, List.singleton_append,
      lines_append_within hfront (by simp) (by simp), lines_return_feed, lines_feed,
      List.modifyHead_cons, List.append_nil]
  · next hlast => exact lines_append_feed h hlast rest

theorem withoutComments_append_line {line : List Char} (h : '\n' ∉ line) (rest : List Char) :
    withoutComments (line ++ '\n' :: rest) =
      Quoting.outside.beforeComment (withoutReturn line) ++ '\n' :: withoutComments rest := by
  simp [withoutComments, lines_append_line h]

inductive Comment where
  | sign (text : List Char)
  | slashes (text : List Char)

namespace Comment

def chars : Comment → List Char
  | sign text => '#' :: text
  | slashes text => '/' :: '/' :: text

/-- The comment can be put behind a line: the strings there are closed, and two slashes do not stand
behind a third. -/
structure Fits (comment : Comment) (line : List Char) : Prop where
  closed : Quoting.outside.after line = .outside
  slash : line.getLast? = some '/' → comment.chars.head? ≠ some '/'

instance (comment : Comment) (line : List Char) : Decidable (comment.Fits line) :=
  decidable_of_iff (Quoting.outside.after line = .outside ∧
      (line.getLast? = some '/' → comment.chars.head? ≠ some '/'))
    ⟨fun ⟨closed, slash⟩ => ⟨closed, slash⟩, fun ⟨closed, slash⟩ => ⟨closed, slash⟩⟩

theorem opensComment_chars (comment : Comment) : Quoting.OpensComment comment.chars := by
  cases comment with
  | sign text => exact Quoting.opensComment_cons.mpr (.inl rfl)
  | slashes text => exact Quoting.opensComment_cons.mpr (.inr ⟨rfl, rfl⟩)

theorem Fits.beforeComment_append {comment : Comment} {line : List Char} (h : comment.Fits line) :
    Quoting.outside.beforeComment (line ++ comment.chars) =
      Quoting.outside.beforeComment line :=
  Quoting.beforeComment_append h.closed comment.opensComment_chars h.slash

theorem Fits.exists_withoutReturn {comment : Comment} {line : List Char} (h : comment.Fits line) :
    ∃ other : Comment, other.Fits line ∧
      withoutReturn (line ++ comment.chars) = line ++ other.chars := by
  cases comment with
  | sign text =>
      refine ⟨sign (withoutReturn text), ⟨h.closed, h.slash⟩, ?_⟩
      exact withoutReturn_append_cons (by decide) line text
  | slashes text =>
      refine ⟨slashes (withoutReturn text), ⟨h.closed, h.slash⟩, ?_⟩
      have hsecond := withoutReturn_append_cons (c := '/') (by decide) (line ++ ['/']) text
      simpa [chars] using hsecond

end Comment

structure CommentedLine where
  line : List Char
  comment : Option Comment

namespace CommentedLine

def chars (commented : CommentedLine) : List Char :=
  commented.line ++ commented.comment.elim [] Comment.chars

structure WellFormed (commented : CommentedLine) : Prop where
  feed : '\n' ∉ commented.chars
  ret : commented.line.getLast? ≠ some '\r'
  fits : ∀ comment ∈ commented.comment, comment.Fits commented.line

instance (commented : CommentedLine) : Decidable commented.WellFormed :=
  decidable_of_iff ('\n' ∉ commented.chars ∧ commented.line.getLast? ≠ some '\r' ∧
      ∀ comment ∈ commented.comment, comment.Fits commented.line)
    ⟨fun ⟨feed, ret, fits⟩ => ⟨feed, ret, fits⟩, fun ⟨feed, ret, fits⟩ => ⟨feed, ret, fits⟩⟩

theorem WellFormed.withoutReturn_line {commented : CommentedLine} (h : commented.WellFormed) :
    withoutReturn commented.line = commented.line :=
  if_neg h.ret

theorem WellFormed.beforeComment_chars {commented : CommentedLine} (h : commented.WellFormed) :
    Quoting.outside.beforeComment (withoutReturn commented.chars) =
      Quoting.outside.beforeComment commented.line := by
  cases hcomment : commented.comment with
  | none => rw [chars, hcomment, Option.elim_none, List.append_nil, h.withoutReturn_line]
  | some comment =>
      obtain ⟨other, hother, hchars⟩ := (h.fits comment hcomment).exists_withoutReturn
      rw [chars, hcomment, Option.elim_some, hchars, hother.beforeComment_append]

end CommentedLine

theorem withoutComments_commented {ls : List CommentedLine} (h : ∀ l ∈ ls, l.WellFormed) :
    withoutComments (unlines (ls.map CommentedLine.chars)) =
      withoutComments (unlines (ls.map CommentedLine.line)) := by
  induction ls with
  | nil => rfl
  | cons l ls ih =>
      obtain ⟨hl, hothers⟩ := List.forall_mem_cons.mp h
      have hline : '\n' ∉ l.line := fun hmem => hl.feed (List.mem_append_left _ hmem)
      rw [List.map_cons, List.map_cons, unlines_cons, unlines_cons,
        withoutComments_append_line hl.feed, withoutComments_append_line hline,
        hl.beforeComment_chars, hl.withoutReturn_line, ih hothers]

namespace LockFile

/--
Comments that are put behind lines which close their strings do not change what is read from the
text, whatever they say.  And a line is kept whole exactly if the comment marks in it all stand in
strings.
-/
theorem ofText_commented {ls : List CommentedLine} (h : ∀ l ∈ ls, l.WellFormed) :
    ofText (String.ofList (unlines (ls.map CommentedLine.chars))) =
        ofText (String.ofList (unlines (ls.map CommentedLine.line))) ∧
      ∀ line, Quoting.outside.beforeComment line = line ↔ Quoting.outside.Uncommented line := by
  refine ⟨?_, fun line => Quoting.beforeComment_eq_self_iff⟩
  rw [ofText, ofText, ofChars, ofChars, String.toList_ofList, String.toList_ofList,
    withoutComments_commented h]

theorem ofText_commented_quotes :
    let hashes := "  hashes = [\"h1:#//\"]".toList
    let ls : List CommentedLine :=
      [⟨[], some (.sign "provider \"hashicorp/null\" \x7b".toList)⟩,
        ⟨"provider \"hashicorp/aws\" \x7b".toList, some (.slashes " \" \x7d # //".toList)⟩,
        ⟨"  version = \"5.31.0\" ".toList, some (.sign "\"9.9.9\r".toList)⟩,
        ⟨hashes, none⟩, ⟨['}'], none⟩]
    (∀ l ∈ ls, l.WellFormed) ∧
      ofText (String.ofList (unlines (ls.map CommentedLine.chars))) =
        ⟨[⟨⟨"hashicorp", "aws"⟩, some "5.31.0", none, ["h1:#//"], []⟩]⟩ ∧
      Quoting.outside.Uncommented hashes := by
  intro hashes ls
  have hls : ∀ l ∈ ls, l.WellFormed := by decide +kernel
  obtain ⟨hread, hkept⟩ := ofText_commented hls
  refine ⟨hls, ?_, (hkept hashes).mp (by decide +kernel)⟩
  rw [hread]
  decide +kernel

end LockFile

end TerraformDocs
