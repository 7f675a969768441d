import TerraformDocs.Proofs.Text.Reading

/-!
# How a sequence is cut into lines

A line holds no line feed and ends at one, at a carriage return and the line feed behind it, or
where the sequence ends, if something stands there.  There is one way to cut a sequence like this,
and `linesOf` finds it (`linesOf_eq_iff`), for characters and for bytes.
-/

namespace TerraformDocs.Text

variable {α : Type} {feed ret : α}

inductive CutAtFeeds (feed ret : α) : List α → List (List α) → Prop
  | nil : CutAtFeeds feed ret [] []
  | unended {line : List α} (hne : line ≠ []) (hfeed : feed ∉ line) :
      CutAtFeeds feed ret line [line]
  | feed {line rest : List α} {lines : List (List α)} (hfeed : feed ∉ line)
      (hret : line.getLast? ≠ some ret) (hrest : CutAtFeeds feed ret rest lines) :
      CutAtFeeds feed ret (line ++ feed :: rest) (line :: lines)
  | returnFeed {line rest : List α} {lines : List (List α)} (hfeed : feed ∉ line)
      (hrest : CutAtFeeds feed ret rest lines) :
      CutAtFeeds feed ret (line ++ ret :: feed :: rest) (line :: lines)

variable [DecidableEq α]

theorem CutAtFeeds.linesOf_eq (hne : ret ≠ feed) {xs : List α} {lines : List (List α)}
    (h : CutAtFeeds feed ret xs lines) : linesOf feed ret xs = lines := by
  induction h with
  | nil => rfl
  | unended hline hfeed => exact linesOf_line hline hfeed
  | feed hfeed hret _ ih => rw [linesOf_append_feed hfeed hret, ih]
  | returnFeed hfeed _ ih => rw [linesOf_append_return_feed hne hfeed, ih]

theorem cutAtFeeds_linesOf (hne : ret ≠ feed) (xs : List α) :
    CutAtFeeds feed ret xs (linesOf feed ret xs) := by
  by_cases hfeed : feed ∈ xs
  · obtain ⟨line, rest, hxs, hline⟩ := List.eq_append_cons_of_mem hfeed
    have hshorter : rest.length < xs.length := by
      rw [hxs, List.length_append, List.length_cons]
      omega
    have hrest := cutAtFeeds_linesOf hne rest
    subst hxs
    by_cases hret : line.getLast? = some ret
    · obtain ⟨front, rfl⟩ := List.getLast?_eq_some_iff.mp hret
      have hfront : feed ∉ front := fun hmem => hline (List.mem_append_left _ hmem)
      rw [List.append_assoc, List.singleton_append, linesOf_append_return_feed hne hfront]
      exact .returnFeed hfront hrest
    · rw [linesOf_append_feed hline hret]
      exact .feed hline hret hrest
  · by_cases hnil : xs = []
    · subst hnil
      exact .nil
    · rw [linesOf_line hnil hfeed]
      exact .unended hnil hfeed
termination_by xs.length

theorem linesOf_eq_iff (hne : ret ≠ feed) {xs : List α} {lines : List (List α)} :
    linesOf feed ret xs = lines ↔ CutAtFeeds feed ret xs lines := by
  constructor
  · rintro rfl
    exact cutAtFeeds_linesOf hne xs
  · exact CutAtFeeds.linesOf_eq hne

end TerraformDocs.Text
