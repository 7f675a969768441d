import TerraformDocs.Proofs.Block.Enclosing
import TerraformDocs.Proofs.Block.OwnText
import TerraformDocs.Target.Lookup

/-!
# Blocks do not interfere

A chunk is a run of lines that keeps its braces to itself.  What a position in a chunk stands in,
and what a lookup there finds, does not depend on the chunks above it or on the lines below it:
the search upwards finds the blocks of earlier chunks closed, and the texts that are read from a
declaration on end before the chunk does.
-/

namespace TerraformDocs

def textOf (lines : List String) : List Char := lines.flatMap String.toList

/--
At most the first line declares something, the braces balance, and what the first line declares
has a block.
-/
structure ClosedChunk (lines : List String) : Prop where
  declares_first : ∀ line ∈ lines.tail, Declaration.ofLine? line = none
  balanced : Balanced (textOf lines)
  opens : ∀ line ∈ lines.head?, (Declaration.ofLine? line).isSome → '{' ∈ textOf lines

instance (lines : List String) : Decidable (ClosedChunk lines) :=
  decidable_of_iff
    ((∀ line ∈ lines.tail, Declaration.ofLine? line = none) ∧ Balanced (textOf lines) ∧
      ∀ line ∈ lines.head?, (Declaration.ofLine? line).isSome → '{' ∈ textOf lines)
    ⟨fun ⟨first, balanced, opens⟩ => ⟨first, balanced, opens⟩,
      fun ⟨first, balanced, opens⟩ => ⟨first, balanced, opens⟩⟩

/-! ## The text of a block -/

namespace BlockState

theorem ownLines_append_of_closed {state : BlockState} {lines : List String}
    (h : (textOf lines).foldl step state = closed) (others : List (List Char)) :
    ownLines state (lines.map String.toList ++ others) =
      ownLines state (lines.map String.toList) := by
  rw [textOf, List.flatMap_def] at h
  rw [ownLines_append, h, ownLines_closed, List.append_nil]

end BlockState

namespace Document

variable (front chunk rest : List String)

theorem blockText_append (h : BlockState.after (textOf chunk) = .closed) :
    (Document.mk (front ++ (chunk ++ rest))).blockText front.length =
      (Document.mk chunk).blockText 0 := by
  simp only [blockText, List.drop_left, List.drop_zero, List.map_append]
  exact BlockState.ownLines_append_of_closed h _

theorem line?_append {line : Nat} (h : line < chunk.length) :
    (Document.mk (front ++ (chunk ++ rest))).line? (front.length + line) =
      (Document.mk chunk).line? line := by
  simp [line?, List.getElem?_append_right, List.getElem?_append_left h]

theorem textBefore_append (start : Nat) {position : Position}
    (h : position.line < chunk.length) :
    (Document.mk (front ++ (chunk ++ rest))).textBefore (front.length + start)
        ⟨front.length + position.line, position.character⟩ =
      (Document.mk chunk).textBefore start position := by
  have hlines : ((front ++ (chunk ++ rest)).take (front.length + position.line)).drop
      (front.length + start) = (chunk.take position.line).drop start := by
    rw [List.take_length_add_append, ← List.drop_drop, List.drop_left,
      List.take_append_of_le_length (Nat.le_of_lt h)]
  simp only [textBefore, line?_append front chunk rest h, hlines, Nat.add_le_add_iff_left]

theorem exists_textBefore_eq {position : Position}
    (h : front.length + chunk.length ≤ position.line) :
    ∃ later, (Document.mk (front ++ (chunk ++ rest))).textBefore front.length position =
      textOf chunk ++ later := by
  obtain ⟨below, hbelow⟩ := Nat.exists_eq_add_of_le h
  have hlines : ((front ++ (chunk ++ rest)).take position.line).drop front.length =
      chunk ++ rest.take below := by
    rw [hbelow, Nat.add_assoc, List.take_length_add_append, List.drop_left,
      List.take_length_add_append]
  simp only [textBefore, hlines, List.flatMap_append, List.append_assoc]
  exact ⟨_, rfl⟩

theorem openAt_eq_false_of_closed (h : BlockState.after (textOf chunk) = .closed)
    {position : Position} (hbelow : front.length + chunk.length ≤ position.line) :
    (Document.mk (front ++ (chunk ++ rest))).openAt front.length position = false := by
  obtain ⟨later, htext⟩ := exists_textBefore_eq front chunk rest hbelow
  rw [openAt, htext, BlockState.after, List.foldl_append]
  change (later.foldl BlockState.step (BlockState.after (textOf chunk))).isInside = false
  rw [h, BlockState.foldl_step_closed]
  rfl

end Document

/-! ## The enclosing block -/

def EnclosingBlock.lowered (count : Nat) (block : EnclosingBlock) : EnclosingBlock :=
  { block with line := count + block.line }

theorem ClosedChunk.eq_zero_of_declares {lines : List String} (chunk : ClosedChunk lines)
    {index : Nat} {declaration : Declaration}
    (h : (lines[index]?).bind Declaration.ofLine? = some declaration) :
    index = 0 ∧ BlockState.after (textOf lines) = .closed := by
  obtain ⟨line, hline, hdeclares⟩ := Option.bind_eq_some_iff.mp h
  cases lines with
  | nil => simp at hline
  | cons first others =>
      cases index with
      | zero =>
          obtain rfl : first = line := by simpa using hline
          have opens := chunk.opens first (by simp) (by simp [hdeclares])
          exact ⟨rfl, BlockState.after_eq_closed chunk.balanced opens⟩
      | succ index =>
          have hmem : line ∈ others := List.mem_of_getElem? (by simpa using hline)
          simp [chunk.declares_first line hmem] at hdeclares

theorem exists_chunk_of_declares {chunks : List (List String)}
    (closed : ∀ lines ∈ chunks, ClosedChunk lines) {index : Nat} {declaration : Declaration}
    (hindex : index < chunks.flatten.length)
    (h : (chunks.flatten[index]?).bind Declaration.ofLine? = some declaration) :
    ∃ earlier chunk later, chunks = earlier ++ chunk :: later ∧
      earlier.flatten.length = index ∧ BlockState.after (textOf chunk) = .closed := by
  induction chunks generalizing index with
  | nil => simp at hindex
  | cons first others ih =>
      rw [List.flatten_cons] at h hindex
      by_cases hfirst : index < first.length
      · rw [List.getElem?_append_left hfirst] at h
        obtain ⟨rfl, hclosed⟩ := (closed first (by simp)).eq_zero_of_declares h
        exact ⟨[], first, others, rfl, rfl, hclosed⟩
      · rw [List.getElem?_append_right (by omega)] at h
        rw [List.length_append] at hindex
        obtain ⟨earlier, chunk, later, rfl, hlength, hclosed⟩ :=
          ih (fun lines hmem => closed lines (by simp [hmem])) (by omega) h
        refine ⟨first :: earlier, chunk, later, rfl, ?_, hclosed⟩
        rw [List.flatten_cons, List.length_append, hlength]
        omega

namespace Document

theorem enclosingAbove?_eq_none {document : Document} {position : Position} {bound : Nat}
    (h : ∀ line < bound, ∀ declaration,
      (document.line? line).bind Declaration.ofLine? = some declaration →
        document.openAt line position = false) :
    document.enclosingAbove? position bound = none := by
  induction bound with
  | zero => rfl
  | succ bound ih =>
      have above := ih fun line hline => h line (by omega)
      simp only [enclosingAbove?]
      split
      · next declaration hdeclares =>
        simp [h bound (by omega) declaration hdeclares, above]
      · exact above

theorem enclosingAbove?_chunks {chunks : List (List String)} {others : List String}
    (closed : ∀ lines ∈ chunks, ClosedChunk lines) {position : Position}
    (hbelow : chunks.flatten.length ≤ position.line) :
    (Document.mk (chunks.flatten ++ others)).enclosingAbove? position chunks.flatten.length =
      none := by
  apply enclosingAbove?_eq_none
  intro line hline declaration hdeclares
  rw [line?, List.getElem?_append_left hline] at hdeclares
  obtain ⟨earlier, chunk, later, rfl, hlength, hclosed⟩ :=
    exists_chunk_of_declares closed hline hdeclares
  simp only [List.flatten_append, List.flatten_cons, List.length_append] at hbelow
  subst hlength
  have hchunk : earlier.flatten.length + chunk.length ≤ position.line := by omega
  simpa using openAt_eq_false_of_closed earlier.flatten chunk (later.flatten ++ others) hclosed
    hchunk

variable {chunks : List (List String)} {chunk : List String}

theorem enclosingAbove?_append (closed : ∀ lines ∈ chunks, ClosedChunk lines)
    (others : List String) {position : Position} (hline : position.line < chunk.length)
    {bound : Nat} (hbound : bound ≤ chunk.length) :
    (Document.mk (chunks.flatten ++ (chunk ++ others))).enclosingAbove?
        ⟨chunks.flatten.length + position.line, position.character⟩
        (chunks.flatten.length + bound) =
      ((Document.mk chunk).enclosingAbove? position bound).map
        (.lowered chunks.flatten.length) := by
  induction bound with
  | zero => exact enclosingAbove?_chunks closed (Nat.le_add_right _ _)
  | succ bound ih =>
      have above := ih (by omega)
      rw [← Nat.add_assoc, enclosingAbove?, enclosingAbove?, openAt, openAt, above,
        line?_append chunks.flatten chunk others (by omega),
        textBefore_append chunks.flatten chunk others bound hline]
      split
      · split <;> rfl
      · rfl

theorem enclosingBlock?_append (closed : ∀ lines ∈ chunks, ClosedChunk lines)
    (others : List String) {position : Position} (hline : position.line < chunk.length) :
    (Document.mk (chunks.flatten ++ (chunk ++ others))).enclosingBlock?
        ⟨chunks.flatten.length + position.line, position.character⟩ =
      ((Document.mk chunk).enclosingBlock? position).map (.lowered chunks.flatten.length) := by
  have hwhole : min (chunks.flatten.length + position.line + 1)
      (chunks.flatten ++ (chunk ++ others)).length =
      chunks.flatten.length + (position.line + 1) := by
    simp only [List.length_append]
    omega
  simp only [enclosingBlock?, lineCount, hwhole, Nat.min_eq_left (Nat.succ_le_of_lt hline)]
  exact enclosingAbove?_append closed others hline hline

theorem attributeContext?_append (closed : ∀ lines ∈ chunks, ClosedChunk lines)
    (others : List String) {position : Position} (hline : position.line < chunk.length) :
    (Document.mk (chunks.flatten ++ (chunk ++ others))).attributeContext?
        ⟨chunks.flatten.length + position.line, position.character⟩ =
      ((Document.mk chunk).attributeContext? position).map fun (block, assigned) =>
        (block.lowered chunks.flatten.length, assigned) := by
  simp only [attributeContext?, line?_append chunks.flatten chunk others hline,
    enclosingBlock?_append closed others hline]
  cases (Document.mk chunk).line? position.line with
  | none => rfl
  | some line =>
      cases hname : attributeAt? line position.character with
      | none => simp [hname]
      | some name =>
          cases (Document.mk chunk).enclosingBlock? position with
          | none => simp
          | some block =>
              have htext := textBefore_append chunks.flatten chunk others block.line hline
              simp only [hname, EnclosingBlock.lowered, nestingLevel, Option.bind_eq_bind,
                Option.bind_some, Option.pure_def, Option.map_some, htext]

theorem declares_of_attributeContext? {document : Document} {position : Position}
    {block : EnclosingBlock} {assigned : AttributeContext}
    (h : document.attributeContext? position = some (block, assigned)) :
    (document.line? block.line).bind Declaration.ofLine? = some block.declaration := by
  simp only [attributeContext?, Option.bind_eq_bind, Option.bind_eq_some_iff, Option.pure_def,
    Option.some.injEq, Prod.mk.injEq] at h
  obtain ⟨_, -, _, -, _, hblock, rfl, -⟩ := h
  exact (enclosingAbove?_eq_some_iff.mp hblock).1

end Document

/-! ## Lookups -/

namespace LookupContext

variable {σ : Type} (context : LookupContext σ) (path : Path)
variable {chunks : List (List String)} {chunk : List String}

theorem declarationTarget_append (others : List String) (hchunk : ClosedChunk chunk)
    (front : List String) {line : Nat} {declaration : Declaration}
    (hdeclares : ((Document.mk chunk).line? line).bind Declaration.ofLine? =
      some declaration) :
    context.declarationTarget (Document.mk (front ++ (chunk ++ others))) path
        (front.length + line) declaration =
      context.declarationTarget (Document.mk chunk) path line declaration := by
  obtain ⟨rfl, hclosed⟩ := hchunk.eq_zero_of_declares hdeclares
  cases declaration with
  | resource reference => rfl
  | moduleCall name =>
      simp only [declarationTarget, Document.blockAttribute?, Nat.add_zero,
        Document.blockText_append front chunk others hclosed]

/--
A lookup in a chunk finds the same whatever chunks stand above it and whatever lines stand below
it, and so does the search for the attribute at a position, up to the number of its line.
-/
theorem targetAt_closed_chunk (earlier : List (List String)) (chunk later : List String)
    (hearlier : ∀ lines ∈ earlier, ClosedChunk lines) (hchunk : ClosedChunk chunk)
    (position : Position) (hline : position.line < chunk.length) :
    let whole : Document := ⟨earlier.flatten ++ chunk ++ later⟩
    let part : Document := ⟨chunk⟩
    let place : Position := ⟨earlier.flatten.length + position.line, position.character⟩
    context.targetAt whole path place = context.targetAt part path position ∧
      whole.attributeContext? place =
        (part.attributeContext? position).map fun (block, assigned) =>
          ({ block with line := earlier.flatten.length + block.line }, assigned) := by
  intro whole part place
  have hattribute : whole.attributeContext? place =
      (part.attributeContext? position).map fun (block, assigned) =>
        (block.lowered earlier.flatten.length, assigned) := by
    simpa only [whole, List.append_assoc] using
      Document.attributeContext?_append hearlier later hline
  have hdeclared {line : Nat} {declaration : Declaration}
      (h : (part.line? line).bind Declaration.ofLine? = some declaration) :
      context.declarationTarget whole path (earlier.flatten.length + line) declaration =
        context.declarationTarget part path line declaration := by
    simpa only [whole, List.append_assoc] using
      declarationTarget_append context path later hchunk earlier.flatten h
  have hsame : whole.line? place.line = part.line? position.line := by
    simpa only [whole, List.append_assoc] using
      Document.line?_append earlier.flatten chunk later hline
  refine ⟨?_, hattribute⟩
  unfold targetAt
  rw [hsame, hattribute]
  cases htext : part.line? position.line with
  | none => rfl
  | some line =>
      cases hdeclares : Declaration.ofLine? line with
      | some declaration =>
          simp only [hdeclares]
          exact hdeclared (by simp [htext, hdeclares])
      | none =>
          cases hfound : part.attributeContext? position with
          | none => simp only [hdeclares, Option.map_none]
          | some found =>
              obtain ⟨block, assigned⟩ := found
              simp only [hdeclares, Option.map_some, EnclosingBlock.lowered,
                hdeclared (Document.declares_of_attributeContext? hfound)]

theorem targetAt_closed_chunk_nested :
    let context : LookupContext Unit := ⟨.emptyAt [], none, "https://r.io", .high, none⟩
    let network := ["module \"net\" \x7b", "  source = \"./net\"", "\x7d"]
    let server := ["resource \"aws_instance\" \"web\" \x7b", "  disk \x7b", "    size = 20",
      "  \x7d", "\x7d"]
    let stray := ["\x7d", "data \"aws_ami\" \"image\" \x7b", "  size = 1"]
    ClosedChunk network ∧ ClosedChunk server ∧
      (context.targetAt ⟨[network].flatten ++ server ++ stray⟩ ⟨"main.tf"⟩ ⟨5, 5⟩ ⟨.empty, ()⟩).1 =
        some (.url "https://r.io/providers/hashicorp/aws/latest/docs/resources/instance#size-1") := by
  intro context network server stray
  have hnetwork : ClosedChunk network := by decide
  have hserver : ClosedChunk server := by decide
  refine ⟨hnetwork, hserver, ?_⟩
  have hsame := (targetAt_closed_chunk context ⟨"main.tf"⟩ [network] server stray
    (by simpa using hnetwork) hserver ⟨2, 5⟩ (by decide)).1
  exact (congrArg Prod.fst (congrFun hsame ⟨.empty, ()⟩)).trans (by decide +kernel)

end LookupContext

end TerraformDocs
