import TerraformDocs.Proofs.Block.Locality
import TerraformDocs.Proofs.Target.Links

/-!
# Lookups inside of blocks

A lookup at an attribute leads back to the line on which the block around it is declared: the page
of a resource or data source is the one that its own line links to, with a section for the
attribute, and the source of a module call has the target of the call (`targetAt_inside_block`).
-/

namespace TerraformDocs

namespace Document

theorem level_of_attributeContext? {document : Document} {position : Position}
    {block : EnclosingBlock} {assigned : AttributeContext}
    (h : document.attributeContext? position = some (block, assigned)) :
    ∃ front inner, document.textBefore block.line position = front ++ '{' :: inner ∧
      '{' ∉ front ∧ assigned.level = unclosed inner := by
  simp only [attributeContext?, Option.bind_eq_bind, Option.bind_eq_some_iff, Option.pure_def,
    Option.some.injEq, Prod.mk.injEq] at h
  obtain ⟨_, -, _, -, _, hblock, rfl, rfl⟩ := h
  have hopen := (enclosingAbove?_eq_some_iff.mp hblock).2.1.2.2
  exact nestingAfter_of_isInside (openAt_iff.mpr hopen)

end Document

namespace DocTarget

theorem docsUrl_section (registryUrl : String) (provider : ProviderSource) (version : String)
    (reference : ResourceReference) (fragment : String) :
    docsUrl registryUrl provider version reference (some fragment) =
      docsUrl registryUrl provider version reference none ++ "#" ++ fragment := by
  simp [docsUrl, String.append_assoc]

end DocTarget

namespace LookupContext

variable {σ : Type} {context : LookupContext σ} {document : Document} {path : Path}

theorem resourceTarget_yields {inv : LookupState σ → Prop} {reference : ResourceReference}
    {found : ProviderSource × String}
    (h : Yields inv (context.providerVersion reference.provider) found)
    (fragment : Option String) :
    Yields inv (context.resourceTarget reference fragment)
      (.url (DocTarget.docsUrl context.registryUrl found.1 found.2 reference fragment)) :=
  h.bind (.pure _)

theorem declarationTarget_resource_yields {inv : LookupState σ → Prop}
    {reference : ResourceReference} {found : ProviderSource × String}
    (h : Yields inv (context.providerVersion reference.provider) found) (line : Nat) :
    Yields inv (context.declarationTarget document path line (.resource reference))
      (some (.url (DocTarget.docsUrl context.registryUrl found.1 found.2 reference none))) :=
  (resourceTarget_yields h none).bind (.pure (some _))

section NotDeclared

variable {position : Position} {line : String} (hline : document.line? position.line = some line)
  (hdeclares : Declaration.ofLine? line = none) {block : EnclosingBlock}
  {assigned : AttributeContext}

include hline hdeclares

theorem targetAt_no_attribute_yields {inv : LookupState σ → Prop}
    (h : document.attributeContext? position = none) :
    Yields inv (context.targetAt document path position) none := by
  unfold targetAt
  simp only [hline, hdeclares, h]
  exact .pure none

theorem targetAt_resource_yields {inv : LookupState σ → Prop}
    (h : document.attributeContext? position = some (block, assigned))
    {reference : ResourceReference} (hblock : block.declaration = .resource reference)
    {found : ProviderSource × String}
    (hversion : Yields inv (context.providerVersion reference.provider) found) :
    Yields inv (context.targetAt document path position)
      (some (.url (DocTarget.docsUrl context.registryUrl found.1 found.2 reference none ++ "#" ++
        assigned.fragment))) := by
  unfold targetAt
  simp only [hline, hdeclares, h, hblock]
  rw [← DocTarget.docsUrl_section]
  exact (resourceTarget_yields hversion (some assigned.fragment)).bind (.pure (some _))

theorem targetAt_of_moduleCall (h : document.attributeContext? position = some (block, assigned))
    {name : String} (hblock : block.declaration = .moduleCall name) :
    context.targetAt document path position =
      if assigned.name = "source" ∧ assigned.level = 0 then
        context.declarationTarget document path block.line (.moduleCall name)
      else return none := by
  unfold targetAt
  simp only [hline, hdeclares, h, hblock]

end NotDeclared

/--
On a line that declares nothing, a lookup finds something exactly at an attribute of a resource or
data source, whose page has a section for it, and at the source of a module call that has a target.
The section tells the attribute's name and the number of nested blocks around it.
-/
theorem targetAt_inside_block (context : LookupContext σ) (document : Document) (path : Path)
    (steady : context.Steady) (position : Position) {line : String}
    (hline : document.line? position.line = some line)
    (hdeclares : Declaration.ofLine? line = none) (column : Nat) {first second : LookupState σ}
    (hfirst : context.Reached first) (hsecond : context.Reached second) :
    let own (block : EnclosingBlock) :=
      (context.targetAt document path ⟨block.line, column⟩ second).1
    (∀ found, (context.targetAt document path position first).1 = some found ↔
      ∃ block assigned, document.attributeContext? position = some (block, assigned) ∧
        ((∃ reference address, block.declaration = .resource reference ∧
            own block = some (.url address) ∧
            found = .url (address ++ "#" ++ assigned.fragment)) ∨
          (∃ name, block.declaration = .moduleCall name ∧ assigned.name = "source" ∧
            assigned.level = 0 ∧ own block = some found))) ∧
      ∀ block assigned, document.attributeContext? position = some (block, assigned) →
        (∀ reference, block.declaration = .resource reference →
          ∃ address, own block = some (.url address)) ∧
        ∃ front inner, document.textBefore block.line position = front ++ '{' :: inner ∧
          '{' ∉ front ∧ assigned.level = unclosed inner := by
  intro own
  cases hattribute : document.attributeContext? position with
  | none =>
      rw [(targetAt_no_attribute_yields hline hdeclares hattribute first hfirst).1]
      simp
  | some both =>
      obtain ⟨block, assigned⟩ := both
      have hlevel := Document.level_of_attributeContext? hattribute
      have hdeclared := Document.declares_of_attributeContext? hattribute
      have hown : own block =
          (context.declarationTarget document path block.line block.declaration second).1 :=
        congrArg Prod.fst (congrFun (targetAt_of_declares hdeclared) second)
      cases hblock : block.declaration with
      | resource reference =>
          obtain ⟨version, hversion⟩ := providerVersion_settles steady.settled reference.provider
          rw [hblock,
            (declarationTarget_resource_yields hversion block.line second hsecond).1] at hown
          rw [(targetAt_resource_yields hline hdeclares hattribute hblock hversion first hfirst).1]
          constructor
          · intro found
            simp [hblock, hown, eq_comm]
          · rintro _ _ ⟨⟩
            exact ⟨fun _ _ => ⟨_, hown⟩, hlevel⟩
      | moduleCall name =>
          have hsame := (declarationTarget_settles steady document path block.line
            (.moduleCall name)).yields hsecond
          rw [hblock, ← (hsame first hfirst).1] at hown
          rw [targetAt_of_moduleCall hline hdeclares hattribute hblock]
          constructor
          · intro found
            split
            · next hsource => simp [hblock, hown, hsource]
            · next hsource =>
              rw [(Yields.pure none first hfirst).1]
              constructor
              · rintro ⟨⟩
              · rintro ⟨_, _, ⟨⟩, ⟨_, _, hresource, -⟩ | ⟨_, -, hname, houtermost, -⟩⟩
                · rw [hblock] at hresource
                  cases hresource
                · exact absurd ⟨hname, houtermost⟩ hsource
          · rintro _ _ ⟨⟩
            exact ⟨by simp [hblock], hlevel⟩

theorem targetAt_inside_block_nested :
    let context : LookupContext Unit := ⟨.emptyAt [], none, "https://r.io", .high, none⟩
    let state : LookupState Unit := ⟨.empty, ()⟩
    let setting := "    size = 20"
    let document : Document := ⟨["resource \"aws_instance\" \"web\" \x7b", "  disk \x7b",
      "    \x7b \x7d", "  \x7d", "  net \x7b ports = \x7b", setting, "  \x7d \x7d", "\x7d"]⟩
    context.Steady ∧ context.Reached state ∧ document.line? 5 = some setting ∧
      Declaration.ofLine? setting = none ∧
      (context.targetAt document ⟨"main.tf"⟩ ⟨5, 4⟩ state).1 = some (.url
        "https://r.io/providers/hashicorp/aws/latest/docs/resources/instance#size-2") := by
  intro context state setting document
  have steady : context.Steady := by simp [Steady, context]
  have reached : context.Reached state := by simp [Reached, context]
  have hline : document.line? 5 = some setting := rfl
  have hdeclares : Declaration.ofLine? setting = none := by decide
  have hfinds := (targetAt_inside_block context document ⟨"main.tf"⟩ steady ⟨5, 4⟩ hline hdeclares 0
    reached reached).1
  refine ⟨steady, reached, hline, hdeclares, (hfinds _).mpr ?_⟩
  let reference : ResourceReference := ⟨.resource, "aws", "instance", "web"⟩
  exact ⟨⟨.resource reference, 0⟩, ⟨"size", 2⟩, by decide +kernel,
    .inl ⟨reference, "https://r.io/providers/hashicorp/aws/latest/docs/resources/instance", rfl,
      by decide +kernel, by decide⟩⟩

end LookupContext

end TerraformDocs
