import TerraformDocs.Proofs.Declaration.Grammar

/-!
# Addresses are read back

Nothing marks a name in an address, and a name may hold points, underscores and whole addresses.
But no point stands in a keyword or a type label, and no underscore in a keyword or a provider.  So
what is in front of the first point tells the kinds of declarations apart, and the provider ends at
the first underscore of the label: an address of a declared thing is read back as this thing
(`ofAddress?_address`), and no two have one address (`address_eq_iff`).
-/

namespace TerraformDocs.Declaration

open TerraformDocs.Text

/-! ## Reading an address -/

def ofLabels? (kind : BlockKind) (label name : List Char) : Option Declaration :=
  (typeLabel? label).map fun (provider, type) =>
    resource ⟨kind, String.ofList provider, String.ofList type, String.ofList name⟩

def ofParts? (front rest : List Char) : Option Declaration :=
  if front = "module".toList then some (moduleCall (String.ofList rest))
  else if front = "data".toList then
    (upTo? '.' rest).bind fun (label, name) => ofLabels? .dataSource label name
  else ofLabels? .resource front rest

def ofAddress? (address : String) : Option Declaration :=
  (upTo? '.' address.toList).bind fun (front, rest) => ofParts? front rest

theorem ofAddress?_eq {address : String} {front rest : List Char} (h : '.' ∉ front)
    (haddress : address.toList = front ++ '.' :: rest) :
    ofAddress? address = ofParts? front rest := by
  rw [ofAddress?, haddress, upTo?_append h]
  rfl

/-! ## Module calls -/

theorem ofAddress?_moduleCall (name : String) :
    ofAddress? (moduleCall name).address = some (moduleCall name) := by
  have haddress : (moduleCall name).address.toList = "module".toList ++ '.' :: name.toList := by
    simp [address]
  rw [ofAddress?_eq (by decide) haddress, ofParts?, if_pos rfl, String.ofList_toList]

/-! ## Resources and data sources -/

section Resource

variable {reference : ResourceReference}

def typeLabel (reference : ResourceReference) : List Char :=
  reference.provider.toList ++ '_' :: reference.type.toList

theorem not_mem_typeLabel (h : reference.Labelled) : '.' ∉ typeLabel reference := by
  simp only [typeLabel, List.mem_append, List.mem_cons, not_or]
  exact ⟨fun hmem => absurd (h.provider '.' hmem) (by decide), by decide,
    fun hmem => absurd (h.type '.' hmem) (by decide)⟩

theorem typeLabel_ne {word : List Char} (h : '_' ∉ word) : typeLabel reference ≠ word := by
  rintro rfl
  exact h (by simp [typeLabel])

theorem ofLabels?_typeLabel (h : reference.Writable) :
    ofLabels? reference.kind (typeLabel reference) reference.name.toList =
      some (resource reference) := by
  rw [ofLabels?, typeLabel, typeLabel?_writable h]
  simp

theorem toList_address_resource (h : reference.kind = .resource) :
    (resource reference).address.toList = typeLabel reference ++ '.' :: reference.name.toList := by
  simp [address, typeLabel, h]

theorem toList_address_dataSource (h : reference.kind = .dataSource) :
    (resource reference).address.toList =
      "data".toList ++ '.' :: (typeLabel reference ++ '.' :: reference.name.toList) := by
  simp [address, typeLabel, h]

theorem ofAddress?_resource (h : reference.Writable) :
    ofAddress? (resource reference).address = some (resource reference) := by
  have hpoint := not_mem_typeLabel h.toLabelled
  have hlabels := ofLabels?_typeLabel h
  cases hkind : reference.kind with
  | resource =>
      rw [hkind] at hlabels
      rw [ofAddress?_eq hpoint (toList_address_resource hkind), ofParts?,
        if_neg (typeLabel_ne (by decide)), if_neg (typeLabel_ne (by decide)), hlabels]
  | dataSource =>
      rw [hkind] at hlabels
      have hmodule : "data".toList ≠ "module".toList := by decide
      rw [ofAddress?_eq (by decide) (toList_address_dataSource hkind), ofParts?, if_neg hmodule,
        if_pos rfl, upTo?_append hpoint]
      exact hlabels

end Resource

/-! ## Declared things -/

theorem ofAddress?_address {line : String} {declaration : Declaration}
    (h : ofLine? line = some declaration) : ofAddress? declaration.address = some declaration := by
  obtain ⟨indent, written, -, hwritten, -⟩ := ofLine?_eq_some_iff.mp h
  cases hwritten with
  | moduleCall => exact ofAddress?_moduleCall _
  | resource writable => exact ofAddress?_resource writable

/-- What two lines declare has one address only if it is the same, whatever the names hold. -/
theorem address_eq_iff {line other : String} {a b : Declaration} (ha : ofLine? line = some a)
    (hb : ofLine? other = some b) : a.address = b.address ↔ a = b := by
  constructor
  · intro h
    have hread := ofAddress?_address ha
    rw [h, ofAddress?_address hb] at hread
    exact (Option.some.inj hread).symm
  · exact congrArg address

theorem address_eq_iff_lookalike :
    let line := "data \"aws_ami\" \"web.data.aws_ami\""
    let other := "resource  \"data_aws\" \"ami.web.data.aws_ami\" \x7b"
    let a := resource ⟨.dataSource, "aws", "ami", "web.data.aws_ami"⟩
    let b := resource ⟨.resource, "data", "aws", "ami.web.data.aws_ami"⟩
    ofLine? line = some a ∧ ofLine? other = some b ∧
      a.address = "data.aws_ami.web.data.aws_ami" ∧ b.address = "data_aws.ami.web.data.aws_ami" ∧
      a.address ≠ b.address := by
  intro line other a b
  have ha : ofLine? line = some a := by decide +kernel
  have hb : ofLine? other = some b := by decide +kernel
  have hne : a ≠ b := by decide
  exact ⟨ha, hb, by decide +kernel, by decide +kernel,
    fun h => hne ((address_eq_iff ha hb).mp h)⟩

end TerraformDocs.Declaration
