import TerraformDocs.Text.Utf8

/-!
# UTF-8 is read as it is written

Bytes are text exactly if they are the encoding of some characters, and these are the characters
that `decode?` reads (`decode?_eq_some_iff`).  A character is written with one to four bytes, and
each of these lengths has a range of characters of its own.
-/

namespace TerraformDocs.Text.Utf8

open String (utf8EncodeChar)

/-! ## The bytes of a text -/

theorem toList_loop_eq (bytes : ByteArray) (index : Nat) (front : List UInt8) :
    ByteArray.toList.loop bytes index front =
      front.reverse ++ bytes.data.toList.drop index := by
  fun_induction ByteArray.toList.loop bytes index front with
  | case1 index front hlt ih =>
      have hindex : index < bytes.data.toList.length := hlt
      have hget : bytes.get! index = bytes.data.toList[index] := getElem!_pos bytes.data index hlt
      rw [ih, List.drop_eq_getElem_cons hindex, hget, List.reverse_cons, List.append_assoc,
        List.singleton_append]
  | case2 index front hle =>
      have hend : bytes.data.toList.length ≤ index := Nat.le_of_not_lt hle
      rw [List.drop_eq_nil_of_le hend, List.append_nil]

theorem encode_ofList (cs : List Char) :
    encode (String.ofList cs) = cs.flatMap utf8EncodeChar := by
  have hbytes : (String.ofList cs).toUTF8 = (cs.flatMap utf8EncodeChar).toByteArray :=
    String.toByteArray_ofList
  rw [encode, hbytes, ByteArray.toList, toList_loop_eq, List.toList_data_toByteArray]
  rfl

/-! ## The bytes of a character -/

section Lengths

variable {c : Char}

theorem toNat_lt (c : Char) : c.toNat < 0x110000 := by
  have hvalid : c.toNat.isValidChar := c.valid
  rcases hvalid with hlow | ⟨-, hhigh⟩
  · omega
  · exact hhigh

theorem utf8EncodeChar_one (h : c.toNat < 0x80) : utf8EncodeChar c = [UInt8.ofNat c.toNat] := by
  rw [utf8EncodeChar]
  exact if_pos (Nat.le_of_lt_succ h)

theorem utf8EncodeChar_two (hlow : 0x80 ≤ c.toNat) (hhigh : c.toNat < 0x800) :
    utf8EncodeChar c =
      [UInt8.ofNat (c.toNat / 64 % 32 + 0xC0), UInt8.ofNat (c.toNat % 64 + 0x80)] := by
  rw [utf8EncodeChar]
  exact (if_neg (Nat.not_le_of_lt hlow)).trans (if_pos (Nat.le_of_lt_succ hhigh))

theorem utf8EncodeChar_three (hlow : 0x800 ≤ c.toNat) (hhigh : c.toNat < 0x10000) :
    utf8EncodeChar c =
      [UInt8.ofNat (c.toNat / 4096 % 16 + 0xE0), UInt8.ofNat (c.toNat / 64 % 64 + 0x80),
        UInt8.ofNat (c.toNat % 64 + 0x80)] := by
  have hone : ¬ c.val.toNat ≤ 0x7F := fun h => absurd (Nat.le_trans hlow h) (by decide)
  rw [utf8EncodeChar]
  exact ((if_neg hone).trans (if_neg (Nat.not_le_of_lt hlow))).trans
    (if_pos (Nat.le_of_lt_succ hhigh))

theorem utf8EncodeChar_four (hlow : 0x10000 ≤ c.toNat) :
    utf8EncodeChar c =
      [UInt8.ofNat (c.toNat / 262144 % 8 + 0xF0), UInt8.ofNat (c.toNat / 4096 % 64 + 0x80),
        UInt8.ofNat (c.toNat / 64 % 64 + 0x80), UInt8.ofNat (c.toNat % 64 + 0x80)] := by
  have hone : ¬ c.val.toNat ≤ 0x7F := fun h => absurd (Nat.le_trans hlow h) (by decide)
  have htwo : ¬ c.val.toNat ≤ 0x7FF := fun h => absurd (Nat.le_trans hlow h) (by decide)
  rw [utf8EncodeChar]
  exact ((if_neg hone).trans (if_neg htwo)).trans (if_neg (Nat.not_le_of_lt hlow))

end Lengths

/-! ## Pieces of an encoding -/

theorem toNat_ofNat {value : Nat} (h : value < 256) : (UInt8.ofNat value).toNat = value :=
  UInt8.toNat_ofNat_of_lt' h

theorem ofNat_eq_iff {byte : UInt8} {value : Nat} (h : value < 256) :
    UInt8.ofNat value = byte ↔ byte.toNat = value := by
  rw [← UInt8.toNat_inj, toNat_ofNat h, eq_comm]

theorem continuation?_eq_some_iff {byte : UInt8} {bits : Nat} :
    continuation? byte = some bits ↔ byte.toNat = bits + 0x80 ∧ bits < 64 := by
  rw [continuation?]
  split
  · rw [Option.some_inj]
    omega
  · simp only [reduceCtorEq, false_iff]
    omega

theorem continuation?_ofNat {bits : Nat} (h : bits < 64) :
    continuation? (UInt8.ofNat (bits + 0x80)) = some bits :=
  continuation?_eq_some_iff.mpr ⟨toNat_ofNat (by omega), h⟩

theorem toNat_charOfNat {value : Nat} (h : value.isValidChar) :
    (Char.ofNat value).toNat = value := by
  rw [Char.ofNat, dif_pos h]
  rfl

theorem scalar?_eq_some_iff {least value : Nat} {c : Char} :
    scalar? least value = some c ↔ c.toNat = value ∧ least ≤ value := by
  rw [scalar?]
  constructor
  · intro h
    split at h
    · next hvalid =>
      cases h
      exact ⟨toNat_charOfNat hvalid.2, hvalid.1⟩
    · cases h
  · rintro ⟨rfl, hleast⟩
    rw [if_pos ⟨hleast, c.valid⟩, Char.ofNat_toNat]

/-! ## One character in front -/

section Front

variable {lead b c d : UInt8} {first second third : Nat}

theorem decode?_one (h : lead.toNat < 0x80) (rest : List UInt8) :
    decode? (lead :: rest) = (decode? rest).map (Char.ofNat lead.toNat :: ·) := by
  rw [decode?.eq_def]
  exact if_pos h

theorem decode?_two (hlow : 0xC0 ≤ lead.toNat) (hhigh : lead.toNat < 0xE0)
    (hb : continuation? b = some first) (rest : List UInt8) :
    decode? (lead :: b :: rest) =
      (scalar? 0x80 ((lead.toNat - 0xC0) * 64 + first)).bind fun found =>
        (decode? rest).map (found :: ·) := by
  have hone : ¬ lead.toNat < 0x80 := by omega
  have hstart : ¬ lead.toNat < 0xC0 := by omega
  rw [decode?.eq_def]
  simp only [if_neg hone, if_neg hstart, if_pos hhigh, hb, Option.map_eq_bind]
  rfl

theorem decode?_three (hlow : 0xE0 ≤ lead.toNat) (hhigh : lead.toNat < 0xF0)
    (hb : continuation? b = some first) (hc : continuation? c = some second) (rest : List UInt8) :
    decode? (lead :: b :: c :: rest) =
      (scalar? 0x800 (((lead.toNat - 0xE0) * 64 + first) * 64 + second)).bind fun found =>
        (decode? rest).map (found :: ·) := by
  have hone : ¬ lead.toNat < 0x80 := by omega
  have hstart : ¬ lead.toNat < 0xC0 := by omega
  have htwo : ¬ lead.toNat < 0xE0 := by omega
  rw [decode?.eq_def]
  simp only [if_neg hone, if_neg hstart, if_neg htwo, if_pos hhigh, hb, hc, Option.map_eq_bind]
  rfl

theorem decode?_four (hlow : 0xF0 ≤ lead.toNat) (hhigh : lead.toNat < 0xF8)
    (hb : continuation? b = some first) (hc : continuation? c = some second)
    (hd : continuation? d = some third) (rest : List UInt8) :
    decode? (lead :: b :: c :: d :: rest) =
      (scalar? 0x10000 ((((lead.toNat - 0xF0) * 64 + first) * 64 + second) * 64 + third)).bind
        fun found => (decode? rest).map (found :: ·) := by
  have hone : ¬ lead.toNat < 0x80 := by omega
  have hstart : ¬ lead.toNat < 0xC0 := by omega
  have htwo : ¬ lead.toNat < 0xE0 := by omega
  have hthree : ¬ lead.toNat < 0xF0 := by omega
  rw [decode?.eq_def]
  simp only [if_neg hone, if_neg hstart, if_neg htwo, if_neg hthree, if_pos hhigh, hb, hc, hd,
    Option.map_eq_bind]
  rfl

end Front

/-! ## Reading what has been written -/

theorem decode?_utf8EncodeChar_append (c : Char) (rest : List UInt8) :
    decode? (utf8EncodeChar c ++ rest) = (decode? rest).map (c :: ·) := by
  have hlt := toNat_lt c
  by_cases hone : c.toNat < 0x80
  · have hlead : (UInt8.ofNat c.toNat).toNat = c.toNat := toNat_ofNat (by omega)
    rw [utf8EncodeChar_one hone, List.singleton_append, decode?_one (by omega), hlead,
      Char.ofNat_toNat]
  by_cases htwo : c.toNat < 0x800
  · have hlead : (UInt8.ofNat (c.toNat / 64 % 32 + 0xC0)).toNat = c.toNat / 64 % 32 + 0xC0 :=
      toNat_ofNat (by omega)
    have hread : scalar? 0x80 ((c.toNat / 64 % 32 + 0xC0 - 0xC0) * 64 + c.toNat % 64) = some c :=
      scalar?_eq_some_iff.mpr (by omega)
    rw [utf8EncodeChar_two (by omega) htwo]
    simp only [List.cons_append, List.nil_append]
    rw [decode?_two (by omega) (by omega) (continuation?_ofNat (by omega)), hlead, hread,
      Option.bind_some]
  by_cases hthree : c.toNat < 0x10000
  · have hlead : (UInt8.ofNat (c.toNat / 4096 % 16 + 0xE0)).toNat = c.toNat / 4096 % 16 + 0xE0 :=
      toNat_ofNat (by omega)
    have hread : scalar? 0x800 (((c.toNat / 4096 % 16 + 0xE0 - 0xE0) * 64 +
        c.toNat / 64 % 64) * 64 + c.toNat % 64) = some c := scalar?_eq_some_iff.mpr (by omega)
    rw [utf8EncodeChar_three (by omega) hthree]
    simp only [List.cons_append, List.nil_append]
    rw [decode?_three (by omega) (by omega) (continuation?_ofNat (by omega))
      (continuation?_ofNat (by omega)), hlead, hread, Option.bind_some]
  · have hlead : (UInt8.ofNat (c.toNat / 262144 % 8 + 0xF0)).toNat = c.toNat / 262144 % 8 + 0xF0 :=
      toNat_ofNat (by omega)
    have hread : scalar? 0x10000 ((((c.toNat / 262144 % 8 + 0xF0 - 0xF0) * 64 +
        c.toNat / 4096 % 64) * 64 + c.toNat / 64 % 64) * 64 + c.toNat % 64) = some c :=
      scalar?_eq_some_iff.mpr (by omega)
    rw [utf8EncodeChar_four (by omega)]
    simp only [List.cons_append, List.nil_append]
    rw [decode?_four (by omega) (by omega) (continuation?_ofNat (by omega))
      (continuation?_ofNat (by omega)) (continuation?_ofNat (by omega)), hlead, hread,
      Option.bind_some]

theorem flatMap_of_decode? {bytes : List UInt8} {cs : List Char} (h : decode? bytes = some cs) :
    cs.flatMap utf8EncodeChar = bytes := by
  fun_induction decode? bytes generalizing cs with
  | case1 =>
      cases h
      rfl
  | case2 lead bytes hone ih =>
      obtain ⟨others, hothers, rfl⟩ := Option.map_eq_some_iff.mp h
      have hfound : (Char.ofNat lead.toNat).toNat = lead.toNat :=
        toNat_charOfNat (.inl (by omega))
      rw [List.flatMap_cons, ih hothers, utf8EncodeChar_one (by omega), hfound, UInt8.ofNat_toNat,
        List.singleton_append]
  | case4 lead hone hstart htwo b rest ih =>
      simp only [Option.bind_eq_bind, Option.bind_eq_some_iff, Option.pure_def,
        Option.some_inj] at h
      obtain ⟨first, hb, found, hfound, others, hothers, rfl⟩ := h
      obtain ⟨hb, hfirst⟩ := continuation?_eq_some_iff.mp hb
      obtain ⟨hvalue, hleast⟩ := scalar?_eq_some_iff.mp hfound
      rw [List.flatMap_cons, ih hothers, utf8EncodeChar_two (by omega) (by omega)]
      simp only [List.cons_append, List.nil_append, List.cons.injEq, and_true]
      exact ⟨(ofNat_eq_iff (by omega)).mpr (by omega), (ofNat_eq_iff (by omega)).mpr (by omega)⟩
  | case6 lead hone hstart htwo hthree b c rest ih =>
      simp only [Option.bind_eq_bind, Option.bind_eq_some_iff, Option.pure_def,
        Option.some_inj] at h
      obtain ⟨first, hb, second, hc, found, hfound, others, hothers, rfl⟩ := h
      obtain ⟨hb, hfirst⟩ := continuation?_eq_some_iff.mp hb
      obtain ⟨hc, hsecond⟩ := continuation?_eq_some_iff.mp hc
      obtain ⟨hvalue, hleast⟩ := scalar?_eq_some_iff.mp hfound
      rw [List.flatMap_cons, ih hothers, utf8EncodeChar_three (by omega) (by omega)]
      simp only [List.cons_append, List.nil_append, List.cons.injEq, and_true]
      exact ⟨(ofNat_eq_iff (by omega)).mpr (by omega), (ofNat_eq_iff (by omega)).mpr (by omega),
        (ofNat_eq_iff (by omega)).mpr (by omega)⟩
  | case8 lead hone hstart htwo hthree hfour b c d rest ih =>
      simp only [Option.bind_eq_bind, Option.bind_eq_some_iff, Option.pure_def,
        Option.some_inj] at h
      obtain ⟨first, hb, second, hc, third, hd, found, hfound, others, hothers, rfl⟩ := h
      obtain ⟨hb, hfirst⟩ := continuation?_eq_some_iff.mp hb
      obtain ⟨hc, hsecond⟩ := continuation?_eq_some_iff.mp hc
      obtain ⟨hd, hthird⟩ := continuation?_eq_some_iff.mp hd
      obtain ⟨hvalue, hleast⟩ := scalar?_eq_some_iff.mp hfound
      rw [List.flatMap_cons, ih hothers, utf8EncodeChar_four (by omega)]
      simp only [List.cons_append, List.nil_append, List.cons.injEq, and_true]
      exact ⟨(ofNat_eq_iff (by omega)).mpr (by omega), (ofNat_eq_iff (by omega)).mpr (by omega),
        (ofNat_eq_iff (by omega)).mpr (by omega), (ofNat_eq_iff (by omega)).mpr (by omega)⟩
  | case3 | case5 | case7 | case9 | case10 => cases h

theorem decode?_flatMap (cs : List Char) : decode? (cs.flatMap utf8EncodeChar) = some cs := by
  induction cs with
  | nil => rfl
  | cons c cs ih => rw [List.flatMap_cons, decode?_utf8EncodeChar_append, ih, Option.map_some]

theorem decode?_eq_some_iff {bytes : List UInt8} {cs : List Char} :
    decode? bytes = some cs ↔ encode (String.ofList cs) = bytes := by
  rw [encode_ofList]
  constructor
  · exact flatMap_of_decode?
  · rintro rfl
    exact decode?_flatMap cs

/-! ## Texts -/

def IsValid (bytes : List UInt8) : Prop := ∃ text : String, encode text = bytes

theorem decode?_encode (text : String) : decode? (encode text) = some text.toList :=
  decode?_eq_some_iff.mpr (by rw [String.ofList_toList])

theorem decode?_eq_none_iff {bytes : List UInt8} : decode? bytes = none ↔ ¬ IsValid bytes := by
  rw [Option.eq_none_iff_forall_ne_some]
  constructor
  · rintro h ⟨text, rfl⟩
    exact h _ (decode?_encode text)
  · intro h cs hcs
    exact h ⟨_, decode?_eq_some_iff.mp hcs⟩

instance (bytes : List UInt8) : Decidable (IsValid bytes) :=
  decidable_of_iff (decode? bytes ≠ none) (by rw [Ne, decode?_eq_none_iff, Classical.not_not])

end TerraformDocs.Text.Utf8
