import Der.Content.Text

namespace Der.Content.Text

theorem encodeUtf8_ofList (chars : List Char) :
    encodeUtf8 (String.ofList chars) = chars.flatMap String.utf8EncodeChar := by
  rw [encodeUtf8, String.toUTF8_eq_toByteArray, String.toByteArray_ofList, List.utf8Encode, List.data_toByteArray]

/-- Every text is read back from its UTF-8. -/
theorem decodeUtf8_encodeUtf8 (text : String) : decodeUtf8 (encodeUtf8 text) = .ok text := by
  have whole : (⟨(encodeUtf8 text).toArray⟩ : ByteArray) = text.toByteArray := rfl
  rw [decodeUtf8, whole, String.fromUTF8?, dif_pos text.isValidUTF8]
  rfl

/-- Octets that are read as a text are its UTF-8. -/
theorem encodeUtf8_of_decodeUtf8 {octets : Octets} {text : String} (read : decodeUtf8 octets = .ok text) :
    encodeUtf8 text = octets := by
  rw [decodeUtf8, String.fromUTF8?] at read
  by_cases valid : ByteArray.IsValidUTF8 ⟨octets.toArray⟩
  · rw [dif_pos valid] at read
    injection read with same
    rw [← same]
    rfl
  · rw [dif_neg valid] at read
    cases read

/-- An ASCII text takes an octet for each character. -/
def Ascii (chars : List Char) : Prop :=
  ∀ c ∈ chars, c.toNat < 128

theorem utf8EncodeChar_of_lt {c : Char} (small : c.toNat < 128) :
    String.utf8EncodeChar c = [UInt8.ofNat c.toNat] := by
  have value : c.val ≤ 127 := UInt32.le_iff_toNat_le.mpr (Nat.le_of_lt_succ small)
  rw [String.utf8EncodeChar_eq_singleton (Char.utf8Size_eq_one_iff.mpr value)]
  rfl

theorem Ascii.flatMap_eq {chars : List Char} (ascii : Ascii chars) :
    chars.flatMap String.utf8EncodeChar = chars.map fun c => UInt8.ofNat c.toNat := by
  induction chars with
  | nil => rfl
  | cons c rest ih =>
    have first : c.toNat < 128 := ascii c List.mem_cons_self
    have others : Ascii rest := fun c later => ascii c (List.mem_cons_of_mem _ later)
    rw [List.flatMap_cons, utf8EncodeChar_of_lt first, ih others]
    rfl

theorem Ascii.length_encodeUtf8 {chars : List Char} (ascii : Ascii chars) :
    (encodeUtf8 (String.ofList chars)).length = chars.length := by
  rw [encodeUtf8_ofList, ascii.flatMap_eq, List.length_map]

theorem toNat_ofNat_of_lt {n : Nat} (small : n < 128) : (Char.ofNat n).toNat = n := by
  have valid : n.isValidChar := Or.inl (by omega)
  rw [Char.ofNat, dif_pos valid]
  rfl

theorem ofNat_toNat (c : Char) : Char.ofNat c.toNat = c := by
  have valid : c.toNat.isValidChar := c.valid
  rw [Char.ofNat, dif_pos valid]
  rfl

theorem Ascii.decodeAscii_encodeUtf8 {chars : List Char} (ascii : Ascii chars) :
    decodeAscii (encodeUtf8 (String.ofList chars)) = .ok (String.ofList chars) := by
  have octet : ∀ c ∈ chars, (UInt8.ofNat c.toNat).toNat = c.toNat := by
    intro c within
    have small := ascii c within
    exact UInt8.toNat_ofNat_of_lt' (by simp only [UInt8.size]; omega)
  have none : (chars.map fun c => UInt8.ofNat c.toNat).find? (fun octet => 128 ≤ octet.toNat) = none := by
    rw [List.find?_eq_none]
    intro o within
    obtain ⟨c, member, rfl⟩ := List.mem_map.mp within
    have small := ascii c member
    rw [octet c member, decide_eq_true_eq]
    omega
  have chars_eq : (chars.map fun c => UInt8.ofNat c.toNat).map (fun octet => Char.ofNat octet.toNat) = chars := by
    rw [List.map_map]
    refine (List.map_congr_left ?_).trans (List.map_id chars)
    intro c within
    rw [Function.comp_apply, octet c within, ofNat_toNat, id]
  rw [encodeUtf8_ofList, ascii.flatMap_eq, decodeAscii, none]
  simp only [chars_eq]

theorem ascii_of_decodeAscii {octets : Octets} {text : String} (read : decodeAscii octets = .ok text) :
    Ascii text.toList ∧ encodeUtf8 text = octets ∧ text.length = octets.length := by
  rw [decodeAscii] at read
  cases found : octets.find? fun octet => 128 ≤ octet.toNat with
  | some octet => rw [found] at read; cases read
  | none =>
    rw [found] at read
    injection read with same
    have small : ∀ octet ∈ octets, octet.toNat < 128 := by
      intro octet within
      have below := List.find?_eq_none.mp found octet within
      rw [decide_eq_true_eq] at below
      omega
    have ascii : Ascii (octets.map fun octet => Char.ofNat octet.toNat) := by
      intro c within
      obtain ⟨octet, member, rfl⟩ := List.mem_map.mp within
      have below := small octet member
      rw [toNat_ofNat_of_lt below]
      exact below
    have back : (octets.map fun octet => Char.ofNat octet.toNat).map (fun c => UInt8.ofNat c.toNat) = octets := by
      rw [List.map_map]
      refine (List.map_congr_left ?_).trans (List.map_id octets)
      intro octet within
      rw [Function.comp_apply, toNat_ofNat_of_lt (small octet within), id]
      exact UInt8.ofNat_toNat
    subst same
    refine ⟨by rwa [String.toList_ofList], ?_, ?_⟩
    · rw [encodeUtf8_ofList, ascii.flatMap_eq, back]
    · rw [String.length_ofList, List.length_map]

theorem ascii_of_isIa5 {chars : List Char} (all : chars.all isIa5 = true) : Ascii chars := by
  intro c within
  have small := List.all_eq_true.mp all c within
  simpa only [isIa5, decide_eq_true_eq] using small

theorem ascii_of_isPrintable {chars : List Char} (all : chars.all isPrintable = true) : Ascii chars := by
  intro c within
  have printable := List.all_eq_true.mp all c within
  rw [isPrintable, Bool.or_eq_true] at printable
  rcases printable with letter | sign
  · have classes : ((c.isUpper || c.isLower) || c.isDigit) = true := letter
    rw [Bool.or_eq_true, Bool.or_eq_true] at classes
    rcases classes with (upper | lower) | digit
    · have bounds : 65 ≤ c.val ∧ c.val ≤ 90 := of_decide_eq_true upper
      exact Nat.lt_of_le_of_lt (UInt32.le_iff_toNat_le.mp bounds.2) (by decide)
    · have bounds : (decide (97 ≤ c.val) && decide (c.val ≤ 122)) = true := lower
      rw [Bool.and_eq_true, decide_eq_true_eq, decide_eq_true_eq] at bounds
      exact Nat.lt_of_le_of_lt (UInt32.le_iff_toNat_le.mp bounds.2) (by decide)
    · exact Nat.lt_of_le_of_lt (Char.isDigit_iff_toNat.mp digit).2 (by decide)
  · have listed := List.contains_iff_mem.mp sign
    simp only [List.mem_cons, List.not_mem_nil, or_false] at listed
    rcases listed with rfl | rfl | rfl | rfl | rfl | rfl | rfl | rfl | rfl | rfl | rfl | rfl <;> decide

theorem check_eq_ok {name : String} {alphabet : Char → Bool} {text text' : String}
    (checked : check name alphabet text = .ok text') : text' = text ∧ text.toList.all alphabet = true := by
  rw [check] at checked
  by_cases all : text.toList.all alphabet = true
  · rw [if_pos all] at checked
    injection checked with same
    exact ⟨same.symm, all⟩
  · rw [if_neg all] at checked
    cases checked

end Der.Content.Text
