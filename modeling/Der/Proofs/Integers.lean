import Der.Proofs.Element
import Der.Proofs.Layout

namespace Der

namespace Content.Integer

/-- Content is the sign octet, if it takes one, and a minimal magnitude exactly if it holds the number of the
magnitude. -/
theorem checkUnsigned_iff {octets magnitude : Octets} :
    checkUnsigned octets = .ok () ∧ octets.drop (signWidth octets) = magnitude ↔
      Minimal magnitude ∧ decode octets = .ok (Octets.toNat magnitude) := by
  constructor
  · rintro ⟨checked, rfl⟩
    obtain ⟨minimal, whole⟩ := minimal_of_checkUnsigned checked
    have content := signOctets_append_trim (octets.drop (signWidth octets))
    rw [minimal.trim_eq, whole] at content
    refine ⟨minimal, ?_⟩
    rw [content, decode_encode, ← content]
  · rintro ⟨minimal, read⟩
    have content := signOctets_append_trim magnitude
    rw [minimal.trim_eq, encode_of_decode read] at content
    rw [← content]
    exact minimal.checkUnsigned

/-- Every natural number has a minimal magnitude. -/
theorem exists_minimal (n : Nat) : ∃ magnitude, Minimal magnitude ∧ Octets.toNat magnitude = n :=
  ⟨trim (Octets.ofNat (Octets.width n) n), minimal_trim _, by
    rw [toNat_trim, Octets.toNat_ofNat_of_lt (Octets.lt_pow_width n)]⟩

end Content.Integer

namespace Primitive

open Content Encoding

variable {window : Slice} {content : Octets} {v : Value}

section Reading

variable (shows : window.octets = .ok content)

include shows

theorem read_integer : integer.rule.read window = .ok v ↔ ∃ n, Integer.decode content = .ok n ∧ v = .integer n := by
  have reads : integer.rule.read window = (do return .integer (← Integer.decode content)) := by
    simp only [rule, ContentRule.integer, ContentRule.ofOctets, shows]
    rfl
  rw [reads, Except.bind_eq_ok]
  constructor
  · rintro ⟨n, read, same⟩
    cases same
    exact ⟨n, read, rfl⟩
  · rintro ⟨n, read, rfl⟩
    exact ⟨n, read, rfl⟩

theorem read_safeInteger : safeInteger.rule.read window = .ok v ↔
    ∃ n, Integer.decode content = .ok n ∧ n.natAbs ≤ Number.maxSafe ∧ v = .number (.integer n) := by
  have reads : safeInteger.rule.read window = (do
      let n ← Integer.decode content
      if Number.maxSafe < n.natAbs then throw (.ofCause (.unsafeInteger n))
      return .number (.integer n)) := by
    simp only [rule, ContentRule.safeInteger, ContentRule.ofOctets, shows]
    rfl
  rw [reads, Except.bind_eq_ok]
  constructor
  · rintro ⟨n, read, done⟩
    by_cases large : Number.maxSafe < n.natAbs
    · rw [if_pos large] at done
      cases done
    · rw [if_neg large] at done
      cases done
      exact ⟨n, read, Nat.not_lt.mp large, rfl⟩
  · rintro ⟨n, read, safe, rfl⟩
    refine ⟨n, read, ?_⟩
    rw [if_neg (Nat.not_lt.mpr safe)]
    rfl

theorem read_unsigned : unsigned.rule.read window = .ok v ↔ ∃ magnitude, Integer.Minimal magnitude ∧
    Integer.decode content = .ok (Octets.toNat magnitude) ∧
      v = .octets (window.dropFirst (Integer.signWidth content)) ∧
      (window.dropFirst (Integer.signWidth content)).octets = .ok magnitude := by
  have rest := ContentRule.octets_dropSign shows
  have reads : unsigned.rule.read window = _ := ContentRule.unsigned_read shows
  rw [reads, Except.map_eq_ok]
  constructor
  · rintro ⟨_, checked, rfl⟩
    obtain ⟨minimal, read⟩ := Integer.checkUnsigned_iff.mp ⟨checked, rfl⟩
    exact ⟨_, minimal, read, rfl, rest⟩
  · rintro ⟨magnitude, minimal, read, rfl, -⟩
    exact ⟨(), (Integer.checkUnsigned_iff.mpr ⟨minimal, read⟩).1, rfl⟩

end Reading

variable {maxDepth : Number} {document : Octets} {n : Int}

/-- An integer is read as a number exactly if it is read and safe. -/
theorem parse_safeInteger_iff :
    Document.parse (.tagged safeInteger.codec) maxDepth document = .ok v ↔ ∃ n, v = .number (.integer n) ∧
      Document.parse (.tagged integer.codec) maxDepth document = .ok (.integer n) ∧ n.natAbs ≤ Number.maxSafe := by
  simp only [parse_eq_ok, read_safeInteger (Slice.octets_behind _ _), read_integer (Slice.octets_behind _ _)]
  constructor
  · rintro ⟨header, content, written, rfl, n, read, safe, rfl⟩
    exact ⟨n, rfl, ⟨header, content, written, rfl, n, read, rfl⟩, safe⟩
  · rintro ⟨n, rfl, ⟨header, content, written, rfl, m, read, same⟩, safe⟩
    cases same
    exact ⟨header, content, written, rfl, n, read, safe, rfl⟩

/-- What is read as a magnitude is read as the integer that the magnitude denotes. -/
theorem parse_integer_of_unsigned (parsed : Document.parse (.tagged unsigned.codec) maxDepth document = .ok v) :
    ∃ window magnitude, v = .octets window ∧ window.octets = .ok magnitude ∧ Integer.Minimal magnitude ∧
      Document.parse (.tagged integer.codec) maxDepth document = .ok (.integer (Octets.toNat magnitude)) := by
  obtain ⟨header, content, written, rfl, read⟩ := parse_eq_ok.mp parsed
  have shows := Slice.octets_behind header content
  obtain ⟨magnitude, minimal, value, rfl, rest⟩ := (read_unsigned shows).mp read
  refine ⟨_, magnitude, rfl, rest, minimal, ?_⟩
  exact parse_eq_ok.mpr ⟨header, content, written, rfl, (read_integer shows).mpr ⟨_, value, rfl⟩⟩

/-- What is read as an integer that is not negative is read as a magnitude. -/
theorem parse_unsigned_of_integer {n : Nat}
    (parsed : Document.parse (.tagged integer.codec) maxDepth document = .ok (.integer n)) :
    ∃ v, Document.parse (.tagged unsigned.codec) maxDepth document = .ok v := by
  obtain ⟨header, content, written, rfl, read⟩ := parse_eq_ok.mp parsed
  have shows := Slice.octets_behind header content
  obtain ⟨_, value, same⟩ := (read_integer shows).mp read
  cases same
  obtain ⟨magnitude, minimal, rfl⟩ := Integer.exists_minimal n
  have drops := (Integer.checkUnsigned_iff.mpr ⟨minimal, value⟩).2
  have rest := ContentRule.octets_dropSign shows
  rw [drops] at rest
  exact ⟨_, parse_eq_ok.mpr ⟨header, content, written, rfl,
    (read_unsigned shows).mpr ⟨magnitude, minimal, value, rfl, rest⟩⟩⟩

theorem build_integer (n : Int) :
    Document.build (.tagged integer.codec) (.integer n) = Element.build integer.codec.tag (Integer.encode n) := by
  refine integer.measures.build_of_yields ⟨?_, (emits_octets _).after (Except.bind_eq_ok.mpr ⟨n, rfl, rfl⟩)⟩
  rw [Integer.length_encode]
  exact Except.bind_eq_ok.mpr ⟨n, rfl, rfl⟩

/-- An INTEGER is refused only if its content is longer than the largest length. -/
theorem build_integer_of_large (large : Length.max < Integer.width n) :
    Document.build (.tagged integer.codec) (.integer n) = .error (.ofCause (.oversizedLength (Integer.width n))) := by
  obtain ⟨identifier, first, _⟩ := integer.wellFormed.decode_encode
  have second : Length.encode (Integer.width n) = .error (.ofCause (.oversizedLength (Integer.width n))) := by
    have refused : Length.check (Integer.width n) = .error (.ofCause (.oversizedLength (Integer.width n))) :=
      if_pos large
    rw [Length.encode, refused]
    rfl
  rw [build_integer, Element.build_eq, Integer.length_encode, Header.encode, first, second]
  rfl

theorem build_integer_of_small (small : Integer.width n ≤ Length.max) :
    ∃ document, Document.build (.tagged integer.codec) (.integer n) = .ok document := by
  rw [← Integer.length_encode] at small
  obtain ⟨header, written⟩ := integer.wellFormed.exists_header small
  rw [build_integer, Element.build_eq, written]
  exact ⟨_, rfl⟩

/-- A window on a magnitude, with or without leading zeros, makes the same document as the natural number that it
denotes, or the same fault, of content longer than the largest length. A document is read as a magnitude exactly if it
is read as a natural number, and the magnitude is the one of that number in the fewest octets. It is read as a number
exactly if it is read as a safe integer, which makes the same document in both views. -/
theorem integer_views_agree :
    (∀ window magnitude, window.octets = .ok magnitude →
      Document.build (.tagged unsigned.codec) (.octets window) =
        Document.build (.tagged integer.codec) (.integer (Octets.toNat magnitude)) ∧
      (Integer.width (Octets.toNat magnitude) ≤ Length.max →
        ∃ document, Document.build (.tagged integer.codec) (.integer (Octets.toNat magnitude)) = .ok document) ∧
      (Length.max < Integer.width (Octets.toNat magnitude) →
        ∃ fault, Document.build (.tagged integer.codec) (.integer (Octets.toNat magnitude)) = .error fault ∧
          fault.kind? = some .overflow)) ∧
    (∀ maxDepth document,
      ((∃ v, Document.parse (.tagged unsigned.codec) maxDepth document = .ok v) ↔
        ∃ n : Nat, Document.parse (.tagged integer.codec) maxDepth document = .ok (.integer n)) ∧
      ∀ v (n : Nat), Document.parse (.tagged unsigned.codec) maxDepth document = .ok v →
        Document.parse (.tagged integer.codec) maxDepth document = .ok (.integer n) →
        ∃ window magnitude, v = .octets window ∧ window.octets = .ok magnitude ∧ Integer.Minimal magnitude ∧
          Octets.toNat magnitude = n) ∧
    (∀ maxDepth document v, Document.parse (.tagged safeInteger.codec) maxDepth document = .ok v ↔
      ∃ n, v = .number (.integer n) ∧
        Document.parse (.tagged integer.codec) maxDepth document = .ok (.integer n) ∧ n.natAbs ≤ 2 ^ 53 - 1) ∧
    ∀ n : Int, n.natAbs ≤ 2 ^ 53 - 1 →
      ∃ document, Document.build (.tagged safeInteger.codec) (.number (.integer n)) = .ok document ∧
        Document.build (.tagged integer.codec) (.integer n) = .ok document := by
  refine ⟨fun window magnitude shows => ⟨?_, build_integer_of_small, fun large => ?_⟩,
    fun maxDepth document => ⟨⟨?_, ?_⟩, ?_⟩, fun maxDepth document v => parse_safeInteger_iff, fun n safe => ?_⟩
  · rw [unsigned.measures.build_of_yields (unsigned_yields shows), build_integer]
    rfl
  · exact ⟨_, build_integer_of_large large, rfl⟩
  · rintro ⟨v, parsed⟩
    obtain ⟨_, _, -, -, -, whole⟩ := parse_integer_of_unsigned parsed
    exact ⟨_, whole⟩
  · rintro ⟨n, parsed⟩
    exact parse_unsigned_of_integer parsed
  · intro v n parsed whole
    obtain ⟨window, magnitude, rfl, shows, minimal, whole'⟩ := parse_integer_of_unsigned parsed
    refine ⟨window, magnitude, rfl, shows, minimal, ?_⟩
    cases whole.symm.trans whole'
    rfl
  · have narrow : Integer.width n ≤ 6 + 1 := (Integer.width_le_iff n 6).mpr (by omega)
    obtain ⟨document, built⟩ := build_integer_of_small (n := n) (narrow.trans (by decide))
    refine ⟨document, ?_, built⟩
    rw [safeInteger.measures.build_of_yields (safeInteger_yields safe), ← built, build_integer]
    rfl

/-- The magnitude `00 00 80` takes a sign octet instead of its leading zeros, and loses it again when it is read. The
largest safe integer is read as a number. -/
theorem integer_views_agree_on_sign_octet :
    Document.build (.tagged unsigned.codec) (.octets (.ofOctets [0, 0, 0x80])) = .ok [2, 2, 0, 0x80] ∧
      (∃ window magnitude, Document.parse (.tagged unsigned.codec) 100 [2, 2, 0, 0x80] = .ok (.octets window) ∧
        window.octets = .ok magnitude ∧ Integer.Minimal magnitude ∧ Octets.toNat magnitude = 128) ∧
      Document.parse (.tagged safeInteger.codec) 100 [2, 7, 0x1f, 0xff, 0xff, 0xff, 0xff, 0xff, 0xff] =
        .ok (.number (.integer (2 ^ 53 - 1))) ∧
      Document.build (.tagged safeInteger.codec) (.number (.integer (2 ^ 53 - 1))) =
        .ok [2, 7, 0x1f, 0xff, 0xff, 0xff, 0xff, 0xff, 0xff] := by
  have built : Document.build (.tagged integer.codec) (.integer 128) = .ok [2, 2, 0, 0x80] := by decide +kernel
  have parsed : Document.parse (.tagged integer.codec) 100 [2, 2, 0, 0x80] = .ok (.integer (128 : Nat)) := by rfl
  have built' : Document.build (.tagged integer.codec) (.integer (2 ^ 53 - 1)) =
      .ok [2, 7, 0x1f, 0xff, 0xff, 0xff, 0xff, 0xff, 0xff] := by decide +kernel
  have parsed' : Document.parse (.tagged integer.codec) 100 [2, 7, 0x1f, 0xff, 0xff, 0xff, 0xff, 0xff, 0xff] =
      .ok (.integer (2 ^ 53 - 1)) := by rfl
  obtain ⟨writes, reads, numbers, safe⟩ := integer_views_agree
  obtain ⟨v, asMagnitude⟩ := (reads 100 _).1.mpr ⟨128, parsed⟩
  obtain ⟨window, magnitude, rfl, shows, minimal, value⟩ := (reads 100 _).2 v 128 asMagnitude parsed
  obtain ⟨document, asNumber, asInteger⟩ := safe (2 ^ 53 - 1) (by decide)
  cases built'.symm.trans asInteger
  exact ⟨(writes _ _ (Slice.octets_ofOctets [0, 0, 0x80])).1.trans built,
    ⟨window, magnitude, asMagnitude, shows, minimal, value⟩,
    (numbers 100 _ _).mpr ⟨2 ^ 53 - 1, rfl, parsed', by decide⟩, asNumber⟩

end Primitive

end Der
