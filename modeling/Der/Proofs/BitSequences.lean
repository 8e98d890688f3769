import Der.Proofs.Content.TwosComplement
import Der.Proofs.Element
import Der.Proofs.Layout

namespace Der

theorem bitValue_cons (bit : Bool) (rest : List Bool) :
    bitValue (bit :: rest) = bit.toNat * 2 ^ rest.length + bitValue rest := by
  rw [← List.singleton_append, bitValue_append]
  simp only [bitValue, List.foldl_cons, List.foldl_nil, Nat.zero_mul, Nat.zero_add]

theorem bitValue_lt (bits : List Bool) : bitValue bits < 2 ^ bits.length := by
  induction bits with
  | nil => exact Nat.one_pos
  | cons bit rest ih =>
    have weight := Nat.mul_le_mul_right (2 ^ rest.length) bit.toNat_le
    rw [bitValue_cons, List.length_cons, Nat.pow_succ]
    omega

/-- Bits of a given length are told apart by the number that they denote. -/
theorem bitValue_inj {a b : List Bool} (length : a.length = b.length) (value : bitValue a = bitValue b) : a = b := by
  induction a generalizing b with
  | nil => exact (List.length_eq_zero_iff.mp length.symm).symm
  | cons bit rest ih =>
    cases b with
    | nil => cases length
    | cons bit' rest' =>
      rw [List.length_cons, List.length_cons, Nat.succ_inj] at length
      have small := bitValue_lt rest
      have small' := bitValue_lt rest'
      rw [bitValue_cons, bitValue_cons, length] at value
      rw [length] at small
      cases bit <;> cases bit' <;> simp only [Bool.toNat_false, Bool.toNat_true] at value
      · rw [ih length (by omega)]
      · omega
      · omega
      · rw [ih length (by omega)]

theorem bitValue_replicate_false (n : Nat) : bitValue (List.replicate n false) = 0 := by
  induction n with
  | zero => rfl
  | succ n ih => rw [List.replicate_succ, bitValue_cons, ih, Bool.toNat_false, Nat.zero_mul]

/-- The last bits of a number are those of its remainder. -/
theorem bitValue_drop {bits : List Bool} {n : Nat} (bound : n ≤ bits.length) :
    bitValue (bits.drop (bits.length - n)) = bitValue bits % 2 ^ n := by
  have length : (bits.drop (bits.length - n)).length = n := by
    rw [List.length_drop]
    omega
  have small := bitValue_lt (bits.drop (bits.length - n))
  have split := bitValue_append (bits.take (bits.length - n)) (bits.drop (bits.length - n))
  rw [List.take_append_drop, length] at split
  rw [length] at small
  rw [split, Nat.mul_add_mod_self_right, Nat.mod_eq_of_lt small]

namespace Octets

theorem bits_injective {a b : Octets} (same : bits a = bits b) : a = b := by
  have lengths := congrArg List.length same
  rw [length_bits, length_bits] at lengths
  have values := congrArg bitValue same
  rw [bitValue_bits, bitValue_bits] at values
  have length : a.length = b.length := by omega
  rw [← ofNat_toNat a, ← ofNat_toNat b, values, length]

/-- The octets of bits that are whole octets. -/
def ofBits (bits : List Bool) : Octets :=
  ofNat (bits.length / 8) (bitValue bits)

theorem bits_ofBits {sequence : List Bool} {count : Nat} (whole : sequence.length = 8 * count) :
    bits (ofBits sequence) = sequence := by
  have octets : sequence.length / 8 = count := by omega
  have small := bitValue_lt sequence
  rw [whole, Nat.pow_mul] at small
  refine bitValue_inj ?_ ?_
  · rw [length_bits, ofBits, length_ofNat, octets, whole]
  · rw [bitValue_bits, ofBits, octets, toNat_ofNat_of_lt small]

/-- The last bits of octets are zero if the last octet is a multiple of their weight. -/
theorem drop_bits_eq_replicate (front : Octets) (last : UInt8) {n : Nat} (small : n ≤ 8) :
    (bits (front ++ [last])).drop (8 * (front ++ [last]).length - n) = List.replicate n false ↔
      last.toNat % 2 ^ n = 0 := by
  have length := length_bitsOf last
  have whole : bits (front ++ [last]) = bits front ++ bitsOf last := by
    rw [bits, List.flatMap_append, List.flatMap_singleton]
    rfl
  have place : 8 * (front ++ [last]).length - n = (bits front).length + ((bitsOf last).length - n) := by
    rw [List.length_append, List.length_singleton, length_bits, length]
    omega
  -- All unused bits stand in the last octet, and they are its remainder.
  have value := bitValue_drop (length.symm ▸ small : n ≤ (bitsOf last).length)
  rw [bitValue_bitsOf] at value
  rw [whole, place, List.drop_length_add_append, ← value]
  constructor
  · intro zeros
    rw [zeros, bitValue_replicate_false]
  · intro zero
    refine bitValue_inj ?_ (zero.trans (bitValue_replicate_false n).symm)
    rw [List.length_drop, List.length_replicate, length]
    omega

end Octets

namespace BitString

/-- The bits of a bit string: those of its octets, without so many at their end as are unused. -/
def bits? (b : BitString) : Option (List Bool) :=
  match b.unused.toNat?, b.data.octets with
  | some n, .ok data => if n ≤ 8 * data.length then some (data.bits.take (8 * data.length - n)) else none
  | _, _ => none

/-- How many zeros fill bits up to whole octets. -/
def padding (bits : List Bool) : Nat :=
  (8 - bits.length % 8) % 8

/-- The octets of bits, filled up with zeros. -/
def padded (bits : List Bool) : Octets :=
  Octets.ofBits (bits ++ List.replicate (padding bits) false)

/-- The bit string of bits. -/
def ofBits (bits : List Bool) : BitString :=
  ⟨padding bits, .ofOctets (padded bits)⟩

/-- So many bits can be unused: up to seven, none if there is no octet, and all of them are zero. -/
structure Unused (n : Nat) (data : Octets) : Prop where
  small : n ≤ 7
  none : data = [] → n = 0
  zeros : data.bits.drop (8 * data.length - n) = List.replicate n false

theorem bits?_eq_some {b : BitString} {bits : List Bool} :
    b.bits? = some bits ↔ ∃ (n : Nat) (data : Octets), b.unused = n ∧ b.data.octets = .ok data ∧ n ≤ 8 * data.length ∧
      data.bits.take (8 * data.length - n) = bits := by
  unfold bits?
  constructor
  · intro found
    split at found
    · next n data isNat shows =>
      split at found
      · next room =>
        cases found
        exact ⟨n, data, Number.eq_natCast_of_toNat? isNat, shows, room, rfl⟩
      · cases found
    · cases found
  · rintro ⟨n, data, isNat, shows, room, rfl⟩
    simp only [isNat, Number.toNat?_natCast, shows, if_pos room]

theorem check_natCast {n : Nat} (small : n ≤ 7) (data : Octets) :
    check n data = match data.getLast? with
      | none => if n = 0 then .ok n else .error (.ofCause (.unusedBitsOfNothing n))
      | some last => if last.toNat % 2 ^ n = 0 then .ok n else .error (.ofCause .nonzeroPadding) := by
  simp only [check, unusedCount, Number.toNat?_natCast, if_pos small, bind, Except.bind]
  rfl

/-- A count up to seven is accepted exactly if so many bits can be unused. -/
theorem check_natCast_eq_ok {n : Nat} {data : Octets} (small : n ≤ 7) : check n data = .ok n ↔ Unused n data := by
  rw [check_natCast small]
  rcases List.eq_nil_or_concat' data with rfl | ⟨front, last, rfl⟩
  · by_cases zero : n = 0
    · subst zero
      exact iff_of_true rfl ⟨Nat.zero_le 7, fun _ => rfl, rfl⟩
    · simp only [List.getLast?_nil, if_neg zero]
      exact iff_of_false nofun fun unused => zero (unused.none rfl)
  · have zeros := Octets.drop_bits_eq_replicate front last (small.trans (Nat.le_succ 7))
    have some : front ++ [last] ≠ [] := List.concat_ne_nil last front
    simp only [List.getLast?_concat]
    split
    · next multiple => exact iff_of_true rfl ⟨small, fun empty => absurd empty some, zeros.mpr multiple⟩
    · next multiple => exact iff_of_false nofun fun unused => multiple (zeros.mp unused.zeros)

theorem check_eq_ok_iff {unused : Number} {data : Octets} {n : Nat} :
    check unused data = .ok n ↔ unused = n ∧ Unused n data := by
  constructor
  · intro checked
    obtain ⟨rfl, small⟩ := ContentRule.check_eq_ok checked
    exact ⟨rfl, (check_natCast_eq_ok small).mp checked⟩
  · rintro ⟨rfl, unused⟩
    exact (check_natCast_eq_ok unused.small).mpr unused

namespace Unused

variable {n : Nat} {data : Octets}

theorem room (unused : Unused n data) : n ≤ 8 * data.length := by
  have small := unused.small
  cases data with
  | nil => exact Nat.le_of_eq (unused.none rfl)
  | cons first rest =>
    rw [List.length_cons]
    omega

/-- The octets are the bits, filled up with zeros. -/
theorem bits_eq (unused : Unused n data) :
    data.bits = data.bits.take (8 * data.length - n) ++ List.replicate n false := by
  rw [← unused.zeros, List.take_append_drop]

end Unused

theorem length_filled (bits : List Bool) :
    (bits ++ List.replicate (padding bits) false).length = 8 * ((bits.length + 7) / 8) := by
  rw [List.length_append, List.length_replicate, padding]
  omega

theorem bits_padded (bits : List Bool) : (padded bits).bits = bits ++ List.replicate (padding bits) false :=
  Octets.bits_ofBits (length_filled bits)

theorem length_padded (bits : List Bool) : (padded bits).length = (bits.length + 7) / 8 := by
  have length := congrArg List.length (bits_padded bits)
  rw [Octets.length_bits, length_filled] at length
  omega

/-- Where the bits end and the zeros behind them begin. -/
theorem place_padded (bits : List Bool) : 8 * (padded bits).length - padding bits = bits.length := by
  rw [length_padded, padding]
  omega

theorem unused_padding (bits : List Bool) : Unused (padding bits) (padded bits) := by
  refine ⟨?_, ?_, ?_⟩
  · rw [padding]
    omega
  · intro empty
    have length := length_padded bits
    rw [empty, List.length_nil] at length
    rw [padding]
    omega
  · rw [bits_padded, place_padded, List.drop_left]

/-- Octets with unused bits denote bits exactly if these bits are filled up to the octets. -/
theorem eq_padded_iff {n : Nat} {data : Octets} {bits : List Bool} :
    Unused n data ∧ data.bits.take (8 * data.length - n) = bits ↔ n = padding bits ∧ data = padded bits := by
  constructor
  · rintro ⟨unused, rfl⟩
    -- The octets are the bits and fewer than eight zeros, so the length of the bits tells how many zeros there are.
    have whole := unused.bits_eq
    generalize data.bits.take (8 * data.length - n) = bits at whole ⊢
    have length := congrArg List.length whole
    rw [Octets.length_bits, List.length_append, List.length_replicate] at length
    have small := unused.small
    have count : n = padding bits := by
      rw [padding]
      omega
    refine ⟨count, Octets.bits_injective ?_⟩
    rw [whole, bits_padded, count]
  · rintro ⟨rfl, rfl⟩
    refine ⟨unused_padding bits, ?_⟩
    rw [bits_padded, place_padded, List.take_left]

end BitString

namespace Primitive

open Encoding BitString

variable {b : BitString} {content document : Octets} {maxDepth : Number} {n : Nat} {data : Octets}

/-- A bit string yields the count of its unused bits and its octets, if so many bits can be unused. -/
theorem yields_bits :
    Yields (bitString.codec.contentLength (.bits b)) (bitString.codec.writeContent (.bits b)) content ↔
      ∃ (n : Nat) (data : Octets), b.unused = n ∧ b.data.octets = .ok data ∧ Unused n data ∧
        content = UInt8.ofNat n :: data := by
  constructor
  · intro yields
    obtain ⟨_, is, goes⟩ := yields.emits.of_after
    cases is
    obtain ⟨data, shows, goes⟩ := goes.of_after
    obtain ⟨n, checked, ends⟩ := goes.of_after
    obtain ⟨count, unused⟩ := check_eq_ok_iff.mp checked
    exact ⟨n, data, count, shows, unused, (ends.unique (ContentRule.emits_bits n shows)).1⟩
  · rintro ⟨n, data, count, shows, unused, rfl⟩
    exact bitString_yields shows (check_eq_ok_iff.mpr ⟨count, unused⟩)

/-- A bit string is built if so many bits can be unused, and its document is the element of the count and the octets. -/
theorem build_bits :
    Document.build (.tagged bitString.codec) (.bits b) = .ok document ↔
      ∃ (n : Nat) (data : Octets), b.unused = n ∧ b.data.octets = .ok data ∧ Unused n data ∧
        Element.build bitString.codec.tag (UInt8.ofNat n :: data) = .ok document := by
  rw [bitString.measures.build_eq_ok]
  constructor
  · rintro ⟨header, content, written, rfl, yields⟩
    obtain ⟨n, data, count, shows, unused, rfl⟩ := yields_bits.mp yields
    exact ⟨n, data, count, shows, unused, Element.build_eq_ok.mpr ⟨header, written, rfl⟩⟩
  · rintro ⟨n, data, count, shows, unused, element⟩
    obtain ⟨header, written, rfl⟩ := Element.build_eq_ok.mp element
    exact ⟨header, _, written, rfl, yields_bits.mpr ⟨n, data, count, shows, unused, rfl⟩⟩

/-- The element of a count and octets is read as their bit string, if so many bits can be unused. -/
theorem parse_bits (unused : Unused n data)
    (element : Element.build bitString.codec.tag (UInt8.ofNat n :: data) = .ok document) (maxDepth : Number) :
    ∃ b, Document.parse (.tagged bitString.codec) maxDepth document = .ok (.bits b) ∧ b.unused = n ∧
      b.data.octets = .ok data := by
  obtain ⟨header, written, rfl⟩ := Element.build_eq_ok.mp element
  have shows := Slice.octets_behind header (UInt8.ofNat n :: data)
  have octet : (UInt8.ofNat n).toNat = n := UInt8.toNat_ofNat_of_lt' (lt_of_le_of_lt unused.small (by decide))
  refine ⟨⟨n, (Slice.behind header (UInt8.ofNat n :: data)).dropFirst 1⟩, ?_, rfl,
    ContentRule.octets_dropFirst_one shows⟩
  rw [parse_append_iff written]
  refine (ContentRule.bitString_read shows).trans ?_
  rw [octet, check_eq_ok_iff.mpr ⟨rfl, unused⟩]
  rfl

theorem unused_of_parse {v : Value} (parsed : Document.parse (.tagged bitString.codec) maxDepth document = .ok v) :
    ∃ b n data, v = .bits b ∧ b.unused = (n : Nat) ∧ b.data.octets = .ok data ∧ Unused n data ∧
      Element.build bitString.codec.tag (UInt8.ofNat n :: data) = .ok document := by
  obtain ⟨header, content, written, rfl, read⟩ := parse_eq_ok.mp parsed
  have shows := Slice.octets_behind header content
  cases content with
  | nil =>
    simp only [rule, ContentRule.bitString, shows, bind, Except.bind] at read
    cases read
  | cons first data =>
    have read := (ContentRule.bitString_read shows).symm.trans read
    obtain ⟨count, checked, rfl⟩ := Except.map_eq_ok.mp read
    obtain ⟨same, unused⟩ := check_eq_ok_iff.mp checked
    obtain rfl := Number.natCast_inj same
    refine ⟨_, first.toNat, data, rfl, rfl, ContentRule.octets_dropFirst_one shows, unused, ?_⟩
    rw [UInt8.ofNat_toNat]
    exact Element.build_eq_ok.mpr ⟨header, written, rfl⟩

/-- A document denotes bits exactly if it is the element of the bits, filled up with zeros, behind their count. -/
theorem parse_denotes_iff {bits : List Bool} :
    (∃ b, Document.parse (.tagged bitString.codec) maxDepth document = .ok (.bits b) ∧ b.bits? = some bits) ↔
      Element.build bitString.codec.tag (UInt8.ofNat (padding bits) :: padded bits) = .ok document := by
  constructor
  · rintro ⟨b, parsed, denotes⟩
    obtain ⟨b', n, data, same, count, shows, unused, element⟩ := unused_of_parse parsed
    cases same
    obtain ⟨n', data', count', shows', _, cut⟩ := bits?_eq_some.mp denotes
    cases Number.natCast_inj (count.symm.trans count')
    cases shows.symm.trans shows'
    obtain ⟨rfl, rfl⟩ := eq_padded_iff.mp ⟨unused, cut⟩
    exact element
  · intro element
    obtain ⟨unused, cut⟩ := eq_padded_iff.mpr ⟨rfl, rfl⟩
    obtain ⟨b, parsed, count, shows⟩ := parse_bits unused element maxDepth
    exact ⟨b, parsed, bits?_eq_some.mpr ⟨_, _, count, shows, unused.room, cut⟩⟩

/-- Documents of bit strings correspond one to one to sequences of bits: for any bits whose content is not too long,
just one document is read as a bit string of the bits, the one that is built for them, and whatever is read denotes
bits. A bit string that is not too long is built exactly if the count of its unused bits is a number up to seven, and
zero if there are no octets, and these bits are zero; the same count and the same octets are read again. -/
theorem bitString_bijection :
    (∀ bits : List Bool, 1 + (bits.length + 7) / 8 ≤ Length.max →
      ∃ document, Document.build (.tagged bitString.codec) (.bits (.ofBits bits)) = .ok document ∧
        ∀ maxDepth other, (∃ b, Document.parse (.tagged bitString.codec) maxDepth other = .ok (.bits b) ∧
          b.bits? = some bits) ↔ other = document) ∧
    (∀ maxDepth document v, Document.parse (.tagged bitString.codec) maxDepth document = .ok v →
      ∃ b bits, v = .bits b ∧ b.bits? = some bits) ∧
    ∀ b : BitString, 1 + b.data.length ≤ Length.max →
      ((∃ document, Document.build (.tagged bitString.codec) (.bits b) = .ok document) ↔
        ∃ (n : Nat) (data : Octets), b.unused = n ∧ b.data.octets = .ok data ∧ n ≤ 7 ∧ (data = [] → n = 0) ∧
          data.bits.drop (8 * data.length - n) = List.replicate n false) ∧
      ∀ document, Document.build (.tagged bitString.codec) (.bits b) = .ok document → ∀ maxDepth,
        ∃ b', Document.parse (.tagged bitString.codec) maxDepth document = .ok (.bits b') ∧ b'.unused = b.unused ∧
          b'.data.octets = b.data.octets := by
  have exists_element : ∀ (n : Nat) (data : Octets), 1 + data.length ≤ Length.max →
      ∃ document, Element.build bitString.codec.tag (UInt8.ofNat n :: data) = .ok document := by
    intro n data bound
    rw [Nat.add_comm, ← List.length_cons (a := UInt8.ofNat n)] at bound
    obtain ⟨header, written⟩ := bitString.wellFormed.exists_header bound
    exact ⟨_, Element.build_eq_ok.mpr ⟨header, written, rfl⟩⟩
  refine ⟨?_, ?_, ?_⟩
  · intro bits bound
    rw [← length_padded] at bound
    obtain ⟨document, element⟩ := exists_element (padding bits) (padded bits) bound
    refine ⟨document, ?_, ?_⟩
    · exact build_bits.mpr ⟨_, _, rfl, Slice.octets_ofOctets (padded bits), unused_padding bits, element⟩
    · intro maxDepth other
      rw [parse_denotes_iff, element, Except.ok.injEq, eq_comm]
  · intro maxDepth document v parsed
    obtain ⟨b, n, data, rfl, count, shows, unused, _⟩ := unused_of_parse parsed
    exact ⟨b, _, rfl, bits?_eq_some.mpr ⟨n, data, count, shows, unused.room, rfl⟩⟩
  · intro b bound
    refine ⟨⟨?_, ?_⟩, ?_⟩
    · rintro ⟨document, built⟩
      obtain ⟨n, data, count, shows, unused, _⟩ := build_bits.mp built
      exact ⟨n, data, count, shows, unused.small, unused.none, unused.zeros⟩
    · rintro ⟨n, data, count, shows, small, none, zeros⟩
      rw [← (Slice.length_of_octets shows).2] at bound
      obtain ⟨document, element⟩ := exists_element n data bound
      exact ⟨document, build_bits.mpr ⟨n, data, count, shows, ⟨small, none, zeros⟩, element⟩⟩
    · intro document built maxDepth
      obtain ⟨n, data, count, shows, unused, element⟩ := build_bits.mp built
      obtain ⟨b', parsed, count', shows'⟩ := parse_bits unused element maxDepth
      exact ⟨b', parsed, count'.trans count.symm, shows'.trans shows.symm⟩

/-- Four bits take half an octet, and only one document is read as them. No bits take no octet. Of two octets that are
zero, the last eight bits cannot be unused. -/
theorem bitString_bijection_half_octet :
    Document.build (.tagged bitString.codec) (.bits (.ofBits [true, false, true, true])) = .ok [3, 2, 4, 0xB0] ∧
    (∀ other, (∃ b, Document.parse (.tagged bitString.codec) 100 other = .ok (.bits b) ∧
      b.bits? = some [true, false, true, true]) ↔ other = [3, 2, 4, 0xB0]) ∧
    (∃ b, Document.parse (.tagged bitString.codec) 100 [3, 1, 0] = .ok (.bits b) ∧ b.bits? = some []) ∧
    ¬∃ document, Document.build (.tagged bitString.codec) (.bits ⟨8, .ofOctets [0, 0]⟩) = .ok document := by
  obtain ⟨one, _, builds⟩ := bitString_bijection
  have half : Document.build (.tagged bitString.codec) (.bits (.ofBits [true, false, true, true])) =
      .ok [3, 2, 4, 0xB0] := by decide +kernel
  refine ⟨half, ?_, ?_, ?_⟩
  · obtain ⟨document, built, only⟩ := one [true, false, true, true] (by decide)
    cases half.symm.trans built
    exact only 100
  · obtain ⟨document, built, only⟩ := one [] (by decide)
    have known : Document.build (.tagged bitString.codec) (.bits (.ofBits [])) = .ok [3, 1, 0] := by decide +kernel
    cases known.symm.trans built
    exact (only 100 [3, 1, 0]).mpr rfl
  · rw [(builds ⟨8, .ofOctets [0, 0]⟩ (by decide)).1]
    rintro ⟨n, _, count, _, small, _⟩
    cases Number.natCast_inj (m := 8) count
    exact absurd small (by decide)

end Primitive

end Der
