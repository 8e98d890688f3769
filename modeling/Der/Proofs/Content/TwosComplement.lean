import Mathlib.Order.Bounds.Defs
import Der.Proofs.Content.Integer

namespace Der

namespace Octets

/-- The bits of an octet, most significant bit first. -/
def bitsOf (octet : UInt8) : List Bool :=
  (List.range 8).map fun i => octet.toNat.testBit (7 - i)

/-- The bits of an octet string, most significant bit first. -/
def bits (octets : Octets) : List Bool :=
  octets.flatMap bitsOf

end Octets

/-- The natural number that bits denote, most significant bit first. -/
def bitValue (bits : List Bool) : Nat :=
  bits.foldl (fun n bit => n * 2 + bit.toNat) 0

/-- The integer that bits denote in two's complement: the first bit counts as its weight with a negative sign, all
others count as their weights. -/
def twosComplement : List Bool → Int
  | [] => 0
  | sign :: rest => (bitValue rest : Int) - if sign then 2 ^ rest.length else 0

theorem bitValue_append (high low : List Bool) :
    bitValue (high ++ low) = bitValue high * 2 ^ low.length + bitValue low := by
  induction low using List.reverseRecOn with
  | nil => simp [bitValue]
  | append_singleton low bit ih =>
    have step : ∀ bits : List Bool, bitValue (bits ++ [bit]) = bitValue bits * 2 + bit.toNat := by
      intro bits
      rw [bitValue, List.foldl_append]
      rfl
    rw [← List.append_assoc, step, ih, step, List.length_append, List.length_singleton, Nat.pow_succ, Nat.add_mul,
      Nat.mul_assoc, Nat.add_assoc]

namespace Octets

@[simp] theorem length_bitsOf (octet : UInt8) : (bitsOf octet).length = 8 := by
  simp [bitsOf]

theorem bitValue_bitsOf (octet : UInt8) : bitValue (bitsOf octet) = octet.toNat := by
  have all : ∀ n < 256, bitValue ((List.range 8).map fun i => Nat.testBit n (7 - i)) = n := by decide +kernel
  exact all octet.toNat octet.toNat_lt

/-- The sign bit and the other bits of the first octet. -/
theorem bitsOf_eq_cons (octet : UInt8) :
    ∃ rest, bitsOf octet = decide (128 ≤ octet.toNat) :: rest ∧ rest.length = 7 := by
  have top : octet.toNat.testBit 7 = decide (128 ≤ octet.toNat) := by
    rw [Nat.testBit_eq_decide_div_mod_eq]
    have small := octet.toNat_lt
    rw [decide_eq_decide]
    omega
  exact ⟨_, by rw [← top]; rfl, rfl⟩

theorem bits_cons (first : UInt8) (rest : Octets) : bits (first :: rest) = bitsOf first ++ bits rest :=
  List.flatMap_cons

@[simp] theorem length_bits (octets : Octets) : (bits octets).length = 8 * octets.length := by
  induction octets with
  | nil => rfl
  | cons first rest ih =>
    rw [bits_cons, List.length_append, length_bitsOf, ih, List.length_cons]
    omega

theorem pow_length_bits (octets : Octets) : 2 ^ (bits octets).length = 256 ^ octets.length := by
  rw [length_bits, Nat.pow_mul]

/-- The bits of an octet string denote the number that the octets denote. -/
theorem bitValue_bits (octets : Octets) : bitValue (bits octets) = toNat octets := by
  induction octets with
  | nil => rfl
  | cons first rest ih =>
    rw [bits_cons, bitValue_append, bitValue_bitsOf, pow_length_bits, ih, toNat_cons]

/-- The first nine bits are equal if the first octet repeats the first bit of the second. -/
theorem take_nine_bits (first second : UInt8) (rest : Octets) (bit : Bool) :
    (bits (first :: second :: rest)).take 9 = List.replicate 9 bit ↔
      bitsOf first = List.replicate 8 bit ∧ decide (128 ≤ second.toNat) = bit := by
  obtain ⟨tail, secondBits, -⟩ := bitsOf_eq_cons second
  have cut : (bits (first :: second :: rest)).take 9 = bitsOf first ++ [decide (128 ≤ second.toNat)] := by
    have whole : bits (first :: second :: rest) =
        (bitsOf first ++ [decide (128 ≤ second.toNat)]) ++ (tail ++ bits rest) := by
      rw [bits_cons, bits_cons, secondBits, List.append_assoc, List.singleton_append, List.cons_append]
    rw [whole]
    exact List.take_left' (by rw [List.length_append, length_bitsOf, List.length_singleton])
  rw [cut, show List.replicate 9 bit = List.replicate 8 bit ++ [bit] from List.replicate_succ']
  refine ⟨fun same => ?_, fun ⟨same, last⟩ => by rw [same, last]⟩
  obtain ⟨same, last⟩ := List.append_inj' same rfl
  exact ⟨same, List.singleton_inj.mp last⟩

theorem bitsOf_eq_replicate (octet : UInt8) (bit : Bool) :
    bitsOf octet = List.replicate 8 bit ↔ octet = if bit then 255 else 0 := by
  have value := bitValue_bitsOf octet
  constructor
  · intro same
    rw [same] at value
    rw [← UInt8.toNat_inj, ← value]
    cases bit <;> rfl
  · rintro rfl
    cases bit <;> rfl

end Octets

namespace Content.Integer

/-- The value of content octets is their bits in two's complement. -/
theorem signedValue_eq_twosComplement (octets : Octets) : signedValue octets = twosComplement octets.bits := by
  cases octets with
  | nil => rfl
  | cons first rest =>
    obtain ⟨tail, firstBits, seven⟩ := Octets.bitsOf_eq_cons first
    have whole : Octets.bits (first :: rest) = decide (128 ≤ first.toNat) :: (tail ++ Octets.bits rest) := by
      rw [Octets.bits_cons, firstBits, List.cons_append]
    have weight : 2 ^ (tail ++ Octets.bits rest).length = 128 * 256 ^ rest.length := by
      rw [List.length_append, seven, Nat.pow_add, Octets.pow_length_bits]
    have value := Octets.bitValue_bits (first :: rest)
    rw [whole, ← List.singleton_append, bitValue_append, weight] at value
    have sign : (128 * 256 ^ rest.length ≤ Octets.toNat (first :: rest)) ↔ 128 ≤ first.toNat := by
      rw [← startsHigh_iff, startsHigh, List.headD_cons, decide_eq_true_eq]
    have weightInt : (2 : Int) ^ (tail ++ Octets.bits rest).length = (128 * 256 ^ rest.length : Nat) := by
      exact_mod_cast weight
    rw [signedValue_cons, whole, twosComplement, weightInt]
    by_cases high : 128 ≤ first.toNat
    · rw [if_pos (sign.mpr high), if_pos (decide_eq_true high)]
      rw [decide_eq_true high] at value
      simp only [bitValue, List.foldl_cons, List.foldl_nil, Bool.toNat_true] at value ⊢
      omega
    · rw [if_neg (fun large => high (sign.mp large)), if_neg (by simpa using high)]
      rw [decide_eq_false high] at value
      simp only [bitValue, List.foldl_cons, List.foldl_nil, Bool.toNat_false] at value ⊢
      omega

/-- Content is refused if it is empty, or if its first nine bits are equal. -/
theorem check_eq_ok_iff_bits (octets : Octets) :
    check octets = .ok () ↔
      octets ≠ [] ∧ (2 ≤ octets.length → ¬∃ bit, octets.bits.take 9 = List.replicate 9 bit) := by
  match octets with
  | [] => simp [check]
  | [first] => simp [check]
  | first :: second :: rest =>
    have redundant : (∃ bit, (Octets.bits (first :: second :: rest)).take 9 = List.replicate 9 bit) ↔
        (first = 0 ∧ second.toNat < 128 ∨ first = 255 ∧ 128 ≤ second.toNat) := by
      simp only [Octets.take_nine_bits, Octets.bitsOf_eq_replicate, Bool.exists_bool, decide_eq_false_iff_not,
        decide_eq_true_eq, Nat.not_le, Bool.false_eq_true, if_false, if_true]
    rw [redundant, check]
    by_cases equal : first = 0 ∧ second.toNat < 128 ∨ first = 255 ∧ 128 ≤ second.toNat
    · simp [equal]
    · simp [equal]

theorem decode_eq_ok_iff (octets : Octets) (n : Int) :
    decode octets = .ok n ↔ check octets = .ok () ∧ n = twosComplement octets.bits := by
  unfold decode
  rw [signedValue_eq_twosComplement]
  cases check octets with
  | error fault => exact ⟨nofun, fun parts => nomatch parts.1⟩
  | ok done => exact ⟨fun same => ⟨rfl, (Except.ok.inj same).symm⟩, fun parts => congrArg Except.ok parts.2.symm⟩

/-- The widths that hold an integer are those from `width` on. -/
theorem isLeast_width (n : Int) :
    IsLeast {len : Nat | 1 ≤ len ∧ -(2 ^ (8 * len - 1)) ≤ n ∧ n < 2 ^ (8 * len - 1)} (width n) := by
  have holds : ∀ k : Nat, width n ≤ k + 1 ↔ -(2 ^ (8 * (k + 1) - 1)) ≤ n ∧ n < 2 ^ (8 * (k + 1) - 1) := by
    intro k
    have power : (2 : Int) ^ (8 * (k + 1) - 1) = (128 * 256 ^ k : Nat) := by
      rw [show 8 * (k + 1) - 1 = 7 + 8 * k by omega, pow_add, pow_mul]
      push_cast
      rfl
    rw [power]
    exact width_le_iff n k
  have positive : 1 ≤ width n := Nat.succ_pos _
  obtain ⟨k, same⟩ := Nat.exists_eq_add_of_le' positive
  refine ⟨⟨positive, ?_⟩, ?_⟩
  · rw [same]
    exact (holds k).mp (Nat.le_of_eq same)
  · rintro len ⟨some, range⟩
    obtain ⟨j, rfl⟩ := Nat.exists_eq_add_of_le' some
    exact (holds j).mpr range

/-- The content of an integer is as long as its width, the fewest octets whose two's complement range holds it, and is
read as that integer. Octets are read exactly if there are any and their first nine bits, if there are so many, are not
all equal. What is read is the value of the bits in two's complement, and its content is those octets again. -/
theorem twosComplement_bijection :
    (∀ n : Int, (encode n).length = width n ∧
      IsLeast {len : Nat | 1 ≤ len ∧ -(2 ^ (8 * len - 1)) ≤ n ∧ n < 2 ^ (8 * len - 1)} (width n) ∧
      decode (encode n) = .ok n) ∧
    ∀ octets : Octets,
      ((∃ n, decode octets = .ok n) ↔
        octets ≠ [] ∧ (2 ≤ octets.length → ¬∃ bit, octets.bits.take 9 = List.replicate 9 bit)) ∧
      ∀ n, decode octets = .ok n → n = twosComplement octets.bits ∧ encode n = octets := by
  refine ⟨fun n => ⟨length_encode n, isLeast_width n, decode_encode n⟩, fun octets => ⟨?_, fun n read => ?_⟩⟩
  · rw [← check_eq_ok_iff_bits]
    refine ⟨fun ⟨n, read⟩ => ((decode_eq_ok_iff octets n).mp read).1, fun kept => ?_⟩
    exact ⟨_, (decode_eq_ok_iff octets _).mpr ⟨kept, rfl⟩⟩
  · exact ⟨((decode_eq_ok_iff octets n).mp read).2, encode_of_decode read⟩

/-- Of `11111111 01111111` the first eight bits are equal and the ninth is not: it is the content of -129, the first
integer below the range of one octet. -/
theorem twosComplement_of_minus_129 :
    decode [0xff, 0x7f] = .ok (-129) ∧
      -129 = twosComplement (Octets.bits [0xff, 0x7f]) ∧ encode (-129) = [0xff, 0x7f] := by
  have read : decode [0xff, 0x7f] = .ok (-129) := by decide
  exact ⟨read, (twosComplement_bijection.2 [0xff, 0x7f]).2 (-129) read⟩

end Content.Integer
end Der
