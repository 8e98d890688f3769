import Der.Overhang
import Der.Proofs.Content.Subidentifiers
import Der.Proofs.Content.TwosComplement
import Der.Proofs.Header

namespace Der

namespace Octets

theorem bitsOf_fields (octet : UInt8) :
    bitValue ((bitsOf octet).take 2) = octet.toNat / 64 ∧
      (bitsOf octet)[2]? = some (decide (octet.toNat / 32 % 2 = 1)) ∧
      bitValue ((bitsOf octet).drop 3) = octet.toNat % 32 := by
  have all : ∀ n < 256, bitValue (((List.range 8).map fun i => Nat.testBit n (7 - i)).take 2) = n / 64 ∧
      ((List.range 8).map fun i => Nat.testBit n (7 - i))[2]? = some (decide (n / 32 % 2 = 1)) ∧
      bitValue (((List.range 8).map fun i => Nat.testBit n (7 - i)).drop 3) = n % 32 := by decide +kernel
  exact all octet.toNat octet.toNat_lt

theorem ahead_of_le {octets : Octets} {start stop : Nat} (inside : stop ≤ octets.length) :
    octets.ahead start stop = ⟨octets.between start stop, 0⟩ := by
  have gap : stop - max start octets.length = 0 := by omega
  rw [ahead, gap]

/-- What stands in front of a scope that begins with some octets, and behind it, does not count. -/
theorem between_append {before octets after : Octets} {stop : Nat} (reaches : before.length + octets.length ≤ stop) :
    (before ++ octets ++ after).between before.length stop =
      octets ++ after.take (stop - (before.length + octets.length)) := by
  obtain ⟨more, rfl⟩ := Nat.exists_eq_add_of_le reaches
  rw [between, ← List.length_append, List.take_length_add_append, Nat.add_sub_cancel_left, List.append_assoc,
    List.drop_left]

/-- The first octets of a scope stand at its start. -/
theorem between_of_append {octets front rest : Octets} {start stop : Nat}
    (split : octets.between start stop = front ++ rest) :
    start + front.length ≤ max start stop ∧ octets.between start (start + front.length) = front := by
  have length := congrArg List.length split
  rw [length_between, List.length_append] at length
  refine ⟨by omega, ?_⟩
  have cut := congrArg (List.take front.length) split
  rw [List.take_left, between, List.take_drop, List.take_take] at cut
  by_cases none : front.length = 0
  · rw [List.length_eq_zero_iff.mp none, between, List.drop_take, List.length_nil, Nat.add_zero, Nat.sub_self,
      List.take_zero]
  · rwa [Nat.min_eq_left (by omega)] at cut

end Octets

namespace Overhang

/-- A reader at places reads exactly what is written. What is written for a valid value has the length measured for it,
and it is read back from any place of a buffer, in any scope inside the buffer that reaches its last octet. What is
read in a scope inside a buffer is valid, and the octets up to the place behind it are written for it. -/
structure Exact {α : Type} (readAt : Octets → Number → Nat → Except Fault (α × Number))
    (encode : α → Except Fault Octets) (width : α → Except Fault Nat) (valid : α → Prop) : Prop where
  reads : ∀ a, valid a → ∃ octets, encode a = .ok octets ∧ width a = .ok octets.length ∧
    ∀ (before after : Octets) (stop : Nat), before.length + octets.length ≤ stop →
      stop ≤ (before ++ octets ++ after).length →
      readAt (before ++ octets ++ after) before.length stop = .ok (a, (before.length + octets.length : Nat))
  canonical : ∀ (octets : Octets) (start stop : Nat), start ≤ stop → stop ≤ octets.length → ∀ a next,
    readAt octets start stop = .ok (a, next) →
    ∃ behind : Nat, next = behind ∧ start < behind ∧ behind ≤ stop ∧ valid a ∧
      encode a = .ok (octets.between start behind)

section

variable {α γ : Type} {read : Overhang → Nat → Except Fault (α × Overhang)}
  {decode : Nat → Octets → Except Fault (γ × Octets)} {f : γ → α}
  (complete : ∀ octets offset, read ⟨octets, 0⟩ offset =
    (decode offset octets).map fun found => (f found.1, (⟨found.2, 0⟩ : Overhang)))

include complete

theorem readAt_of_complete {octets : Octets} {start stop : Nat} (inside : stop ≤ octets.length) {beyond : Fault.Cause}
    {unread : α} :
    readAt octets start stop beyond unread read = (decode start (octets.between start stop)).map fun found =>
      (f found.1, ((start + ((octets.between start stop).length - found.2.length) : Nat) : Number)) := by
  simp only [readAt, Number.toNat?_natCast, Octets.ahead_of_le inside, complete]
  cases decode start (octets.between start stop) <;> rfl

/-- A reader of complete octets that accepts exactly what is written is exact at every place. -/
theorem exact_of_complete {beyond : Fault.Cause} {unread : α} {encode : α → Except Fault Octets}
    {width : α → Except Fault Nat} {valid : α → Prop} (measures : ∀ a, width a = (encode a).map List.length)
    (nonempty : ∀ a, encode a ≠ .ok [])
    (forward : ∀ a, valid a → ∃ c octets, f c = a ∧ encode a = .ok octets ∧
      ∀ offset rest, decode offset (octets ++ rest) = .ok (c, rest))
    (backward : ∀ {offset octets c rest}, decode offset octets = .ok (c, rest) →
      valid (f c) ∧ ∃ front, encode (f c) = .ok front ∧ octets = front ++ rest) :
    Exact (fun octets offset stop => readAt octets offset stop beyond unread read) encode width valid where
  reads := by
    intro a isValid
    obtain ⟨c, octets, rfl, written, back⟩ := forward a isValid
    refine ⟨octets, written, by rw [measures, written]; rfl, ?_⟩
    intro before after stop reaches inside
    rw [readAt_of_complete complete inside, Octets.between_append reaches, back, List.length_append]
    simp only [Except.map, Nat.add_sub_cancel]
  canonical := by
    intro octets start stop ordered inside a next found
    rw [readAt_of_complete complete inside] at found
    obtain ⟨⟨c, rest⟩, decoded, same⟩ := Except.map_eq_ok.mp found
    cases same
    obtain ⟨isValid, front, written, split⟩ := backward decoded
    obtain ⟨fits, stands⟩ := Octets.between_of_append split
    have some : 0 < front.length := by
      refine List.length_pos_of_ne_nil ?_
      rintro rfl
      exact nonempty _ written
    refine ⟨start + front.length, ?_, by omega, by omega, isValid, by rw [stands]; exact written⟩
    rw [split, List.length_append, Nat.add_sub_cancel]

end

end Overhang

namespace Tag

/-- Identifier octets, bit by bit: two bits for the class, one for the form, and five for the number. Numbers that five
bits do not hold, or that would fill them, follow in groups of seven bits instead. -/
def Identifies (octets : Octets) (tagClass : Nat) (form : Bool) (number : Nat) : Prop :=
  ∃ first rest, octets = first :: rest ∧ bitValue ((Octets.bitsOf first).take 2) = tagClass ∧
    (Octets.bitsOf first)[2]? = some form ∧
    (number < 31 ∧ bitValue ((Octets.bitsOf first).drop 3) = number ∧ rest = [] ∨
      31 ≤ number ∧ bitValue ((Octets.bitsOf first).drop 3) = 31 ∧ Base128.Complete rest ∧ Base128.value rest = number)

theorem encode_natCast {c n : Nat} {form : Bool} (smallClass : c ≤ 3) (smallNumber : n ≤ maxNumber) :
    encode ⟨c, form, n⟩ = .ok (if n < 31 then [UInt8.ofNat (leadingBits ⟨c, form, n⟩ + n)]
      else UInt8.ofNat (leadingBits ⟨c, form, n⟩ + 31) :: Base128.encode n) :=
  encode_of_checkNumber (checkNumber_natCast form smallClass smallNumber)

/-- The identifier octets of a tag are the ones with its class, its form and its number in their bits. -/
theorem encode_eq_ok_iff {c n : Nat} {form : Bool} {octets : Octets} (smallClass : c ≤ 3)
    (smallNumber : n ≤ maxNumber) : encode ⟨c, form, n⟩ = .ok octets ↔ Identifies octets c form n := by
  have fields := Octets.bitsOf_fields
  rw [encode_natCast smallClass smallNumber, Except.ok.injEq]
  constructor
  · rintro rfl
    by_cases low : n < 31
    · obtain ⟨five, top, middle⟩ := leadingOctet_parts form n smallClass (Nat.lt_succ_of_lt low)
      obtain ⟨isClass, isForm, isLow⟩ := fields (UInt8.ofNat (leadingBits ⟨c, form, n⟩ + n))
      rw [if_pos low]
      exact ⟨_, [], rfl, isClass.trans top, isForm.trans (congrArg _ middle), .inl ⟨low, isLow.trans five, rfl⟩⟩
    · obtain ⟨five, top, middle⟩ := leadingOctet_parts form n smallClass (show 31 < 32 by decide)
      obtain ⟨isClass, isForm, isLow⟩ := fields (UInt8.ofNat (leadingBits ⟨c, form, n⟩ + 31))
      obtain ⟨complete, value⟩ := (Base128.complete_iff (Base128.encode n) n).mpr rfl
      rw [if_neg low]
      exact ⟨_, _, rfl, isClass.trans top, isForm.trans (congrArg _ middle),
        .inr ⟨Nat.not_lt.mp low, isLow.trans five, complete, value⟩⟩
  · rintro ⟨first, rest, rfl, isClass, isForm, number⟩
    obtain ⟨classBits, formBit, lowBits⟩ := fields first
    rw [classBits] at isClass
    rw [formBit, Option.some.injEq] at isForm
    rw [lowBits] at number
    subst isClass isForm
    rcases number with ⟨low, isNumber, rfl⟩ | ⟨high, ones, complete, value⟩
    · rw [if_pos low, ofNat_leadingBits _ isNumber]
    · rw [if_neg (Nat.not_lt.mpr high), ofNat_leadingBits _ ones, ← (Base128.complete_iff rest n).mp ⟨complete, value⟩]

theorem encode_ne_nil (t : Tag) : t.encode ≠ .ok [] := by
  intro written
  obtain ⟨n, checked, _⟩ := Except.bind_eq_ok.mp written
  rw [encode_of_checkNumber checked, Except.ok.injEq] at written
  split at written <;> cases written

theorem exact_tagAt : Overhang.Exact Overhang.tagAt encode encodedLength WellFormed := by
  refine Overhang.exact_of_complete (f := id) Overhang.tag_of_complete encodedLength_eq encode_ne_nil ?_
    eq_encode_of_decode
  intro t valid
  obtain ⟨octets, written, back⟩ := valid.decode_encode
  exact ⟨t, octets, rfl, written, back⟩

/-- A tag of one of the four classes with a number of 32 bits has identifier octets, of the length computed for it, with
its class, its form and its number in their bits. They are read back from any place of a buffer, and whatever is read
as a tag is such a tag and stands in the buffer as its identifier octets. -/
theorem identifierOctets_exact :
    Overhang.Exact Overhang.tagAt encode encodedLength WellFormed ∧
      ∀ (c n : Nat) (form : Bool), c ≤ 3 → n ≤ 2 ^ 32 - 1 →
        WellFormed ⟨c, form, n⟩ ∧ ∀ octets, encode ⟨c, form, n⟩ = .ok octets ↔ Identifies octets c form n := by
  refine ⟨exact_tagAt, fun c n form smallClass smallNumber => ⟨⟨c, n, smallClass, smallNumber, rfl, rfl⟩, ?_⟩⟩
  intro octets
  exact encode_eq_ok_iff smallClass smallNumber

/-- The number 201 takes two groups. They are read in a scope that ends just behind them, between other octets. -/
theorem identifierOctets_of_private_201 :
    encode ⟨3, true, 201⟩ = .ok [0xFF, 0x81, 0x49] ∧ encodedLength ⟨3, true, 201⟩ = .ok 3 ∧
      Identifies [0xFF, 0x81, 0x49] 3 true 201 ∧
      Overhang.tagAt [0x30, 0xFF, 0x81, 0x49, 0x05] 1 4 = .ok (⟨3, true, 201⟩, 4) ∧
      ∃ behind : Nat, (4 : Number) = behind ∧ 1 < behind ∧ behind ≤ 4 ∧ WellFormed ⟨3, true, 201⟩ ∧
        encode ⟨3, true, 201⟩ = .ok (Octets.between [0x30, 0xFF, 0x81, 0x49, 0x05] 1 behind) := by
  have known : encode ⟨3, true, 201⟩ = .ok [0xFF, 0x81, 0x49] := by decide +kernel
  obtain ⟨exact, bits⟩ := identifierOctets_exact
  obtain ⟨valid, identifies⟩ := bits 3 201 true (by decide) (by decide)
  obtain ⟨octets, written, measured, back⟩ := exact.reads _ valid
  cases known.symm.trans written
  have read := back [0x30] [0x05] 4 (by decide) (by decide)
  exact ⟨known, measured, (identifies _).mp known, read,
    exact.canonical [0x30, 0xFF, 0x81, 0x49, 0x05] 1 4 (by decide) (by decide) _ _ read⟩

end Tag

namespace Length

/-- Length octets in definite form, in the fewest octets: a length below 128 is its own octet; any other length is the
number of the octets that the first octet counts, from 128 on, and they do not begin with zero. -/
def Definite (octets : Octets) (n : Nat) : Prop :=
  n < 128 ∧ (∃ octet, octets = [octet] ∧ octet.toNat = n) ∨
    128 ≤ n ∧ ∃ first size, octets = first :: size ∧ first.toNat = 128 + size.length ∧ size.head? ≠ some 0 ∧
      Octets.toNat size = n

theorem width_le_four {n : Nat} (bound : n ≤ max) : Octets.width n ≤ 4 := by
  rw [Octets.width_le_iff (by omega)]
  rw [max] at bound
  omega

/-- The length octets of a length are the ones in definite form. -/
theorem encode_eq_ok_iff {n : Nat} {octets : Octets} (bound : n ≤ max) :
    encode (n : Number) = .ok octets ↔ Definite octets n := by
  rw [encode_natCast bound, Except.ok.injEq]
  constructor
  · rintro rfl
    by_cases short : n < leastLong
    · have below : n < 128 := short
      rw [if_pos short]
      exact .inl ⟨short, _, rfl, UInt8.toNat_ofNat_of_lt' (by simp only [UInt8.size]; omega)⟩
    · have narrow := width_le_four bound
      have unpadded := Octets.head?_ofNat_width (Nat.lt_of_lt_of_le (by decide) (Nat.not_lt.mp short)) []
      rw [List.append_nil] at unpadded
      rw [if_neg short]
      refine .inr ⟨Nat.not_lt.mp short, _, _, rfl, ?_, unpadded, Octets.toNat_ofNat_of_lt (Octets.lt_pow_width n)⟩
      rw [Octets.length_ofNat, UInt8.toNat_ofNat_of_lt' (by simp only [UInt8.size]; omega)]
  · rintro (⟨short, octet, rfl, value⟩ | ⟨long, first, size, rfl, counted, unpadded, rfl⟩)
    · rw [if_pos (show n < leastLong from short), ← value, UInt8.ofNat_toNat]
    · have nonempty : size ≠ [] := by
        rintro rfl
        exact absurd long (by decide)
      have notShort : ¬ Octets.toNat size < leastLong := Nat.not_lt.mpr long
      rw [if_neg notShort, Octets.width_toNat_of_head? nonempty unpadded, Octets.ofNat_toNat, ← counted,
        UInt8.ofNat_toNat]

theorem encode_ne_nil (x : Number) : encode x ≠ .ok [] := by
  intro written
  obtain ⟨n, _, written⟩ := Except.bind_eq_ok.mp written
  split at written <;> cases written

theorem refused_of_check {x : Number} {fault : Fault} (refused : check x = .error fault) :
    encode x = .error fault ∧ encodedLength x = .error fault := by
  rw [encode, encodedLength, refused]
  exact ⟨rfl, rfl⟩

theorem check_of_large {n : Int} (large : (max : Int) < n) :
    check (.integer n) = .error (.ofCause (.oversizedLength (.integer n))) := by
  obtain ⟨k, rfl⟩ := Int.eq_ofNat_of_zero_le (show 0 ≤ n by omega)
  exact if_pos (Int.ofNat_lt.mp large)

theorem check_of_unnatural {x : Number} (unnatural : ∀ n : Nat, x ≠ n) :
    check x = .error (.ofCause (.badLength x)) := by
  cases x with
  | integer n =>
    cases n with
    | ofNat k => exact absurd rfl (unnatural k)
    | negSucc k => rfl
  | fraction | infinite | nan | absent => rfl

/-- A length of 32 bits has length octets in definite form, as many as computed for it. They are read back from any
place of a buffer, and whatever is read as a length is such a length and stands in the buffer as its length octets.
Other numbers are refused: larger integers as oversized, and what is no natural number as no length. -/
theorem lengthOctets_exact :
    Overhang.Exact Overhang.lengthAt encode encodedLength (fun x => ∃ n : Nat, x = n ∧ n ≤ 2 ^ 32 - 1) ∧
      (∀ (n : Nat) (octets : Octets), n ≤ 2 ^ 32 - 1 → (encode (n : Number) = .ok octets ↔ Definite octets n)) ∧
      (∀ n : Int, 2 ^ 32 - 1 < n → ∃ fault, encode (.integer n) = .error fault ∧
        encodedLength (.integer n) = .error fault ∧ fault.kind? = some .overflow) ∧
      ∀ x : Number, (∀ n : Nat, x ≠ n) → ∃ fault, encode x = .error fault ∧ encodedLength x = .error fault ∧
        fault.kind? = some .invalidLength := by
  refine ⟨?_, fun n octets => encode_eq_ok_iff, fun n large => ?_, fun x unnatural => ?_⟩
  · refine Overhang.exact_of_complete (f := fun n : Nat => (n : Number)) Overhang.length_of_complete encodedLength_eq
      encode_ne_nil ?_ ?_
    · rintro _ ⟨n, rfl, bound⟩
      obtain ⟨octets, written, back⟩ := decode_encode bound
      exact ⟨n, octets, rfl, written, back⟩
    · intro offset octets n rest read
      obtain ⟨bound, size, written, split⟩ := eq_encode_of_decode read
      exact ⟨⟨n, rfl, bound⟩, size, written, split⟩
  · obtain ⟨written, measured⟩ := refused_of_check (check_of_large large)
    exact ⟨_, written, measured, rfl⟩
  · obtain ⟨written, measured⟩ := refused_of_check (check_of_unnatural unnatural)
    exact ⟨_, written, measured, rfl⟩

/-- The least length that takes an octet beside the count, between other octets, and the least one that is too large. -/
theorem lengthOctets_of_128 :
    encode 128 = .ok [0x81, 0x80] ∧ encodedLength 128 = .ok 2 ∧ Definite [0x81, 0x80] 128 ∧
      Overhang.lengthAt [0x04, 0x81, 0x80, 0x00] 1 3 = .ok (128, 3) ∧
      (∃ behind : Nat, (3 : Number) = behind ∧ 1 < behind ∧ behind ≤ 3 ∧
        (∃ n : Nat, (128 : Number) = n ∧ n ≤ 2 ^ 32 - 1) ∧
        encode 128 = .ok (Octets.between [0x04, 0x81, 0x80, 0x00] 1 behind)) ∧
      (∃ fault, encode 4294967296 = .error fault ∧ encodedLength 4294967296 = .error fault ∧
        fault.kind? = some .overflow) ∧
      ∃ fault, encode (.infinite false) = .error fault ∧ encodedLength (.infinite false) = .error fault ∧
        fault.kind? = some .invalidLength := by
  have known : encode 128 = .ok [0x81, 0x80] := by decide +kernel
  obtain ⟨exact, definite, oversized, unnatural⟩ := lengthOctets_exact
  obtain ⟨octets, written, measured, back⟩ := exact.reads 128 ⟨128, rfl, by decide⟩
  cases known.symm.trans written
  have read := back [0x04] [0x00] 3 (by decide) (by decide)
  exact ⟨known, measured, (definite 128 _ (by decide)).mp known, read,
    exact.canonical [0x04, 0x81, 0x80, 0x00] 1 3 (by decide) (by decide) _ _ read,
    oversized 4294967296 (by decide), unnatural (.infinite false) nofun⟩

end Length

end Der
