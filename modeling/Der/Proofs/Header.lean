import Der.Header
import Der.Proofs.Base128

namespace Der

@[simp] theorem Number.toNat?_natCast (n : Nat) : Number.toNat? (n : Number) = some n := rfl

theorem Number.eq_natCast_of_toNat? {x : Number} {n : Nat} (isNat : x.toNat? = some n) : x = (n : Number) := by
  cases x with
  | integer k =>
    cases k with
    | ofNat m => simp only [toNat?, Option.some.injEq] at isNat; subst isNat; rfl
    | negSucc m => simp [toNat?] at isNat
  | fraction | infinite | nan | absent => simp [toNat?] at isNat

theorem Number.natCast_inj {m n : Nat} (same : (m : Number) = (n : Number)) : m = n := by
  injection same with integers
  exact Int.ofNat.inj integers

namespace Tag

theorem ext_parts {s t : Tag} (classes : s.tagClass = t.tagClass) (forms : s.constructed = t.constructed)
    (numbers : s.number = t.number) : s = t := by
  cases s
  cases t
  simp_all

theorem checkNumber_natCast {c n : Nat} (form : Bool) (smallClass : c ≤ 3) (smallNumber : n ≤ maxNumber) :
    checkNumber ⟨(c : Number), form, (n : Number)⟩ = .ok n := by
  have notNegative : Number.less (c : Number) 0 = false := by
    rw [show (0 : Number) = .integer 0 from rfl, Number.less_integer]
    simp only [decide_eq_false_iff_not]
    omega
  have notLarge : Number.less 3 (c : Number) = false := by
    rw [show (3 : Number) = .integer 3 from rfl, Number.less_integer]
    simp only [decide_eq_false_iff_not]
    omega
  simp [checkNumber, Nat.not_lt.mpr smallNumber, notNegative, notLarge]

theorem leadingBits_natCast (c : Nat) (form : Bool) (n : Number) :
    leadingBits ⟨(c : Number), form, n⟩ = c * 64 + if form then 32 else 0 := rfl

theorem encode_of_checkNumber {t : Tag} {n : Nat} (checked : t.checkNumber = .ok n) :
    t.encode = .ok (if n < leastHigh then [UInt8.ofNat (t.leadingBits + n)]
      else UInt8.ofNat (t.leadingBits + leastHigh) :: Base128.encode n) := by
  unfold encode
  rw [checked]
  by_cases low : n < leastHigh <;> simp [low, bind, Except.bind, pure, Except.pure]

theorem encodedLength_eq (t : Tag) : t.encodedLength = t.encode.map List.length := by
  unfold encodedLength encode
  cases t.checkNumber with
  | error fault => rfl
  | ok n =>
    by_cases low : n < leastHigh <;>
      simp [low, bind, Except.bind, pure, Except.pure, Except.map, Nat.add_comm]

/-- The first identifier octet shows the class, the form and the low bits. -/
theorem leadingOctet_parts {c low : Nat} (form : Bool) (n : Number) (smallClass : c ≤ 3) (small : low < 32) :
    (UInt8.ofNat (leadingBits ⟨(c : Number), form, n⟩ + low)).toNat % 32 = low ∧
      (UInt8.ofNat (leadingBits ⟨(c : Number), form, n⟩ + low)).toNat / 64 = c ∧
      decide ((UInt8.ofNat (leadingBits ⟨(c : Number), form, n⟩ + low)).toNat / 32 % 2 = 1) = form := by
  have first : (UInt8.ofNat (leadingBits ⟨(c : Number), form, n⟩ + low)).toNat =
      c * 64 + (if form then 32 else 0) + low := by
    rw [leadingBits_natCast, UInt8.toNat_ofNat']
    cases form <;> simp <;> omega
  rw [first]
  cases form <;> simp <;> omega

/-- A tag that identifier octets can carry is read back from what is written for it. -/
theorem WellFormed.decode_encode {t : Tag} (valid : t.WellFormed) :
    ∃ octets, t.encode = .ok octets ∧
      ∀ offset rest, decode offset (octets ++ rest) = .ok (t, rest) := by
  obtain ⟨tagClass, form, number⟩ := t
  obtain ⟨c, n, smallClass, smallNumber, rfl, rfl⟩ := valid
  have checked := checkNumber_natCast form smallClass smallNumber
  by_cases low : n < leastHigh
  · have below : n < 31 := low
    obtain ⟨five, top, middle⟩ := leadingOctet_parts form n smallClass (Nat.lt_succ_of_lt below)
    refine ⟨[UInt8.ofNat (leadingBits ⟨c, form, n⟩ + n)], ?_, ?_⟩
    · rw [encode_of_checkNumber checked, if_pos low]
    · intro offset rest
      simp only [List.cons_append, List.nil_append, decode, five, top, middle, low, if_true]
  · obtain ⟨five, top, middle⟩ := leadingOctet_parts form n smallClass (show leastHigh < 32 by decide)
    refine ⟨UInt8.ofNat (leadingBits ⟨c, form, n⟩ + leastHigh) :: Base128.encode n, ?_, ?_⟩
    · rw [encode_of_checkNumber checked, if_neg low]
    · intro offset rest
      simp only [List.cons_append, decode, five, top, middle, Nat.lt_irrefl, if_false, low,
        Base128.decode_encode smallNumber]

/-- The first identifier octet is made of its class, its form and its low bits. -/
theorem ofNat_leadingBits {first : UInt8} (n : Number) {low : Nat} (isLow : first.toNat % 32 = low) :
    UInt8.ofNat (leadingBits ⟨(first.toNat / 64 : Nat), first.toNat / 32 % 2 = 1, n⟩ + low) = first := by
  have small := first.toNat_lt
  have leading : leadingBits ⟨(first.toNat / 64 : Nat), first.toNat / 32 % 2 = 1, n⟩ = first.toNat / 32 * 32 := by
    rw [leadingBits_natCast]
    by_cases form : first.toNat / 32 % 2 = 1 <;> simp [form] <;> omega
  rw [leading]
  refine UInt8.toNat_inj.mp ?_
  rw [UInt8.toNat_ofNat']
  omega

/-- What is read as a tag is what is written for the tag, followed by what is left. -/
theorem eq_encode_of_decode {offset : Nat} {octets rest : Octets} {t : Tag}
    (read : decode offset octets = .ok (t, rest)) :
    t.WellFormed ∧ ∃ identifier, t.encode = .ok identifier ∧ octets = identifier ++ rest := by
  cases octets with
  | nil => simp [decode] at read
  | cons first tail =>
    have small := first.toNat_lt
    have classSmall : first.toNat / 64 ≤ 3 := by omega
    simp only [decode] at read
    split at read
    · next low =>
      injection read with pair
      injection pair with same left
      subst same
      subst left
      have below : first.toNat % 32 < 31 := low
      have numberSmall : first.toNat % 32 ≤ maxNumber := by rw [maxNumber]; omega
      refine ⟨⟨_, _, classSmall, numberSmall, rfl, rfl⟩, [first], ?_, rfl⟩
      rw [encode_of_checkNumber (checkNumber_natCast _ classSmall numberSmall), if_pos low, ofNat_leadingBits _ rfl]
    · next high =>
      have full : first.toNat % 32 = leastHigh := by
        rw [leastHigh] at high ⊢
        omega
      split at read <;> try contradiction
      next n left number =>
        split at read
        · contradiction
        · next notLow =>
          injection read with pair
          injection pair with same left'
          subst same
          subst left'
          obtain ⟨numberSmall, groups⟩ := Base128.eq_encode_of_decode number
          refine ⟨⟨_, _, classSmall, numberSmall, rfl, rfl⟩, first :: Base128.encode n, ?_, by rw [groups]; rfl⟩
          rw [encode_of_checkNumber (checkNumber_natCast _ classSmall numberSmall), if_neg notLow,
            ofNat_leadingBits _ full]

end Tag

namespace Length

theorem check_natCast {n : Nat} (bound : n ≤ max) : check (n : Number) = .ok n := by
  change (if max < n then _ else _) = _
  rw [if_neg (Nat.not_lt.mpr bound)]

theorem encode_natCast {n : Nat} (bound : n ≤ max) :
    encode (n : Number) = .ok (if n < leastLong then [UInt8.ofNat n]
      else UInt8.ofNat (128 + Octets.width n) :: Octets.ofNat (Octets.width n) n) := by
  unfold encode
  rw [check_natCast bound]
  by_cases short : n < leastLong <;> simp [short, bind, Except.bind, pure, Except.pure]

theorem le_max_of_encode {n : Nat} {octets : Octets} (written : encode n = .ok octets) : n ≤ max := by
  refine Nat.not_lt.mp ?_
  intro large
  have refused : check (n : Number) = .error (.ofCause (.oversizedLength n)) := by
    change (if max < n then _ else _) = _
    rw [if_pos large]
  rw [encode, refused] at written
  cases written

theorem encodedLength_eq (n : Number) : encodedLength n = (encode n).map List.length := by
  unfold encodedLength encode
  cases check n with
  | error fault => rfl
  | ok k =>
    by_cases short : k < leastLong <;>
      simp [short, bind, Except.bind, pure, Except.pure, Except.map, Nat.add_comm]

/-- Every length in range can be written, and is read back from what is written for it. -/
theorem decode_encode {n : Nat} (bound : n ≤ max) :
    ∃ octets, encode (n : Number) = .ok octets ∧
      ∀ offset rest, decode offset (octets ++ rest) = .ok (n, rest) := by
  refine ⟨_, encode_natCast bound, ?_⟩
  intro offset rest
  by_cases short : n < leastLong
  · have below : n < 128 := short
    have first : (UInt8.ofNat n).toNat = n := UInt8.toNat_ofNat_of_lt' (by simp only [UInt8.size]; omega)
    simp [short, decode, first]
  · have narrow : Octets.width n ≤ 4 := (Octets.width_le_iff (by omega)).mpr (by
      rw [max] at bound
      omega)
    have positive : 0 < Octets.width n := Nat.succ_pos _
    have first : (UInt8.ofNat (128 + Octets.width n)).toNat = 128 + Octets.width n :=
      UInt8.toNat_ofNat_of_lt' (by simp only [UInt8.size]; omega)
    have count : 128 + Octets.width n - 128 = Octets.width n := by omega
    have unpadded := Octets.head?_ofNat_width (Nat.lt_of_lt_of_le (by decide) (Nat.not_lt.mp short)) rest
    have read : Octets.toNat ((Octets.ofNat (Octets.width n) n ++ rest).take (Octets.width n)) = n := by
      rw [List.take_left' (Octets.length_ofNat _ _), Octets.toNat_ofNat_of_lt (Octets.lt_pow_width n)]
    have left : (Octets.ofNat (Octets.width n) n ++ rest).drop (Octets.width n) = rest :=
      List.drop_left' (Octets.length_ofNat _ _)
    have room : ¬ (Octets.ofNat (Octets.width n) n ++ rest).length < Octets.width n := by simp
    have long : ¬ 128 + Octets.width n < leastLong := by rw [leastLong]; omega
    have some : ¬ Octets.width n = 0 := by omega
    have unreserved : ¬ Octets.width n = 127 := by omega
    simp only [short, if_false, List.cons_append, decode, first, count, long, some, unreserved,
      Nat.not_lt.mpr narrow, room, unpadded, read, left]

/-- A length that is read from several octets has been counted by the first one. -/
theorem long_of_decode {offset n : Nat} {first : UInt8} {tail rest : Octets} (long : ¬ first.toNat < leastLong)
    (read : decode offset (first :: tail) = .ok (n, rest)) :
    ∃ count, first.toNat = 128 + count ∧ 0 < count ∧ count ≤ 4 ∧ count ≤ tail.length ∧ tail.head? ≠ some 0 ∧
      n = Octets.toNat (tail.take count) ∧ rest = tail.drop count ∧ ¬ n < leastLong := by
  have least : 128 ≤ first.toNat := Nat.not_lt.mp long
  simp only [decode, if_neg long] at read
  split at read; · cases read
  next some =>
  split at read; · cases read
  split at read; · cases read
  next narrow =>
  split at read; · cases read
  next room =>
  split at read; · cases read
  next unpadded =>
  split at read
  · cases read
  · next notShort =>
    injection read with pair
    injection pair with value left
    subst value
    exact ⟨first.toNat - 128, by omega, by omega, by omega, by omega, unpadded, rfl, left.symm, notShort⟩

/-- What is read as a length is what is written for the length, followed by what is left. -/
theorem eq_encode_of_decode {offset n : Nat} {octets rest : Octets}
    (read : decode offset octets = .ok (n, rest)) :
    n ≤ max ∧ ∃ size, encode (n : Number) = .ok size ∧ octets = size ++ rest := by
  cases octets with
  | nil => simp [decode] at read
  | cons first tail =>
    by_cases short : first.toNat < leastLong
    · simp only [decode, if_pos short] at read
      injection read with pair
      injection pair with value left
      subst value left
      have small := first.toNat_lt
      have bound : first.toNat ≤ max := by rw [max]; omega
      refine ⟨bound, [first], ?_, rfl⟩
      rw [encode_natCast bound, if_pos short, UInt8.ofNat_toNat]
    · obtain ⟨count, counted, some, narrow, room, unpadded, value, rfl, notShort⟩ := long_of_decode short read
      have length : (tail.take count).length = count := List.length_take_of_le room
      have wide : Octets.width n = count := by
        rw [value, Octets.width_toNat_of_head?, length]
        · exact List.ne_nil_of_length_pos (by rwa [length])
        · rwa [List.head?_take, if_neg (Nat.ne_of_gt some)]
      have written : Octets.ofNat count n = tail.take count := by
        have again := Octets.ofNat_toNat (tail.take count)
        rwa [length, ← value] at again
      have bound : n ≤ max := by
        have below : n < 256 ^ 4 := (Octets.width_le_iff (by omega)).mp (by omega)
        rw [max]
        omega
      refine ⟨bound, first :: tail.take count, ?_, ?_⟩
      · rw [encode_natCast bound, if_neg notShort, wide, written, ← counted, UInt8.ofNat_toNat]
      · rw [List.cons_append, List.take_append_drop]

end Length

namespace Header

/-- The octets of the header of an element. -/
def encode (tag : Tag) (length : Nat) : Except Fault Octets := do
  let identifier ← tag.encode
  let size ← Length.encode length
  return identifier ++ size

theorem encodedLength_eq (tag : Tag) (length : Nat) :
    encodedLength tag length = (encode tag length).map List.length := by
  unfold encodedLength encode
  rw [Tag.encodedLength_eq, Length.encodedLength_eq]
  cases tag.encode with
  | error fault => rfl
  | ok identifier =>
    cases Length.encode length with
    | error fault => rfl
    | ok size => simp [bind, Except.bind, pure, Except.pure, Except.map]

theorem encode_eq_ok {tag : Tag} {length : Nat} {octets : Octets} (written : encode tag length = .ok octets) :
    ∃ identifier size, tag.encode = .ok identifier ∧ Length.encode length = .ok size ∧
      octets = identifier ++ size := by
  unfold encode at written
  cases first : tag.encode with
  | error fault => rw [first] at written; cases written
  | ok identifier =>
    cases second : Length.encode length with
    | error fault => rw [first, second] at written; cases written
    | ok size =>
      rw [first, second] at written
      injection written with same
      exact ⟨identifier, size, rfl, rfl, same.symm⟩

theorem le_max_of_encode {tag : Tag} {length : Nat} {octets : Octets}
    (written : encode tag length = .ok octets) : length ≤ Length.max := by
  obtain ⟨_, _, _, measured, _⟩ := encode_eq_ok written
  exact Length.le_max_of_encode measured

/-- A header is read back from what is written for it, if the content that it declares follows. -/
theorem decode_encode {tag : Tag} {length : Nat} {octets content : Octets} (valid : tag.WellFormed)
    (written : encode tag length = .ok octets) (fits : length ≤ content.length) (offset : Nat) :
    decode offset (octets ++ content) = .ok (⟨tag, length⟩, content) := by
  obtain ⟨identifier, size, first, second, rfl⟩ := encode_eq_ok written
  obtain ⟨identifier', first', readTag⟩ := valid.decode_encode
  obtain ⟨size', second', readLength⟩ := Length.decode_encode (le_max_of_encode written)
  cases Except.ok.inj (first.symm.trans first')
  cases Except.ok.inj (second.symm.trans second')
  rw [decode, List.append_assoc, readTag]
  simp only [bind, Except.bind]
  rw [readLength]
  simp [Nat.not_lt.mpr fits, pure, Except.pure]

/-- What is read as a header is what is written for it, and the content that it declares follows. -/
theorem eq_encode_of_decode {offset : Nat} {octets content : Octets} {header : Header}
    (read : decode offset octets = .ok (header, content)) :
    ∃ (length : Nat) (written : Octets), header.length = length ∧ length ≤ content.length ∧
      header.tag.WellFormed ∧ encode header.tag length = .ok written ∧ octets = written ++ content := by
  rw [decode] at read
  cases readTag : Tag.decode offset octets with
  | error fault => rw [readTag] at read; cases read
  | ok tagged =>
    obtain ⟨tag, afterTag⟩ := tagged
    simp only [readTag, bind, Except.bind] at read
    cases readLength : Length.decode (offset + (octets.length - afterTag.length)) afterTag with
    | error fault => simp only [readLength] at read; cases read
    | ok measured =>
      obtain ⟨length, left⟩ := measured
      simp only [readLength] at read
      split at read
      · cases read
      · next fits =>
        injection read with pair
        injection pair with same left'
        subst same
        subst left'
        obtain ⟨valid, identifier, first, front⟩ := Tag.eq_encode_of_decode readTag
        obtain ⟨_, size, second, back⟩ := Length.eq_encode_of_decode readLength
        refine ⟨length, identifier ++ size, rfl, Nat.not_lt.mp fits, valid, ?_, ?_⟩
        · rw [encode, first, second]
          rfl
        · rw [front, back, List.append_assoc]

end Header

end Der
