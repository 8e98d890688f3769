import Der.Content.Integer
import Der.Proofs.Octets

namespace Der.Content.Integer

/-- The width is the fewest octets whose two's complement range holds the integer. -/
theorem width_le_iff (n : Int) (k : Nat) :
    width n ≤ k + 1 ↔ -((128 * 256 ^ k : Nat) : Int) ≤ n ∧ n < (128 * 256 ^ k : Nat) := by
  have power : 2 ^ (1 * (8 * k + 7)) = 128 * 256 ^ k := by
    rw [Nat.one_mul, Nat.pow_add, Nat.pow_mul, Nat.mul_comm]
  have digits : ∀ m : Nat, (m.log2 + 1) / 8 + 1 ≤ k + 1 ↔ m < 128 * 256 ^ k := by
    intro m
    have exact := log2_div_lt_iff (n := m) Nat.one_pos (show 0 < 8 * k + 7 by omega)
    rw [power, Nat.div_one] at exact
    rw [← exact]
    omega
  by_cases sign : 0 ≤ n
  · simp only [width, if_pos sign, digits]
    omega
  · simp only [width, if_neg sign, digits]
    omega

theorem startsHigh_iff (first : UInt8) (rest : Octets) :
    startsHigh (first :: rest) = true ↔ 128 * 256 ^ rest.length ≤ Octets.toNat (first :: rest) := by
  have below := Octets.toNat_lt rest
  rw [startsHigh, List.headD_cons, decide_eq_true_eq, Octets.toNat_cons]
  constructor
  · intro high
    have scaled := Nat.mul_le_mul_right (256 ^ rest.length) high
    omega
  · intro large
    refine Nat.not_lt.mp ?_
    intro low
    have scaled := Nat.mul_le_mul_right (256 ^ rest.length) (Nat.le_of_lt_succ low : first.toNat ≤ 127)
    omega

theorem signedValue_cons (first : UInt8) (rest : Octets) :
    signedValue (first :: rest) = Octets.toNat (first :: rest) -
      if 128 * 256 ^ rest.length ≤ Octets.toNat (first :: rest) then (256 * 256 ^ rest.length : Nat) else 0 := by
  have power : Nat.pow 256 (first :: rest).length = 256 * 256 ^ rest.length := by
    rw [List.length_cons]
    exact Nat.pow_succ'
  unfold signedValue
  rw [power]
  by_cases high : startsHigh (first :: rest) = true
  · rw [if_pos high, if_pos ((startsHigh_iff first rest).mp high)]
  · rw [if_neg high, if_neg fun large => high ((startsHigh_iff first rest).mpr large)]
    omega

theorem signedValue_mem_range (first : UInt8) (rest : Octets) :
    -((128 * 256 ^ rest.length : Nat) : Int) ≤ signedValue (first :: rest) ∧
      signedValue (first :: rest) < (128 * 256 ^ rest.length : Nat) := by
  have below := Octets.toNat_lt (first :: rest)
  rw [List.length_cons, Nat.pow_succ'] at below
  rw [signedValue_cons]
  split <;> omega

theorem signedValue_emod (first : UInt8) (rest : Octets) :
    (signedValue (first :: rest) % (Nat.pow 256 (rest.length + 1) : Nat)).toNat =
      Octets.toNat (first :: rest) := by
  have below := Octets.toNat_lt (first :: rest)
  have power : Nat.pow 256 (rest.length + 1) = 256 * 256 ^ rest.length := Nat.pow_succ'
  rw [List.length_cons, Nat.pow_succ'] at below
  rw [signedValue_cons, power]
  split
  · rw [Int.sub_emod_right, Int.emod_eq_of_lt (by omega) (by omega), Int.toNat_natCast]
  · rw [Int.ofNat_zero, Int.sub_zero, Int.emod_eq_of_lt (by omega) (by omega), Int.toNat_natCast]

/-- The octets of the residue of an integer denote it, if there are enough of them. -/
theorem signedValue_ofNat {n : Int} {k : Nat} (lower : -((128 * 256 ^ k : Nat) : Int) ≤ n)
    (upper : n < (128 * 256 ^ k : Nat)) :
    signedValue (Octets.ofNat (k + 1) (n % (Nat.pow 256 (k + 1) : Nat)).toNat) = n := by
  have power : Nat.pow 256 (k + 1) = 256 * 256 ^ k := Nat.pow_succ'
  have positive : 0 < 256 ^ k := Nat.pow_pos (by omega)
  have residue : (n % (Nat.pow 256 (k + 1) : Nat)).toNat < 256 ^ (k + 1) := by
    rw [power, Nat.pow_succ']
    have bound := Int.emod_lt_of_pos n (show (0 : Int) < (256 * 256 ^ k : Nat) by omega)
    omega
  have value := Octets.toNat_ofNat_of_lt residue
  cases shape : Octets.ofNat (k + 1) (n % (Nat.pow 256 (k + 1) : Nat)).toNat with
  | nil =>
    have length := congrArg List.length shape
    simp at length
  | cons first rest =>
    have length : rest.length = k := by
      have total := congrArg List.length shape
      simpa using total.symm
    rw [shape] at value
    rw [signedValue_cons, value, length, power]
    by_cases sign : 0 ≤ n
    · rw [Int.emod_eq_of_lt sign (by omega), if_neg (by omega)]
      omega
    · have wrapped : n % (256 * 256 ^ k : Nat) = n + (256 * 256 ^ k : Nat) := by
        rw [← Int.add_emod_right, Int.emod_eq_of_lt (by omega) (by omega)]
      rw [wrapped, if_pos (by omega)]
      omega

/-- The first octet is redundant if the first nine bits are equal. -/
theorem width_signedValue_le_iff (first second : UInt8) (rest : Octets) :
    width (signedValue (first :: second :: rest)) ≤ rest.length + 1 ↔
      first.toNat * 256 + second.toNat < 128 ∨ 65408 ≤ first.toNat * 256 + second.toNat := by
  have below := Octets.toNat_lt rest
  have firstSmall := first.toNat_lt
  have secondSmall := second.toNat_lt
  have whole : Octets.toNat (first :: second :: rest) =
      (first.toNat * 256 + second.toNat) * 256 ^ rest.length + Octets.toNat rest := by
    rw [Octets.toNat_cons, Octets.toNat_cons, List.length_cons, Nat.pow_succ', Nat.add_mul,
      ← Nat.mul_assoc, Nat.add_assoc]
  have value := signedValue_cons first (second :: rest)
  rw [whole, List.length_cons, Nat.pow_succ'] at value
  have leadSmall : first.toNat * 256 + second.toNat ≤ 65535 := by omega
  rw [width_le_iff, value]
  generalize first.toNat * 256 + second.toNat = lead at leadSmall
  constructor
  · intro range
    refine Decidable.byContradiction ?_
    intro neither
    have lower := Nat.mul_le_mul_right (256 ^ rest.length) (show 128 ≤ lead by omega)
    have upper := Nat.mul_le_mul_right (256 ^ rest.length) (show lead ≤ 65407 by omega)
    split at range <;> omega
  · rintro (low | high)
    · have upper := Nat.mul_le_mul_right (256 ^ rest.length) (show lead ≤ 127 by omega)
      split <;> omega
    · have lower := Nat.mul_le_mul_right (256 ^ rest.length) high
      have upper := Nat.mul_le_mul_right (256 ^ rest.length) leadSmall
      split <;> omega

/-- Content is minimal if it is not empty and as wide as its value needs. -/
theorem check_eq_ok_iff (octets : Octets) :
    check octets = .ok () ↔ octets ≠ [] ∧ width (signedValue octets) = octets.length := by
  match octets with
  | [] => simp [check]
  | [first] =>
    have narrow := (width_le_iff _ 0).mpr (signedValue_mem_range first [])
    have positive : 0 < width (signedValue [first]) := Nat.succ_pos _
    simp only [check, ne_eq, List.cons_ne_nil, not_false_eq_true, true_and, List.length_cons, List.length_nil,
      true_iff]
    omega
  | first :: second :: rest =>
    have narrow := (width_le_iff _ (rest.length + 1)).mpr (signedValue_mem_range first (second :: rest))
    have redundant : (first = 0 ∧ second.toNat < 128 ∨ first = 255 ∧ 128 ≤ second.toNat) ↔
        first.toNat * 256 + second.toNat < 128 ∨ 65408 ≤ first.toNat * 256 + second.toNat := by
      have firstSmall := first.toNat_lt
      have secondSmall := second.toNat_lt
      have zero : first = 0 ↔ first.toNat = 0 := UInt8.toNat_inj.symm
      have ones : first = 255 ↔ first.toNat = 255 := UInt8.toNat_inj.symm
      rw [zero, ones]
      omega
    rw [← width_signedValue_le_iff first second rest] at redundant
    simp only [check, ne_eq, List.cons_ne_nil, not_false_eq_true, true_and, List.length_cons]
    by_cases short : first = 0 ∧ second.toNat < 128 ∨ first = 255 ∧ 128 ≤ second.toNat
    · have fewer := redundant.mp short
      simp only [if_pos short, reduceCtorEq, false_iff]
      omega
    · have notFewer : ¬ width (signedValue (first :: second :: rest)) ≤ rest.length + 1 :=
        fun fewer => short (redundant.mpr fewer)
      simp only [if_neg short, true_iff]
      omega

@[simp] theorem length_encode (n : Int) : (encode n).length = width n :=
  Octets.length_ofNat _ _

theorem signedValue_encode (n : Int) : signedValue (encode n) = n := by
  obtain ⟨lower, upper⟩ := (width_le_iff n (width n - 1)).mp (by omega)
  exact signedValue_ofNat lower upper

/-- Every integer is read back from its content. -/
theorem decode_encode (n : Int) : decode (encode n) = .ok n := by
  have value := signedValue_encode n
  have minimal : check (encode n) = .ok () := by
    rw [check_eq_ok_iff, value, length_encode]
    refine ⟨fun none => ?_, rfl⟩
    have length := congrArg List.length none
    rw [length_encode] at length
    cases length
  rw [decode, minimal, value]
  rfl

/-- Content that is read is the content of the integer. -/
theorem encode_of_decode {octets : Octets} {n : Int} (read : decode octets = .ok n) : encode n = octets := by
  rw [decode] at read
  cases checked : check octets with
  | error fault => rw [checked] at read; cases read
  | ok done =>
    rw [checked] at read
    injection read with same
    obtain ⟨some, wide⟩ := (check_eq_ok_iff octets).mp checked
    cases octets with
    | nil => exact absurd rfl some
    | cons first rest =>
      rw [← same, encode, wide, List.length_cons, signedValue_emod]
      exact Octets.ofNat_toNat (first :: rest)

/-- A magnitude of a single octet, or one without a leading zero. -/
def Minimal (magnitude : Octets) : Prop :=
  magnitude ≠ [] ∧ (magnitude.length = 1 ∨ magnitude.head? ≠ some 0)

theorem minimal_trim (octets : Octets) : Minimal (trim octets) := by
  fun_induction trim octets with
  | case1 => exact ⟨by simp, Or.inl rfl⟩
  | case2 octet => exact ⟨by simp, Or.inl rfl⟩
  | case3 second rest ih => exact ih
  | case4 first second rest nonzero => exact ⟨by simp, Or.inr (by simpa using nonzero)⟩

/-- Leading zeros are dropped, and nothing else. No octets at all become a zero. -/
theorem suffix_trim (octets : Octets) : (∃ front, front ++ trim octets = octets) ∨ octets = [] := by
  fun_induction trim octets with
  | case1 => exact Or.inr rfl
  | case2 octet => exact Or.inl ⟨[], rfl⟩
  | case3 second rest ih =>
    obtain ⟨front, whole⟩ | none := ih
    · exact Or.inl ⟨0 :: front, congrArg (List.cons 0) whole⟩
    · cases none
  | case4 first second rest nonzero => exact Or.inl ⟨[], rfl⟩

theorem Minimal.trim_eq {magnitude : Octets} (minimal : Minimal magnitude) : trim magnitude = magnitude := by
  match magnitude with
  | [] => exact absurd rfl minimal.1
  | [octet] => rfl
  | first :: second :: rest =>
    rcases minimal.2 with single | nonzero
    · simp at single
    · have lead : first ≠ 0 := by simpa using nonzero
      rw [trim, if_neg lead]

/-- A minimal magnitude with its sign octet is the content of a non-negative integer. -/
theorem Minimal.checkUnsigned {magnitude : Octets} (minimal : Minimal magnitude) :
    checkUnsigned (signOctets magnitude ++ magnitude) = .ok () ∧
      (signOctets magnitude ++ magnitude).drop (signWidth (signOctets magnitude ++ magnitude)) = magnitude := by
  match magnitude with
  | [] => exact absurd rfl minimal.1
  | first :: rest =>
    by_cases high : startsHigh (first :: rest) = true
    · have large : 128 ≤ first.toNat := by simpa [startsHigh] using high
      have kept : check (0 :: first :: rest) = .ok () := by
        simp [check, Nat.not_lt.mpr large]
      have sign : signOctets (first :: rest) = [0] := if_pos high
      have low : startsHigh (0 :: first :: rest) = false := rfl
      rw [sign, List.singleton_append, Integer.checkUnsigned, kept, low]
      exact ⟨rfl, by simp [signWidth]⟩
    · have small : first.toNat < 128 := by simpa [startsHigh] using high
      have kept : check (first :: rest) = .ok () := by
        cases rest with
        | nil => rfl
        | cons second more =>
          have nonzero : first ≠ 0 := by simpa using minimal.2
          have notOnes : first ≠ 255 := by
            intro same
            subst same
            exact absurd small (by decide)
          simp [check, nonzero, notOnes]
      have noSign : signWidth (first :: rest) = 0 := by
        refine if_neg ?_
        intro parts
        obtain ⟨several, zero⟩ := parts
        rcases minimal.2 with single | nonzero
        · exact absurd several (by rw [single]; decide)
        · exact nonzero zero
      have sign : signOctets (first :: rest) = [] := if_neg high
      have low : startsHigh (first :: rest) = false := by simpa using high
      rw [sign, List.nil_append, Integer.checkUnsigned, kept, low, noSign]
      exact ⟨rfl, rfl⟩

/-- The content of a non-negative integer is a minimal magnitude with its sign octet. -/
theorem minimal_of_checkUnsigned {octets : Octets} (read : checkUnsigned octets = .ok ()) :
    Minimal (octets.drop (signWidth octets)) ∧
      signOctets (octets.drop (signWidth octets)) ++ octets.drop (signWidth octets) = octets := by
  rw [checkUnsigned] at read
  cases checked : check octets with
  | error fault => rw [checked] at read; cases read
  | ok done =>
    rw [checked] at read
    simp only [bind, Except.bind] at read
    have low : startsHigh octets = false := by
      cases high : startsHigh octets with
      | true => rw [high] at read; cases read
      | false => rfl
    match octets with
    | [] => cases checked
    | [octet] => exact ⟨⟨by simp [signWidth], Or.inl (by simp [signWidth])⟩, by simp [signWidth, signOctets, low]⟩
    | first :: second :: rest =>
      by_cases zero : first = 0
      · subst zero
        have large : 128 ≤ second.toNat := by
          refine Nat.not_lt.mp ?_
          intro small
          simp [check, small] at checked
        have nonzero : second ≠ 0 := by
          intro same
          subst same
          exact absurd large (by decide)
        have sign : signWidth (0 :: second :: rest) = 1 := by simp [signWidth]
        rw [sign]
        exact ⟨⟨by simp, Or.inr (by simpa using nonzero)⟩, by simp [signOctets, startsHigh, large]⟩
      · have sign : signWidth (first :: second :: rest) = 0 := by simp [signWidth, zero]
        rw [sign]
        exact ⟨⟨by simp, Or.inr (by simpa using zero)⟩, by simp [signOctets, low]⟩

/-- Redundant zeros do not count. -/
theorem toNat_trim (octets : Octets) : Octets.toNat (trim octets) = Octets.toNat octets := by
  fun_induction trim octets with
  | case1 => rfl
  | case2 octet => rfl
  | case3 second rest ih =>
    have zero : (0 : UInt8).toNat = 0 := rfl
    rw [ih, Octets.toNat_cons 0, zero, Nat.zero_mul, Nat.zero_add]
  | case4 first second rest nonzero => rfl

/-- A minimal magnitude has as many octets as its number takes. -/
theorem Minimal.width_eq {magnitude : Octets} (minimal : Minimal magnitude) :
    Octets.width (Octets.toNat magnitude) = magnitude.length := by
  rcases minimal.2 with single | nonzero
  · have small := Octets.toNat_lt magnitude
    rw [single] at small ⊢
    have narrow := (Octets.width_le_iff Nat.one_pos).mpr small
    have positive : 0 < Octets.width (Octets.toNat magnitude) := Nat.succ_pos _
    omega
  · exact Octets.width_toNat_of_head? minimal.1 nonzero

/-- Without redundant zeros, a magnitude is the octets of its number in the fewest octets. -/
theorem trim_eq_ofNat (octets : Octets) :
    trim octets = Octets.ofNat (Octets.width (Octets.toNat octets)) (Octets.toNat octets) := by
  rw [← toNat_trim octets, (minimal_trim octets).width_eq, Octets.ofNat_toNat]

/-- The content of a non-negative integer is its magnitude without redundant zeros, after the sign octet. -/
theorem signOctets_append_trim (octets : Octets) :
    signOctets (trim octets) ++ trim octets = encode (Octets.toNat octets) := by
  have value : signedValue (signOctets (trim octets) ++ trim octets) = Octets.toNat octets := by
    rw [← toNat_trim octets]
    by_cases high : startsHigh (trim octets) = true
    · have zero : (0 : UInt8).toNat = 0 := rfl
      have low : startsHigh (0 :: trim octets) = false := rfl
      rw [signOctets, if_pos high, List.singleton_append, signedValue, low, Octets.toNat_cons, zero, Nat.zero_mul,
        Nat.zero_add]
      rfl
    · rw [signOctets, if_neg high, List.nil_append, signedValue, if_neg high]
  have unsigned := (minimal_trim octets).checkUnsigned.1
  rw [checkUnsigned] at unsigned
  cases checked : check (signOctets (trim octets) ++ trim octets) with
  | error fault =>
    rw [checked] at unsigned
    cases unsigned
  | ok done =>
    refine (encode_of_decode ?_).symm
    rw [decode, checked, value]
    rfl

end Der.Content.Integer
