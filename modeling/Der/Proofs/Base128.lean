import Der.Base128
import Der.Proofs.Octets

namespace Der.Base128

theorem width_le_iff {n count : Nat} (someDigits : 0 < count) : width n ≤ count ↔ n < 128 ^ count := by
  have digits := log2_div_lt_iff (n := n) (by omega : 0 < 7) someDigits
  rw [Nat.pow_mul] at digits
  exact digits

theorem lt_pow_width (n : Nat) : n < 128 ^ width n :=
  (width_le_iff (Nat.succ_pos _)).mp (Nat.le_refl _)

theorem width_eq_of_bounds {n count : Nat} (lower : 128 ^ count ≤ n) (upper : n < 128 ^ (count + 1)) :
    width n = count + 1 := by
  have digits := log2_div_eq (n := n) (by omega : 0 < 7) (by rwa [Nat.pow_mul]) (by rwa [Nat.pow_mul])
  rw [width, digits]

theorem width_of_small {n : Nat} (small : n < 128) : width n = 1 := by
  have narrow := (width_le_iff (n := n) Nat.one_pos).mpr (by rwa [Nat.pow_one])
  exact Nat.le_antisymm narrow (Nat.succ_pos _)

@[simp] theorem length_leading (count n : Nat) : (leading count n).length = count := by
  induction count generalizing n with
  | zero => rfl
  | succ count ih => simp [leading, ih]

@[simp] theorem length_encode (n : Nat) : (encode n).length = width n := by
  simp [encode, width]

/-- The groups above the last one, read from the front. -/
theorem leading_succ (count n : Nat) :
    leading (count + 1) n = UInt8.ofNat (128 + n / 128 ^ count % 128) :: leading count n := by
  induction count generalizing n with
  | zero => simp [leading]
  | succ count ih =>
    have front := ih (n / 128)
    rw [Nat.div_div_eq_div_mul, ← Nat.pow_succ'] at front
    rw [leading, front, List.cons_append]
    rfl

/-- Only as many groups of the number matter as are written. -/
theorem leading_add_mul (count n high : Nat) :
    leading count (high * 128 ^ count + n) = leading count n := by
  induction count generalizing n with
  | zero => rfl
  | succ count ih =>
    have shifted : high * 128 ^ (count + 1) + n = high * 128 ^ count * 128 + n := by
      rw [Nat.pow_succ, Nat.mul_assoc]
    have quotient : (high * 128 ^ (count + 1) + n) / 128 = high * 128 ^ count + n / 128 := by omega
    have remainder : (high * 128 ^ (count + 1) + n) % 128 = n % 128 := by omega
    rw [leading, leading, quotient, remainder, ih]

theorem groups_last {limit sofar low : Nat} {rest : Octets} (small : low < 128)
    (bound : sofar * 128 + low ≤ limit) :
    groups limit sofar (UInt8.ofNat low :: rest) = .ok (sofar * 128 + low, rest) := by
  have octet : (UInt8.ofNat low).toNat = low := UInt8.toNat_ofNat_of_lt' (by simp only [UInt8.size]; omega)
  have fits : ¬ limit < sofar * 128 + low := by omega
  simp only [groups, octet, Nat.mod_eq_of_lt small, fits, small, if_true, if_false]

theorem groups_more {limit sofar low : Nat} {rest : Octets} (small : low < 128)
    (bound : sofar * 128 + low ≤ limit) :
    groups limit sofar (UInt8.ofNat (128 + low) :: rest) = groups limit (sofar * 128 + low) rest := by
  have octet : (UInt8.ofNat (128 + low)).toNat = 128 + low :=
    UInt8.toNat_ofNat_of_lt' (by simp only [UInt8.size]; omega)
  have value : (128 + low) % 128 = low := by omega
  have fits : ¬ limit < sofar * 128 + low := by omega
  have high : ¬ 128 + low < 128 := by omega
  simp only [groups, octet, value, fits, high, if_false]

theorem groups_leading {limit count sofar n : Nat} {rest : Octets}
    (bound : sofar * 128 ^ count + n % 128 ^ count ≤ limit) :
    groups limit sofar (leading count n ++ rest) =
      groups limit (sofar * 128 ^ count + n % 128 ^ count) rest := by
  induction count generalizing n rest with
  | zero => simp [leading, Nat.mod_one]
  | succ count ih =>
    have split : n % 128 ^ (count + 1) = n % 128 + 128 * (n / 128 % 128 ^ count) := by
      rw [Nat.pow_succ, Nat.mul_comm (128 ^ count), Nat.mod_mul]
    have whole : sofar * 128 ^ (count + 1) + n % 128 ^ (count + 1) =
        (sofar * 128 ^ count + n / 128 % 128 ^ count) * 128 + n % 128 := by
      rw [split, Nat.pow_succ, ← Nat.mul_assoc]
      omega
    rw [whole] at bound ⊢
    rw [leading, List.append_assoc, ih (by omega), List.singleton_append,
      groups_more (Nat.mod_lt n (by omega)) bound]

/-- Writing leaves no zero group in front. -/
theorem head?_encode (n : Nat) (rest : Octets) : (encode n ++ rest).head? ≠ some 128 := by
  unfold encode
  cases count : width n - 1 with
  | zero =>
    have small := Nat.mod_lt n (by omega : 0 < 128)
    simp only [leading, List.nil_append, List.cons_append, List.head?_cons, ne_eq, Option.some.injEq]
    intro same
    have value := congrArg UInt8.toNat same
    rw [UInt8.toNat_ofNat_of_lt' (by simp only [UInt8.size]; omega)] at value
    simp at value
    omega
  | succ k =>
    have upper : n < 128 ^ (k + 2) := by
      have total : width n = k + 2 := by omega
      exact total ▸ lt_pow_width n
    have lower : 128 ^ (k + 1) ≤ n := by
      refine Nat.not_lt.mp ?_
      intro small
      have narrow := (width_le_iff (Nat.succ_pos k)).mpr small
      omega
    have top : n / 128 / 128 ^ k = n / 128 ^ (k + 1) := by
      rw [Nat.div_div_eq_div_mul, Nat.pow_succ']
    have positive : 0 < n / 128 ^ (k + 1) := Nat.div_pos lower (Nat.pow_pos (by omega))
    have below : n / 128 ^ (k + 1) < 128 := by
      rw [Nat.div_lt_iff_lt_mul (Nat.pow_pos (by omega)), ← Nat.pow_succ']
      exact upper
    simp only [leading_succ, List.cons_append, List.head?_cons, ne_eq, Option.some.injEq, top,
      Nat.mod_eq_of_lt below]
    intro same
    have value := congrArg UInt8.toNat same
    rw [UInt8.toNat_ofNat_of_lt' (by simp only [UInt8.size]; omega)] at value
    simp at value
    omega

/-- Reading gives back the number that was written, whatever follows it. -/
theorem decode_encode {limit n : Nat} (bound : n ≤ limit) (rest : Octets) :
    decode limit (encode n ++ rest) = .ok (n, rest) := by
  have above : n / 128 < 128 ^ (width n - 1) := by
    have upper := lt_pow_width n
    have total : width n = width n - 1 + 1 := rfl
    rw [total, Nat.pow_succ] at upper
    exact Nat.div_lt_of_lt_mul (by omega)
  have value : 0 * 128 ^ (width n - 1) + n / 128 % 128 ^ (width n - 1) = n / 128 := by
    rw [Nat.mod_eq_of_lt above]
    omega
  have whole : n / 128 * 128 + n % 128 = n := by omega
  rw [decode, if_neg (head?_encode n rest), encode, List.append_assoc, groups_leading (by omega), value,
    List.singleton_append, groups_last (Nat.mod_lt n (by omega)) (by omega), whole]

/-- A group in front of the others. -/
theorem leading_lead {lead count low : Nat} (small : lead < 128) (bound : low < 128 ^ (count + 1)) :
    leading (count + 1) ((lead * 128 ^ (count + 1) + low) / 128) = UInt8.ofNat (128 + lead) :: leading count (low / 128) := by
  have top : (lead * 128 ^ (count + 1) + low) / 128 = lead * 128 ^ count + low / 128 := by
    rw [Nat.pow_succ, ← Nat.mul_assoc]
    omega
  have rest : low / 128 < 128 ^ count := Nat.div_lt_of_lt_mul (by rw [← Nat.pow_succ']; exact bound)
  have first : (lead * 128 ^ count + low / 128) / 128 ^ count % 128 = lead := by
    rw [Nat.mul_comm, Nat.mul_add_div (Nat.pow_pos (by omega)), Nat.div_eq_of_lt rest]
    omega
  rw [top, leading_succ, first, leading_add_mul]

/-- What is read is the groups of a number below the bound of their count, on top of those read before. -/
theorem groups_eq_ok {limit sofar n : Nat} {octets rest : Octets}
    (read : groups limit sofar octets = .ok (n, rest)) :
    n ≤ limit ∧ ∃ count low, low < 128 ^ (count + 1) ∧ n = sofar * 128 ^ (count + 1) + low ∧
      octets = leading count (low / 128) ++ UInt8.ofNat (low % 128) :: rest := by
  induction octets generalizing sofar with
  | nil => simp [groups] at read
  | cons octet tail ih =>
    have small := octet.toNat_lt
    rw [groups] at read
    split at read
    · contradiction
    · next fits =>
      split at read
      · next last =>
        injection read with pair
        injection pair with value same
        subst same
        have low : octet.toNat % 128 = octet.toNat := Nat.mod_eq_of_lt last
        refine ⟨by omega, 0, octet.toNat, by simpa using last, by simpa [low] using value.symm, ?_⟩
        simp [leading, low]
      · next more =>
        obtain ⟨bound, count, low, lowBound, value, shape⟩ := ih read
        have bottom : (octet.toNat % 128 * 128 ^ (count + 1) + low) % 128 = low % 128 := by
          rw [Nat.pow_succ, ← Nat.mul_assoc]
          omega
        have lead : octet.toNat % 128 < 128 := Nat.mod_lt _ (by omega)
        have first : UInt8.ofNat (128 + octet.toNat % 128) = octet := by
          refine UInt8.toNat_inj.mp ?_
          rw [UInt8.toNat_ofNat']
          omega
        refine ⟨bound, count + 1, octet.toNat % 128 * 128 ^ (count + 1) + low, ?_, ?_, ?_⟩
        · calc octet.toNat % 128 * 128 ^ (count + 1) + low
              < octet.toNat % 128 * 128 ^ (count + 1) + 128 ^ (count + 1) := by omega
            _ = (octet.toNat % 128 + 1) * 128 ^ (count + 1) := by rw [Nat.add_mul, Nat.one_mul]
            _ ≤ 128 * 128 ^ (count + 1) := Nat.mul_le_mul_right _ lead
            _ = 128 ^ (count + 1 + 1) := by rw [← Nat.pow_succ']
        · rw [value, Nat.add_mul, Nat.pow_succ' (n := count + 1), ← Nat.mul_assoc]
          omega
        · rw [bottom, leading_lead lead lowBound, first, shape, List.cons_append]

/-- What is read is what is written for the number, followed by what is left. -/
theorem eq_encode_of_decode {limit n : Nat} {octets rest : Octets}
    (read : decode limit octets = .ok (n, rest)) : n ≤ limit ∧ octets = encode n ++ rest := by
  rw [decode] at read
  split at read
  · contradiction
  · next unpadded =>
    obtain ⟨bound, count, low, lowBound, value, shape⟩ := groups_eq_ok read
    have same : n = low := by omega
    subst same
    have digits : width n = count + 1 := by
      cases count with
      | zero => exact width_of_small (by simpa using lowBound)
      | succ k =>
        apply width_eq_of_bounds _ lowBound
        apply Nat.not_lt.mp
        intro short
        have zero : n / 128 / 128 ^ k = 0 := by
          rw [Nat.div_div_eq_div_mul, ← Nat.pow_succ']
          exact Nat.div_eq_of_lt short
        refine unpadded ?_
        rw [shape, leading_succ, zero]
        rfl
    refine ⟨bound, ?_⟩
    rw [encode, digits, shape]
    simp

end Der.Base128
