import Mathlib.Algebra.Order.Ring.Nat
import Mathlib.Data.List.Induction
import Der.Octets

namespace Der

/-- How many digits of so many bits a number takes. One digit is taken even by zero. -/
theorem log2_div_lt_iff {n bits count : Nat} (someBits : 0 < bits) (someDigits : 0 < count) :
    n.log2 / bits < count ↔ n < 2 ^ (bits * count) := by
  rw [Nat.div_lt_iff_lt_mul someBits, Nat.mul_comm count]
  by_cases zero : n = 0
  · subst zero
    have digits : 0 < bits * count := Nat.mul_pos someBits someDigits
    simpa [Nat.log2_zero, Nat.two_pow_pos] using digits
  · exact Nat.log2_lt zero

theorem log2_div_eq {n bits count : Nat} (someBits : 0 < bits) (lower : 2 ^ (bits * count) ≤ n)
    (upper : n < 2 ^ (bits * (count + 1))) : n.log2 / bits = count := by
  have narrow := (log2_div_lt_iff someBits (Nat.succ_pos count)).mpr upper
  have wide : ¬ n.log2 / bits < count := by
    intro less
    exact Nat.not_lt.mpr lower ((log2_div_lt_iff someBits (Nat.zero_lt_of_lt less)).mp less)
  omega

namespace Octets

theorem width_le_iff {n count : Nat} (someDigits : 0 < count) : width n ≤ count ↔ n < 256 ^ count := by
  have digits := log2_div_lt_iff (n := n) (by omega : 0 < 8) someDigits
  rw [Nat.pow_mul] at digits
  exact digits

theorem lt_pow_width (n : Nat) : n < 256 ^ width n :=
  (width_le_iff (Nat.succ_pos _)).mp (Nat.le_refl _)

theorem width_eq_of_bounds {n count : Nat} (lower : 256 ^ count ≤ n) (upper : n < 256 ^ (count + 1)) :
    width n = count + 1 := by
  have digits := log2_div_eq (n := n) (by omega : 0 < 8) (by rwa [Nat.pow_mul]) (by rwa [Nat.pow_mul])
  rw [width, digits]

@[simp] theorem length_ofNat (count n : Nat) : (ofNat count n).length = count := by
  induction count generalizing n with
  | zero => rfl
  | succ count ih => simp [ofNat, ih]

/-- The octets of a number, read from the front. -/
theorem ofNat_succ (count n : Nat) : ofNat (count + 1) n = UInt8.ofNat (n / 256 ^ count) :: ofNat count n := by
  induction count generalizing n with
  | zero => simp [ofNat]
  | succ count ih =>
    have front := ih (n / 256)
    rw [Nat.div_div_eq_div_mul, ← Nat.pow_succ'] at front
    rw [ofNat, front, List.cons_append]
    rfl

@[simp] theorem toNat_append_singleton (octets : Octets) (octet : UInt8) :
    toNat (octets ++ [octet]) = toNat octets * 256 + octet.toNat := by
  simp [toNat, List.foldl_append]

theorem toNat_append (high low : Octets) :
    toNat (high ++ low) = toNat high * 256 ^ low.length + toNat low := by
  induction low using List.reverseRecOn with
  | nil => simp [toNat]
  | append_singleton low octet ih =>
    rw [← List.append_assoc, toNat_append_singleton, ih, toNat_append_singleton, List.length_append,
      List.length_singleton, Nat.pow_succ, Nat.add_mul, Nat.mul_assoc, Nat.add_assoc]

theorem toNat_cons (first : UInt8) (rest : Octets) :
    toNat (first :: rest) = first.toNat * 256 ^ rest.length + toNat rest := by
  simpa [toNat] using toNat_append [first] rest

theorem toNat_lt (octets : Octets) : toNat octets < 256 ^ octets.length := by
  induction octets using List.reverseRecOn with
  | nil => simp [toNat]
  | append_singleton octets octet ih =>
    have small := octet.toNat_lt
    simp only [toNat_append_singleton, List.length_append, List.length_singleton, Nat.pow_succ]
    omega

theorem toNat_ofNat (count n : Nat) : toNat (ofNat count n) = n % 256 ^ count := by
  induction count generalizing n with
  | zero => simp [ofNat, toNat, Nat.mod_one]
  | succ count ih =>
    have octet : (UInt8.ofNat n).toNat = n % 256 := UInt8.toNat_ofNat'
    rw [ofNat, toNat_append_singleton, ih, octet, Nat.pow_succ, Nat.mul_comm (256 ^ count), Nat.mod_mul]
    omega

/-- The octets of a number in a count of octets that holds it denote the number. -/
theorem toNat_ofNat_of_lt {count n : Nat} (holds : n < 256 ^ count) : toNat (ofNat count n) = n := by
  rw [toNat_ofNat, Nat.mod_eq_of_lt holds]

theorem ofNat_toNat (octets : Octets) : ofNat octets.length (toNat octets) = octets := by
  induction octets using List.reverseRecOn with
  | nil => rfl
  | append_singleton octets octet ih =>
    have small := octet.toNat_lt
    have high : (toNat octets * 256 + octet.toNat) / 256 = toNat octets := by omega
    have low : UInt8.ofNat (toNat octets * 256 + octet.toNat) = octet := by
      refine UInt8.toNat_inj.mp ?_
      rw [UInt8.toNat_ofNat']
      omega
    rw [List.length_append, List.length_singleton, ofNat, toNat_append_singleton, high, low, ih]

/-- A number that leads with a nonzero octet takes all the octets. -/
theorem width_toNat {first : UInt8} {rest : Octets} (nonzero : first ≠ 0) :
    width (toNat (first :: rest)) = rest.length + 1 := by
  have positive : 0 < first.toNat := by
    have different : first.toNat ≠ (0 : UInt8).toNat := fun same => nonzero (UInt8.toNat_inj.mp same)
    exact Nat.pos_of_ne_zero different
  apply width_eq_of_bounds
  · rw [toNat_cons]
    exact Nat.le_add_right_of_le (Nat.le_mul_of_pos_left _ positive)
  · exact toNat_lt (first :: rest)

/-- Octets that do not begin with zero are as many as their number takes. -/
theorem width_toNat_of_head? {octets : Octets} (some : octets ≠ []) (unpadded : octets.head? ≠ Option.some 0) :
    width (toNat octets) = octets.length := by
  cases octets with
  | nil => exact absurd rfl some
  | cons first rest =>
    refine width_toNat ?_
    intro same
    subst same
    exact unpadded rfl

/-- The octets of a number do not begin with zero, unless the number is zero. -/
theorem head?_ofNat_width {n : Nat} (positive : 0 < n) (rest : Octets) : (ofNat (width n) n ++ rest).head? ≠ some 0 := by
  obtain ⟨k, digits⟩ : ∃ k, width n = k + 1 := ⟨n.log2 / 8, rfl⟩
  have upper : n / 256 ^ k < 256 := by
    rw [Nat.div_lt_iff_lt_mul (Nat.pow_pos (by omega)), ← Nat.pow_succ']
    simpa only [digits] using lt_pow_width n
  have lower : 0 < n / 256 ^ k := by
    apply Nat.div_pos _ (Nat.pow_pos (by omega))
    cases k with
    | zero => rwa [Nat.pow_zero]
    | succ j =>
      refine Nat.not_lt.mp ?_
      intro small
      have fewer := (width_le_iff (Nat.succ_pos j)).mpr small
      omega
  rw [digits, ofNat_succ, List.cons_append, List.head?_cons]
  intro zero
  have value := congrArg UInt8.toNat (Option.some.inj zero)
  rw [UInt8.toNat_ofNat_of_lt' (by simp only [UInt8.size]; omega)] at value
  exact Nat.ne_of_gt lower value

@[simp] theorem length_between (octets : Octets) (start stop : Nat) :
    (octets.between start stop).length = min stop octets.length - start := by
  simp [between]

theorem compare_neg (a b : Octets) : compare b a = -compare a b := by
  induction a generalizing b with
  | nil => cases b <;> simp [compare]
  | cons first rest ih =>
    cases b with
    | nil => simp [compare]
    | cons other tail =>
      by_cases same : first = other
      · subst same
        simpa [compare] using ih tail
      · have swapped : other ≠ first := fun equal => same equal.symm
        simp only [compare, same, swapped, if_false]
        omega

theorem compare_nil_le (octets : Octets) : compare [] octets ≤ 0 := by
  cases octets with
  | nil => exact Int.le_refl 0
  | cons first rest => simp only [compare, List.length_nil, List.length_cons]; omega

theorem compare_le_total (a b : Octets) : compare a b ≤ 0 ∨ compare b a ≤ 0 := by
  rw [compare_neg a b]
  omega

theorem compare_le_trans {a b c : Octets} (first : compare a b ≤ 0) (second : compare b c ≤ 0) :
    compare a c ≤ 0 := by
  induction a generalizing b c with
  | nil => exact compare_nil_le c
  | cons x xs ih =>
    cases b with
    | nil => simp [compare] at first; omega
    | cons y ys =>
      cases c with
      | nil => simp [compare] at second; omega
      | cons z zs =>
        have least : x.toNat ≤ y.toNat := by
          by_cases same : x = y
          · exact Nat.le_of_eq (congrArg UInt8.toNat same)
          · simp only [compare, same, if_false] at first
            omega
        have next : y.toNat ≤ z.toNat := by
          by_cases same : y = z
          · exact Nat.le_of_eq (congrArg UInt8.toNat same)
          · simp only [compare, same, if_false] at second
            omega
        by_cases same : x = z
        · have middle : x = y := UInt8.toNat_inj.mp (by rw [same] at least ⊢; omega)
          subst middle
          subst same
          simp only [compare, if_true] at first second ⊢
          exact ih first second
        · simp only [compare, same, if_false]
          omega

theorem compare_le_antisymm {a b : Octets} (first : compare a b ≤ 0) (second : compare b a ≤ 0) : a = b := by
  induction a generalizing b with
  | nil =>
    cases b with
    | nil => rfl
    | cons y ys =>
      simp only [compare, List.length_cons, List.length_nil] at second
      omega
  | cons x xs ih =>
    cases b with
    | nil =>
      simp only [compare, List.length_cons, List.length_nil] at first
      omega
    | cons y ys =>
      by_cases same : x = y
      · subst same
        simp only [compare, if_true] at first second
        rw [ih first second]
      · have swapped : ¬ y = x := fun equal => same equal.symm
        simp only [compare, same, swapped, if_false] at first second
        have equal : x.toNat = y.toNat := by omega
        exact absurd (UInt8.toNat_inj.mp equal) same

theorem sort_pairwise (strings : List Octets) :
    (sort strings).Pairwise fun a b => compare a b ≤ 0 := by
  have trans : ∀ a b c : Octets, decide (compare a b ≤ 0) = true → decide (compare b c ≤ 0) = true →
      decide (compare a c ≤ 0) = true := by
    intro a b c first second
    rw [decide_eq_true_eq] at first second ⊢
    exact compare_le_trans first second
  have total : ∀ a b : Octets, (decide (compare a b ≤ 0) || decide (compare b a ≤ 0)) = true := by
    intro a b
    simpa using compare_le_total a b
  simpa only [sort, decide_eq_true_eq] using List.pairwise_mergeSort trans total strings

/-- Strings have one order only in which they do not descend. -/
theorem eq_sort_of_perm {strings ordered : List Octets} (same : ordered.Perm strings)
    (ascending : ordered.Pairwise fun a b => compare a b ≤ 0) : ordered = sort strings := by
  have both : ordered.Perm (sort strings) := same.trans (List.mergeSort_perm strings _).symm
  exact both.eq_of_pairwise (fun a b _ _ => compare_le_antisymm) ascending (sort_pairwise strings)

/-- The sort leaves strings that are in order as they are. -/
theorem sort_of_pairwise {strings : List Octets} (ordered : strings.Pairwise fun a b => compare a b ≤ 0) :
    sort strings = strings :=
  List.mergeSort_of_pairwise (by simpa only [decide_eq_true_eq] using ordered)

end Octets

end Der
