import Mathlib.Algebra.Order.Ring.Nat
import Mathlib.Data.List.Induction
import Der.Number.Text

namespace Der.Digits

theorem toNat_eq (digits : List Char) : toNat digits = Nat.ofDigitChars 10 digits 0 := by
  simp only [toNat, Nat.ofDigitChars_eq_foldl, Nat.mul_comm 10]

theorem toNat_append_singleton (digits : List Char) (c : Char) :
    toNat (digits ++ [c]) = toNat digits * 10 + (c.toNat - '0'.toNat) := by
  rw [toNat, List.foldl_append]
  rfl

theorem toNat_ofNat (width n : Nat) : toNat (ofNat width n) = n := by
  rw [toNat_eq, ofNat, Nat.ofDigitChars_append, Nat.ofDigitChars_replicate_zero, Nat.mul_zero,
    Nat.ofDigitChars_ten_toDigits]

theorem length_ofNat {width n : Nat} (some : 0 < width) (fits : n < 10 ^ width) :
    (ofNat width n).length = width := by
  have few := (Nat.length_toDigits_le_iff (by omega) some).mpr fits
  rw [ofNat, List.length_append, List.length_replicate]
  omega

theorem isDigit_of_mem_ofNat {width n : Nat} {c : Char} (member : c ∈ ofNat width n) : c.isDigit = true := by
  rcases List.mem_append.mp member with zero | digit
  · rw [List.eq_of_mem_replicate zero]
    rfl
  · exact Nat.isDigit_of_mem_toDigits (by omega) (by omega) digit

theorem ofNat_succ (width n : Nat) :
    ofNat (width + 2) n = ofNat (width + 1) (n / 10) ++ [Nat.digitChar (n % 10)] := by
  by_cases small : n < 10
  · rw [ofNat, ofNat, Nat.toDigits_of_lt_base small, Nat.div_eq_of_lt small, Nat.mod_eq_of_lt small,
      Nat.toDigits_zero, ← List.replicate_succ']
    rfl
  · rw [ofNat, ofNat, Nat.toDigits_of_base_le (by omega) (Nat.not_lt.mp small), List.length_append,
      ← List.append_assoc]
    congr 3
    simp only [List.length_singleton]
    omega

theorem digitChar_of_isDigit {c : Char} (digit : c.isDigit = true) :
    c.toNat - '0'.toNat < 10 ∧ Nat.digitChar (c.toNat - '0'.toNat) = c := by
  obtain ⟨lower, upper⟩ := Char.isDigit_iff_toNat.mp digit
  have zero : '0'.toNat = 48 := rfl
  have nine : '9'.toNat = 57 := rfl
  have below : c.toNat - '0'.toNat < 10 := by omega
  refine ⟨below, Char.toNat_inj.mp ?_⟩
  rw [Nat.toNat_digitChar_of_lt_ten below]
  omega

theorem ofNat_toNat {digits : List Char} (some : digits ≠ []) (all : ∀ c ∈ digits, c.isDigit = true) :
    ofNat digits.length (toNat digits) = digits := by
  induction digits using List.reverseRecOn with
  | nil => exact absurd rfl some
  | append_singleton digits c ih =>
    obtain ⟨below, back⟩ := digitChar_of_isDigit (all c (by simp))
    rw [toNat_append_singleton, List.length_append, List.length_singleton]
    cases digits with
    | nil =>
      simp only [toNat, List.foldl_nil, Nat.zero_mul, Nat.zero_add, List.length_nil, List.nil_append]
      rw [ofNat, Nat.toDigits_of_lt_base below, back]
      rfl
    | cons first rest =>
      have shorter := ih (List.cons_ne_nil _ _) fun d member => all d (List.mem_append_left _ member)
      have quotient : (toNat (first :: rest) * 10 + (c.toNat - '0'.toNat)) / 10 = toNat (first :: rest) := by
        omega
      have residue : (toNat (first :: rest) * 10 + (c.toNat - '0'.toNat)) % 10 = c.toNat - '0'.toNat := by
        omega
      rw [List.length_cons, ofNat_succ, quotient, residue, back, ← List.length_cons (a := first), shorter]

theorem toNat_lt {digits : List Char} (all : ∀ c ∈ digits, c.isDigit = true) :
    toNat digits < 10 ^ digits.length := by
  induction digits using List.reverseRecOn with
  | nil => exact Nat.one_pos
  | append_singleton digits c ih =>
    have below := (digitChar_of_isDigit (all c (by simp))).1
    have shorter := ih fun d member => all d (List.mem_append_left _ member)
    rw [toNat_append_singleton, List.length_append, List.length_singleton, Nat.pow_succ]
    omega

theorem head?_toDigits {n : Nat} (positive : 0 < n) : (Nat.toDigits 10 n).head? ≠ some '0' := by
  induction n using Nat.strongRecOn with
  | ind n ih =>
    rw [Nat.toDigits_eq_if (by omega)]
    split
    · intro zero
      have same : Nat.digitChar n = '0' := by simpa using zero
      rw [Nat.digitChar_eq_zero] at same
      omega
    · intro zero
      rw [List.head?_append] at zero
      cases first : (Nat.toDigits 10 (n / 10)).head? with
      | none => exact absurd (List.head?_eq_none_iff.mp first) Nat.toDigits_ne_nil
      | some c =>
        rw [first, Option.some_or] at zero
        exact ih (n / 10) (by omega) (by omega) (first.trans zero)

end Der.Digits
