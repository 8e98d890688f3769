import Mathlib.Algebra.Order.Ring.Nat
import Der.Calendar

namespace Der

namespace Calendar

theorem daysBeforeYear_succ (year : Int) :
    daysBeforeYear (year + 1) = daysBeforeYear year + (monthLengths (isLeap year)).sum := by
  have leapSum : (monthLengths true).sum = 366 := rfl
  have commonSum : (monthLengths false).sum = 365 := rfl
  cases leap : isLeap year with
  | true =>
    simp only [isLeap, Bool.and_eq_true, Bool.or_eq_true, decide_eq_true_eq] at leap
    rw [leapSum, daysBeforeYear, daysBeforeYear]
    omega
  | false =>
    simp only [isLeap, Bool.and_eq_false_iff, Bool.or_eq_false_iff, decide_eq_false_iff_not] at leap
    rw [commonSum, daysBeforeYear, daysBeforeYear]
    omega

theorem daysBeforeYear_mono {year later : Int} (before : year ≤ later) :
    daysBeforeYear year ≤ daysBeforeYear later := by
  rcases Int.lt_or_eq_of_le before with less | rfl
  · unfold daysBeforeYear
    omega
  · exact Int.le_refl _

/-- The first guess is off by one at most, so that the year found is the year of the day. -/
theorem yearOf_bounds (days : Int) :
    daysBeforeYear (yearOf days) ≤ days ∧ days < daysBeforeYear (yearOf days + 1) := by
  have low : daysBeforeYear (days * 400 / 146097 - 1) ≤ days := by
    unfold daysBeforeYear
    omega
  have high : days < daysBeforeYear (days * 400 / 146097 + 1 + 1) := by
    unfold daysBeforeYear
    omega
  unfold yearOf
  by_cases early : days < daysBeforeYear (days * 400 / 146097)
  · simp only [if_pos early]
    rw [Int.sub_add_cancel]
    exact ⟨low, early⟩
  · by_cases late : daysBeforeYear (days * 400 / 146097 + 1) ≤ days
    · simp only [if_neg early, if_pos late]
      exact ⟨late, high⟩
    · simp only [if_neg early, if_neg late]
      omega

theorem yearOf_eq {year days : Int} (after : daysBeforeYear year ≤ days) (before : days < daysBeforeYear (year + 1)) :
    yearOf days = year := by
  obtain ⟨lower, upper⟩ := yearOf_bounds days
  rcases Int.lt_trichotomy (yearOf days) year with less | same | more
  · have mono := daysBeforeYear_mono (show yearOf days + 1 ≤ year from less)
    omega
  · exact same
  · have mono := daysBeforeYear_mono (show year + 1 ≤ yearOf days from more)
    omega

theorem length_monthLengths (leap : Bool) : (monthLengths leap).length = 12 := by
  cases leap <;> rfl

theorem daysBeforeMonth_eq (year : Int) (month : Nat) :
    daysBeforeMonth year month = ((monthLengths (isLeap year)).take (month - 1)).sum := by
  rw [daysBeforeMonth, List.sum_eq_foldl]

/-- Month and day are found where the months before them end. -/
theorem monthAndDay_eq {lengths : List Nat} {month day : Nat} (within : month < lengths.length) (real : 1 ≤ day)
    (bound : day ≤ lengths.getD month 0) :
    monthAndDay lengths ((lengths.take month).sum + day - 1) = (month + 1, day) := by
  induction lengths generalizing month with
  | nil => exact absurd within (Nat.not_lt_zero _)
  | cons length rest ih =>
    cases month with
    | zero =>
      have inside : ((length :: rest).take 0).sum + day - 1 < length := by
        rw [List.getD_cons_zero] at bound
        simp only [List.take_zero, List.sum_nil]
        omega
      rw [monthAndDay, if_pos inside]
      simp only [List.take_zero, List.sum_nil, Prod.mk.injEq, true_and]
      omega
    | succ month =>
      rw [List.getD_cons_succ] at bound
      have later := ih (Nat.lt_of_succ_lt_succ within) bound
      have outside : ¬ ((length :: rest).take (month + 1)).sum + day - 1 < length := by
        rw [List.take_succ_cons, List.sum_cons]
        omega
      have left : ((length :: rest).take (month + 1)).sum + day - 1 - length = (rest.take month).sum + day - 1 := by
        rw [List.take_succ_cons, List.sum_cons]
        omega
      rw [monthAndDay, if_neg outside, left, later]

theorem monthAndDay_spec {lengths : List Nat} {days : Nat} (within : days < lengths.sum) :
    ∃ month day, monthAndDay lengths days = (month + 1, day) ∧ month < lengths.length ∧ 1 ≤ day ∧
      day ≤ lengths.getD month 0 ∧ (lengths.take month).sum + day - 1 = days := by
  induction lengths generalizing days with
  | nil => exact absurd within (Nat.not_lt_zero _)
  | cons length rest ih =>
    by_cases inside : days < length
    · refine ⟨0, days + 1, by rw [monthAndDay, if_pos inside], Nat.succ_pos _, Nat.succ_pos _, inside, ?_⟩
      simp only [List.take_zero, List.sum_nil]
      omega
    · rw [List.sum_cons] at within
      obtain ⟨month, day, found, bound, real, fits, place⟩ := ih (show days - length < rest.sum by omega)
      refine ⟨month + 1, day, by rw [monthAndDay, if_neg inside, found], Nat.succ_lt_succ bound, real, fits, ?_⟩
      rw [List.take_succ_cons, List.sum_cons]
      omega

theorem take_sum_add_getD_le (lengths : List Nat) (month : Nat) :
    (lengths.take month).sum + lengths.getD month 0 ≤ lengths.sum := by
  induction lengths generalizing month with
  | nil => simp
  | cons length rest ih =>
    cases month with
    | zero => simp
    | succ month =>
      have later := ih month
      rw [List.getD_cons_succ, List.take_succ_cons, List.sum_cons, List.sum_cons]
      omega

end Calendar

namespace DateTime

open Calendar

theorem Valid.month_lt {t : DateTime} (valid : t.Valid) :
    t.month - 1 < (monthLengths (isLeap t.year)).length ∧
      t.day ≤ (monthLengths (isLeap t.year)).getD (t.month - 1) 0 := by
  obtain ⟨someMonth, lastMonth, _, lastDay, _⟩ := valid
  rw [length_monthLengths]
  rw [daysInMonth, if_neg (by omega)] at lastDay
  exact ⟨by omega, lastDay⟩

theorem Valid.before_next_year {t : DateTime} (valid : t.Valid) :
    daysBeforeYear t.year + daysBeforeMonth t.year t.month + t.day ≤ daysBeforeYear (t.year + 1) := by
  obtain ⟨_, bound⟩ := valid.month_lt
  have inside := take_sum_add_getD_le (monthLengths (isLeap t.year)) (t.month - 1)
  rw [daysBeforeYear_succ, daysBeforeMonth_eq]
  omega

/-- A valid date and time of day is found again from its milliseconds. -/
theorem Valid.ofMillis_toMillis {t : DateTime} (valid : t.Valid) : ofMillis t.toMillis = t := by
  obtain ⟨within, bound⟩ := valid.month_lt
  have last := valid.before_next_year
  obtain ⟨someMonth, _, someDay, _, hours, minutes, seconds, millis⟩ := valid
  have place := monthAndDay_eq within someDay bound
  rw [← daysBeforeMonth_eq] at place
  generalize days_eq : daysBeforeYear t.year + daysBeforeMonth t.year t.month + t.day - 1 - epoch = days
  have clock : ((t.hour * 60 + t.minute) * 60 + t.second) * 1000 + t.milli < 86400000 := by omega
  have total : t.toMillis = days * dayLength +
      (((t.hour * 60 + t.minute) * 60 + t.second) * 1000 + t.milli : Nat) := by
    rw [toMillis, days_eq]
  have quotient : t.toMillis / dayLength = days := by
    rw [total, dayLength]
    omega
  have residue : (t.toMillis % dayLength).toNat = ((t.hour * 60 + t.minute) * 60 + t.second) * 1000 + t.milli := by
    rw [total, dayLength]
    omega
  have year : yearOf (days + epoch) = t.year := by
    apply yearOf_eq <;> omega
  have day : (days + epoch - daysBeforeYear t.year).toNat = daysBeforeMonth t.year t.month + t.day - 1 := by
    omega
  simp only [ofMillis, quotient, residue, year, day, place]
  cases t
  simp only [DateTime.mk.injEq, true_and]
  simp only at someMonth hours minutes seconds millis
  omega

theorem ofMillis_parts (millis : Int) :
    ∃ (month day : Nat), ofMillis millis = ⟨yearOf (millis / dayLength + epoch), month + 1, day,
        (millis % dayLength).toNat / 3600000, (millis % dayLength).toNat / 60000 % 60,
        (millis % dayLength).toNat / 1000 % 60, (millis % dayLength).toNat % 1000⟩ ∧
      month < 12 ∧ 1 ≤ day ∧
      day ≤ (monthLengths (isLeap (yearOf (millis / dayLength + epoch)))).getD month 0 ∧
      (((monthLengths (isLeap (yearOf (millis / dayLength + epoch)))).take month).sum + day - 1 : Nat) =
        millis / dayLength + epoch - daysBeforeYear (yearOf (millis / dayLength + epoch)) := by
  obtain ⟨lower, upper⟩ := yearOf_bounds (millis / dayLength + epoch)
  have next := daysBeforeYear_succ (yearOf (millis / dayLength + epoch))
  generalize days_eq : millis / dayLength + epoch = days at *
  have inYear : (days - daysBeforeYear (yearOf days)).toNat < (monthLengths (isLeap (yearOf days))).sum := by
    omega
  obtain ⟨month, day, found, bound, real, fits, place⟩ := monthAndDay_spec inYear
  rw [length_monthLengths] at bound
  refine ⟨month, day, ?_, bound, real, fits, by omega⟩
  simp only [ofMillis, days_eq, found]

theorem valid_ofMillis (millis : Int) : (ofMillis millis).Valid := by
  obtain ⟨month, day, same, lastMonth, someDay, lastDay, _⟩ := ofMillis_parts millis
  have positive : (0 : Int) < dayLength := by decide
  have below := Int.emod_lt_of_pos millis positive
  rw [same]
  refine ⟨Nat.succ_pos _, lastMonth, someDay, ?_, ?_, ?_, ?_, ?_⟩
  · rw [daysInMonth, if_neg (Nat.succ_ne_zero _)]
    exact lastDay
  · unfold dayLength at below
    simp only
    unfold dayLength
    omega
  · exact Nat.mod_lt _ (by omega)
  · exact Nat.mod_lt _ (by omega)
  · exact Nat.mod_lt _ (by omega)

/-- Milliseconds are found again from their date and time of day. -/
theorem toMillis_ofMillis (millis : Int) : (ofMillis millis).toMillis = millis := by
  obtain ⟨month, day, same, _, someDay, _, place⟩ := ofMillis_parts millis
  have nonzero : dayLength ≠ 0 := by decide
  have positive := Int.emod_nonneg millis nonzero
  have whole := Int.mul_ediv_add_emod millis dayLength
  rw [same, toMillis, daysBeforeMonth_eq, Nat.add_sub_cancel]
  simp only
  generalize yearOf (millis / dayLength + epoch) = year at *
  generalize millis % dayLength = clock at *
  have days : daysBeforeYear year + (((monthLengths (isLeap year)).take month).sum : Nat) + (day : Nat) - 1 - epoch =
      millis / dayLength := by
    omega
  rw [days]
  rw [Int.mul_comm] at whole
  omega

end DateTime

end Der
