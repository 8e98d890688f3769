import Mathlib.Data.List.DropRight
import Mathlib.Data.List.TakeWhile
import Der.Content.Time
import Der.Proofs.Calendar
import Der.Proofs.Content.Text
import Der.Proofs.Digits
import Der.Proofs.Results

namespace Der.Content.Time

/-- Formatting and parsing undo each other, and all texts are ASCII. -/
structure Inverse (format : Option Instant → Except Fault String) (parse : String → Except Fault Instant) : Prop where
  ascii : ∀ {t text}, format t = .ok text → Text.Ascii text.toList
  parse_format : ∀ {t text}, format t = .ok text → ∃ i, t = some i ∧ parse text = .ok i
  format_parse : ∀ {text i}, parse text = .ok i → format (some i) = .ok text

theorem instant_dateTime (i : Instant) : instant i.dateTime = .ok i := by
  have valid : i.dateTime.Valid := DateTime.valid_ofMillis i.millis
  have back : i.dateTime.toMillis = i.millis := DateTime.toMillis_ofMillis i.millis
  simp only [instant, if_pos valid, back, Instant.ofMillis?, dif_pos i.bounded]

theorem dateTime_of_instant {t : DateTime} {i : Instant} (read : instant t = .ok i) :
    i.dateTime = t ∧ t.Valid := by
  simp only [instant] at read
  by_cases valid : t.Valid
  · rw [if_pos valid, Instant.ofMillis?] at read
    by_cases near : t.toMillis.natAbs ≤ 8640000000000000
    · rw [dif_pos near] at read
      injection read with same
      subst same
      exact ⟨valid.ofMillis_toMillis, valid⟩
    · rw [dif_neg near] at read
      cases read
  · rw [if_neg valid] at read
    cases read

/-- Two digits for each number. -/
def twoDigits (numbers : List Nat) : List Char :=
  numbers.flatMap (Digits.ofNat 2)

theorem twoDigits_cons (n : Nat) (rest : List Nat) : twoDigits (n :: rest) = Digits.ofNat 2 n ++ twoDigits rest :=
  List.flatMap_cons

theorem isDigit_of_mem_twoDigits {numbers : List Nat} {c : Char} (member : c ∈ twoDigits numbers) :
    c.isDigit = true := by
  obtain ⟨n, _, digit⟩ := List.mem_flatMap.mp member
  exact Digits.isDigit_of_mem_ofNat digit

theorem length_twoDigits {numbers : List Nat} (small : ∀ n ∈ numbers, n < 100) :
    (twoDigits numbers).length = 2 * numbers.length := by
  induction numbers with
  | nil => rfl
  | cons n rest ih =>
    have first := Digits.length_ofNat Nat.two_pos (small n List.mem_cons_self)
    have others := ih fun k member => small k (List.mem_cons_of_mem _ member)
    rw [twoDigits_cons, List.length_append, first, others, List.length_cons]
    omega

theorem pairs_twoDigits {numbers : List Nat} (small : ∀ n ∈ numbers, n < 100) : pairs (twoDigits numbers) = numbers := by
  induction numbers with
  | nil => rfl
  | cons n rest ih =>
    have value := Digits.toNat_ofNat 2 n
    have others := ih fun k member => small k (List.mem_cons_of_mem _ member)
    obtain ⟨a, b, digits⟩ := List.length_eq_two.mp (Digits.length_ofNat Nat.two_pos (small n List.mem_cons_self))
    rw [digits] at value
    rw [twoDigits_cons, digits, List.cons_append, List.cons_append, List.nil_append, pairs, value, others]

theorem twoDigits_pairs {digits : List Char} (all : ∀ c ∈ digits, c.isDigit = true)
    (even : digits.length = 2 * (pairs digits).length) :
    twoDigits (pairs digits) = digits ∧ ∀ n ∈ pairs digits, n < 100 := by
  fun_induction pairs digits with
  | case1 a b rest ih =>
    have two : ∀ c ∈ [a, b], c.isDigit = true := by
      intro c member
      exact all c (List.mem_append_left rest member)
    rw [List.length_cons, List.length_cons, List.length_cons] at even
    obtain ⟨back, small⟩ := ih (fun c member => all c (List.mem_append_right [a, b] member)) (by omega)
    have first := Digits.ofNat_toNat (List.cons_ne_nil _ _) two
    refine ⟨by rw [twoDigits_cons, back, show 2 = [a, b].length from rfl, first]; rfl, ?_⟩
    intro n member
    rcases List.mem_cons.mp member with rfl | later
    · exact Digits.toNat_lt two
    · exact small n later
  | case2 digits short =>
    have none := List.eq_nil_of_length_eq_zero even
    exact ⟨none.symm, fun n member => absurd member List.not_mem_nil⟩

theorem fields_eq (t : DateTime) : fields t = twoDigits [t.month, t.day, t.hour, t.minute, t.second] := by
  simp [fields, twoDigits]

theorem takeWhile_digits {digits : List Char} {c : Char} (rest : List Char) (all : ∀ c ∈ digits, c.isDigit = true)
    (mark : c.isDigit = false) :
    (digits ++ c :: rest).takeWhile Char.isDigit = digits ∧
      (digits ++ c :: rest).dropWhile Char.isDigit = c :: rest := by
  rw [List.takeWhile_append_of_pos all, List.dropWhile_append_of_pos all]
  simp [mark]

theorem small_fields {t : DateTime} (valid : t.Valid) :
    ∀ n ∈ [t.month, t.day, t.hour, t.minute, t.second], n < 100 := by
  have lengths := (valid.month_lt).2
  obtain ⟨_, lastMonth, _, _, hours, minutes, seconds, _⟩ := valid
  have month : (Calendar.monthLengths (Calendar.isLeap t.year)).getD (t.month - 1) 0 ≤ 31 := by
    have bound : ∀ leap : Bool, ∀ n < 12, (Calendar.monthLengths leap).getD n 0 ≤ 31 := by decide
    exact bound _ _ (by omega)
  intro n member
  simp only [List.mem_cons, List.not_mem_nil, or_false] at member
  omega

theorem ascii_digits {digits : List Char} (all : ∀ c ∈ digits, c.isDigit = true) : Text.Ascii digits := by
  intro c member
  have upper := (Char.isDigit_iff_toNat.mp (all c member)).2
  exact Nat.lt_of_le_of_lt upper (by decide)

theorem ascii_append {front back : List Char} (first : Text.Ascii front) (second : Text.Ascii back) :
    Text.Ascii (front ++ back) := by
  intro c member
  rcases List.mem_append.mp member with early | late
  · exact first c early
  · exact second c late

/-- The numbers that a UTCTime text shows. -/
def utcNumbers (t : DateTime) : List Nat :=
  [(t.year % 100).toNat, t.month, t.day, t.hour, t.minute, t.second]

theorem utcText_eq_ok {t : Option Instant} {text : String} (written : utcText t = .ok text) :
    ∃ i, t = some i ∧ InUtcRange i.dateTime ∧ i.dateTime.milli = 0 ∧
      text = String.ofList (twoDigits (utcNumbers i.dateTime) ++ ['Z']) := by
  cases t with
  | none => cases written
  | some i =>
    simp only [utcText, dateTime, bind, Except.bind] at written
    by_cases range : InUtcRange i.dateTime
    · rw [if_neg (fun wrong => wrong range)] at written
      by_cases whole : i.dateTime.milli = 0
      · rw [if_neg (fun wrong => wrong whole)] at written
        injection written with same
        refine ⟨i, rfl, range, whole, ?_⟩
        rw [← same, fields_eq, utcNumbers, twoDigits_cons (i.dateTime.year % 100).toNat]
      · rw [if_pos whole] at written
        cases written
    · rw [if_pos range] at written
      cases written

theorem utcText_some {i : Instant} (range : InUtcRange i.dateTime) (whole : i.dateTime.milli = 0) :
    utcText (some i) = .ok (String.ofList (twoDigits (utcNumbers i.dateTime) ++ ['Z'])) := by
  simp only [utcText, dateTime, bind, Except.bind, if_neg (fun wrong => wrong range : ¬ ¬ InUtcRange i.dateTime),
    if_neg (fun wrong => wrong whole : ¬ i.dateTime.milli ≠ 0), fields_eq, utcNumbers, twoDigits_cons]
  rfl

theorem small_utcNumbers {t : DateTime} (valid : t.Valid) : ∀ n ∈ utcNumbers t, n < 100 := by
  intro n member
  rcases List.mem_cons.mp member with rfl | later
  · omega
  · exact small_fields valid n later

theorem parse_utcText {t : Option Instant} {text : String} (written : utcText t = .ok text) :
    ∃ i, t = some i ∧ ofUtcText text = .ok i := by
  obtain ⟨i, same, range, whole, rfl⟩ := utcText_eq_ok written
  have valid : i.dateTime.Valid := DateTime.valid_ofMillis i.millis
  have small := small_utcNumbers valid
  have digits : ∀ c ∈ twoDigits (utcNumbers i.dateTime), c.isDigit = true := fun c => isDigit_of_mem_twoDigits
  obtain ⟨front, back⟩ := takeWhile_digits (c := 'Z') [] digits rfl
  have again := instant_dateTime i
  refine ⟨i, same, ?_⟩
  simp only [ofUtcText, String.toList_ofList, front, back, pairs_twoDigits small, length_twoDigits small]
  unfold InUtcRange at range
  generalize i.dateTime = t at *
  obtain ⟨year, month, day, hour, minute, second, milli⟩ := t
  simp only at range whole
  simp only [utcNumbers, List.length_cons, List.length_nil, if_true]
  have century : ((((if 50 ≤ (year % 100).toNat then 1900 else 2000) + (year % 100).toNat : Nat)) : Int) = year := by
    split <;> omega
  rw [century, ← whole]
  exact again

theorem utcText_of_parse {text : String} {i : Instant} (read : ofUtcText text = .ok i) : utcText (some i) = .ok text := by
  simp only [ofUtcText] at read
  split at read
  · next year month day hour minute second numbers ending =>
    by_cases count : (text.toList.takeWhile Char.isDigit).length = 12
    · rw [if_pos count] at read
      obtain ⟨same, valid⟩ := dateTime_of_instant read
      have digits : ∀ c ∈ text.toList.takeWhile Char.isDigit, c.isDigit = true := fun c => List.mem_takeWhile_imp
      obtain ⟨back, small⟩ := twoDigits_pairs digits (by rw [numbers, count]; rfl)
      rw [numbers] at back small
      have below : year < 100 := small year List.mem_cons_self
      have shown : utcNumbers i.dateTime = [year, month, day, hour, minute, second] := by
        rw [same]
        simp only [utcNumbers, List.cons.injEq, and_true]
        split <;> omega
      have range : InUtcRange i.dateTime := by
        rw [same, InUtcRange]
        simp only
        split <;> omega
      rw [utcText_some range (by rw [same]), shown, back, ← ending, List.takeWhile_append_dropWhile,
        String.ofList_toList]
    · rw [if_neg count] at read
      cases read
  · cases read

theorem ascii_end : Text.Ascii ['Z'] := by
  intro c member
  rw [List.mem_singleton.mp member]
  decide

theorem utcTime_inverse : Inverse utcText ofUtcText where
  ascii written := by
    obtain ⟨i, _, _, _, rfl⟩ := utcText_eq_ok written
    rw [String.toList_ofList]
    exact ascii_append (ascii_digits fun c => isDigit_of_mem_twoDigits) ascii_end
  parse_format := parse_utcText
  format_parse := utcText_of_parse

/-- The digits after a point, if there are any. -/
def pointed (digits : List Char) : List Char :=
  if digits = [] then [] else '.' :: digits

theorem rdropWhile_zeros {digits : List Char} (last : digits.getLast? ≠ some '0') (count : Nat) :
    (digits ++ List.replicate count '0').rdropWhile (· = '0') = digits := by
  induction count with
  | zero =>
    rw [List.replicate_zero, List.append_nil, List.rdropWhile_eq_self_iff]
    intro some zero
    rw [List.getLast?_eq_getLast_of_ne_nil some] at last
    exact last (congrArg Option.some (of_decide_eq_true zero))
  | succ count ih =>
    rw [List.replicate_succ', ← List.append_assoc, List.rdropWhile_concat_pos _ _ _ (by decide), ih]

theorem getLast?_rdropWhile (digits : List Char) : (digits.rdropWhile (· = '0')).getLast? ≠ some '0' := by
  intro zero
  cases shape : digits.rdropWhile (· = '0') with
  | nil => rw [shape] at zero; cases zero
  | cons c rest =>
    have some : digits.rdropWhile (· = '0') ≠ [] := by
      rw [shape]
      exact List.cons_ne_nil _ _
    rw [List.getLast?_eq_getLast_of_ne_nil some] at zero
    exact List.rdropWhile_last_not _ _ some (decide_eq_true (Option.some.inj zero))

theorem rdropWhile_append_zeros (digits : List Char) :
    digits.rdropWhile (· = '0') ++
      List.replicate (digits.length - (digits.rdropWhile (· = '0')).length) '0' = digits := by
  have whole : digits.rdropWhile (· = '0') ++ digits.rtakeWhile (· = '0') = digits :=
    List.rdropWhile_append_rtakeWhile
  have zeros : digits.rtakeWhile (· = '0') =
      List.replicate (digits.length - (digits.rdropWhile (· = '0')).length) '0' := by
    have length := congrArg List.length whole
    rw [List.length_append] at length
    rw [List.eq_replicate_iff]
    refine ⟨by omega, ?_⟩
    intro c member
    have zero := List.mem_rtakeWhile_imp member
    exact of_decide_eq_true zero
  rw [← zeros, whole]

/-- The digits of thousandths, without the zeros at their end. -/
def thousandths (milli : Nat) : List Char :=
  (Digits.ofNat 3 milli).rdropWhile (· = '0')

theorem isDigit_of_mem_thousandths {milli : Nat} {c : Char} (member : c ∈ thousandths milli) : c.isDigit = true :=
  Digits.isDigit_of_mem_ofNat ((List.rdropWhile_prefix _ _).subset member)

theorem length_thousandths_le {milli : Nat} (small : milli < 1000) : (thousandths milli).length ≤ 3 := by
  rw [← Digits.length_ofNat (show 0 < 3 by omega) small]
  exact (List.rdropWhile_prefix _ _).length_le

theorem toNat_thousandths {milli : Nat} (small : milli < 1000) :
    Digits.toNat (thousandths milli ++ List.replicate (3 - (thousandths milli).length) '0') = milli := by
  have zeros := rdropWhile_append_zeros (Digits.ofNat 3 milli)
  rw [Digits.length_ofNat (by omega) small] at zeros
  rw [thousandths, zeros, Digits.toNat_ofNat]

/-- Up to three digits, filled up with zeros, are three digits. -/
theorem digits_filled {digits : List Char} (all : ∀ c ∈ digits, c.isDigit = true) (short : digits.length ≤ 3) :
    (∀ c ∈ digits ++ List.replicate (3 - digits.length) '0', c.isDigit = true) ∧
      (digits ++ List.replicate (3 - digits.length) '0').length = 3 := by
  refine ⟨?_, ?_⟩
  · intro c member
    rcases List.mem_append.mp member with digit | filler
    · exact all c digit
    · rw [List.eq_of_mem_replicate filler]
      rfl
  · rw [List.length_append, List.length_replicate]
    omega

/-- Up to three digits that do not end in a zero are those of the thousandths that they count. -/
theorem thousandths_toNat {digits : List Char} (all : ∀ c ∈ digits, c.isDigit = true) (short : digits.length ≤ 3)
    (last : digits.getLast? ≠ some '0') :
    thousandths (Digits.toNat (digits ++ List.replicate (3 - digits.length) '0')) = digits := by
  obtain ⟨padded, three⟩ := digits_filled all short
  have again := Digits.ofNat_toNat (List.ne_nil_of_length_pos (by omega)) padded
  rw [three] at again
  rw [thousandths, again, rdropWhile_zeros last]

theorem fraction_eq {milli : Nat} (small : milli < 1000) : fraction milli = pointed (thousandths milli) := by
  by_cases whole : milli = 0
  · subst whole
    rfl
  · have some : thousandths milli ≠ [] := by
      intro none
      have value := toNat_thousandths small
      rw [none] at value
      exact whole value.symm
    rw [fraction, if_neg whole, pointed, if_neg some]
    rfl

theorem pointed_end (digits : List Char) : ∃ c rest, pointed digits ++ ['Z'] = c :: rest ∧ c.isDigit = false := by
  unfold pointed
  split
  · exact ⟨'Z', [], rfl, rfl⟩
  · exact ⟨'.', _, rfl, rfl⟩

theorem strictEnd?_eq_some {chars digits : List Char} :
    strictEnd? chars = some digits ↔ (∀ c ∈ digits, c.isDigit = true) ∧ chars = pointed digits ++ ['Z'] := by
  constructor
  · intro read
    unfold strictEnd? at read
    split at read
    · cases read
      exact ⟨fun c member => absurd member List.not_mem_nil, rfl⟩
    · next rest =>
      split at read
      · cases read
      · next ending some =>
        cases read
        refine ⟨fun c => List.mem_takeWhile_imp, ?_⟩
        rw [pointed, if_neg some, List.cons_append, ← ending, List.takeWhile_append_dropWhile]
      · cases read
    · cases read
  · intro parts
    obtain ⟨all, rfl⟩ := parts
    by_cases none : digits = []
    · subst none
      rfl
    · obtain ⟨front, back⟩ := takeWhile_digits (c := 'Z') [] all rfl
      rw [pointed, if_neg none, List.cons_append, strictEnd?]
      simp only [front, back]

/-- The numbers that a GeneralizedTime text shows before its fraction. -/
def generalizedNumbers (t : DateTime) : List Nat :=
  [t.year.toNat / 100, t.year.toNat % 100, t.month, t.day, t.hour, t.minute, t.second]

theorem ofNat_four (n : Nat) :
    Digits.ofNat 4 n = Digits.ofNat 2 (n / 100) ++ Digits.ofNat 2 (n % 100) := by
  have one : ∀ k < 10, Digits.ofNat 1 k = [Nat.digitChar k] := by decide
  have low : n % 100 / 10 = n / 10 % 10 := by omega
  have high : n / 10 / 10 = n / 100 := Nat.div_div_eq_div_mul n 10 10
  rw [Digits.ofNat_succ, Digits.ofNat_succ 1, high, Digits.ofNat_succ 0 (n % 100), low,
    one _ (Nat.mod_lt _ (by omega)), Nat.mod_mod_of_dvd n (by omega), List.append_assoc]

theorem generalizedText_eq_ok {t : Option Instant} {text : String} (written : generalizedText t = .ok text) :
    ∃ i, t = some i ∧ 0 ≤ i.dateTime.year ∧ i.dateTime.year ≤ 9999 ∧
      text = String.ofList (twoDigits (generalizedNumbers i.dateTime) ++
        (pointed (thousandths i.dateTime.milli) ++ ['Z'])) := by
  cases t with
  | none => cases written
  | some i =>
    have valid : i.dateTime.Valid := DateTime.valid_ofMillis i.millis
    have small : i.dateTime.milli < 1000 := valid.2.2.2.2.2.2.2
    simp only [generalizedText, dateTime, bind, Except.bind] at written
    by_cases outside : i.dateTime.year < 0 ∨ 9999 < i.dateTime.year
    · rw [if_pos outside] at written
      cases written
    · rw [if_neg outside] at written
      injection written with same
      refine ⟨i, rfl, by omega, by omega, ?_⟩
      rw [← same, fields_eq, fraction_eq small, ofNat_four, generalizedNumbers,
        twoDigits_cons (i.dateTime.year.toNat / 100), twoDigits_cons (i.dateTime.year.toNat % 100)]
      simp only [List.append_assoc]

theorem generalizedText_some {i : Instant} (low : 0 ≤ i.dateTime.year) (high : i.dateTime.year ≤ 9999) :
    generalizedText (some i) = .ok (String.ofList (twoDigits (generalizedNumbers i.dateTime) ++
      (pointed (thousandths i.dateTime.milli) ++ ['Z']))) := by
  have inside : ¬ (i.dateTime.year < 0 ∨ 9999 < i.dateTime.year) := by omega
  cases written : generalizedText (some i) with
  | error fault =>
    simp only [generalizedText, dateTime, bind, Except.bind, if_neg inside] at written
    cases written
  | ok text =>
    obtain ⟨_, same, _, _, rfl⟩ := generalizedText_eq_ok written
    cases same
    rfl

theorem small_generalizedNumbers {t : DateTime} (valid : t.Valid) (high : t.year ≤ 9999) :
    ∀ n ∈ generalizedNumbers t, n < 100 := by
  intro n member
  rcases List.mem_cons.mp member with rfl | member
  · omega
  · rcases List.mem_cons.mp member with rfl | later
    · omega
    · exact small_fields valid n later

theorem ascii_pointed {digits : List Char} (all : ∀ c ∈ digits, c.isDigit = true) : Text.Ascii (pointed digits) := by
  unfold pointed
  split
  · intro c member
    cases member
  · intro c member
    rcases List.mem_cons.mp member with rfl | digit
    · decide
    · exact ascii_digits all c digit

theorem parse_generalizedText {t : Option Instant} {text : String} (written : generalizedText t = .ok text) :
    ∃ i, t = some i ∧ ofGeneralizedText text = .ok i := by
  obtain ⟨i, same, low, high, rfl⟩ := generalizedText_eq_ok written
  have valid : i.dateTime.Valid := DateTime.valid_ofMillis i.millis
  have fine : i.dateTime.milli < 1000 := valid.2.2.2.2.2.2.2
  have small := small_generalizedNumbers valid high
  have again := instant_dateTime i
  have tailDigits : ∀ c ∈ thousandths i.dateTime.milli, c.isDigit = true := fun c => isDigit_of_mem_thousandths
  have ending := strictEnd?_eq_some.mpr ⟨tailDigits, rfl⟩
  obtain ⟨mark, rest, shape, notDigit⟩ := pointed_end (thousandths i.dateTime.milli)
  have leading : ∀ c ∈ twoDigits (generalizedNumbers i.dateTime), c.isDigit = true :=
    fun c => isDigit_of_mem_twoDigits
  obtain ⟨front, back⟩ := takeWhile_digits rest leading notDigit
  refine ⟨i, same, ?_⟩
  rw [shape] at ending
  have last : (thousandths i.dateTime.milli).getLast? ≠ some '0' := getLast?_rdropWhile _
  have short : ¬ 3 < (thousandths i.dateTime.milli).length := Nat.not_lt.mpr (length_thousandths_le fine)
  simp only [ofGeneralizedText, String.toList_ofList, shape, front, back, ending, pairs_twoDigits small,
    length_twoDigits small]
  have value := toNat_thousandths fine
  generalize i.dateTime = t at *
  obtain ⟨year, month, day, hour, minute, second, milli⟩ := t
  simp only at low last short value
  simp only [generalizedNumbers, List.length_cons, List.length_nil, ne_eq, if_neg last, if_neg short, value]
  have whole : ((year.toNat / 100 * 100 + year.toNat % 100 : Nat) : Int) = year := by omega
  rw [whole]
  exact again

theorem ofGeneralizedText_eq_ok {text : String} {i : Instant} (read : ofGeneralizedText text = .ok i) :
    ∃ century year month day hour minute second tail,
      pairs (text.toList.takeWhile Char.isDigit) = [century, year, month, day, hour, minute, second] ∧
      (text.toList.takeWhile Char.isDigit).length = 14 ∧ strictEnd? (text.toList.dropWhile Char.isDigit) = some tail ∧
      tail.getLast? ≠ some '0' ∧ tail.length ≤ 3 ∧
      instant ⟨(century * 100 + year : Nat), month, day, hour, minute, second,
        Digits.toNat (tail ++ List.replicate (3 - tail.length) '0')⟩ = .ok i := by
  simp only [ofGeneralizedText] at read
  split at read
  · next century year month day hour minute second tail numbers ending =>
    by_cases count : (text.toList.takeWhile Char.isDigit).length ≠ 14
    · rw [if_pos count] at read
      cases read
    rw [if_neg count] at read
    by_cases zero : tail.getLast? = some '0'
    · rw [if_pos zero] at read
      cases read
    rw [if_neg zero] at read
    by_cases fine : 3 < tail.length
    · rw [if_pos fine] at read
      cases read
    rw [if_neg fine] at read
    exact ⟨century, year, month, day, hour, minute, second, tail, numbers, Decidable.not_not.mp count, ending, zero,
      Nat.not_lt.mp fine, read⟩
  · cases read

theorem generalizedText_of_parse {text : String} {i : Instant} (read : ofGeneralizedText text = .ok i) :
    generalizedText (some i) = .ok text := by
  obtain ⟨century, year, month, day, hour, minute, second, tail, numbers, count, ending, last, short, read⟩ :=
    ofGeneralizedText_eq_ok read
  obtain ⟨same, valid⟩ := dateTime_of_instant read
  obtain ⟨tailDigits, shape⟩ := strictEnd?_eq_some.mp ending
  have digits : ∀ c ∈ text.toList.takeWhile Char.isDigit, c.isDigit = true := fun c => List.mem_takeWhile_imp
  obtain ⟨back, small⟩ := twoDigits_pairs digits (by rw [numbers, count]; rfl)
  rw [numbers] at back small
  have low : century < 100 := small century List.mem_cons_self
  have below : year < 100 := small year (List.mem_cons_of_mem _ List.mem_cons_self)
  have shown : generalizedNumbers i.dateTime = [century, year, month, day, hour, minute, second] := by
    rw [same]
    simp only [generalizedNumbers, List.cons.injEq, and_true]
    omega
  rw [generalizedText_some (by rw [same]; simp only; omega) (by rw [same]; simp only; omega), shown, back, same]
  simp only [thousandths_toNat tailDigits short last, ← shape, List.takeWhile_append_dropWhile, String.ofList_toList]

theorem generalizedTime_inverse : Inverse generalizedText ofGeneralizedText where
  ascii written := by
    obtain ⟨i, _, _, _, rfl⟩ := generalizedText_eq_ok written
    rw [String.toList_ofList]
    refine ascii_append (ascii_digits fun c => isDigit_of_mem_twoDigits) ?_
    exact ascii_append (ascii_pointed fun c => isDigit_of_mem_thousandths) ascii_end
  parse_format := parse_generalizedText
  format_parse := generalizedText_of_parse

end Der.Content.Time
