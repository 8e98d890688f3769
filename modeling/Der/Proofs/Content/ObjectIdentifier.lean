import Der.Content.ObjectIdentifier
import Der.Proofs.Base128
import Der.Proofs.Digits
import Der.Proofs.Results

namespace Der.Content.ObjectIdentifier

theorem parts_eq_splitOn (chars : List Char) : parts chars = chars.splitOn '.' := by
  induction chars with
  | nil => rfl
  | cons c rest ih =>
    rw [parts, List.splitOn_cons_eq_if_modifyHead, ih]
    by_cases dot : c = '.'
    · rw [if_pos dot, if_pos (beq_iff_eq.mpr dot)]
    · rw [if_neg dot, if_neg fun same => dot (beq_iff_eq.mp same)]
      cases split : rest.splitOn '.' with
      | nil => exact absurd split (List.splitOn_ne_nil _ _)
      | cons part more => rfl

theorem isArc_iff (part : List Char) :
    isArc part = true ↔ part ≠ [] ∧ (∀ c ∈ part, c.isDigit = true) ∧ (part.head? = some '0' → part.length = 1) := by
  cases part with
  | nil => simp [isArc]
  | cons c rest =>
    by_cases zero : c = '0'
    · subst zero
      simp [isArc]
    · simp [isArc, zero]

theorem isArc_toDigits (n : Nat) : isArc (Nat.toDigits 10 n) = true := by
  rw [isArc_iff]
  refine ⟨Nat.toDigits_ne_nil, fun c member => Nat.isDigit_of_mem_toDigits (by omega) (by omega) member, ?_⟩
  intro leading
  by_cases zero : n = 0
  · rw [zero]
    rfl
  · exact absurd leading (Digits.head?_toDigits (Nat.pos_of_ne_zero zero))

theorem toDigits_toNat {part : List Char} (arc : isArc part = true) : Nat.toDigits 10 (Digits.toNat part) = part := by
  obtain ⟨some, all, leading⟩ := (isArc_iff part).mp arc
  have padded := Digits.ofNat_toNat some all
  rw [Digits.ofNat] at padded
  cases count : part.length - (Nat.toDigits 10 (Digits.toNat part)).length with
  | zero => simpa only [count, List.replicate_zero, List.nil_append] using padded
  | succ zeros =>
    rw [count, List.replicate_succ, List.cons_append] at padded
    have single := leading (by rw [← padded, List.head?_cons])
    have digits : 0 < (Nat.toDigits 10 (Digits.toNat part)).length := Nat.length_toDigits_pos
    omega

theorem toNat_toDigits (n : Nat) : Digits.toNat (Nat.toDigits 10 n) = n := by
  rw [Digits.toNat_eq, Nat.ofDigitChars_ten_toDigits]

theorem arc_eq_ok {text : String} {part : List Char} {n : Nat} (read : arc text part = .ok n) :
    n ≤ Number.maxSafe ∧ Nat.toDigits 10 n = part := by
  unfold arc at read
  by_cases good : isArc part = true
  · rw [if_neg (by simp [good])] at read
    by_cases large : Number.maxSafe < Digits.toNat part
    · rw [if_pos large] at read
      cases read
    · rw [if_neg large] at read
      injection read with same
      subst same
      exact ⟨Nat.not_lt.mp large, toDigits_toNat good⟩
  · rw [if_pos (by simp [good])] at read
    cases read

theorem arc_toDigits (text : String) {n : Nat} (bound : n ≤ Number.maxSafe) :
    arc text (Nat.toDigits 10 n) = .ok n := by
  rw [arc, isArc_toDigits, toNat_toDigits, if_neg (by simp), if_neg (Nat.not_lt.mpr bound)]

/-- The dotted decimal text of arcs. -/
def dotted (arcs : List Nat) : String :=
  ".".intercalate (arcs.map toString)

/-- Arcs that an object identifier can have. -/
structure InRange (first second : Nat) (more : List Nat) : Prop where
  first_le : first ≤ 2
  second_lt : first < 2 → second < 40
  both_le : first * 40 + second ≤ Number.maxSafe
  more_le : ∀ n ∈ more, n ≤ Number.maxSafe

theorem toList_dotted (arcs : List Nat) : (dotted arcs).toList = ['.'].intercalate (arcs.map (Nat.toDigits 10)) := by
  rw [dotted, String.toList_intercalate, List.map_map]
  congr 1
  refine List.map_congr_left ?_
  intro n _
  rw [Function.comp_apply, Nat.toString_eq_repr, Nat.toList_repr]

theorem parts_dotted {arcs : List Nat} (some : arcs ≠ []) :
    parts (dotted arcs).toList = arcs.map (Nat.toDigits 10) := by
  rw [parts_eq_splitOn, toList_dotted]
  apply List.splitOn_intercalate
  · intro part member dot
    obtain ⟨n, _, rfl⟩ := List.mem_map.mp member
    exact absurd (Nat.isDigit_of_mem_toDigits (by decide) (by decide) dot) (by decide)
  · rwa [ne_eq, List.map_eq_nil_iff]

theorem mapM_arc_eq_ok (text : String) {parts : List (List Char)} {arcs : List Nat} :
    parts.mapM (arc text) = .ok arcs ↔
      arcs.map (Nat.toDigits 10) = parts ∧ ∀ n ∈ arcs, n ≤ Number.maxSafe := by
  rw [Except.mapM_eq_ok]
  constructor
  · intro read
    induction read with
    | nil => exact ⟨rfl, fun n member => absurd member List.not_mem_nil⟩
    | cons first _ ih =>
      obtain ⟨bound, digits⟩ := arc_eq_ok first
      refine ⟨by rw [List.map_cons, digits, ih.1], ?_⟩
      intro k member
      rcases List.mem_cons.mp member with rfl | later
      · exact bound
      · exact ih.2 k later
  · intro both
    obtain ⟨rfl, bounds⟩ := both
    rw [List.forall₂_map_left_iff, List.forall₂_same]
    intro n member
    exact arc_toDigits text (bounds n member)

theorem InRange.subidentifiers_eq {first second : Nat} {more : List Nat} (range : InRange first second more) :
    subidentifiers (dotted (first :: second :: more)) = .ok ((first * 40 + second) :: more) := by
  have bounds : ∀ n ∈ first :: second :: more, n ≤ Number.maxSafe := by
    have small := range.first_le
    have both := range.both_le
    intro n member
    rcases List.mem_cons.mp member with rfl | member
    · exact small.trans (by decide)
    · rcases List.mem_cons.mp member with rfl | member
      · omega
      · exact range.more_le n member
  have notSmall : ¬ (first < 2 ∧ 40 ≤ second) := fun wrong => absurd (range.second_lt wrong.1) (by omega)
  have read := (mapM_arc_eq_ok (dotted (first :: second :: more))).mpr ⟨rfl, bounds⟩
  have several : ¬ ((first :: second :: more).map (Nat.toDigits 10)).length < 2 := by simp
  simp only [subidentifiers, parts_dotted (List.cons_ne_nil _ _), if_neg several, read]
  simp only [pure, bind, Except.pure, Except.bind, if_neg (Nat.not_lt.mpr range.first_le), if_neg notSmall,
    if_neg (Nat.not_lt.mpr range.both_le)]

theorem subidentifiers_eq_ok {text : String} {numbers : List Nat} (read : subidentifiers text = .ok numbers) :
    ∃ first second more, InRange first second more ∧ text = dotted (first :: second :: more) ∧
      numbers = (first * 40 + second) :: more := by
  simp only [subidentifiers] at read
  by_cases few : (parts text.toList).length < 2
  · rw [if_pos few] at read
    cases read
  · rw [if_neg few] at read
    obtain ⟨arcs, each, read⟩ := Except.bind_eq_ok.mp read
    obtain ⟨digits, bounds⟩ := (mapM_arc_eq_ok text).mp each
    match arcs with
    | [] => cases read
    | [_] => cases read
    | first :: second :: more =>
      simp only [] at read
      by_cases large : 2 < first
      · rw [if_pos large] at read
        cases read
      rw [if_neg large] at read
      by_cases wide : first < 2 ∧ 40 ≤ second
      · rw [if_pos wide] at read
        cases read
      rw [if_neg wide] at read
      by_cases huge : Number.maxSafe < first * 40 + second
      · rw [if_pos huge] at read
        cases read
      rw [if_neg huge] at read
      injection read with same
      refine ⟨first, second, more, ⟨by omega, by omega, by omega, ?_⟩, ?_, same.symm⟩
      · intro n member
        exact bounds n (List.mem_cons_of_mem _ (List.mem_cons_of_mem _ member))
      · rw [← String.toList_inj, toList_dotted, digits, parts_eq_splitOn, List.intercalate_splitOn]

theorem splitFirst_eq (n : Nat) :
    (splitFirst n).1 * 40 + (splitFirst n).2 = n ∧ (splitFirst n).1 ≤ 2 ∧
      ((splitFirst n).1 < 2 → (splitFirst n).2 < 40) := by
  unfold splitFirst
  split
  · simp_all
  · split <;> simp only [] <;> omega

theorem splitFirst_of_range {first second : Nat} (small : first ≤ 2) (narrow : first < 2 → second < 40) :
    splitFirst (first * 40 + second) = (first, second) := by
  unfold splitFirst
  rcases Nat.lt_or_ge (first * 40 + second) 40 with low | high
  · rw [if_pos low]
    simp only [Prod.mk.injEq]
    omega
  · rw [if_neg (by omega)]
    split <;> simp only [Prod.mk.injEq] <;> omega

theorem readAll_encode (size : Nat) {numbers : List Nat} (bounds : ∀ n ∈ numbers, n ≤ Number.maxSafe) :
    readAll size (numbers.flatMap Base128.encode) = .ok numbers := by
  induction numbers with
  | nil =>
    rw [List.flatMap_nil, readAll]
    rfl
  | cons n rest ih =>
    have first := Base128.decode_encode (bounds n List.mem_cons_self) (rest.flatMap Base128.encode)
    have others := ih fun k member => bounds k (List.mem_cons_of_mem _ member)
    have some : ¬ (Base128.encode n ++ rest.flatMap Base128.encode).isEmpty = true := by
      simp [Base128.encode]
    rw [List.flatMap_cons, readAll, if_neg some]
    split
    · next flaw => rw [first] at flaw; cases flaw
    · next flaw => rw [first] at flaw; cases flaw
    · next flaw => rw [first] at flaw; cases flaw
    · next same =>
      rw [first] at same
      cases same
      rw [others]
      rfl

theorem readAll_eq_ok {size : Nat} {octets : Octets} {numbers : List Nat} (read : readAll size octets = .ok numbers) :
    octets = numbers.flatMap Base128.encode ∧ ∀ n ∈ numbers, n ≤ Number.maxSafe := by
  fun_induction readAll size octets generalizing numbers with
  | case1 octets none =>
    cases read
    exact ⟨List.isEmpty_iff.mp none, fun n member => absurd member List.not_mem_nil⟩
  | case2 octets some flaw => cases read
  | case3 octets some flaw => cases read
  | case4 octets some flaw => cases read
  | case5 octets some n rest first _ ih =>
    obtain ⟨more, others, rfl⟩ := Except.map_eq_ok.mp read
    obtain ⟨bound, whole⟩ := Base128.eq_encode_of_decode first
    obtain ⟨tail, bounds⟩ := ih others
    refine ⟨by rw [whole, tail, List.flatMap_cons], ?_⟩
    intro k member
    rcases List.mem_cons.mp member with rfl | later
    · exact bound
    · exact bounds k later

/-- Every text that can be written is read back from its content. -/
theorem decode_encode {text : String} {octets : Octets} (written : encode text = .ok octets) :
    decode octets = .ok text := by
  obtain ⟨numbers, read, same⟩ := Except.bind_eq_ok.mp written
  cases same
  obtain ⟨first, second, more, range, rfl, rfl⟩ := subidentifiers_eq_ok read
  have all : ∀ n ∈ (first * 40 + second) :: more, n ≤ Number.maxSafe := by
    intro n member
    rcases List.mem_cons.mp member with rfl | later
    · exact range.both_le
    · exact range.more_le n later
  rw [decode, readAll_encode _ all]
  simp only [bind, Except.bind]
  rw [splitFirst_of_range range.first_le range.second_lt]
  rfl

/-- Content that is read is the content of the text. -/
theorem encode_of_decode {octets : Octets} {text : String} (read : decode octets = .ok text) :
    encode text = .ok octets := by
  obtain ⟨numbers, all, read⟩ := Except.bind_eq_ok.mp read
  obtain ⟨whole, bounds⟩ := readAll_eq_ok all
  match numbers with
  | [] => cases read
  | head :: more =>
    obtain ⟨value, small, narrow⟩ := splitFirst_eq head
    injection read with same
    have range : InRange (splitFirst head).1 (splitFirst head).2 more := by
      refine ⟨small, narrow, ?_, fun n member => bounds n (List.mem_cons_of_mem _ member)⟩
      rw [value]
      exact bounds head List.mem_cons_self
    have back := range.subidentifiers_eq
    rw [value] at back
    rw [whole, encode, ← same]
    exact Except.bind_eq_ok.mpr ⟨_, back, rfl⟩

theorem foldl_width (numbers : List Nat) (total : Nat) :
    numbers.foldl (fun total n => total + Base128.width n) total =
      total + (numbers.flatMap Base128.encode).length := by
  induction numbers generalizing total with
  | nil => rfl
  | cons n rest ih =>
    rw [List.foldl_cons, ih, List.flatMap_cons, List.length_append, Base128.length_encode, Nat.add_assoc]

theorem width_eq (text : String) : width text = (encode text).map List.length := by
  unfold width encode
  cases subidentifiers text with
  | error fault => rfl
  | ok numbers => exact congrArg Except.ok ((foldl_width numbers 0).trans (Nat.zero_add _))

end Der.Content.ObjectIdentifier
