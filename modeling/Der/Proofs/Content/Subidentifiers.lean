import Der.Proofs.Content.ObjectIdentifier

namespace Der

namespace Base128

/-- Octets that hold one number: all but the last have their high bit set, and no group of zero leads. -/
def Complete (group : Octets) : Prop :=
  group.head? ≠ some 128 ∧
    ∃ more last, group = more ++ [last] ∧ (∀ octet ∈ more, 128 ≤ octet.toNat) ∧ last.toNat < 128

/-- The number that octets hold in their low seven bits, most significant octet first. -/
def value (group : Octets) : Nat :=
  group.foldl (fun n octet => n * 128 + octet.toNat % 128) 0

theorem le_foldl_groups (octets : Octets) (sofar : Nat) :
    sofar ≤ octets.foldl (fun n octet => n * 128 + octet.toNat % 128) sofar := by
  induction octets generalizing sofar with
  | nil => exact Nat.le_refl _
  | cons octet rest ih =>
    have further := ih (sofar * 128 + octet.toNat % 128)
    rw [List.foldl_cons]
    omega

/-- Octets with their high bit set are read on, up to the first one without it. -/
theorem groups_of_complete {limit sofar : Nat} {more : Octets} {last : UInt8} (rest : Octets)
    (high : ∀ octet ∈ more, 128 ≤ octet.toNat) (low : last.toNat < 128)
    (bound : (more ++ [last]).foldl (fun n octet => n * 128 + octet.toNat % 128) sofar ≤ limit) :
    groups limit sofar (more ++ last :: rest) =
      .ok ((more ++ [last]).foldl (fun n octet => n * 128 + octet.toNat % 128) sofar, rest) := by
  induction more generalizing sofar with
  | nil =>
    simp only [List.nil_append, List.foldl_cons, List.foldl_nil] at bound ⊢
    rw [groups, if_neg (Nat.not_lt.mpr bound), if_pos low]
  | cons octet others ih =>
    have next := le_foldl_groups (others ++ [last]) (sofar * 128 + octet.toNat % 128)
    have set := high octet List.mem_cons_self
    rw [List.cons_append, List.foldl_cons] at bound
    rw [List.cons_append, groups, if_neg (by omega), if_neg (by omega), List.cons_append, List.foldl_cons]
    exact ih (fun o member => high o (List.mem_cons_of_mem _ member)) bound

theorem Complete.decode_append {group : Octets} (complete : Complete group) {limit : Nat} (bound : value group ≤ limit)
    (rest : Octets) : decode limit (group ++ rest) = .ok (value group, rest) := by
  obtain ⟨unpadded, more, last, rfl, high, low⟩ := complete
  have front : (more ++ [last] ++ rest).head? ≠ some 128 := by
    rwa [List.head?_append_of_ne_nil _ (by simp)]
  rw [decode, if_neg front, List.append_assoc, List.singleton_append]
  exact groups_of_complete rest high low bound

theorem high_of_mem_leading {count n : Nat} {octet : UInt8} (member : octet ∈ leading count n) :
    128 ≤ octet.toNat := by
  induction count generalizing n with
  | zero => cases member
  | succ count ih =>
    rcases List.mem_append.mp member with front | last
    · exact ih front
    · rw [List.mem_singleton.mp last, UInt8.toNat_ofNat_of_lt' (by simp only [UInt8.size]; omega)]
      exact Nat.le_add_right _ _

theorem complete_encode (n : Nat) : Complete (encode n) := by
  have unpadded := head?_encode n []
  rw [List.append_nil] at unpadded
  refine ⟨unpadded, _, _, rfl, fun octet member => high_of_mem_leading member, ?_⟩
  rw [UInt8.toNat_ofNat_of_lt' (by simp only [UInt8.size]; omega)]
  exact Nat.mod_lt _ (by omega)

theorem value_encode (n : Nat) : value (encode n) = n := by
  have read := (complete_encode n).decode_append (Nat.le_max_right n (value (encode n))) []
  rw [decode_encode (Nat.le_max_left n (value (encode n)))] at read
  exact (congrArg Prod.fst (Except.ok.inj read)).symm

/-- The groups of a number are the only complete ones that hold it. -/
theorem complete_iff (group : Octets) (n : Nat) : Complete group ∧ value group = n ↔ group = encode n := by
  constructor
  · rintro ⟨complete, rfl⟩
    have read := complete.decode_append (Nat.le_refl _) []
    rw [List.append_nil] at read
    have whole := (eq_encode_of_decode read).2
    rwa [List.append_nil] at whole
  · rintro rfl
    exact ⟨complete_encode n, value_encode n⟩

end Base128

namespace Content.ObjectIdentifier

/-- Decimal digits of a natural number, without a leading zero unless it is the only digit. -/
structure IsNumeral (digits : List Char) (n : Nat) : Prop where
  nonempty : digits ≠ []
  decimal : ∀ c ∈ digits, c.isDigit = true
  unpadded : digits.head? = some '0' → digits.length = 1
  value : Digits.toNat digits = n

/-- Numerals of the arcs, with dots between them. -/
def Spells (text : String) (arcs : List Nat) : Prop :=
  ∃ numerals, text.toList = ['.'].intercalate numerals ∧ List.Forall₂ IsNumeral numerals arcs

theorem isNumeral_iff (digits : List Char) (n : Nat) : IsNumeral digits n ↔ digits = Nat.toDigits 10 n := by
  constructor
  · rintro ⟨nonempty, decimal, unpadded, rfl⟩
    exact (toDigits_toNat ((isArc_iff digits).mpr ⟨nonempty, decimal, unpadded⟩)).symm
  · rintro rfl
    obtain ⟨nonempty, decimal, unpadded⟩ := (isArc_iff _).mp (isArc_toDigits n)
    exact ⟨nonempty, decimal, unpadded, toNat_toDigits n⟩

/-- Lists that correspond by a function are its image. -/
theorem forall₂_iff_eq_map {α β : Type} {R : α → β → Prop} {f : β → α} (same : ∀ a b, R a b ↔ a = f b)
    {as : List α} {bs : List β} : List.Forall₂ R as bs ↔ as = bs.map f := by
  have relation : R = fun a b => a = f b := funext fun a => funext fun b => propext (same a b)
  rw [relation, ← List.forall₂_map_right_iff (R := Eq), List.forall₂_eq_eq_eq]

/-- Each list of arcs is spelled in one way. -/
theorem spells_iff {text : String} {arcs : List Nat} : Spells text arcs ↔ text = dotted arcs := by
  have numerals : ∀ parts, List.Forall₂ IsNumeral parts arcs ↔ parts = arcs.map (Nat.toDigits 10) :=
    fun _ => forall₂_iff_eq_map isNumeral_iff
  rw [← String.toList_inj, toList_dotted]
  simp only [Spells, numerals, exists_eq_right]

/-- Arcs of an object identifier, in terms of their own bounds. -/
theorem inRange_iff {first second : Nat} {more : List Nat} :
    InRange first second more ↔ first ≤ 2 ∧ (first < 2 → second < 40) ∧
      (∀ arc ∈ first :: second :: more, arc ≤ 2 ^ 53 - 1) ∧ 40 * first + second ≤ 2 ^ 53 - 1 := by
  have limit : Number.maxSafe = 2 ^ 53 - 1 := rfl
  have all : (∀ arc ∈ first :: second :: more, arc ≤ 2 ^ 53 - 1) ↔
      first ≤ 2 ^ 53 - 1 ∧ second ≤ 2 ^ 53 - 1 ∧ ∀ arc ∈ more, arc ≤ 2 ^ 53 - 1 := by
    rw [List.forall_mem_cons, List.forall_mem_cons]
  rw [all]
  constructor
  · rintro ⟨small, narrow, both, others⟩
    rw [limit] at both others
    exact ⟨small, narrow, ⟨by omega, by omega, others⟩, by omega⟩
  · rintro ⟨small, narrow, ⟨-, -, others⟩, both⟩
    exact ⟨small, narrow, by omega, by rwa [limit]⟩

/-- A text has content exactly if it spells arcs in range, and the content holds the first two arcs in one group. -/
theorem encode_eq_ok_iff {text : String} {octets : Octets} :
    encode text = .ok octets ↔ ∃ first second more, Spells text (first :: second :: more) ∧
      InRange first second more ∧ octets = ((40 * first + second) :: more).flatMap Base128.encode := by
  constructor
  · intro written
    obtain ⟨numbers, read, same⟩ := Except.bind_eq_ok.mp written
    cases same
    obtain ⟨first, second, more, range, spelled, rfl⟩ := subidentifiers_eq_ok read
    exact ⟨first, second, more, spells_iff.mpr spelled, range, by rw [Nat.mul_comm]⟩
  · rintro ⟨first, second, more, spelled, range, rfl⟩
    rw [spells_iff.mp spelled, Nat.mul_comm]
    exact Except.bind_eq_ok.mpr ⟨_, range.subidentifiers_eq, rfl⟩

/-- Octets are the groups of numbers exactly if they split into complete groups that hold these numbers. -/
theorem eq_flatMap_encode_iff {octets : Octets} {numbers : List Nat} :
    octets = numbers.flatMap Base128.encode ↔ ∃ groups : List Octets, octets = groups.flatten ∧
      List.Forall₂ (fun group n => Base128.Complete group ∧ Base128.value group = n) groups numbers := by
  have hold : ∀ groups : List Octets,
      List.Forall₂ (fun group n => Base128.Complete group ∧ Base128.value group = n) groups numbers ↔
        groups = numbers.map Base128.encode := fun _ => forall₂_iff_eq_map Base128.complete_iff
  simp only [hold, exists_eq_right, List.flatMap_def]

/-- Content is read exactly if it is not empty and splits into complete groups of safe integers. -/
theorem decode_isOk_iff (octets : Octets) :
    (∃ text, decode octets = .ok text) ↔ octets ≠ [] ∧ ∃ groups : List Octets, octets = groups.flatten ∧
      ∀ group ∈ groups, Base128.Complete group ∧ Base128.value group ≤ 2 ^ 53 - 1 := by
  constructor
  · rintro ⟨text, read⟩
    obtain ⟨numbers, all, rest⟩ := Except.bind_eq_ok.mp read
    obtain ⟨whole, bounds⟩ := readAll_eq_ok all
    refine ⟨?_, numbers.map Base128.encode, whole.trans List.flatMap_def, ?_⟩
    · rintro rfl
      rw [readAll] at all
      cases all
      cases rest
    · intro group member
      obtain ⟨n, known, rfl⟩ := List.mem_map.mp member
      rw [Base128.value_encode]
      exact ⟨Base128.complete_encode n, bounds n known⟩
  · rintro ⟨nonempty, groups, whole, each⟩
    have numbers : octets = (groups.map Base128.value).flatMap Base128.encode := by
      rw [whole, List.flatMap_def, List.map_map, List.map_congr_left (g := id), List.map_id]
      intro group member
      exact ((Base128.complete_iff group _).mp ⟨(each group member).1, rfl⟩).symm
    have bounds : ∀ n ∈ groups.map Base128.value, n ≤ Number.maxSafe := by
      intro n member
      obtain ⟨group, known, rfl⟩ := List.mem_map.mp member
      exact (each group known).2
    have read := readAll_encode octets.length bounds
    rw [← numbers] at read
    rw [decode, read]
    cases groups with
    | nil => exact absurd whole nonempty
    | cons head more => exact ⟨_, rfl⟩

/-- The dotted decimal texts of arcs in range and the contents of complete groups correspond one to one. A text in range
has content, of the length computed for it, and is read back from it; the first group holds forty times the first arc
plus the second arc, and one group each holds the others. Content is read exactly if it is not empty and splits into
complete groups of safe integers, and it is the content of the text read. -/
theorem text_content_bijection :
    (∀ text : String,
      ((∃ octets, encode text = .ok octets) ↔
        ∃ first second more, Spells text (first :: second :: more) ∧ first ≤ 2 ∧ (first < 2 → second < 40) ∧
          (∀ arc ∈ first :: second :: more, arc ≤ 2 ^ 53 - 1) ∧ 40 * first + second ≤ 2 ^ 53 - 1) ∧
      ∀ octets, encode text = .ok octets →
        width text = .ok octets.length ∧ decode octets = .ok text ∧
          ∃ first second more groups, Spells text (first :: second :: more) ∧ octets = groups.flatten ∧
            List.Forall₂ (fun group n => Base128.Complete group ∧ Base128.value group = n) groups
              ((40 * first + second) :: more)) ∧
    ∀ octets : Octets,
      ((∃ text, decode octets = .ok text) ↔
        octets ≠ [] ∧ ∃ groups : List Octets, octets = groups.flatten ∧
          ∀ group ∈ groups, Base128.Complete group ∧ Base128.value group ≤ 2 ^ 53 - 1) ∧
      ∀ text, decode octets = .ok text → encode text = .ok octets := by
  refine ⟨fun text => ⟨?_, fun octets written => ?_⟩, fun octets => ⟨decode_isOk_iff octets, fun _ => encode_of_decode⟩⟩
  · simp only [← inRange_iff, encode_eq_ok_iff]
    constructor
    · rintro ⟨octets, first, second, more, spelled, range, -⟩
      exact ⟨first, second, more, spelled, range⟩
    · rintro ⟨first, second, more, spelled, range⟩
      exact ⟨_, first, second, more, spelled, range, rfl⟩
  · obtain ⟨first, second, more, spelled, -, whole⟩ := encode_eq_ok_iff.mp written
    obtain ⟨groups, split, hold⟩ := eq_flatMap_encode_iff.mp whole
    have length : width text = .ok octets.length := by rw [width_eq, written]; rfl
    exact ⟨length, decode_encode written, first, second, more, groups, spelled, split, hold⟩

/-- The largest second arc leaves room for twice forty in the first group. -/
theorem text_content_of_largest_second_arc :
    encode "2.9007199254740911" = .ok [0x8f, 0xff, 0xff, 0xff, 0xff, 0xff, 0xff, 0x7f] ∧
      width "2.9007199254740911" = .ok 8 ∧
      decode [0x8f, 0xff, 0xff, 0xff, 0xff, 0xff, 0xff, 0x7f] = .ok "2.9007199254740911" := by
  have written : encode "2.9007199254740911" = .ok [0x8f, 0xff, 0xff, 0xff, 0xff, 0xff, 0xff, 0x7f] := by
    decide +kernel
  obtain ⟨length, back, -⟩ := (text_content_bijection.1 "2.9007199254740911").2 _ written
  exact ⟨written, length, back⟩

end Content.ObjectIdentifier
end Der
