import Der.Keys.Rsa
import Der.Proofs.Layout
import Der.Proofs.Schema.Plain

namespace Der.Rsa

open Encoding Schema

/-- The encoding of a number. -/
def number (n : Nat) : Octets :=
  Element.integer n

/-- One of the primes after the second, with its exponent and coefficient. -/
structure OtherPrime where
  prime : Nat
  exponent : Nat
  coefficient : Nat

/-- The numbers in a private key. -/
structure PrivateKey where
  version : Int
  modulus : Nat
  publicExponent : Nat
  privateExponent : Nat
  prime1 : Nat
  prime2 : Nat
  exponent1 : Nat
  exponent2 : Nat
  coefficient : Nat
  otherPrimes : Option (List OtherPrime)

namespace OtherPrime

/-- The numbers in the order in which they are written. -/
def numbers (p : OtherPrime) : List Nat :=
  [p.prime, p.exponent, p.coefficient]

/-- The encoding of a prime. -/
def octets (p : OtherPrime) : Octets :=
  Element.sequence (p.numbers.map number)

end OtherPrime

namespace PrivateKey

variable (key : PrivateKey)

/-- The numbers between the version and the other primes, in the order in which they are written. -/
def numbers : List Nat :=
  [key.modulus, key.publicExponent, key.privateExponent, key.prime1, key.prime2, key.exponent1, key.exponent2,
    key.coefficient]

/-- The encodings of the parts of a key. -/
def parts : List Octets :=
  Element.integer key.version :: key.numbers.map number ++
    (key.otherPrimes.map fun primes => Element.sequence (primes.map OtherPrime.octets)).toList

/-- The encoding of a key. -/
def octets : Octets :=
  Element.sequence key.parts

/-- No length in the encoding is too large. The outermost one is the largest. -/
def Fits : Prop :=
  key.parts.flatten.length ≤ Length.max

/-- The version is supported, and other primes are listed just where it announces them, at least one. -/
structure Valid : Prop where
  supported : key.version = 0 ∨ key.version = 1
  announced : key.otherPrimes.isSome = true ↔ key.version = 1
  listed : ∀ primes, key.otherPrimes = some primes → primes ≠ []

end PrivateKey

/-- The value is a window on octets that denote the number. -/
def IsMagnitude (v : Value) (n : Nat) : Prop :=
  ∃ window octets, v = .octets window ∧ window.octets = .ok octets ∧ Octets.toNat octets = n

/-- The members of these names are windows on the numbers. -/
def HasMagnitudes (entries : Record) (names : List String) (numbers : List Nat) : Prop :=
  List.Forall₂ (fun name n => ∃ v, entries.get? name = some v ∧ IsMagnitude v n) names numbers

/-- The members of a prime after the second. -/
def primeNumbers : List String :=
  ["prime", "exponent", "coefficient"]

/-- The value is a record of the numbers of the prime. -/
def IsOtherPrime (v : Value) (p : OtherPrime) : Prop :=
  ∃ entries, v = .record entries ∧ HasMagnitudes entries primeNumbers p.numbers

/-- The record lists the other primes, if there are any to list. -/
def HasOtherPrimes (entries : Record) : Option (List OtherPrime) → Prop
  | none => entries.get? "otherPrimeInfos" = none
  | some primes =>
    ∃ items, entries.get? "otherPrimeInfos" = some (.list items) ∧ List.Forall₂ IsOtherPrime items primes

/-- The record has a safe version, windows on the numbers of the key, and its other primes. -/
structure Denotes (entries : Record) (key : PrivateKey) : Prop where
  version : entries.get? "version" = some (.number (.integer key.version))
  safe : key.version.natAbs ≤ Number.maxSafe
  numbers : HasMagnitudes entries privateNumbers key.numbers
  others : HasOtherPrimes entries key.otherPrimes

/-- A window on the number in the fewest octets. -/
def magnitude (n : Nat) : Value :=
  .octets (.ofOctets (Octets.ofNat (Octets.width n) n))

/-- Windows on numbers in the fewest octets. -/
def magnitudes (names : List String) (numbers : List Nat) : Record :=
  List.zipWith (fun name n => (name, magnitude n)) names numbers

/-- The record of a prime, with minimal magnitudes. -/
def OtherPrime.value (p : OtherPrime) : Value :=
  .record (magnitudes primeNumbers p.numbers)

/-- The record of a key, with minimal magnitudes. -/
def PrivateKey.entries (key : PrivateKey) : Record :=
  ("version", .number (.integer key.version)) :: magnitudes privateNumbers key.numbers ++
    (key.otherPrimes.map fun primes => ("otherPrimeInfos", .list (primes.map OtherPrime.value))).toList

/-- Fields for non-negative numbers. -/
def numberFields (names : List String) : List (Field Schema) :=
  names.map (Field.required · (.primitive .unsigned))

/-- The field for the version of a private key. -/
def versionField : Field Schema :=
  .required "version" (.refine (.primitive .safeInteger) versionCondition)

/-- The field for the primes after the second. -/
def primesField : Field Schema :=
  .optional "otherPrimeInfos" otherPrimeInfos

/-- The fields of private keys. -/
def privateFields : List (Field Schema) :=
  versionField :: numberFields privateNumbers ++ [primesField]

theorem otherPrimeInfo_eq : otherPrimeInfo = .plainSequence "OtherPrimeInfo" (numberFields primeNumbers) := rfl

theorem privateKey_eq : privateKey = .refine (.plainSequence "RSAPrivateKey" privateFields) primesCondition := rfl

theorem mem_privateFields {f : Field Schema} (field : f ∈ privateFields) :
    f = versionField ∨ (∃ name ∈ privateNumbers, f = .required name (.primitive .unsigned)) ∨ f = primesField := by
  rcases List.mem_append.mp field with front | last
  · rcases List.mem_cons.mp front with rfl | number
    · exact Or.inl rfl
    · obtain ⟨name, member, rfl⟩ := List.mem_map.mp number
      exact Or.inr (Or.inl ⟨name, member, rfl⟩)
  · exact Or.inr (Or.inr (List.mem_singleton.mp last))

theorem versionField_mem : versionField ∈ privateFields :=
  List.mem_cons_self

theorem primesField_mem : primesField ∈ privateFields :=
  List.mem_append_right _ (List.mem_singleton.mpr rfl)

theorem numberFields_type {names : List String} {f : Field Schema} (field : f ∈ numberFields names) :
    f.type = .primitive .unsigned := by
  obtain ⟨name, _, rfl⟩ := List.mem_map.mp field
  rfl

theorem declared_of_numbers (container : String) (names : List String)
    (accepted : declareSequence container none none (numberFields names) =
      .ok (.plainSequence container (numberFields names))) :
    (Schema.plainSequence container (numberFields names)).Declared := by
  refine .sequence ?_ accepted
  intro f field
  rw [numberFields_type field]
  exact .primitive _

theorem otherPrimeInfo_declared : otherPrimeInfo.Declared :=
  declared_of_numbers "OtherPrimeInfo" primeNumbers rfl

theorem privateKey_declared : privateKey.Declared := by
  have accepted : declareSequence "RSAPrivateKey" none none privateFields =
      .ok (.plainSequence "RSAPrivateKey" privateFields) := rfl
  refine .refine _ (.sequence ?_ accepted) rfl
  intro f field
  rcases mem_privateFields field with rfl | ⟨name, _, rfl⟩ | rfl
  · exact .refine _ (.primitive _) rfl
  · exact .primitive _
  · exact .sequenceOf _ none none _ otherPrimeInfo_declared

theorem versionCondition_byContent : versionCondition.ByContent := by
  intro v
  cases v <;> rfl

theorem primesCondition_byContent : primesCondition.ByContent := by
  intro v
  cases v with
  | record entries =>
    have version : isMultiPrime (Value.shownEntries entries) = isMultiPrime entries := by
      rw [isMultiPrime, Value.get?_shownEntries]
      cases entry : Record.get? entries "version" with
      | none => simp only [isMultiPrime, entry, Option.map_none]
      | some v => cases v <;> simp only [isMultiPrime, entry, Option.map_some] <;> rfl
    rw [Value.shown_record, primesCondition, version, Value.get?_shownEntries, Option.isSome_map]
    rfl
  | _ => rfl

theorem sequence_wellFormed : (constructedTag none none sequenceNumber).WellFormed :=
  ⟨0, 16, by decide, by decide, rfl, rfl⟩

theorem names_numberFields (names : List String) : (numberFields names).map Field.name = names := by
  have same : (numberFields names).map Field.name = names.map id := List.map_map
  rw [same, List.map_id]

theorem plain_of_numbers (container : String) (names : List String) (distinct : names.Nodup)
    (ordinary : ∀ name ∈ names, Inherited.ofName? name = none) :
    (Schema.plainSequence container (numberFields names)).Plain := by
  rw [← names_numberFields names] at distinct ordinary
  refine plain_sequence sequence_wellFormed distinct ordinary ?_
  intro f field
  rw [numberFields_type field]
  exact plain_primitive _

theorem otherPrimeInfos_plain : otherPrimeInfos.Plain :=
  (plain_of_numbers "OtherPrimeInfo" primeNumbers (by decide) (by decide)).sequenceOf _ sequence_wellFormed _

theorem privateKey_plain : privateKey.Plain := by
  refine Plain.refine ?_ primesCondition_byContent
  refine plain_sequence sequence_wellFormed (by decide : (privateFields.map Field.name).Nodup) (by decide) ?_
  intro f field
  rcases mem_privateFields field with rfl | ⟨name, _, rfl⟩ | rfl
  · exact (plain_primitive _).refine versionCondition_byContent
  · exact plain_primitive _
  · exact otherPrimeInfos_plain

section

variable {entries : Record} {container : String} {members : List Member} {octets : Octets} {v : Value}

theorem IsMagnitude.ne_undefined {n : Nat} (is : IsMagnitude v n) : v ≠ .undefined := by
  obtain ⟨window, octets, rfl, _⟩ := is
  nofun

theorem lays_magnitude {n : Nat} (is : IsMagnitude v n) : (Schema.primitive .unsigned).codec.Lays v (number n) := by
  obtain ⟨window, octets, rfl, shows, rfl⟩ := is
  exact (Primitive.unsigned_lays shows).element rfl

theorem lays_numbers {names : List String} {numbers : List Nat} (has : HasMagnitudes entries names numbers)
    (others : Member.Lays container members entries octets) :
    Member.Lays container ((fieldCodecs (numberFields names)).map Member.ofField ++ members) entries
      ((numbers.map number).flatten ++ octets) := by
  induction has with
  | nil => exact others
  | cons first _ ih =>
    obtain ⟨v, present, is⟩ := first
    rw [List.map_cons, List.flatten_cons, List.append_assoc]
    have found := Record.member?_of_get? present is.ne_undefined
    exact ih.put (m := .ofField (.required _ _)) found rfl (lays_magnitude is)

/-- A record of numbers only. -/
theorem lays_only_numbers {names : List String} {numbers : List Nat} (has : HasMagnitudes entries names numbers) :
    Member.Lays container ((fieldCodecs (numberFields names)).map Member.ofField) entries
      (numbers.map number).flatten := by
  have lays : Member.Lays container _ _ _ := lays_numbers has Member.lays_nil
  rwa [List.append_nil, List.append_nil] at lays

theorem lays_otherPrime {p : OtherPrime} (is : IsOtherPrime v p) : otherPrimeInfo.codec.Lays v p.octets := by
  obtain ⟨entries, rfl, has⟩ := is
  exact plainSequence_lays (lays_only_numbers has)

theorem admits_iff {count : Nat} : (SizeBounds.mk (some 1) none).Admits count ↔ count ≠ 0 := by
  have less : Number.less count 1 = decide ((count : Int) < 1) := Number.less_integer _ _
  simp only [SizeBounds.Admits, Option.mem_some_iff, forall_eq', less, decide_eq_true_eq]
  constructor
  · intro parts
    have large := parts.1
    omega
  · intro some
    exact ⟨by omega, nofun⟩

theorem lays_otherPrimes {items : List Value} {primes : List OtherPrime} (each : List.Forall₂ IsOtherPrime items primes)
    (listed : primes ≠ []) :
    otherPrimeInfos.codec.Lays (.list items) (Element.sequence (primes.map OtherPrime.octets)) := by
  have admitted : (SizeBounds.mk (some 1) none).Admits items.length := by
    rw [admits_iff, each.length_eq]
    exact Nat.ne_of_gt (List.length_pos_iff.mpr listed)
  have laid : List.Forall₂ otherPrimeInfo.codec.Lays items (primes.map OtherPrime.octets) := by
    rw [List.forall₂_map_right_iff]
    exact each.imp fun v p => lays_otherPrime
  have content := TaggedCodec.sequenceOf_lays "OtherPrimeInfos" (constructedTag none none sequenceNumber) admitted laid
  exact content.element rfl

theorem versionCondition_eq_none {n : Int} : versionCondition (.number (.integer n)) = none ↔ n = 0 ∨ n = 1 := by
  have same : ∀ k : Nat, Number.integer n = (k : Number) ↔ n = k := fun k => Number.integer.injEq n k ▸ Iff.rfl
  simp only [versionCondition, same]
  by_cases supported : n = (twoPrime : Nat) ∨ n = (multiPrime : Nat)
  · rw [if_pos supported]
    exact iff_of_true rfl supported
  · rw [if_neg supported]
    exact iff_of_false nofun supported

variable {key : PrivateKey}

theorem Denotes.isMultiPrime (denotes : Denotes entries key) : isMultiPrime entries = decide (key.version = 1) := by
  rw [Rsa.isMultiPrime, denotes.version, Bool.eq_iff_iff, decide_eq_true_iff, decide_eq_true_iff]
  exact Number.integer.injEq key.version 1 ▸ Iff.rfl

theorem HasOtherPrimes.isSome {primes : Option (List OtherPrime)} (has : HasOtherPrimes entries primes) :
    (entries.get? "otherPrimeInfos").isSome = primes.isSome := by
  cases primes with
  | none =>
    rw [HasOtherPrimes] at has
    rw [has]
    rfl
  | some primes =>
    obtain ⟨items, present, _⟩ := has
    rw [present]
    rfl

theorem Denotes.primesCondition_eq_none (denotes : Denotes entries key) :
    primesCondition (.record entries) = none ↔ (key.otherPrimes.isSome = true ↔ key.version = 1) := by
  rw [primesCondition, denotes.isMultiPrime, denotes.others.isSome]
  by_cases multi : key.version = 1 <;> cases key.otherPrimes <;> simp [multi]

/-- The parts of the encoding of a valid key are written for the record of the key. -/
theorem Denotes.lays_fields (denotes : Denotes entries key) (valid : key.Valid) :
    Member.Lays "RSAPrivateKey" ((fieldCodecs privateFields).map Member.ofField) entries key.parts.flatten := by
  have version : (Schema.refine (.primitive .safeInteger) versionCondition).codec.Lays
      (.number (.integer key.version)) (Element.integer key.version) := by
    have lays := Primitive.safeInteger_lays denotes.safe
    exact (lays.refine (versionCondition_eq_none.mpr valid.supported)).element rfl
  have others : Member.Lays "RSAPrivateKey" [.ofField (.optional "otherPrimeInfos" otherPrimeInfos.codec)] entries
      (key.otherPrimes.map fun primes => Element.sequence (primes.map OtherPrime.octets)).toList.flatten := by
    have has := denotes.others
    cases listed : key.otherPrimes with
    | none =>
      rw [listed] at has
      exact Member.lays_nil.skip (Record.member?_of_absent rfl has) rfl
    | some primes =>
      rw [listed] at has
      obtain ⟨items, present, each⟩ := has
      have found := Record.member?_of_get? present nofun
      exact Member.lays_nil.put found rfl (lays_otherPrimes each (valid.listed primes listed))
  have found := Record.member?_of_get? denotes.version nofun
  have whole := (lays_numbers denotes.numbers others).put (m := .ofField (.required "version" _)) found rfl version
  rw [← List.flatten_append, ← List.flatten_cons] at whole
  exact whole

theorem Denotes.lays (denotes : Denotes entries key) (valid : key.Valid) :
    TaggedCodec.Lays (.refine (.sequence "RSAPrivateKey" (constructedTag none none sequenceNumber)
      (fieldCodecs privateFields)) primesCondition) (.record entries) key.parts.flatten := by
  have inner : TaggedCodec.Lays (.sequence "RSAPrivateKey" (constructedTag none none sequenceNumber)
      (fieldCodecs privateFields)) (.record entries) key.parts.flatten := (denotes.lays_fields valid).content
  exact inner.refine (denotes.primesCondition_eq_none.mpr valid.announced)

/-- A key whose record can be measured is valid. -/
theorem Denotes.valid_of_measured (denotes : Denotes entries key) {n : Nat}
    (measured : privateKey.codec.encodedLength (.record entries) = .ok n) : key.Valid := by
  have satisfied := privateKey_declared.checks.encodedLength measured
  have version : versionCondition (.number (.integer key.version)) = none :=
    satisfied _ _ (.refine (.sequence rfl versionField_mem (Record.own?_of_get? denotes.version nofun) (.self _ _)))
  refine ⟨versionCondition_eq_none.mp version, denotes.primesCondition_eq_none.mp (satisfied _ _ (.self _ _)), ?_⟩
  intro primes listed
  have has := denotes.others
  rw [listed] at has
  obtain ⟨items, present, each⟩ := has
  have bounded : otherPrimeInfos.Meets (.list items) :=
    satisfied _ _ (.refine (.sequence rfl primesField_mem (Record.own?_of_get? present nofun) (.self _ _)))
  obtain ⟨_, same, admitted⟩ := bounded
  cases same
  rw [List.length_map] at admitted
  rw [admits_iff, each.length_eq] at admitted
  exact List.length_pos_iff.mp (Nat.pos_of_ne_zero admitted)

/-- What is written for the record of a key is the encoding of the key. It is written just if the key is valid and the
encoding is not too long. -/
theorem Denotes.yields_iff (denotes : Denotes entries key) :
    Yields (privateKey.codec.encodedLength (.record entries)) (privateKey.codec.encode (.record entries)) octets ↔
      key.Valid ∧ key.Fits ∧ octets = key.octets := by
  constructor
  · intro yields
    have valid := denotes.valid_of_measured yields.measured
    exact ⟨valid, ((denotes.lays valid).yields_iff rfl).mp yields⟩
  · intro parts
    obtain ⟨valid, laid⟩ := parts
    exact ((denotes.lays valid).yields_iff rfl).mpr laid

end

section

variable {entries : Record} {container : String} {v : Value} {n : Nat}

end

section

variable {entries : Record} {key : PrivateKey} {v : Value}

theorem IsMagnitude.shown_normal {n : Nat} (is : IsMagnitude v n) :
    ((Schema.primitive .unsigned).normal v).shown = magnitude n := by
  obtain ⟨window, octets, rfl, shows, rfl⟩ := is
  have trimmed : (Schema.primitive .unsigned).normal (.octets window) =
      .octets (.ofOctets (Content.Integer.trim octets)) := by
    change Value.octets (ContentRule.trimmed window) = _
    rw [ContentRule.trimmed, shows]
  rw [trimmed, Value.shown_octets, Slice.shown_ofOctets, Content.Integer.trim_eq_ofNat]
  rfl

theorem shown_numbers {names : List String} {numbers : List Nat} (has : HasMagnitudes entries names numbers) :
    Value.shownEntries (Slot.entries (slots (numberFields names)) entries) = magnitudes names numbers := by
  rw [slots_eq_slot]
  induction has with
  | nil => rfl
  | @cons name n names numbers first _ ih =>
    obtain ⟨v, present, is⟩ := first
    have entry := Field.entry_of_present (f := .required name (.primitive .unsigned)) rfl present is.ne_undefined
    rw [numberFields, List.map_cons, List.map_cons, Slot.entries_cons, entry, Value.shownEntries_append]
    rw [numberFields] at ih
    rw [ih]
    change [(name, ((Schema.primitive .unsigned).normal v).shown)] ++ _ = _
    rw [is.shown_normal]
    rfl

theorem IsOtherPrime.shown_normal {p : OtherPrime} (is : IsOtherPrime v p) :
    (otherPrimeInfo.normal v).shown = p.value := by
  obtain ⟨entries, rfl, has⟩ := is
  change (Value.record (Slot.entries (slots (numberFields primeNumbers)) entries)).shown = _
  rw [Value.shown_record, shown_numbers has]
  rfl

theorem shown_otherPrimes {items : List Value} {primes : List OtherPrime}
    (each : List.Forall₂ IsOtherPrime items primes) :
    (otherPrimeInfos.normal (.list items)).shown = .list (primes.map OtherPrime.value) := by
  change (Value.list (items.map otherPrimeInfo.normal)).shown = _
  rw [Value.shown_list, List.map_map]
  congr 1
  induction each with
  | nil => rfl
  | cons first _ ih => rw [List.map_cons, List.map_cons, ih, Function.comp_apply, first.shown_normal]

/-- The record of a key is read back with minimal magnitudes. -/
theorem Denotes.shown_normal (denotes : Denotes entries key) :
    (privateKey.normal (.record entries)).shown = .record key.entries := by
  have version := Field.entry_of_present (f := versionField) rfl denotes.version nofun
  have others : Value.shownEntries (Slot.entries (slots [primesField]) entries) =
      (key.otherPrimes.map fun primes => ("otherPrimeInfos", .list (primes.map OtherPrime.value))).toList := by
    have has := denotes.others
    rw [slots_eq_slot, List.map_singleton, Slot.entries_cons]
    cases listed : key.otherPrimes with
    | none =>
      rw [listed] at has
      rw [Field.entry_of_absent (f := primesField) rfl has]
      rfl
    | some primes =>
      rw [listed] at has
      obtain ⟨items, present, each⟩ := has
      rw [Field.entry_of_present (f := primesField) rfl present nofun]
      change [("otherPrimeInfos", (otherPrimeInfos.normal (.list items)).shown)] = _
      rw [shown_otherPrimes each]
      rfl
  change (Value.record (Slot.entries (slots privateFields) entries)).shown = _
  rw [Value.shown_record, PrivateKey.entries, ← shown_numbers denotes.numbers, ← others]
  congr 1
  rw [slots_eq_slot, privateFields, List.map_append, List.map_cons, Slot.entries, List.filterMap_append,
    List.filterMap_cons, version, Value.shownEntries_append]
  rw [slots_eq_slot, slots_eq_slot]
  rfl

/-- The minimal magnitude of a number denotes it. -/
theorem isMagnitude_magnitude (n : Nat) : IsMagnitude (magnitude n) n :=
  ⟨_, _, rfl, Slice.octets_ofOctets _, Octets.toNat_ofNat_of_lt (Octets.lt_pow_width n)⟩

/-- Among other members with other names, minimal magnitudes are found under their names. -/
theorem hasMagnitudes_magnitudes (front back : Record) {names : List String} {numbers : List Nat}
    (same : names.length = numbers.length) (distinct : names.Nodup) (fresh : ∀ name ∈ names, front.get? name = none) :
    HasMagnitudes (front ++ magnitudes names numbers ++ back) names numbers := by
  -- The entries that have been passed become a part of the front, which has none of the names that are left.
  induction names generalizing numbers front with
  | nil =>
    rw [List.eq_nil_of_length_eq_zero same.symm]
    exact .nil
  | cons name rest ih =>
    obtain ⟨n, numbers, rfl⟩ := List.exists_cons_of_length_eq_add_one same.symm
    obtain ⟨apart, distinct⟩ := List.nodup_cons.mp distinct
    have absent := fresh name List.mem_cons_self
    rw [Record.get?] at absent
    refine .cons ⟨magnitude n, ?_, isMagnitude_magnitude n⟩ ?_
    · rw [Record.get?, List.lookup_append, List.lookup_append, absent]
      simp [magnitudes]
    · have more := ih (front ++ [(name, magnitude n)]) (Nat.succ.inj same) distinct ?_
      · rwa [List.append_assoc front] at more
      · intro other later
        have differs : (other == name) = false := beq_false_of_ne fun equal => apart (equal ▸ later)
        have absent := fresh other (List.mem_cons_of_mem _ later)
        rw [Record.get?] at absent
        rw [Record.get?, List.lookup_append, absent]
        simp [List.lookup_cons, differs]

theorem isOtherPrime_value (p : OtherPrime) : IsOtherPrime p.value p := by
  have has : HasMagnitudes ([] ++ magnitudes primeNumbers p.numbers ++ []) primeNumbers p.numbers :=
    hasMagnitudes_magnitudes [] [] rfl (by decide) fun _ _ => rfl
  rw [List.append_nil] at has
  exact ⟨_, rfl, has⟩

/-- The record with minimal magnitudes is one of the records of the key. -/
theorem PrivateKey.Valid.denotes (valid : key.Valid) : Denotes key.entries key where
  version := rfl
  safe := by
    rcases valid.supported with same | same <;> rw [same] <;> decide
  numbers := by
    refine hasMagnitudes_magnitudes [_] _ rfl (by decide) ?_
    intro name member
    have differs : (name == "version") = false := by
      refine beq_false_of_ne ?_
      rintro rfl
      exact absurd member (by decide)
    simp [Record.get?, List.lookup_cons, differs]
  others := by
    rw [PrivateKey.entries]
    cases key.otherPrimes with
    | none => rfl
    | some primes =>
      refine ⟨primes.map OtherPrime.value, rfl, ?_⟩
      rw [List.forall₂_map_left_iff, List.forall₂_same]
      exact fun p _ => isOtherPrime_value p

/-- A list of other primes has no component with a condition. -/
theorem otherPrimeInfos_unconditional {inner : Schema} {condition : Condition} {u : Value} :
    ¬ otherPrimeInfos.Component v (.refine inner condition) u := by
  intro part
  rw [otherPrimeInfos, declareSequenceOf, otherPrimeInfo_eq, plainSequence] at part
  cases part with
  | sequenceOf elements element within =>
    cases within with
    | sequence members field entry within =>
      rw [numberFields_type field] at within
      cases within

/-- The conditions of private keys accept what is read back for a valid key. -/
theorem PrivateKey.Valid.regular (valid : key.Valid) : privateKey.Regular (.record key.entries) := by
  have denotes := valid.denotes
  refine privateKey_plain.regular ?_
  intro inner condition u part
  rw [privateKey_eq, plainSequence] at part
  cases part with
  | self =>
    -- The condition sees no more of a value than what is shown of it.
    calc primesCondition (privateKey.normal (.record key.entries))
      _ = primesCondition (privateKey.normal (.record key.entries)).shown := (primesCondition_byContent _).symm
      _ = primesCondition (.record key.entries) := by rw [denotes.shown_normal]
      _ = none := denotes.primesCondition_eq_none.mpr valid.announced
  | refine within =>
    cases within with
    | sequence members field entry within =>
      cases members
      rcases mem_privateFields field with rfl | ⟨name, _, rfl⟩ | rfl
      · cases entry.symm.trans (Record.own?_of_get? denotes.version nofun)
        cases within with
        | self => exact versionCondition_eq_none.mpr valid.supported
        | refine within => cases within
      · cases within
      · exact absurd within otherPrimeInfos_unconditional

/-- The encoding of a valid key is parsed as the record of the key with minimal magnitudes. -/
theorem PrivateKey.Valid.parse (valid : key.Valid) (fits : key.Fits) {maxDepth : Number}
    (enough : ¬ maxDepth.less 3 = true) :
    ∃ v, Document.parse privateKey.codec maxDepth key.octets = .ok v ∧ v.shown = .record key.entries := by
  have yields := valid.denotes.yields_iff.mpr ⟨valid, fits, rfl⟩
  obtain ⟨v, parsed, same⟩ := privateKey_plain.parse_of_yields privateKey_declared enough valid.regular yields
  exact ⟨v, parsed, same.trans valid.denotes.shown_normal⟩

end

end Der.Rsa
