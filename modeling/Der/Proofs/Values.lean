import Der.Codec.Structure
import Der.Codec.Tagging
import Der.Proofs.Results

namespace Der

namespace Slice

theorem unplaced_octets (s : Slice) : Fault.Unplaced s.octets :=
  (Fault.only_ok _).ite (Fault.unplaced_error _)

/-- A window that no write to a buffer changes does not look into the buffer. -/
theorem holder_ne_output {s : Slice} (apart : ∀ output, s.onOutput output = s) : s.holder ≠ .output := by
  intro shared
  have same : ({ s with source := 0 :: s.source } : Slice) = s := by
    have still := apart (0 :: s.source)
    rwa [onOutput, if_pos shared] at still
  have longer : (0 :: s.source).length = s.source.length := by
    rw [show 0 :: s.source = s.source from congrArg Slice.source same]
  exact Nat.succ_ne_self _ longer

/-- A window of its own on the octets that the window shows. One that has lost its source stays. -/
def shown (s : Slice) : Slice :=
  match s.octets with
  | .ok octets => ofOctets octets
  | .error _ => s

theorem shown_eq {s : Slice} {octets : Octets} (shows : s.octets = .ok octets) : s.shown = ofOctets octets := by
  rw [shown, shows]

theorem Backed.octets_eq {s : Slice} (backed : s.Backed) :
    s.octets = .ok ((s.source.drop s.start).take s.length) :=
  if_pos backed

theorem length_of_octets {s : Slice} {octets : Octets} (shows : s.octets = .ok octets) :
    s.Backed ∧ octets.length = s.length := by
  by_cases backed : s.Backed
  · rw [backed.octets_eq] at shows
    injection shows with same
    refine ⟨backed, ?_⟩
    rw [← same, List.length_take, List.length_drop]
    unfold Backed at backed
    omega
  · rw [Slice.octets, if_neg backed] at shows
    cases shows

@[simp] theorem octets_ofOctets (octets : Octets) : (ofOctets octets).octets = .ok octets := by
  have backed : (ofOctets octets).Backed := by simp [Backed, ofOctets]
  rw [backed.octets_eq]
  simp [ofOctets]

@[simp] theorem shown_ofOctets (octets : Octets) : (ofOctets octets).shown = ofOctets octets :=
  shown_eq (octets_ofOctets octets)

@[simp] theorem octets_shown (s : Slice) : s.shown.octets = s.octets := by
  cases shows : s.octets with
  | ok octets => rw [shown_eq shows, octets_ofOctets]
  | error fault => rw [shown, shows, shows]

@[simp] theorem length_shown (s : Slice) : s.shown.length = s.length := by
  cases shows : s.octets with
  | ok octets =>
    rw [shown_eq shows, ← (length_of_octets shows).2]
    rfl
  | error fault => rw [shown, shows]

theorem octets_dropFirst {s : Slice} {octets : Octets} {count : Nat} (shows : s.octets = .ok octets)
    (some : count ≤ octets.length) : (s.dropFirst count).octets = .ok (octets.drop count) := by
  obtain ⟨backed, length⟩ := length_of_octets shows
  have still : (s.dropFirst count).Backed := by
    unfold Backed at *
    simp only [dropFirst]
    omega
  rw [backed.octets_eq] at shows
  injection shows with same
  rw [still.octets_eq, ← same, List.drop_take, List.drop_drop]
  rfl

end Slice

namespace Record

variable {record : Record} {name other : String} {value : Value}

@[simp] theorem get?_insert_self : (record.insert name value).get? name = some value := by
  induction record with
  | nil => simp [insert, get?]
  | cons entry rest ih =>
    obtain ⟨key, held⟩ := entry
    by_cases same : key = name
    · simp [insert, get?, same]
    · have differs : (name == key) = false := beq_false_of_ne fun equal => same equal.symm
      simpa only [insert, if_neg same, get?, List.lookup_cons, differs] using ih

theorem get?_insert_of_ne (differs : other ≠ name) : (record.insert name value).get? other = record.get? other := by
  have unequal : (other == name) = false := beq_false_of_ne differs
  induction record with
  | nil => simp [insert, get?, List.lookup_cons, unequal]
  | cons entry rest ih =>
    obtain ⟨key, held⟩ := entry
    by_cases same : key = name
    · subst same
      simp only [insert, if_true, get?, List.lookup_cons, unequal]
    · simp only [insert, if_neg same, get?, List.lookup_cons]
      cases other == key with
      | true => rfl
      | false => exact ih

/-- Where no member is inherited, what is found in a record was given to it. -/
theorem member?_eq_own? (given : record.own? name = none → Inherited.ofName? name = none) :
    record.member? name = record.own? name := by
  rw [own?] at given ⊢
  rw [member?]
  cases found : record.get? name with
  | none =>
    rw [found] at given
    rw [given rfl]
    rfl
  | some held => cases held <;> rfl

/-- What a record was given is found in it. -/
theorem member?_of_own? (given : record.own? name = some value) : record.member? name = some value := by
  rw [own?] at given
  rw [member?]
  cases found : record.get? name with
  | none =>
    rw [found] at given
    cases given
  | some held =>
    rw [found] at given
    cases held <;> exact given

/-- What stands in the record was given to it, unless it is undefined. -/
theorem own?_of_get? (held : record.get? name = some value) (given : value ≠ .undefined) :
    record.own? name = some value := by
  rw [own?, held]
  cases value <;> first | rfl | exact absurd rfl given

theorem own?_of_absent (absent : record.get? name = none) : record.own? name = none := by
  rw [own?, absent]

theorem member?_of_get? (held : record.get? name = some value) (given : value ≠ .undefined) :
    record.member? name = some value :=
  member?_of_own? (own?_of_get? held given)

/-- What is found in a record stands in it, or it is inherited. -/
theorem get?_of_member? (found : record.member? name = some value) :
    record.get? name = some value ∨ ∃ x, Inherited.ofName? name = some x ∧ value = .inherited x := by
  rw [member?] at found
  cases held : record.get? name with
  | none =>
    rw [held] at found
    obtain ⟨x, known, rfl⟩ := Option.map_eq_some_iff.mp found
    exact Or.inr ⟨x, known, rfl⟩
  | some v =>
    rw [held] at found
    cases v <;> first | exact Or.inl found | cases found

theorem member?_of_absent (ordinary : Inherited.ofName? name = none) (absent : record.get? name = none) :
    record.member? name = none := by
  rw [member?, absent, ordinary]
  rfl

theorem get?_of_own? (given : record.own? name = some value) : record.get? name = some value := by
  rw [own?] at given
  cases found : record.get? name with
  | none =>
    rw [found] at given
    cases given
  | some held =>
    rw [found] at given
    cases held <;> first | exact given | cases given

theorem get?_assign_of_ne (differs : other ≠ name) : (record.assign name value).get? other = record.get? other := by
  rw [assign]
  split
  · rfl
  · exact get?_insert_of_ne differs

/-- What is found under a name to which a value has been assigned is that value, or what was there before. -/
theorem get?_assign_self {held : Value} (found : (record.assign name value).get? name = some held) :
    held = value ∨ record.get? name = some held := by
  rw [assign] at found
  split at found
  · exact Or.inr found
  · rw [get?_insert_self] at found
    exact Or.inl (Option.some.inj found).symm

theorem insert_of_fresh (fresh : record.get? name = none) : record.insert name value = record ++ [(name, value)] := by
  induction record with
  | nil => rfl
  | cons entry rest ih =>
    obtain ⟨key, held⟩ := entry
    by_cases same : key = name
    · simp [get?, same] at fresh
    · have differs : (name == key) = false := beq_false_of_ne fun equal => same equal.symm
      simp only [get?, List.lookup_cons, differs] at fresh
      rw [insert, if_neg same, ih fresh, List.cons_append]

/-- Nothing stands in the record under the name, and something can. -/
structure Free (record : Record) (name : String) : Prop where
  usual : name ≠ "__proto__"
  fresh : record.get? name = none

/-- What is assigned under a name where nothing stands comes last. -/
theorem Free.assign_eq (free : record.Free name) : record.assign name value = record ++ [(name, value)] := by
  rw [assign, if_neg free.usual, insert_of_fresh free.fresh]

theorem Free.get?_assign (free : record.Free name) : (record.assign name value).get? name = some value := by
  rw [assign, if_neg free.usual, get?_insert_self]

end Record

namespace Value

section

variable {change : Slice → Slice}

theorem mapItems_eq_map (change : Slice → Slice) (items : List Value) :
    mapItems change items = items.map (mapSlices change) := by
  induction items with
  | nil => rfl
  | cons item rest ih => rw [mapItems, ih, List.map_cons]

theorem mapEntries_eq_map (change : Slice → Slice) (entries : Record) :
    mapEntries change entries = entries.map fun entry => (entry.1, entry.2.mapSlices change) := by
  induction entries with
  | nil => rfl
  | cons entry rest ih =>
    obtain ⟨name, value⟩ := entry
    rw [mapEntries, ih, List.map_cons]

theorem get?_mapEntries (entries : Record) (name : String) :
    Record.get? (mapEntries change entries) name = (entries.get? name).map (mapSlices change) := by
  induction entries with
  | nil => rfl
  | cons entry rest ih =>
    obtain ⟨key, value⟩ := entry
    simp only [mapEntries, Record.get?, List.lookup_cons] at ih ⊢
    cases name == key with
    | true => rfl
    | false => exact ih

theorem member?_mapEntries (entries : Record) (name : String) :
    Record.member? (mapEntries change entries) name = (entries.member? name).map (mapSlices change) := by
  rw [Record.member?, Record.member?, get?_mapEntries]
  cases entries.get? name with
  | none => cases Inherited.ofName? name <;> rfl
  | some v => cases v <;> rfl

theorem mapEntries_ofItems (place : Nat) (items : List Value) :
    mapEntries change (Record.ofItems place items) = Record.ofItems place (mapItems change items) := by
  induction items generalizing place with
  | nil => rfl
  | cons item rest ih => rw [Record.ofItems, mapEntries, mapItems, Record.ofItems, ih]

theorem length_mapItems (items : List Value) : (mapItems change items).length = items.length := by
  rw [mapItems_eq_map, List.length_map]

/-- Changing the windows of a value changes those of its members, if windows keep their lengths. -/
theorem toRecord_mapSlices (keeps : ∀ s, (change s).length = s.length) (container : String) (v : Value) :
    (v.mapSlices change).toRecord container = (v.toRecord container).map (mapEntries change) := by
  cases v with
  | octets s => simp only [mapSlices, toRecord, keeps, Except.map, mapEntries]
  | list items => simp only [mapSlices, toRecord, Except.map, mapEntries_ofItems]
  | sparse before after =>
    simp only [mapSlices, toRecord, Except.map, length_mapItems, mapEntries_eq_map, List.map_append]
    simp only [← mapEntries_eq_map, mapEntries_ofItems]
  | inherited x => cases x <;> rfl
  | _ => rfl

mutual

theorem mapSlices_eq_self (same : ∀ s, change s = s) : ∀ v : Value, v.mapSlices change = v
  | octets s => by rw [mapSlices, same]
  | bits b => by rw [mapSlices, same]
  | any a => by rw [mapSlices, same, same]
  | list items => by rw [mapSlices, mapItems_eq_self same items]
  | sparse before after => by rw [mapSlices, mapItems_eq_self same before, mapItems_eq_self same after]
  | record entries => by rw [mapSlices, mapEntries_eq_self same entries]
  | null | undefined | boolean _ | number _ | text _ | utf16 _ | integer _ | time _ | inherited _ => rfl

theorem mapItems_eq_self (same : ∀ s, change s = s) : ∀ items : List Value, mapItems change items = items
  | [] => rfl
  | item :: rest => by rw [mapItems, mapSlices_eq_self same item, mapItems_eq_self same rest]

theorem mapEntries_eq_self (same : ∀ s, change s = s) :
    ∀ entries : List (String × Value), mapEntries change entries = entries
  | [] => rfl
  | (name, value) :: rest => by rw [mapEntries, mapSlices_eq_self same value, mapEntries_eq_self same rest]

end

end

/-- A value of a kind that a type is for: nothing inherited, no list with a hole, and not what is found in one. -/
def Plain : Value → Prop
  | undefined | inherited _ | sparse _ _ => False
  | _ => True

/-- A value none of whose windows looks into a buffer that is being written. -/
def Apart (v : Value) : Prop :=
  ∀ output, v.mapSlices (Slice.onOutput output) = v

namespace Apart

variable {v : Value} (apart : v.Apart)

include apart

/-- The items of a list that stands apart from a buffer stand apart from it. -/
theorem item {items : List Value} (is : v = .list items) : ∀ u ∈ items, u.Apart := by
  subst is
  intro u member output
  have same : mapItems (Slice.onOutput output) items = items := Value.list.inj (apart output)
  rw [mapItems_eq_map] at same
  exact List.map_inj_left.mp (same.trans (List.map_id items).symm) u member

/-- The members of a value that stands apart from a buffer stand apart from it. -/
theorem member {container name : String} {entries : Record} (is : v.toRecord container = .ok entries) {u : Value}
    (found : entries.member? name = some u) : u.Apart := by
  intro output
  have keeps : ∀ s, (Slice.onOutput output s).length = s.length := by
    intro s
    unfold Slice.onOutput
    split <;> rfl
  have same := toRecord_mapSlices keeps container v
  rw [apart output, is] at same
  have still : Record.member? (mapEntries (Slice.onOutput output) entries) name = _ :=
    member?_mapEntries entries name
  rw [← Except.ok.inj same, found] at still
  exact (Option.some.inj still).symm

theorem bits {b : BitString} (is : v = .bits b) : b.data.holder ≠ .output := by
  subst is
  exact Slice.holder_ne_output fun output => congrArg BitString.data (Value.bits.inj (apart output))

theorem octets {s : Slice} (is : v = .octets s) : s.holder ≠ .output := by
  subst is
  exact Slice.holder_ne_output fun output => Value.octets.inj (apart output)

theorem any {a : Any} (is : v = .any a) : a.encoded.holder ≠ .output := by
  subst is
  exact Slice.holder_ne_output fun output => congrArg Any.encoded (Value.any.inj (apart output))

end Apart

/-- A plain value that stands apart from the buffer that it is written into. -/
structure Regular (v : Value) : Prop where
  plain : v.Plain
  apart : v.Apart

/-- The value with each window replaced by one of its own on the same octets. -/
def shown (v : Value) : Value :=
  v.mapSlices Slice.shown

@[simp] theorem shown_octets (s : Slice) : (octets s).shown = octets s.shown := rfl

@[simp] theorem shown_bits (b : BitString) : (bits b).shown = bits ⟨b.unused, b.data.shown⟩ := rfl

@[simp] theorem shown_any (a : Any) : (any a).shown = any ⟨a.tag, a.value.shown, a.encoded.shown⟩ := rfl

theorem shown_list (items : List Value) : (list items).shown = list (items.map shown) := by
  rw [shown, mapSlices, mapItems_eq_map]
  rfl

theorem shown_sparse (before after : List Value) :
    (sparse before after).shown = sparse (before.map shown) (after.map shown) := by
  rw [shown, mapSlices, mapItems_eq_map, mapItems_eq_map]
  rfl

/-- The members of a record by content. -/
def shownEntries (entries : Record) : Record :=
  entries.map fun entry => (entry.1, entry.2.shown)

theorem mapEntries_shown (entries : Record) : mapEntries Slice.shown entries = shownEntries entries :=
  mapEntries_eq_map Slice.shown entries

theorem shown_record (entries : Record) : (record entries).shown = record (shownEntries entries) := by
  rw [shown, mapSlices, mapEntries_shown]

theorem get?_shownEntries (entries : Record) (name : String) :
    (shownEntries entries).get? name = (entries.get? name).map shown := by
  rw [← mapEntries_shown, get?_mapEntries]
  rfl

theorem shown_get?_of_shownEntries {first second : Record} (same : shownEntries first = shownEntries second)
    (name : String) : (first.get? name).map shown = (second.get? name).map shown := by
  rw [← get?_shownEntries, ← get?_shownEntries, same]

theorem member?_shownEntries (entries : Record) (name : String) :
    (shownEntries entries).member? name = (entries.member? name).map shown := by
  rw [← mapEntries_shown, member?_mapEntries]
  rfl

theorem shownEntries_insert (record : Record) (name : String) (value : Value) :
    shownEntries (record.insert name value) = Record.insert name value.shown (shownEntries record) := by
  induction record with
  | nil => rfl
  | cons entry rest ih =>
    by_cases same : entry.1 = name
    · simp only [Record.insert, if_pos same, shownEntries, List.map_cons]
    · simp only [Record.insert, if_neg same, shownEntries, List.map_cons] at ih ⊢
      rw [ih]

theorem shownEntries_assign (record : Record) (name : String) (value : Value) :
    shownEntries (record.assign name value) = (shownEntries record).assign name value.shown := by
  unfold Record.assign
  split
  · rfl
  · exact shownEntries_insert record name value

theorem toRecord_shown (container : String) (v : Value) :
    v.shown.toRecord container = (v.toRecord container).map shownEntries := by
  rw [shown, toRecord_mapSlices Slice.length_shown]
  cases v.toRecord container with
  | error fault => rfl
  | ok entries => exact congrArg Except.ok (mapEntries_shown entries)

/-- The windows that the value itself consists of still have their sources. -/
def Backed : Value → Prop
  | octets s => s.Backed
  | bits b => b.data.Backed
  | any a => a.encoded.Backed
  | _ => True

end Value

/-- The bit string can be written. -/
def BitString.Passes (b : BitString) : Prop :=
  ∃ data count, b.data.octets = .ok data ∧ BitString.check b.unused data = .ok count

/-- A condition that looks at the octets of a window only, not at where they are kept. -/
def Condition.ByContent (condition : Condition) : Prop :=
  ∀ v : Value, condition v.shown = condition v

end Der
