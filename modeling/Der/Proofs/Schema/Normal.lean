import Der.Proofs.Codec.ContentRule
import Der.Proofs.Reading
import Der.Proofs.Schema.Declared

namespace Der

/-- A member with what becomes of its values. -/
structure Slot where
  member : Member
  normal : Value → Value

namespace Slot

/-- The entry that is read for a member of a record. A member that is absent, or has the element of the default,
becomes the declared default, if there is one. -/
def entry (record : Record) (s : Slot) : Option (String × Value) :=
  match record.own? s.member.name with
  | none => s.member.presence.default?.map (s.member.name, ·)
  | some v =>
    if s.member.isDefault v = .ok true then s.member.presence.default?.map (s.member.name, ·)
    else some (s.member.name, s.normal v)

/-- The entries that are read for the members of a record, in the order of the members. -/
def entries (slots : List Slot) (record : Record) : Record :=
  slots.filterMap (entry record)

/-- The slots in the canonical order of their members. -/
def canonical (slots : List Slot) : List Slot :=
  slots.mergeSort fun a b =>
    match a.member.codec.tag?, b.member.codec.tag? with
    | some s, some t => !(Number.less 0 (s.compare t))
    | _, _ => true

/-- The normal form of a record. -/
def normalRecord (container : String) (slots : List Slot) (v : Value) : Value :=
  match v.toRecord container with
  | .ok record => .record (entries slots record)
  | .error _ => v

end Slot

namespace Collection

/-- An element with its octets and its normal form. One that cannot be written counts for no octets. -/
def normalElement (item : Codec) (normal : Value → Value) (v : Value) : Octets × Value :=
  ((item.toOctets v).toOption.getD [], normal v)

/-- The normal forms of elements that are written in order. -/
def normalInOrder (normal : Value → Value) : Value → Value
  | .list items => .list (items.map normal)
  | v => v

/-- Elements in the order of their octets. -/
def sortedElements (item : Codec) (normal : Value → Value) (items : List Value) : List (Octets × Value) :=
  (items.map (normalElement item normal)).mergeSort fun a b => Octets.compare a.1 b.1 ≤ 0

/-- The normal forms of elements that are sorted by their octets. -/
def normalSorted (item : Codec) (normal : Value → Value) : Value → Value
  | .list items => .list ((sortedElements item normal items).map Prod.snd)
  | v => v

end Collection

namespace Schema

mutual

/-- The value that is read back for a value of a type. -/
def normal : Schema → Value → Value
  | primitive p => p.normal
  | sequence name _ fields => Slot.normalRecord name (slots fields)
  | set name _ fields => Slot.normalRecord name (Slot.canonical (slots fields))
  | sequenceOf _ _ _ item => Collection.normalInOrder item.normal
  | setOf _ _ _ item => Collection.normalSorted item.codec item.normal
  | explicit _ _ inner | implicit _ _ _ inner | refine inner _ => inner.normal
  | time | any | custom _ _ _ | foreign _ => id

/-- The members of the fields of a type, with the normal forms of their values. -/
def slots : List (Field Schema) → List Slot
  | [] => []
  | ⟨name, presence, type⟩ :: rest => ⟨.ofField ⟨name, presence, type.codec⟩, type.normal⟩ :: slots rest

end

theorem slots_eq_map (fields : List (Field Schema)) :
    slots fields = fields.map fun f => ⟨.ofField (f.map codec), f.type.normal⟩ := by
  induction fields with
  | nil => rfl
  | cons f rest ih =>
    rw [slots, ih]
    rfl

mutual

/-- How deep scopes are nested when a value of the type is read. -/
def layers : Schema → Nat
  | sequence _ _ fields | set _ _ fields => fieldLayers fields + 1
  | sequenceOf _ _ _ item | setOf _ _ _ item => item.layers + 1
  | explicit _ _ inner => inner.layers + 1
  | implicit _ _ _ inner | refine inner _ => inner.layers
  | primitive _ | time | any | custom _ _ _ | foreign _ => 0

/-- How deep scopes are nested when the fields of a type are read. -/
def fieldLayers : List (Field Schema) → Nat
  | [] => 0
  | ⟨_, _, type⟩ :: rest => max type.layers (fieldLayers rest)

end

theorem layers_le_fieldLayers {fields : List (Field Schema)} {f : Field Schema} (field : f ∈ fields) :
    f.type.layers ≤ fieldLayers fields := by
  induction fields with
  | nil => cases field
  | cons g rest ih =>
    rw [fieldLayers]
    rcases List.mem_cons.mp field with rfl | later
    · exact Nat.le_max_left _ _
    · exact (ih later).trans (Nat.le_max_right _ _)

/-- Fixed tags in the type can be written. -/
def Tagged (T : Schema) : Prop :=
  ∀ S tag, T.Contains S → S.codec.tag? = some tag → tag.WellFormed

theorem Tagged.child {T S : Schema} (tagged : T.Tagged) (direct : S ∈ T.children) : S.Tagged :=
  fun U tag within => tagged U tag (.child direct within)

end Schema

/-- The parts up to the first that may not be absent. -/
def Presence.reach {α : Type} (presence : α → Presence) : List α → List α
  | [] => []
  | part :: rest => if (presence part).mayBeAbsent then part :: reach presence rest else [part]

theorem Presence.mem_reach_cons {α : Type} {presence : α → Presence} {first part : α} {rest : List α} :
    part ∈ reach presence (first :: rest) ↔
      part = first ∨ (presence first).mayBeAbsent = true ∧ part ∈ reach presence rest := by
  rw [reach]
  by_cases optional : (presence first).mayBeAbsent = true
  · rw [if_pos optional, List.mem_cons, and_iff_right optional]
  · rw [if_neg optional, List.mem_singleton]
    exact (or_iff_left fun later => optional later.1).symm

theorem Presence.mem_of_reach {α : Type} {presence : α → Presence} {parts : List α} {part : α}
    (reached : part ∈ reach presence parts) : part ∈ parts := by
  induction parts with
  | nil => cases reached
  | cons first rest ih =>
    rcases mem_reach_cons.mp reached with rfl | ⟨_, later⟩
    · exact List.mem_cons_self
    · exact List.mem_cons_of_mem _ (ih later)

theorem Presence.reach_map {α β : Type} (presence : β → Presence) (f : α → β) (parts : List α) :
    reach presence (parts.map f) = (reach (fun part => presence (f part)) parts).map f := by
  induction parts with
  | nil => rfl
  | cons first rest ih =>
    rw [List.map_cons, reach, reach, ih]
    split
    · rw [List.map_cons]
    · rw [List.map_singleton]

/-- Each field that may be absent has a fixed tag, or else those that can follow it have. -/
def Field.Separated : List (Field Codec) → Prop
  | [] => True
  | f :: rest =>
    (f.presence.mayBeAbsent = true →
      f.type.tag?.isSome = true ∨ ∀ g ∈ Presence.reach Field.presence rest, g.type.tag?.isSome = true) ∧
      Separated rest

/-- Nothing follows the last field. -/
theorem Field.separated_last (f : Field Codec) : Separated [f] := by
  refine ⟨fun _ => Or.inr ?_, trivial⟩
  intro g reached
  cases reached

namespace Schema

/-- In each sequence in the type, fields that may be absent are separated from those that can follow them. -/
def Separated (T : Schema) : Prop :=
  ∀ name tag fields, T.Contains (.sequence name tag fields) → Field.Separated (fieldCodecs fields)

theorem Separated.child {T S : Schema} (separated : T.Separated) (direct : S ∈ T.children) : S.Separated :=
  fun name tag fields within => separated name tag fields (.child direct within)

/-- What is found in the value was given to it, and the conditions of a type accept the normal forms of the components.
Open components have been captured by a reader at some time, since there is no other way to get them. -/
structure Regular (T : Schema) (v : Value) : Prop where
  given : T.Given v
  accepted : ∀ inner condition u, T.Component v (.refine inner condition) u → condition (inner.normal u) = none
  captured : ∀ a, T.Component v .any (.any a) →
    ∃ d d', Decoder.Bounded d ∧ Any.read.run d = .ok a d'

theorem Regular.of_component {T S : Schema} {v u : Value} (regular : T.Regular v)
    (within : ∀ R w, S.Component u R w → T.Component v R w) : S.Regular u :=
  ⟨regular.given.of_component within, fun inner condition w part => regular.accepted inner condition w (within _ _ part),
    fun a part => regular.captured a (within _ _ part)⟩

end Schema

end Der
