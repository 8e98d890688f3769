import Der.Proofs.Canonical
import Der.Proofs.Framing
import Der.Proofs.RoundTrip

namespace Der

namespace Schema

open Encoding Decoding

theorem Contains.trans {T S U : Schema} (first : T.Contains S) (second : S.Contains U) : T.Contains U := by
  induction first with
  | self => exact second
  | child direct _ ih => exact .child direct (ih second)

/-- The type itself, whatever it is built from, has a fixed tag that can be written, fields with names of their own under
which nothing is inherited, and a condition that looks at content only, as far as it has fields or a condition. -/
structure PlainHead (T : Schema) : Prop where
  fixed : ∃ tag, T.codec.tag? = some tag ∧ tag.WellFormed
  named : T.fieldNames.Nodup
  ordinary : ∀ name ∈ T.fieldNames, Inherited.ofName? name = none
  blind : ∀ inner condition, T = .refine inner condition → condition.ByContent

/-- Every type in the type has a fixed tag that can be written. -/
def Plain (T : Schema) : Prop :=
  ∀ S, T.Contains S → S.PlainHead

theorem PlainHead.plain {T : Schema} (head : T.PlainHead) (each : ∀ S ∈ T.children, S.Plain) : T.Plain := by
  intro S within
  rcases within.eq_or_child with rfl | ⟨U, direct, inner⟩
  · exact head
  · exact each U direct S inner

theorem plain_primitive (p : Primitive) : (primitive p).Plain := by
  refine PlainHead.plain ⟨⟨_, rfl, p.wellFormed⟩, List.nodup_nil, nofun, nofun⟩ ?_
  intro S direct
  cases direct

theorem plain_sequence {name : String} {tag : Tag} {fields : List (Field Schema)} (valid : tag.WellFormed)
    (named : (fields.map Field.name).Nodup)
    (ordinary : ∀ name ∈ fields.map Field.name, Inherited.ofName? name = none) (each : ∀ f ∈ fields, f.type.Plain) :
    (sequence name tag fields).Plain := by
  refine PlainHead.plain ⟨⟨tag, rfl, valid⟩, named, ordinary, nofun⟩ ?_
  intro S direct
  obtain ⟨f, field, rfl⟩ := List.mem_map.mp direct
  exact each f field

theorem Plain.sequenceOf {item : Schema} (plain : item.Plain) (name : String) {tag : Tag} (valid : tag.WellFormed)
    (bounds : SizeBounds) : (sequenceOf name tag bounds item).Plain := by
  refine PlainHead.plain ⟨⟨tag, rfl, valid⟩, List.nodup_nil, nofun, nofun⟩ ?_
  intro S direct
  rwa [List.mem_singleton.mp direct]

theorem Plain.refine {inner : Schema} (plain : inner.Plain) {condition : Condition} (blind : condition.ByContent) :
    (refine inner condition).Plain := by
  refine PlainHead.plain ⟨?_, List.nodup_nil, nofun, ?_⟩ ?_
  · obtain ⟨tag, fixed, valid⟩ := (plain _ (.self _)).fixed
    refine ⟨tag, ?_, valid⟩
    rw [codec]
    cases shape : inner.codec with
    | tagged c =>
      rw [shape] at fixed
      exact fixed
    | untagged c =>
      rw [shape] at fixed
      cases fixed
  · intro _ _ same
    cases same
    exact blind
  · intro S direct
    rwa [List.mem_singleton.mp direct]

section

variable {T : Schema} (declared : T.Declared)

include declared

/-- A document is built just if it is written. -/
theorem Declared.build_eq_ok {v : Value} {document : Octets} :
    Document.build T.codec v = .ok document ↔ Yields (T.codec.encodedLength v) (T.codec.encode v) document := by
  rw [declared.measures.build_eq, declared.measures.toOctets_eq_ok]
  exact ⟨fun parts => ⟨parts.1, parts.2⟩, fun yields => ⟨yields.measured, yields.emits⟩⟩

/-- A document is what is written for the value that is read from it. -/
theorem Declared.yields_of_parse (named : T.Named) (traceable : T.Traceable) (timeless : ¬ T.Contains .time)
    {maxDepth : Number} {document : Octets} {v : Value} (parsed : Document.parse T.codec maxDepth document = .ok v) :
    Yields (T.codec.encodedLength v) (T.codec.encode v) document := by
  have canonical := declared.canonical named traceable timeless
  obtain ⟨_, yields⟩ := canonical.reads.of_outcome (Decoder.bounded_ofOctets document maxDepth) parsed
  rwa [Decoder.rest_ofOctets] at yields

/-- What is written for a value is read as its normal form. -/
theorem Declared.parse_of_yields (sound : T.Sound) {maxDepth : Number} (enough : ¬ maxDepth.less T.layers = true)
    {v : Value} (regular : T.Regular v) {document : Octets}
    (yields : Yields (T.codec.encodedLength v) (T.codec.encode v) document) :
    ∃ w, Document.parse T.codec maxDepth document = .ok w ∧ w.shown = (T.normal v).shown := by
  have finds := (declared.restores sound).decode declared.measures regular yields []
  have ahead : (Decoder.ofOctets document maxDepth).rest = document ++ [] := by
    rw [Decoder.rest_ofOctets, List.append_nil]
  obtain ⟨w, run, same⟩ :=
    finds.complete (Decoder.bounded_ofOctets document maxDepth) ahead (Decoder.admits_ofOctets enough document)
  refine ⟨w, ?_, same⟩
  rw [Document.parse, Decoding.outcome, run]

end

namespace Plain

variable {T : Schema} (plain : T.Plain)

include plain

theorem separated : T.Separated := by
  intro name tag fields within
  have fixed : ∀ f ∈ fields, f.type.codec.tag?.isSome = true := by
    intro f field
    have inner : (sequence name tag fields).Contains f.type := .child (List.mem_map_of_mem field) (.self _)
    obtain ⟨tag, fixed, _⟩ := (plain _ (within.trans inner)).fixed
    rw [fixed]
    rfl
  clear within
  induction fields with
  | nil => trivial
  | cons f rest ih =>
    refine ⟨fun _ => Or.inl (fixed f List.mem_cons_self), ih fun g later => fixed g (List.mem_cons_of_mem f later)⟩

theorem ordinary : T.Ordinary :=
  fun S within => (plain S within).ordinary

theorem sound : T.Sound where
  named S within := (plain S within).named
  usual := plain.ordinary.traceable.usual
  tagged S tag within own := by
    obtain ⟨tag', fixed, valid⟩ := (plain S within).fixed
    cases own.symm.trans fixed
    exact valid
  separated := plain.separated
  blind inner condition within := (plain _ within).blind inner condition rfl

theorem ne_open {S : Schema} (within : T.Contains S) : S ≠ .any ∧ S ≠ .time := by
  obtain ⟨tag, fixed, _⟩ := (plain S within).fixed
  constructor <;> rintro rfl <;> cases fixed

/-- Only the conditions have to be looked at, since there are no open components. -/
theorem regular {v : Value} (accepted : ∀ inner condition u, T.Component v (.refine inner condition) u →
    condition (inner.normal u) = none) : T.Regular v :=
  ⟨plain.ordinary.given v, accepted, fun _ part => absurd rfl (plain.ne_open part.contains).1⟩

variable (declared : T.Declared)

include declared

theorem yields_of_parse {maxDepth : Number} {document : Octets} {v : Value}
    (parsed : Document.parse T.codec maxDepth document = .ok v) :
    Yields (T.codec.encodedLength v) (T.codec.encode v) document :=
  declared.yields_of_parse plain.sound.named plain.ordinary.traceable (fun within => (plain.ne_open within).2 rfl) parsed

theorem parse_of_yields {maxDepth : Number} (enough : ¬ maxDepth.less T.layers = true) {v : Value}
    (regular : T.Regular v) {document : Octets}
    (yields : Yields (T.codec.encodedLength v) (T.codec.encode v) document) :
    ∃ w, Document.parse T.codec maxDepth document = .ok w ∧ w.shown = (T.normal v).shown :=
  declared.parse_of_yields plain.sound enough regular yields

end Plain

end Schema

theorem Value.shownEntries_append (first second : Record) :
    shownEntries (first ++ second) = shownEntries first ++ shownEntries second :=
  List.map_append

namespace Field

variable {f : Field Schema} {entries : Record} {v : Value}

/-- The slot of a field. -/
def slot (f : Field Schema) : Slot :=
  ⟨.ofField (f.map Schema.codec), f.type.normal⟩

/-- A member without a default is read back as its normal form. -/
theorem entry_of_present (plain : f.presence.default? = none) (present : entries.get? f.name = some v)
    (given : v ≠ .undefined) : f.slot.entry entries = some (f.name, f.type.normal v) := by
  have none : f.slot.member.defaultOctets = none := by
    change (f.presence.default?.bind _) = _
    rw [plain]
    rfl
  refine Slot.entry_of_kept (Record.own?_of_get? present given) ?_
  rw [Member.isDefault, none]
  rfl

theorem entry_of_absent (plain : f.presence.default? = none) (absent : entries.get? f.name = none) :
    f.slot.entry entries = none := by
  rw [Slot.entry_of_absent (Record.own?_of_absent absent)]
  change f.presence.default?.map _ = none
  rw [plain]
  rfl

end Field

theorem Schema.slots_eq_slot (fields : List (Field Schema)) : slots fields = fields.map Field.slot :=
  slots_eq_map fields

end Der
