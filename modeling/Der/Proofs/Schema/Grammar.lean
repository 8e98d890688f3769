import Der.Proofs.Codec.Grammar
import Der.Proofs.RoundTrip

namespace Der

open Decoding

namespace Field

variable {depth depth' : Nat} {maxDepth maxDepth' : Number} {parts : List (Option Octets)} {record : Record}

theorem Composes.mono {fields : List (Field Codec)} (composes : Composes depth maxDepth fields parts record)
    (each : ∀ f ∈ fields, ∀ octets v, f.type.Parses depth maxDepth octets v → f.type.Parses depth' maxDepth' octets v) :
    Composes depth' maxDepth' fields parts record := by
  induction composes with
  | nil => exact .nil
  | @absent f rest parts record optional others ih =>
    exact .absent optional (ih fun g later => each g (List.mem_cons_of_mem f later))
  | @present f rest octets v parts record parses differs others ih =>
    exact .present (each f List.mem_cons_self octets v parses) differs
      (ih fun g later => each g (List.mem_cons_of_mem f later))

end Field

namespace Schema

variable {fields : List (Field Schema)}

theorem portable_of_fields (types : ∀ f ∈ fields, f.type.Declared) (blind : ∀ f ∈ fields, f.type.ByContent) :
    ∀ f ∈ fieldCodecs fields, f.type.Portable := by
  intro f member
  obtain ⟨g, field, rfl⟩ := mem_fieldCodecs member
  exact (types g field).portable (blind g field)

section

variable (types : ∀ f ∈ fields, f.type.Declared)

include types

/-- Where there is room for the layers of the fields, the depth does not matter. -/
theorem composes_iff {layers : Nat} (deep : ∀ f ∈ fields, f.type.layers ≤ layers) {depth : Nat} {maxDepth limit : Number}
    (room : ∀ k ≤ layers, maxDepth.less (depth + k : Nat) = false) (enough : ¬ limit.less layers = true)
    (parts : List (Option Octets)) (record : Record) :
    Field.Composes depth maxDepth (fieldCodecs fields) parts record ↔
      Field.Composes 0 limit (fieldCodecs fields) parts record := by
  have parses_iff : ∀ f ∈ fieldCodecs fields, ∀ octets v,
      f.type.Parses depth maxDepth octets v ↔ f.type.Parses 0 limit octets v := by
    intro f member octets v
    obtain ⟨g, field, rfl⟩ := mem_fieldCodecs member
    have fewer := deep g field
    refine (types g field).parses_iff_parse (fun k bound => room k (bound.trans fewer)) ?_
    exact fun less => enough (Number.less_of_le less fewer)
  constructor
  · exact fun composes => composes.mono fun f member octets v => (parses_iff f member octets v).mp
  · exact fun composes => composes.mono fun f member octets v => (parses_iff f member octets v).mpr

variable (blind : ∀ f ∈ fields, f.type.ByContent) {d : Decoder} {content more : Octets}

include blind

/-- A codec reads members if its body does so in the scope of the content. -/
theorem readsMembers {c : TaggedCodec} {body : Decoding Record} {layers : Nat} (deep : ∀ f ∈ fields, f.type.layers ≤ layers)
    (apart : Field.Apart (fieldCodecs fields)) (bounded : d.Bounded) (ahead : d.rest = content ++ more)
    (shallow : d.maxDepth.less (d.depth + 1 : Nat) = false)
    (is : c.readContent content.length = nested content.length (do return Value.record (← body)))
    (reads : ∀ {e after}, body.run (d.scope content.length) = .ok after e →
      Member.Grows (fieldCodecs fields) (d.scope content.length) e [] after)
    (finds : ∀ {parts added}, Field.Composes (d.depth + 1) d.maxDepth (fieldCodecs fields) parts added →
      Field.content parts = content →
      ∃ after, body.run (d.scope content.length) = .ok after ((d.scope content.length).skip content.length) ∧
        after.Same added) : c.ReadsMembers (fieldCodecs fields) layers d content where
  reads_iff := by
    rw [is]
    exact Member.nested_iff_composes bounded ahead shallow reads finds
  ends := by
    intro v d' run
    rw [is] at run
    exact ((nested_iff bounded ahead shallow).mp run).1
  unique := by
    intro parts parts' record record' composes composes' same same'
    exact composes.unique (portable_of_fields types blind) apart composes' (same.trans same'.symm)
  documents := by
    intro limit admits enough
    exact composes_iff types deep (admits.scope content.length) enough

/-- The content of a sequence is composed of members of the fields, in the order of the fields: those of all that are
required, and none that is the element of a default. Whatever is so composed is read, and the members that are absent
become their defaults. A field under the name of the prototype is left out here, since what is assigned under it does
not become a member. -/
theorem sequence_readsMembers (name : String) (tag : Tag) (named : (fields.map Field.name).Nodup)
    (usual : "__proto__" ∉ fields.map Field.name) (apart : Field.Apart (fieldCodecs fields)) (bounded : d.Bounded)
    (ahead : d.rest = content ++ more) (shallow : d.maxDepth.less (d.depth + 1 : Nat) = false) :
    (TaggedCodec.sequence name tag (fieldCodecs fields)).ReadsMembers (fieldCodecs fields) (fieldLayers fields) d content := by
  have portable := portable_of_fields types blind
  have unread : Member.Unread ((fieldCodecs fields).map Member.ofField) [] := by
    rw [members_eq]
    exact unread_of_fields named usual
  obtain ⟨inside, inner⟩ := bounded.scope_of_ahead ahead
  have level : (d.scope content.length).Admits 0 := by
    intro k none
    obtain rfl := Nat.le_zero.mp none
    exact shallow
  refine readsMembers types blind (fun f => layers_le_fieldLayers) apart bounded ahead shallow rfl ?_ ?_
  · exact fun read => Member.grows_of_readSequence portable unread inside read
  · rintro parts record composes rfl
    exact Member.run_readSequence_of_composes portable apart unread inside level composes inner

end

/-- The value of an extension that is not critical stands alone in the content. It is the member of the second field, and
the first member is absent. -/
theorem sequence_reads_extension :
    ∃ parts record, Field.Composes 1 (8 : Nat) (fieldCodecs [⟨"critical", .default (.boolean false), .primitive .boolean⟩,
        .required "value" (.primitive .octetString)]) parts record ∧ Field.content parts = [4, 1, 5] ∧
      Value.Same (.record [("critical", .boolean false), ("value", .octets (.ofOctets [5]))]) (.record record) := by
  have types : ∀ f ∈ [⟨"critical", .default (.boolean false), primitive .boolean⟩,
      Field.required "value" (primitive .octetString)], f.type.Declared :=
    List.forall_mem_cons.mpr ⟨.primitive .boolean, List.forall_mem_singleton.mpr (.primitive .octetString)⟩
  have blind : ∀ f ∈ [⟨"critical", .default (.boolean false), primitive .boolean⟩,
      Field.required "value" (primitive .octetString)], f.type.ByContent :=
    List.forall_mem_cons.mpr ⟨primitive_byContent _, List.forall_mem_singleton.mpr (primitive_byContent _)⟩
  have apart : Field.Apart (fieldCodecs [⟨"critical", .default (.boolean false), primitive .boolean⟩,
      .required "value" (primitive .octetString)]) := by
    intro f g follows
    refine Field.apart_of_clashes (Field.clashes_of_ambiguity? rfl f g follows) ?_
    rcases Field.follows_cons.mp follows with ⟨rfl, _, _⟩ | later
    · exact Or.inl rfl
    · rcases Field.follows_cons.mp later with ⟨rfl, optional, _⟩ | none
      · cases optional
      · cases none.mem.1
  -- The content stands behind the header of the extension.
  have bounded : (⟨[0x30, 3, 4, 1, 5], 2, 5, 0, (8 : Nat)⟩ : Decoder).Bounded := ⟨by decide, by decide⟩
  have ahead : (⟨[0x30, 3, 4, 1, 5], 2, 5, 0, (8 : Nat)⟩ : Decoder).rest = [4, 1, 5] ++ [] := rfl
  have reads := sequence_readsMembers types blind "Extension" ⟨0, true, 16⟩ (by decide) (by decide) apart bounded ahead rfl
  exact (reads.reads_iff _).mp ⟨_, _, rfl, rfl⟩

/-- A flag under the name of the prototype is composed like any other, and lost. -/
theorem sequence_loses_prototype :
    ((TaggedCodec.sequence "S" ⟨0, true, 16⟩ (fieldCodecs [.required "__proto__" (.primitive .boolean)])).readContent
        3).run ⟨[0x30, 3, 1, 1, 0xFF], 2, 5, 0, 100⟩ = .ok (.record []) ⟨[0x30, 3, 1, 1, 0xFF], 5, 5, 0, 100⟩ ∧
      ∀ layers, ¬ (TaggedCodec.sequence "S" ⟨0, true, 16⟩
        (fieldCodecs [.required "__proto__" (.primitive .boolean)])).ReadsMembers
          (fieldCodecs [.required "__proto__" (.primitive .boolean)]) layers ⟨[0x30, 3, 1, 1, 0xFF], 2, 5, 0, 100⟩
          [1, 1, 0xFF] := by
  refine ⟨rfl, fun layers reads => ?_⟩
  have composes : Field.Composes 1 100 (fieldCodecs [.required "__proto__" (.primitive .boolean)]) [some [1, 1, 0xFF]]
      [("__proto__", .boolean true)] := .present rfl nofun .nil
  obtain ⟨v, e, run, same⟩ := (reads.reads_iff _).mpr ⟨_, _, composes, rfl, rfl⟩
  cases run
  cases same

end Schema

end Der
