import Der.Proofs.Schema.Distinct

namespace Der.Schema

/-- Fields of one container have names of their own, none of them that of the prototype, tags can be written, fields
that may be absent are separated, and conditions look at content only. -/
structure Sound (T : Schema) : Prop where
  named : T.Named
  usual : T.Usual
  tagged : T.Tagged
  separated : T.Separated
  blind : T.ByContent

theorem Sound.child {T S : Schema} (sound : T.Sound) (direct : S ∈ T.children) : S.Sound :=
  ⟨sound.named.child direct, sound.usual.child direct, sound.tagged.child direct, sound.separated.child direct,
    sound.blind.child direct⟩

theorem Sound.wellFormed {T : Schema} (sound : T.Sound) {tag : Tag} (fixed : T.codec.tag? = some tag) : tag.WellFormed :=
  sound.tagged T tag (.self T) fixed

theorem unread_of_fields {fields : List (Field Schema)} (named : (fields.map Field.name).Nodup)
    (usual : "__proto__" ∉ fields.map Field.name) : Member.Unread ((slots fields).map Slot.member) [] where
  named := by
    rw [slots_eq_map, List.map_map, List.map_map]
    exact named
  usual m member := by
    rw [slots_eq_map, List.map_map] at member
    obtain ⟨f, field, rfl⟩ := List.mem_map.mp member
    exact fun same => usual (List.mem_map.mpr ⟨f, field, same⟩)
  fresh _ _ := rfl

theorem members_eq (fields : List (Field Schema)) :
    (fieldCodecs fields).map Member.ofField = (slots fields).map Slot.member := by
  rw [slots_eq_map, fieldCodecs_eq_map, List.map_map, List.map_map]
  rfl

/-- The members of a record restore what is written for them, if the types of the fields do. -/
theorem slots_restores {fields : List (Field Schema)} {T : Schema} {container : String} {v : Value} {source : Record}
    (types : ∀ f ∈ fields, f.type.Declared)
    (restores : ∀ f ∈ fields, f.type.codec.Restores f.type.normal f.type.Regular f.type.layers)
    (own : T.fields = fields)
    (within : ∀ {v entries f u R w}, v.toRecord container = .ok entries → f ∈ fields →
      entries.own? f.name = some u → Component f.type u R w → Component T v R w)
    (regular : T.Regular v) (is : v.toRecord container = .ok source) :
    ∀ s ∈ slots fields, s.Restores (fieldLayers fields) source := by
  intro s slot
  rw [slots_eq_map] at slot
  obtain ⟨f, field, rfl⟩ := List.mem_map.mp slot
  refine ⟨regular.given T v (.self T v) container source is f (own ▸ field), ?_, ⟨_, _, (types f field).measures⟩,
    f.type.Regular, ?_, ?_⟩
  · intro known
    cases f with
    | mk name presence type =>
      cases presence with
      | required => cases known
      | optional => rfl
      | default v => rfl
  · exact (restores f field).mono (fun _ => id) (layers_le_fieldLayers field)
  · intro u entry
    exact regular.of_component fun R w part => within is field entry part

/-- The members of an accepted set have fixed tags that can be written. -/
theorem placed_of_untagged? {fields : List (Field Schema)}
    (valid : ∀ f ∈ fields, ∀ t, f.type.codec.tag? = some t → t.WellFormed)
    (fixed : Field.untagged? (fieldCodecs fields) = none) : ∀ m ∈ (fieldCodecs fields).map Member.ofField, m.Placed := by
  rw [Field.untagged?, Option.map_eq_none_iff, List.find?_eq_none] at fixed
  intro m member
  obtain ⟨f, within, rfl⟩ := List.mem_map.mp member
  have known := fixed f within
  rw [fieldCodecs_eq_map] at within
  obtain ⟨g, field, rfl⟩ := List.mem_map.mp within
  rw [Option.isNone_iff_eq_none] at known
  obtain ⟨t, own⟩ := Option.ne_none_iff_exists'.mp known
  exact ⟨t, own, valid g field t own⟩

theorem placed_of_fields {fields : List (Field Schema)} (fixed : Field.untagged? (fieldCodecs fields) = none)
    (sound : ∀ f ∈ fields, f.type.Sound) : ∀ s ∈ slots fields, s.member.Placed := by
  intro s slot
  have member : s.member ∈ (slots fields).map Slot.member := List.mem_map_of_mem slot
  rw [← members_eq] at member
  exact placed_of_untagged? (fun f field _ => (sound f field).wellFormed) fixed _ member

section

variable {name : String} {tag : Tag} {fields : List (Field Schema)} (types : ∀ f ∈ fields, f.type.Declared)
  (restores : ∀ f ∈ fields, f.type.codec.Restores f.type.normal f.type.Regular f.type.layers)

include types restores

theorem sequence_restores (sound : (sequence name tag fields).Sound) (clear : Field.ambiguity? (fieldCodecs fields) = none) :
    (sequence name tag fields).codec.Restores (sequence name tag fields).normal (sequence name tag fields).Regular
      (sequence name tag fields).layers := by
  have unread := unread_of_fields (sound.named _ (.self _)) (sound.usual _ (.self _))
  have separate := Slot.clear_of_fields clear (sound.separated _ _ fields (.self _))
  apply TaggedCodec.sequence_restores _ (sound.wellFormed rfl) unread _ (members_eq fields) separate
  intro v source
  exact slots_restores types restores rfl Component.sequence

theorem set_restores (sound : (set name tag fields).Sound) (fixed : Field.untagged? (fieldCodecs fields) = none)
    (distinct : Field.repeated? (Member.canonical ((fieldCodecs fields).map Member.ofField)) = none) :
    (set name tag fields).codec.Restores (set name tag fields).normal (set name tag fields).Regular
      (set name tag fields).layers := by
  have same := Slot.canonical_perm (slots fields)
  have unread := (unread_of_fields (sound.named _ (.self _)) (sound.usual _ (.self _))).perm (same.map Slot.member)
  have members : Member.canonical ((fieldCodecs fields).map Member.ofField) =
      (Slot.canonical (slots fields)).map Slot.member := by rw [members_eq, Slot.map_canonical]
  have placed := placed_of_fields fixed fun f field => sound.child (List.mem_map_of_mem field)
  rw [members_eq] at distinct
  apply TaggedCodec.set_restores _ (sound.wellFormed rfl) unread _ members (Slot.distinct_of_canonical placed distinct)
  intro v source regular is s slot
  exact slots_restores types restores rfl Component.set regular is s (same.mem_iff.mp slot)

end

/-- What has been written for a value of a declared type is read as the normal form. -/
theorem Declared.restores {T : Schema} (declared : T.Declared) (sound : T.Sound) :
    T.codec.Restores T.normal T.Regular T.layers := by
  induction declared using Declared.induct with
  | primitive p => exact Codec.Restores.mono (c := .tagged p.codec) p.restores (fun _ _ => trivial) le_rfl
  | time => exact Codec.Restores.mono (c := .untagged .time) UntaggedCodec.time_restores (fun _ _ => trivial) le_rfl
  | any =>
    apply Codec.Restores.mono (c := .untagged .any) UntaggedCodec.any_restores _ le_rfl
    intro _ regular a same
    subst same
    exact regular.captured a (.self _ _)
  | sequence name tag types declared clear _ ih =>
    exact sequence_restores types (fun f field => ih f field (sound.child (List.mem_map_of_mem field))) sound clear
  | set name tag types declared _ fixed distinct ih =>
    exact set_restores types (fun f field => ih f field (sound.child (List.mem_map_of_mem field))) sound fixed distinct
  | sequenceOf name tag bounds type declared ih =>
    have restores := ih (sound.child List.mem_cons_self)
    apply Codec.Restores.mono (c := .tagged _)
      (TaggedCodec.sequenceOf_restores restores type.measures _ (sound.wellFormed rfl) bounds) _ le_rfl
    intro _ regular items same u member
    subst same
    exact regular.of_component fun R w part => .sequenceOf rfl (List.mem_map_of_mem member) part
  | setOf name tag bounds type declared ih =>
    have restores := ih (sound.child List.mem_cons_self)
    apply Codec.Restores.mono (c := .tagged _)
      (TaggedCodec.setOf_restores restores type.measures _ (sound.wellFormed rfl) bounds) _ le_rfl
    intro _ regular items same u member
    subst same
    exact regular.of_component fun R w part => .setOf rfl (List.mem_map_of_mem member) part
  | explicit name tag type declared ih =>
    have restores := ih (sound.child List.mem_cons_self)
    apply Codec.Restores.mono (c := .tagged _)
      (TaggedCodec.explicit_restores _ (sound.wellFormed rfl) restores type.measures) _ le_rfl
    intro v regular
    exact regular.of_component fun R w part => .explicit part
  | @implicit name tagClass number inner c type declared fixed ih =>
    have restores := ih (sound.child List.mem_cons_self)
    have retagged : (implicit name tagClass number inner).codec = .tagged (c.implicit name tagClass number) := by
      rw [codec, fixed]
      rfl
    have valid := sound.wellFormed (by rw [retagged]; rfl)
    rw [fixed] at restores
    rw [retagged]
    apply Codec.Restores.mono (c := .tagged _) (TaggedCodec.Restores.implicit restores _ valid) _ le_rfl
    intro v regular
    exact regular.of_component fun R w part => .implicit part
  | refine condition type declared fixed ih =>
    have restores := ih (sound.child List.mem_cons_self)
    have blind := sound.blind _ condition (.self _)
    rw [fixed] at restores
    rw [codec, fixed]
    apply Codec.Restores.mono (c := .tagged _) (TaggedCodec.Restores.refine restores blind) _ le_rfl
    intro v regular
    exact ⟨regular.of_component fun R w part => .refine part, regular.accepted _ condition v (.self _ _)⟩

/-- Parsing undoes building: the document of a value is parsed as the normal form of the value, if at least as many
layers are admitted as the type has. -/
theorem Declared.parse_of_build {T : Schema} (declared : T.Declared) (sound : T.Sound) {maxDepth : Number}
    (enough : ¬ maxDepth.less T.layers = true) {v : Value} (regular : T.Regular v) {document : Octets}
    (built : Document.build T.codec v = .ok document) :
    ∃ w, Document.parse T.codec maxDepth document = .ok w ∧ w.shown = (T.normal v).shown := by
  rw [declared.measures.build_eq] at built
  obtain ⟨measured, emits⟩ := declared.measures.toOctets_eq_ok.mp built
  have finds := (declared.restores sound).decode declared.measures regular ⟨measured, emits⟩ []
  have ahead : (Decoder.ofOctets document maxDepth).rest = document ++ [] := by
    rw [Decoder.rest_ofOctets, List.append_nil]
  obtain ⟨w, run, same⟩ :=
    finds.complete (Decoder.bounded_ofOctets document maxDepth) ahead (Decoder.admits_ofOctets enough document)
  refine ⟨w, ?_, same⟩
  rw [Document.parse, Decoding.outcome, run]

/-- A key without the exponent, with a modulus that has a redundant zero, and with an entry that is not declared. The
zero is dropped, the exponent becomes the default, and the entry is gone. -/
theorem parse_of_built_key :
    ∃ w, Document.parse (sequence "Key" ⟨0, true, 16⟩ [.required "modulus" (.primitive .unsigned),
        ⟨"exponent", .default (.integer 3), .primitive .integer⟩]).codec 1 [0x30, 3, 2, 1, 5] = .ok w ∧
      w.shown = .record [("modulus", .octets (.ofOctets [5])), ("exponent", .integer 3)] := by
  have accepted : declareSequence "Key" none none [.required "modulus" (.primitive .unsigned),
      ⟨"exponent", .default (.integer 3), .primitive .integer⟩] =
      .ok (sequence "Key" ⟨0, true, 16⟩ [.required "modulus" (.primitive .unsigned),
        ⟨"exponent", .default (.integer 3), .primitive .integer⟩]) := rfl
  have declared : Declared (sequence "Key" ⟨0, true, 16⟩ [.required "modulus" (.primitive .unsigned),
      ⟨"exponent", .default (.integer 3), .primitive .integer⟩]) := by
    refine .sequence ?_ accepted
    intro f member
    rcases List.mem_cons.mp member with rfl | member
    · exact .primitive .unsigned
    · rw [List.mem_singleton.mp member]
      exact .primitive .integer
  have built : Document.build (sequence "Key" ⟨0, true, 16⟩ [.required "modulus" (.primitive .unsigned),
      ⟨"exponent", .default (.integer 3), .primitive .integer⟩]).codec
      (.record [("modulus", .octets ⟨[0, 5], 0, 2, .document⟩), ("note", .null)]) = .ok [0x30, 3, 2, 1, 5] := rfl
  have within : ∀ {S}, Contains (sequence "Key" ⟨0, true, 16⟩ [.required "modulus" (.primitive .unsigned),
      ⟨"exponent", .default (.integer 3), .primitive .integer⟩]) S →
      S = sequence "Key" ⟨0, true, 16⟩ [.required "modulus" (.primitive .unsigned),
        ⟨"exponent", .default (.integer 3), .primitive .integer⟩] ∨
      S = .primitive .unsigned ∨ S = .primitive .integer := by
    intro S part
    rcases part.eq_or_child with same | ⟨U, direct, inner⟩
    · exact Or.inl same
    · right
      rcases List.mem_cons.mp direct with rfl | direct
      · exact Or.inl inner.eq_of_primitive
      · rw [List.mem_singleton.mp direct] at inner
        exact Or.inr inner.eq_of_primitive
  have sound : Sound (sequence "Key" ⟨0, true, 16⟩ [.required "modulus" (.primitive .unsigned),
      ⟨"exponent", .default (.integer 3), .primitive .integer⟩]) := by
    refine ⟨?_, ?_, ?_, ?_, ?_⟩
    · intro S part
      rcases within part with rfl | rfl | rfl <;> decide
    · intro S part
      rcases within part with rfl | rfl | rfl <;> decide
    · intro S tag part fixed
      rcases within part with rfl | rfl | rfl
      · cases fixed
        exact ⟨0, 16, by decide, by decide, rfl, rfl⟩
      · cases fixed
        exact Primitive.unsigned.wellFormed
      · cases fixed
        exact Primitive.integer.wellFormed
    · intro name tag fields part
      rcases within part with same | same | same
      · cases same
        exact ⟨fun required => absurd required Bool.false_ne_true, fun _ => Or.inl rfl, trivial⟩
      · cases same
      · cases same
    · intro inner condition part
      rcases within part with same | same | same <;> cases same
  have regular : Regular (sequence "Key" ⟨0, true, 16⟩ [.required "modulus" (.primitive .unsigned),
      ⟨"exponent", .default (.integer 3), .primitive .integer⟩])
      (.record [("modulus", .octets ⟨[0, 5], 0, 2, .document⟩), ("note", .null)]) := by
    refine ⟨?_, ?_, ?_⟩
    · intro S u part container entries _ f field _
      rcases within part.contains with rfl | rfl | rfl
      · rcases List.mem_cons.mp field with rfl | field
        · rfl
        · cases List.mem_singleton.mp field
          rfl
      · cases field
      · cases field
    · intro inner condition u part
      rcases within part.contains with same | same | same <;> cases same
    · intro a part
      rcases within part.contains with same | same | same <;> cases same
  exact declared.parse_of_build sound (by decide : ¬ Number.less 1 _ = true) regular built

/-- A record without a flag under the name of an inherited member is its own normal form, and is read back with the
flag. -/
theorem inherited_member_read_back :
    (sequence "S" ⟨0, true, 16⟩ [.optional "constructor" (.primitive .boolean)]).normal (.record []) = .record [] ∧
      Document.build (sequence "S" ⟨0, true, 16⟩ [.optional "constructor" (.primitive .boolean)]).codec (.record []) =
        .ok [0x30, 3, 1, 1, 0xFF] ∧
      Document.parse (sequence "S" ⟨0, true, 16⟩ [.optional "constructor" (.primitive .boolean)]).codec 1
        [0x30, 3, 1, 1, 0xFF] = .ok (.record [("constructor", .boolean true)]) :=
  ⟨rfl, rfl, rfl⟩

end Der.Schema
