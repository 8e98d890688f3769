import Der.Element
import Der.Proofs.Acceptance

namespace Der

open Encoding Decoding

/-- A tag that identifier octets can carry stands in front of any content that is not too long. -/
theorem Tag.WellFormed.exists_header {t : Tag} (valid : t.WellFormed) {length : Nat} (bound : length ≤ Length.max) :
    ∃ header, Header.encode t length = .ok header := by
  obtain ⟨identifier, written, _⟩ := valid.decode_encode
  rw [Header.encode, written, Length.encode_natCast bound]
  exact ⟨_, rfl⟩

/-- There is an element of any content that has a header. -/
theorem Element.build_eq (tag : Tag) (content : Octets) :
    Element.build tag content = (Header.encode tag content.length).map (· ++ content) := by
  rw [Element.build, Header.encodedLength_eq]
  cases written : Header.encode tag content.length with
  | error fault => rfl
  | ok header =>
    have emits : Emits False _ _ _ _ := (emits_octets content).element written (Nat.le_refl _)
    have whole : (Element.write tag content).toOctets (header.length + content.length) = .ok (header ++ content) :=
      emits.toOctets (Nat.le_refl _)
    simp only [Except.map, bind, Except.bind, whole]

theorem Element.build_eq_ok {tag : Tag} {content document : Octets} :
    Element.build tag content = .ok document ↔
      ∃ header, Header.encode tag content.length = .ok header ∧ document = header ++ content := by
  rw [Element.build_eq, Except.map_eq_ok]
  simp only [eq_comm (a := document)]

namespace TaggedCodec

variable {c : TaggedCodec} {regular sure : Value → Prop} {v : Value}

/-- What becomes of a value that has been measured is what becomes of its content, behind the header. -/
theorem Measures.build_eq (measures : c.Measures regular sure) {length : Nat} {header octets : Octets}
    {outcome : Except Fault Unit} (measured : c.contentLength v = .ok length)
    (written : Header.encode c.tag length = .ok header) (emits : Emits False (c.writeContent v) length octets outcome) :
    Document.build (.tagged c) v = outcome.map fun _ => header ++ octets := by
  have whole := emits_of_content False.elim measured written emits
  rw [Codec.Measures.build_eq (c := .tagged c) measures, Codec.toOctets]
  have size : (Codec.tagged c).encodedLength v = .ok (header.length + length) :=
    encodedLength_of_content measured written
  rw [size]
  exact whole.toOctets (Nat.le_refl _)

/-- A document of a tagged type is a header and the content of the value. -/
theorem Measures.build_eq_ok (measures : c.Measures regular sure) {document : Octets} :
    Document.build (.tagged c) v = .ok document ↔ ∃ header content, Header.encode c.tag content.length = .ok header ∧
      document = header ++ content ∧ Yields (c.contentLength v) (c.writeContent v) content := by
  constructor
  · intro built
    rw [Codec.Measures.build_eq (c := .tagged c) measures,
      Codec.Measures.toOctets_eq_ok (c := .tagged c) measures] at built
    exact measures.split ⟨built.1, built.2⟩
  · rintro ⟨header, content, written, rfl, yields⟩
    rw [measures.build_eq yields.measured written yields.emits]
    rfl

/-- A value that yields content is built as the element of the content, if there is one. -/
theorem Measures.build_of_yields (measures : c.Measures regular sure) {content : Octets}
    (yields : Yields (c.contentLength v) (c.writeContent v) content) :
    Document.build (.tagged c) v = Element.build c.tag content := by
  rw [Element.build_eq]
  cases written : Header.encode c.tag content.length with
  | error fault =>
    have size : Header.encodedLength c.tag content.length = .error fault := by
      rw [Header.encodedLength_eq, written]
      rfl
    simp only [Document.build, Codec.encodedLength, encodedLength, yields.measured, size, bind, Except.bind]
    rfl
  | ok header => exact measures.build_eq yields.measured written yields.emits

/-- The content octets on their own are read, to their end, as the value by content. -/
def Holds (c : TaggedCodec) (maxDepth : Number) (content : Octets) (x : Value) : Prop :=
  ∃ v e, (c.readContent content.length).run (.ofOctets content maxDepth) = .ok v e ∧ v.Same x

end TaggedCodec

/-- The document is read as the value by content. -/
def Document.ReadAs (c : Codec) (maxDepth : Number) (document : Octets) (x : Value) : Prop :=
  ∃ v, Document.parse c maxDepth document = .ok v ∧ v.Same x

/-- Behind a header, the content stands as in a document of its own. -/
theorem Decoder.shifted_skip (header content : Octets) (maxDepth : Number) :
    ((ofOctets (header ++ content) maxDepth).skip header.length).Shifted header.length
      (ofOctets content maxDepth) where
  bounded := bounded_ofOctets content maxDepth
  inside := Nat.le_refl _
  octets := by
    simp only [skip, ofOctets, List.drop_left]
  position := rfl
  stop := by
    simp only [skip, ofOctets, List.length_append, Nat.add_comm]
  depth := rfl
  maxDepth := rfl

namespace Decoding.Tracks

variable {α β : Type} {shift : Nat} {same : α → β → Prop} {body : Decoding α} {body' : Decoding β} {d d' e e' : Decoder}
  {a : α} {b : β}

theorem ok_right (tracks : Tracks shift same body body') (shifted : d.Shifted shift e) (run : body.run d = .ok a d') :
    ∃ b e', body'.run e = .ok b e' ∧ same a b := by
  have agree := tracks shifted
  rw [run] at agree
  cases other : body'.run e with
  | error fault e' => rw [other] at agree; cases agree
  | ok b e' =>
    rw [other] at agree
    cases agree with
    | ok values _ => exact ⟨b, e', rfl, values⟩

theorem ok_left (tracks : Tracks shift same body body') (shifted : d.Shifted shift e) (run : body'.run e = .ok b e') :
    ∃ a d', body.run d = .ok a d' ∧ same a b := by
  have agree := tracks shifted
  rw [run] at agree
  cases other : body.run d with
  | error fault d' => rw [other] at agree; cases agree
  | ok a d' =>
    rw [other] at agree
    cases agree with
    | ok values _ => exact ⟨a, d', rfl, values⟩

end Decoding.Tracks

namespace TaggedCodec

variable {c : TaggedCodec} {maxDepth : Number} {x : Value}

/-- Content that is read behind its header makes a document. -/
theorem Framed.parse_eq_ok (framed : c.Framed) (valid : c.tag.WellFormed) {header content : Octets} {v : Value}
    (written : Header.encode c.tag content.length = .ok header) :
    Document.parse (.tagged c) maxDepth (header ++ content) = .ok v ↔ ∃ d', (c.readContent content.length).run
      ((Decoder.ofOctets (header ++ content) maxDepth).skip header.length) = .ok v d' := by
  have bounded := Decoder.bounded_ofOctets (header ++ content) maxDepth
  have ahead := Decoder.rest_ofOctets (header ++ content) maxDepth
  have first := run_expect_of_encode bounded c.name valid written ahead (Nat.le_refl _)
  have begins : c.decode.run (.ofOctets (header ++ content) maxDepth) =
      (c.readContent content.length).run ((Decoder.ofOctets (header ++ content) maxDepth).skip header.length) := by
    rw [TaggedCodec.decode, EStateM.run_bind, first]
  rw [← begins]
  constructor
  · intro parsed
    exact ⟨_, Codec.Framed.run_of_parse (c := .tagged c) framed parsed⟩
  · rintro ⟨d', run⟩
    have inside := (Decoder.takes_of_ahead ahead).bounded bounded
    obtain ⟨octets, takes, isCount⟩ := framed content.length inside (begins ▸ run)
    have length : content.length = octets.length := Number.natCast_inj isCount
    have whole := takes.ahead
    rw [Decoder.rest_skip_of_ahead ahead] at whole
    have none : d'.rest = [] := by
      have longer := congrArg List.length whole
      rw [List.length_append] at longer
      exact List.length_eq_zero_iff.mp (by omega)
    exact outcome_complete run (takes.bounded inside) none

/-- Behind its header, content is read as it is read on its own. -/
theorem readAs_append_iff (framed : c.Framed) (isLocal : c.Local) (valid : c.tag.WellFormed) {header content : Octets}
    (written : Header.encode c.tag content.length = .ok header) :
    Document.ReadAs (.tagged c) maxDepth (header ++ content) x ↔ c.Holds maxDepth content x := by
  have tracks := isLocal header.length content.length
  have shifted := Decoder.shifted_skip header content maxDepth
  constructor
  · rintro ⟨v, parsed, same⟩
    obtain ⟨d', run⟩ := (framed.parse_eq_ok valid written).mp parsed
    obtain ⟨w, e', alone, equal⟩ := tracks.ok_right shifted run
    exact ⟨w, e', alone, equal.symm.trans same⟩
  · rintro ⟨w, e', alone, same⟩
    obtain ⟨v, d', run, equal⟩ := tracks.ok_left shifted alone
    exact ⟨v, (framed.parse_eq_ok valid written).mpr ⟨d', run⟩, equal.trans same⟩

/-- A document of a tagged type is a header and content that is read on its own. -/
theorem readAs_iff (framed : c.Framed) (isLocal : c.Local) (valid : c.tag.WellFormed) {document : Octets} :
    Document.ReadAs (.tagged c) maxDepth document x ↔ ∃ header content,
      Header.encode c.tag content.length = .ok header ∧ document = header ++ content ∧ c.Holds maxDepth content x := by
  constructor
  · rintro ⟨v, parsed, same⟩
    obtain ⟨t, ⟨_, header, content, written, rfl⟩, accepted⟩ := Codec.Framed.of_parse (c := .tagged c) framed parsed
    obtain rfl : t = c.tag := Tag.eq_of_equals accepted
    exact ⟨header, content, written, rfl, (readAs_append_iff framed isLocal valid written).mp ⟨v, parsed, same⟩⟩
  · rintro ⟨header, content, written, rfl, holds⟩
    exact (readAs_append_iff framed isLocal valid written).mpr holds

end TaggedCodec

/-- The window on the content of a document, behind its header. -/
def Slice.behind (header content : Octets) : Slice :=
  ⟨header ++ content, header.length, content.length, .document⟩

theorem Slice.octets_behind (header content : Octets) : (behind header content).octets = .ok content := by
  have backed : (behind header content).Backed := by
    simp only [Backed, behind, List.length_append, Nat.le_refl]
  rw [backed.octets_eq]
  simp only [behind, List.drop_left, List.take_length]

namespace Primitive

variable {p : Primitive} {maxDepth : Number} {v : Value}

/-- Behind its header, content of a primitive type is read as its rule reads it. -/
theorem parse_append_iff {header content : Octets} (written : Header.encode p.codec.tag content.length = .ok header) :
    Document.parse (.tagged p.codec) maxDepth (header ++ content) = .ok v ↔
      p.rule.read (.behind header content) = .ok v := by
  have bounded := Decoder.bounded_ofOctets (header ++ content) maxDepth
  have ahead := Decoder.rest_ofOctets (header ++ content) maxDepth
  have inside := (Decoder.takes_of_ahead ahead).bounded bounded
  have stands := Decoder.rest_skip_of_ahead ahead
  have room : content.length ≤ ((Decoder.ofOctets (header ++ content) maxDepth).skip header.length).rest.length :=
    Nat.le_of_eq (congrArg List.length stands.symm)
  have window : windowAt ((Decoder.ofOctets (header ++ content) maxDepth).skip header.length) content.length =
      .behind header content := by
    simp only [windowAt, Decoder.skip, Decoder.ofOctets, Slice.behind, Nat.zero_add]
  have run : (p.codec.readContent content.length).run
      ((Decoder.ofOctets (header ++ content) maxDepth).skip header.length) = _ := run_content inside room p.rule.read
  rw [p.framed.parse_eq_ok p.wellFormed written, run, window]
  cases p.rule.read (.behind header content) with
  | error fault =>
    constructor
    · rintro ⟨_, same⟩
      cases same
    · intro same
      cases same
  | ok w =>
    constructor
    · rintro ⟨_, same⟩
      cases same
      rfl
    · intro same
      cases same
      exact ⟨_, rfl⟩

/-- A document of a primitive type is a header and content that its rule reads. -/
theorem parse_eq_ok {document : Octets} :
    Document.parse (.tagged p.codec) maxDepth document = .ok v ↔ ∃ header content,
      Header.encode p.codec.tag content.length = .ok header ∧ document = header ++ content ∧
        p.rule.read (.behind header content) = .ok v := by
  constructor
  · intro parsed
    obtain ⟨t, ⟨_, header, content, written, rfl⟩, accepted⟩ :=
      Codec.Framed.of_parse (c := .tagged p.codec) p.framed parsed
    obtain rfl : t = p.codec.tag := Tag.eq_of_equals accepted
    exact ⟨header, content, written, rfl, (parse_append_iff written).mp parsed⟩
  · rintro ⟨header, content, written, rfl, read⟩
    exact (parse_append_iff written).mpr read

end Primitive

end Der
