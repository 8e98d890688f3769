import Der.Proofs.Element

namespace Der

open Encoding Decoding

/-- A limit of depth, and one that leaves room for one scope more. -/
structure Number.OneMore (deeper limit : Number) : Prop where
  allows : limit.less 0 = false
  more : ∀ k : Nat, deeper.less (k + 1 : Nat) = limit.less k

theorem Number.oneMore_natCast (m : Nat) : Number.OneMore (m + 1 : Nat) m where
  allows := by
    rw [show (0 : Number) = .integer 0 from rfl, less_integer]
    exact decide_eq_false (Int.not_lt.mpr (Int.natCast_nonneg m))
  more k := by
    rw [less_integer, less_integer, decide_eq_decide]
    omega

/-- The codecs build the same documents and accept the same documents as the same values. -/
def Codec.ActsAs (c c' : Codec) : Prop :=
  (∀ v, Document.build c v = Document.build c' v) ∧
    ∀ maxDepth document v, Document.parse c maxDepth document = .ok v ↔ Document.parse c' maxDepth document = .ok v

namespace TaggedCodec

variable {c : TaggedCodec} {regular sure : Value → Prop} {maxDepth : Number} {x : Value}

theorem build_of_refused {v : Value} {fault : Fault} (refused : c.contentLength v = .error fault) :
    Document.build (.tagged c) v = .error fault := by
  simp only [Document.build, Codec.encodedLength, encodedLength, refused, bind, Except.bind]

theorem build_of_oversized {v : Value} {length : Nat} {identifier : Octets} {fault : Fault}
    (measured : c.contentLength v = .ok length) (written : c.tag.encode = .ok identifier)
    (oversized : Length.encode length = .error fault) : Document.build (.tagged c) v = .error fault := by
  have size : Header.encodedLength c.tag length = .error fault := by
    rw [Header.encodedLength_eq, Header.encode, written, oversized]
    rfl
  simp only [Document.build, Codec.encodedLength, encodedLength, measured, size, bind, Except.bind]

/-- Codecs that differ in their tags build the same octets behind the identifier octets. -/
theorem Measures.build_retagged {c' : TaggedCodec} (measures : c.Measures regular sure)
    (measures' : c'.Measures regular sure) (length : c'.contentLength = c.contentLength)
    (content : c'.writeContent = c.writeContent) {old new : Octets} (written : c.tag.encode = .ok old)
    (written' : c'.tag.encode = .ok new) {v : Value} {document : Octets}
    (built : Document.build (.tagged c) v = .ok document) :
    ∃ rest, document = old ++ rest ∧ Document.build (.tagged c') v = .ok (new ++ rest) := by
  obtain ⟨header, octets, encoded, rfl, yields⟩ := measures.build_eq_ok.mp built
  obtain ⟨old', size, isOld, sized, rfl⟩ := Header.encode_eq_ok encoded
  cases written.symm.trans isOld
  rw [← length, ← content] at yields
  refine ⟨size ++ octets, List.append_assoc old size octets, measures'.build_eq_ok.mpr ⟨new ++ size, octets, ?_, ?_, yields⟩⟩
  · rw [Header.encode, written', sized]
    rfl
  · exact (List.append_assoc new size octets).symm

/-- On regular values, codecs that differ in their tags fail alike. -/
theorem Measures.same_fault {c' : TaggedCodec} (measures : c.Measures regular sure)
    (measures' : c'.Measures regular sure) (same : c'.contentLength = c.contentLength)
    (content : c'.writeContent = c.writeContent) {old new : Octets} (written : c.tag.encode = .ok old)
    (written' : c'.tag.encode = .ok new) {v : Value} (apart : v.Apart) (is : regular v) {fault fault' : Fault}
    (refused : Document.build (.tagged c) v = .error fault)
    (refused' : Document.build (.tagged c') v = .error fault') : fault = fault' := by
  cases measured : c.contentLength v with
  | error cause =>
    have measured' : c'.contentLength v = .error cause := same ▸ measured
    cases refused.symm.trans (build_of_refused measured)
    cases refused'.symm.trans (build_of_refused measured')
    rfl
  | ok length =>
    have measured' : c'.contentLength v = .ok length := same ▸ measured
    cases sized : Length.encode length with
    | error cause =>
      cases refused.symm.trans (build_of_oversized measured written sized)
      cases refused'.symm.trans (build_of_oversized measured' written' sized)
      rfl
    | ok size =>
      obtain ⟨octets, outcome, emits, _⟩ := (measures.fills measured).settles ⟨apart, is⟩
      have header : Header.encode c.tag length = .ok (old ++ size) := by
        rw [Header.encode, written, sized]
        rfl
      have header' : Header.encode c'.tag length = .ok (new ++ size) := by
        rw [Header.encode, written', sized]
        rfl
      rw [measures.build_eq measured header emits.own] at refused
      rw [measures'.build_eq measured' header' (content ▸ emits.own)] at refused'
      cases outcome with
      | error cause =>
        cases refused
        cases refused'
        rfl
      | ok done => cases refused

/-- Under another tag, the same octets follow the identifier octets, or both fail: with the same fault, if the value is
regular. -/
theorem Measures.build_implicit (measures : c.Measures regular sure) (name : String) {tagClass number : Number}
    {old new : Octets} (written : c.tag.encode = .ok old)
    (written' : (c.implicit name tagClass number).tag.encode = .ok new) (v : Value) :
    (∃ rest, Document.build (.tagged c) v = .ok (old ++ rest) ∧
      Document.build (.tagged (c.implicit name tagClass number)) v = .ok (new ++ rest)) ∨
    ∃ fault fault', Document.build (.tagged c) v = .error fault ∧
      Document.build (.tagged (c.implicit name tagClass number)) v = .error fault' ∧
      (regular v → v.Apart → fault = fault') := by
  have measures' := measures.implicit name tagClass number
  cases built : Document.build (.tagged c) v with
  | ok document =>
    obtain ⟨rest, rfl, built'⟩ := measures.build_retagged measures' rfl rfl written written' built
    exact .inl ⟨rest, rfl, built'⟩
  | error fault =>
    cases built' : Document.build (.tagged (c.implicit name tagClass number)) v with
    | ok document =>
      obtain ⟨rest, _, again⟩ := measures'.build_retagged measures rfl rfl written' written built'
      cases built.symm.trans again
    | error fault' =>
      exact .inr ⟨fault, fault', rfl, rfl, fun is apart =>
        measures.same_fault measures' rfl rfl written written' apart is built built'⟩

/-- Whatever the identifier octets are, a document is read as what follows them says. -/
theorem readAs_identifier_iff (framed : c.Framed) (isLocal : c.Local) (valid : c.tag.WellFormed)
    {identifier : Octets} (written : c.tag.encode = .ok identifier) {rest : Octets} :
    Document.ReadAs (.tagged c) maxDepth (identifier ++ rest) x ↔ ∃ size content,
      Length.encode content.length = .ok size ∧ rest = size ++ content ∧ c.Holds maxDepth content x := by
  rw [readAs_iff framed isLocal valid]
  constructor
  · rintro ⟨header, content, encoded, same, holds⟩
    obtain ⟨identifier', size, written', sized, rfl⟩ := Header.encode_eq_ok encoded
    cases written.symm.trans written'
    rw [List.append_assoc] at same
    exact ⟨size, content, sized, List.append_cancel_left same, holds⟩
  · rintro ⟨size, content, sized, rfl, holds⟩
    refine ⟨identifier ++ size, content, ?_, (List.append_assoc ..).symm, holds⟩
    rw [Header.encode, written, sized]
    rfl

/-- Under another tag, the same octets are read as the same values. -/
theorem readAs_implicit_iff (framed : c.Framed) (isLocal : c.Local) (valid : c.tag.WellFormed) (name : String)
    {tagClass number : Number} (valid' : (c.implicit name tagClass number).tag.WellFormed) {old new : Octets}
    (written : c.tag.encode = .ok old) (written' : (c.implicit name tagClass number).tag.encode = .ok new)
    {rest : Octets} :
    Document.ReadAs (.tagged (c.implicit name tagClass number)) maxDepth (new ++ rest) x ↔
      Document.ReadAs (.tagged c) maxDepth (old ++ rest) x := by
  rw [readAs_identifier_iff framed isLocal valid written,
    readAs_identifier_iff (c := c.implicit name tagClass number) framed (isLocal.implicit name tagClass number) valid'
      written']
  exact Iff.rfl

/-- The document of an explicit tag is an element around the document of the inner type. -/
theorem build_explicit_iff {inner : Codec} (measures : inner.Measures regular sure) {name : String} {tag : Tag} {v : Value}
    {document : Octets} :
    Document.build (.tagged (explicit name tag inner)) v = .ok document ↔
      ∃ content, Document.build inner v = .ok content ∧ Element.build tag content = .ok document := by
  have inside : ∀ content, Document.build inner v = .ok content ↔
      Yields (inner.encodedLength v) (inner.encode v) content := by
    intro content
    rw [measures.build_eq, measures.toOctets_eq_ok]
    exact ⟨fun parts => ⟨parts.1, parts.2⟩, fun yields => ⟨yields.measured, yields.emits⟩⟩
  rw [(explicit_measures name tag measures).build_eq_ok]
  constructor
  · rintro ⟨header, content, written, rfl, yields⟩
    exact ⟨content, (inside content).mpr yields, Element.build_eq_ok.mpr ⟨header, written, rfl⟩⟩
  · rintro ⟨content, built, element⟩
    obtain ⟨header, written, rfl⟩ := Element.build_eq_ok.mp element
    exact ⟨header, content, written, rfl, (inside content).mp built⟩

/-- The content of an explicit tag is read as the inner type reads it inside one scope. -/
theorem explicit_holds_iff {inner : Codec} {name : String} {tag : Tag} {deeper : Number} {content : Octets}
    (shallow : deeper.less 1 = false) :
    (explicit name tag inner).Holds deeper content x ↔ ∃ v, inner.Parses 1 deeper content v ∧ v.Same x := by
  have bounded := Decoder.bounded_ofOctets content deeper
  have ahead : (Decoder.ofOctets content deeper).rest = content ++ [] := by
    rw [Decoder.rest_ofOctets, List.append_nil]
  have scope : (Decoder.ofOctets content deeper).scope content.length =
      (Decoder.ofOctets content deeper).inside 1 deeper := by
    simp only [Decoder.scope, Decoder.inside, Decoder.ofOctets, Nat.zero_add]
  have opens : ∀ v, inner.Parses 1 deeper content v ↔
      ∃ e, inner.decode.run ((Decoder.ofOctets content deeper).scope content.length) = .ok v e ∧
        e.position = e.stop := by
    intro v
    rw [Codec.Parses, outcome_eq_ok, scope]
    simp only [complete_eq_ok]
  simp only [opens]
  constructor
  · rintro ⟨v, d', run, same⟩
    exact ⟨v, ((nested_iff bounded ahead shallow).mp run).2, same⟩
  · rintro ⟨v, inside, same⟩
    exact ⟨v, _, (nested_iff bounded ahead shallow).mpr ⟨rfl, inside⟩, same⟩

theorem run_expect_of_run {tag : Tag} {name : String} {d d' : Decoder} {h : Header}
    (run : (expect tag name).run d = .ok h d') (name' : String) : (expect tag name').run d = .ok h d' := by
  obtain ⟨start, s, begun, run⟩ := bind_eq_ok run
  obtain ⟨h', e, read, run⟩ := bind_eq_ok run
  by_cases expected : h'.tag.equals tag = true
  · rw [if_pos expected] at run
    cases run
    simp only [expect, EStateM.run_bind, begun, read, if_pos expected]
    rfl
  · rw [if_neg expected] at run
    cases run

/-- The name of a type is told in faults only. -/
theorem parse_implicit_of_parse {name : String} {tagClass number : Number} {document : Octets} {v : Value}
    (parsed : Document.parse (.tagged (c.implicit name tagClass number)) maxDepth document = .ok v) (name' : String) :
    Document.parse (.tagged (c.implicit name' tagClass number)) maxDepth document = .ok v := by
  obtain ⟨e, whole⟩ := outcome_eq_ok.mp parsed
  obtain ⟨run, done⟩ := complete_eq_ok.mp whole
  obtain ⟨h, s, expected, read⟩ := bind_eq_ok run
  have expected' : (expect (c.implicit name' tagClass number).tag (c.implicit name' tagClass number).name).run
      (.ofOctets document maxDepth) = .ok h s := run_expect_of_run expected name'
  have renamed : (Codec.tagged (c.implicit name' tagClass number)).decode.run (.ofOctets document maxDepth) =
      .ok v e := by
    rw [Codec.decode, TaggedCodec.decode, EStateM.run_bind, expected']
    exact read
  exact outcome_eq_ok.mpr ⟨e, complete_eq_ok.mpr ⟨renamed, done⟩⟩

theorem Measures.actsAs_implicit (measures : c.Measures regular sure) (name name' : String) (tagClass number : Number) :
    (Codec.tagged (c.implicit name tagClass number)).ActsAs (.tagged (c.implicit name' tagClass number)) := by
  refine ⟨?_, ?_⟩
  · intro v
    have measures' : ∀ name, (Codec.tagged (c.implicit name tagClass number)).Measures regular sure :=
      fun name => measures.implicit name tagClass number
    rw [(measures' name).build_eq, (measures' name').build_eq]
    rfl
  · intro maxDepth document v
    exact ⟨fun parsed => parse_implicit_of_parse parsed name', fun parsed => parse_implicit_of_parse parsed name⟩

end TaggedCodec

namespace Schema

variable {T I : Schema}

/-- Under a limit that leaves room for one scope more, an explicit tag changes nothing for the inner type. -/
theorem Declared.readAs_explicit_iff (declared : T.Declared) (blind : T.ByContent) {name : String} {tag : Tag}
    (valid : tag.WellFormed) {content document : Octets} (element : Element.build tag content = .ok document)
    {deeper limit : Number} (oneMore : deeper.OneMore limit) {x : Value} :
    Document.ReadAs (explicit name tag T).codec deeper document x ↔ Document.ReadAs T.codec limit content x := by
  obtain ⟨header, written, rfl⟩ := Element.build_eq_ok.mp element
  have shallow : deeper.less 1 = false := (oneMore.more 0).trans oneMore.allows
  have moves : ∀ v, T.codec.Parses 1 deeper content v ↔ T.codec.Parses 0 limit content v := by
    intro v
    constructor
    · refine declared.parses_at fun k _ room => ?_
      rwa [Nat.add_comm, oneMore.more, ← Nat.zero_add k] at room
    · refine declared.parses_at fun k _ room => ?_
      rwa [Nat.zero_add, ← oneMore.more, Nat.add_comm] at room
  have framed : Document.ReadAs (explicit name tag T).codec deeper (header ++ content) x ↔
      (TaggedCodec.explicit name tag T.codec).Holds deeper content x :=
    TaggedCodec.readAs_append_iff (TaggedCodec.explicit_framed name tag T.codec)
      (TaggedCodec.explicit_local name tag (declared.isLocal blind)) valid written
  rw [framed, TaggedCodec.explicit_holds_iff shallow]
  simp only [moves]
  rfl

/-- An implicit tag replaces the identifier octets, and an explicit tag puts an element around. Under the implicit tag,
which keeps the form of the tag of the type, the same octets are built behind the identifier octets, or both builds fail,
with the same fault if the type suits the value, and the same octets are read as the same values. The document of the
explicit tag is an element with the document of the inner type as its content, and it is read as that content is read
under a limit that leaves room for one scope less. What is read stands elsewhere in its document, so both are for
conditions that see content only. An implicit tag on an implicit tag acts as one on the type itself, and an implicit tag
on an explicit one acts as an explicit tag, whatever the conditions see. -/
theorem Declared.implicit_replaces_explicit_wraps (declared : T.Declared) (inner : I.Declared) {base : TaggedCodec}
    (fixed : T.codec = .tagged base) (known : base.tag.WellFormed) (name : String) {tagClass number : Nat}
    (someClass : tagClass ≤ 3) (someNumber : number ≤ Tag.maxNumber) :
    (declareTagged name (some .implicit) (some tagClass) number T = .ok (implicit name tagClass number T) ∧
      declareTagged name (some .explicit) (some tagClass) number I = .ok (explicit name ⟨tagClass, true, number⟩ I)) ∧
    (∃ old new, base.tag.encode = .ok old ∧ Tag.encode ⟨tagClass, base.tag.constructed, number⟩ = .ok new ∧
      (∀ v, (∃ rest, Document.build T.codec v = .ok (old ++ rest) ∧
          Document.build (implicit name tagClass number T).codec v = .ok (new ++ rest)) ∨
        ∃ fault fault', Document.build T.codec v = .error fault ∧
          Document.build (implicit name tagClass number T).codec v = .error fault' ∧
          (T.Suits v → v.Apart → fault = fault')) ∧
      (T.ByContent → ∀ rest maxDepth x,
        Document.ReadAs (implicit name tagClass number T).codec maxDepth (new ++ rest) x ↔
          Document.ReadAs T.codec maxDepth (old ++ rest) x)) ∧
    (∀ v document, Document.build (explicit name ⟨tagClass, true, number⟩ I).codec v = .ok document ↔
      ∃ content, Document.build I.codec v = .ok content ∧
        Element.build ⟨tagClass, true, number⟩ content = .ok document) ∧
    (I.ByContent → ∀ content document, Element.build ⟨tagClass, true, number⟩ content = .ok document →
      ∀ deeper limit : Number, deeper.OneMore limit → ∀ x,
        Document.ReadAs (explicit name ⟨tagClass, true, number⟩ I).codec deeper document x ↔
          Document.ReadAs I.codec limit content x) ∧
    ∀ name' name'' (tagClass' number' : Number),
      (implicit name tagClass number (implicit name' tagClass' number' T)).codec.ActsAs
        (implicit name'' tagClass number T).codec ∧
      (implicit name tagClass number (explicit name' ⟨tagClass', true, number'⟩ I)).codec.ActsAs
        (explicit name'' ⟨tagClass, true, number⟩ I).codec := by
  have valid : ∀ form, Tag.WellFormed ⟨tagClass, form, number⟩ := fun form =>
    ⟨tagClass, number, someClass, someNumber, rfl, rfl⟩
  have measures := declared.measures
  rw [fixed] at measures
  obtain ⟨old, written, _⟩ := known.decode_encode
  obtain ⟨new, written', _⟩ := (valid base.tag.constructed).decode_encode
  have replaced : ∀ name, (implicit name tagClass number T).codec = .tagged (base.implicit name tagClass number) := by
    intro name
    rw [codec, fixed]
    rfl
  refine ⟨⟨?_, rfl⟩, ⟨old, new, written, written', ?_, ?_⟩, ?_, ?_, ?_⟩
  · rw [declareTagged, Option.getD_some]
    simp only [fixed, Codec.tag?, Option.isSome_some, if_true]
    rfl
  · intro v
    rw [replaced, fixed]
    exact TaggedCodec.Measures.build_implicit measures name written written' v
  · intro blind rest maxDepth x
    have framed := declared.framed
    have isLocal := declared.isLocal blind
    rw [fixed] at framed isLocal
    rw [replaced, fixed]
    exact TaggedCodec.readAs_implicit_iff framed isLocal known name (valid _) written written'
  · intro v document
    exact TaggedCodec.build_explicit_iff inner.measures
  · intro blind content document element deeper limit oneMore x
    exact inner.readAs_explicit_iff blind (valid true) element oneMore
  · intro name' name'' tagClass' number'
    refine ⟨?_, ?_⟩
    · have twice : (implicit name tagClass number (implicit name' tagClass' number' T)).codec =
          .tagged (base.implicit name tagClass number) := by
        rw [codec, codec, fixed]
        rfl
      rw [twice, replaced]
      exact TaggedCodec.Measures.actsAs_implicit measures name name'' tagClass number
    · exact TaggedCodec.Measures.actsAs_implicit
        (TaggedCodec.explicit_measures name' ⟨tagClass', true, number'⟩ inner.measures) name name'' tagClass number

/-- An explicit tag on a BOOLEAN, with another tag in its place and with another tag around it. -/
theorem implicit_replaces_explicit_wraps_flag :
    let T := explicit "Flag" ⟨2, true, 0⟩ (.primitive .boolean)
    Document.build (implicit "Outer" 1 201 T).codec (.boolean true) = .ok [0x7F, 0x81, 0x49, 3, 1, 1, 0xFF] ∧
      Document.ReadAs (implicit "Outer" 1 201 T).codec 1 [0x7F, 0x81, 0x49, 3, 1, 1, 0xFF] (.boolean true) ∧
      Document.build (explicit "Outer" ⟨1, true, 201⟩ T).codec (.boolean true) =
        .ok [0x7F, 0x81, 0x49, 5, 0xA0, 3, 1, 1, 0xFF] ∧
      Document.ReadAs (explicit "Outer" ⟨1, true, 201⟩ T).codec (2 : Nat) [0x7F, 0x81, 0x49, 5, 0xA0, 3, 1, 1, 0xFF]
        (.boolean true) := by
  intro T
  have accepted : declareTagged "Flag" none none 0 (.primitive .boolean) = .ok T := rfl
  have declared : T.Declared := .tagged (.primitive .boolean) accepted
  have blind : T.ByContent := by
    intro inner condition within
    rcases within.eq_or_child with same | ⟨S, direct, inside⟩
    · exact Schema.noConfusion same
    · rw [List.mem_singleton.mp direct] at inside
      cases inside.eq_of_primitive
  have built : Document.build T.codec (.boolean true) = .ok [0xA0, 3, 1, 1, 0xFF] := rfl
  have parsed : Document.ReadAs T.codec 1 [0xA0, 3, 1, 1, 0xFF] (.boolean true) := ⟨.boolean true, rfl, rfl⟩
  have known : Tag.WellFormed ⟨2, true, 0⟩ := ⟨2, 0, by decide, by decide, rfl, rfl⟩
  obtain ⟨-, ⟨old, new, isOld, isNew, builds, reads⟩, wraps, unwraps, -⟩ :=
    declared.implicit_replaces_explicit_wraps declared rfl known "Outer" (show 1 ≤ 3 by decide)
      (show 201 ≤ Tag.maxNumber by decide)
  cases Except.ok.inj (isOld.symm.trans (show Tag.encode ⟨2, true, 0⟩ = .ok [0xA0] from rfl))
  cases Except.ok.inj (isNew.symm.trans (show Tag.encode ⟨1, true, 201⟩ = .ok [0x7F, 0x81, 0x49] from rfl))
  have element : Element.build ⟨1, true, 201⟩ [0xA0, 3, 1, 1, 0xFF] =
      .ok [0x7F, 0x81, 0x49, 5, 0xA0, 3, 1, 1, 0xFF] := rfl
  refine ⟨?_, (reads blind [3, 1, 1, 0xFF] 1 _).mpr parsed, (wraps _ _).mpr ⟨_, built, element⟩,
    (unwraps blind _ _ element (2 : Nat) 1 (Number.oneMore_natCast 1) _).mpr parsed⟩
  obtain ⟨rest, before, after⟩ | ⟨fault, fault', refused, -⟩ := builds (.boolean true)
  · cases Except.ok.inj (built.symm.trans before)
    exact after
  · cases built.symm.trans refused

end Schema

end Der
