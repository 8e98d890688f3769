import Der.Proofs.Extent
import Der.Proofs.Framing
import Der.Proofs.Overhang
import Der.Proofs.TwoPass

namespace Der

namespace Overhang

variable {o rest : Overhang} {offset : Nat}

/-- A tag that is read takes all octets that are left, or it stands there in full. -/
theorem tag_eq_ok {t : Tag} (read : o.tag offset = .ok (t, rest)) : t.WellFormed ∧ (rest.octets = [] ∨
    ∃ identifier, t.encode = .ok identifier ∧ o.octets = identifier ++ rest.octets ∧ rest.gap = o.gap) := by
  obtain ⟨⟨t', tail⟩, decoded, same⟩ := Except.bind_eq_ok.mp read
  cases same
  obtain ⟨valid, identifier, written, split⟩ := Tag.eq_encode_of_decode decoded
  have used : o.filled.length - tail.length = identifier.length := by
    rw [split, List.length_append, Nat.add_sub_cancel]
  refine ⟨valid, ?_⟩
  rw [used]
  by_cases within : identifier.length ≤ o.octets.length
  · right
    have front := congrArg (List.take identifier.length) split
    rw [List.take_left, filled, List.take_append_of_le_length within] at front
    refine ⟨identifier, written, ?_, ?_⟩
    · simp only [drop]
      rw [← front, List.length_take_of_le within, List.take_append_drop]
    · simp only [drop]
      omega
  · left
    exact List.drop_eq_nil_of_le (Nat.le_of_not_le within)

/-- A length that is a natural number stands there in full. -/
theorem length_eq_ok {n : Nat} (read : o.length offset = .ok ((n : Number), rest)) :
    ∃ size, Length.encode (n : Number) = .ok size ∧ o.octets = size ++ rest.octets ∧ rest.gap = o.gap := by
  unfold length at read
  cases octets : o.octets with
  | nil =>
    rw [octets] at read
    by_cases ended : o.gap = 0
    · rw [if_pos ended] at read
      cases read
    · rw [if_neg ended] at read
      cases read
  | cons first tail =>
    rw [octets] at read
    simp only at read
    by_cases known : 4 < first.toNat - 128 ∨ first.toNat - 128 ≤ tail.length ∨
        tail.length + o.gap < first.toNat - 128
    · rw [if_pos known] at read
      obtain ⟨⟨k, left⟩, decoded, same⟩ := Except.bind_eq_ok.mp read
      obtain ⟨_, size, written, split⟩ := Length.eq_encode_of_decode decoded
      obtain ⟨value, rfl⟩ := Prod.mk.inj (Except.ok.inj same)
      cases Number.natCast_inj value
      have used : (first :: tail).length - left.length = size.length := by
        rw [split, List.length_append, Nat.add_sub_cancel]
      have length := congrArg List.length split
      rw [List.length_append] at length
      refine ⟨size, written, ?_, ?_⟩
      · simp only [drop, used]
        rw [octets, split, List.drop_left]
      · simp only [drop, used]
        rw [octets]
        omega
    · rw [if_neg known] at read
      by_cases zero : tail.head? = some 0
      · rw [if_pos zero] at read
        cases read
      · rw [if_neg zero] at read
        cases read

/-- A header whose length is a natural number stands there in full. -/
theorem header_eq_ok {h : Header} {n : Nat} (read : o.header offset = .ok (h, rest)) (natural : h.length = n) :
    h.tag.WellFormed ∧ ∃ header, Header.encode h.tag n = .ok header ∧ o.octets = header ++ rest.octets ∧
      rest.gap = o.gap := by
  obtain ⟨⟨t, afterTag⟩, first, read⟩ := Except.bind_eq_ok.mp read
  obtain ⟨⟨length, content⟩, second, read⟩ := Except.bind_eq_ok.mp read
  simp only at read
  by_cases missing : Number.less content.size length = true
  · rw [if_pos missing] at read
    cases read
  rw [if_neg missing] at read
  cases read
  simp only at natural second
  subst natural
  obtain ⟨valid, place⟩ := tag_eq_ok first
  obtain ⟨size, measured, split', gap'⟩ := length_eq_ok second
  rcases place with none | ⟨identifier, written, split, gap⟩
  · rw [none] at split'
    rw [(List.append_eq_nil_iff.mp split'.symm).1] at measured
    exact absurd measured (Length.encode_ne_nil _)
  · refine ⟨valid, identifier ++ size, ?_, by rw [split, split', List.append_assoc], gap'.trans gap⟩
    rw [Header.encode, written, measured]
    rfl

end Overhang

/-- A header takes at least two octets. -/
theorem Header.two_le_length {tag : Tag} {length : Nat} {header : Octets} (written : encode tag length = .ok header) :
    2 ≤ header.length := by
  obtain ⟨identifier, size, first, second, rfl⟩ := encode_eq_ok written
  have some : 0 < identifier.length := List.length_pos_of_ne_nil fun none => Tag.encode_ne_nil tag (none ▸ first)
  have some' : 0 < size.length := List.length_pos_of_ne_nil fun none => Length.encode_ne_nil length (none ▸ second)
  rw [List.length_append]
  omega

/-- Between the decoders lies one element with the tag: its header stands in full at the position of the first, and the
second stands behind as many places of the scope as the header declares. -/
structure Decoder.Passes (d : Decoder) (t : Tag) (d' : Decoder) : Prop where
  valid : t.WellFormed
  element : ∃ header length, Header.encode t length = .ok header ∧ header <+: d.rest ∧
    d' = d.skip (header.length + length)
  inside : d'.position ≤ d.stop

theorem Decoder.Passes.two_le {d d' : Decoder} {t : Tag} (passes : d.Passes t d') : d.position + 2 ≤ d'.position := by
  obtain ⟨_, ⟨header, length, written, _, rfl⟩, _⟩ := passes
  have two := Header.two_le_length written
  simp only [skip]
  omega

theorem Decoder.Passes.stop_eq {d d' : Decoder} {t : Tag} (passes : d.Passes t d') : d'.stop = d.stop := by
  obtain ⟨_, ⟨header, length, _, _, rfl⟩, _⟩ := passes
  rfl

namespace Decoding

variable {α : Type} {count : Number} {d d' : Decoder}

/-- Where the step succeeds, the count is a natural number, so many places are left in the scope, and the step takes just
these. -/
def Consumes (count : Number) (body : Decoding α) : Prop :=
  ∀ ⦃d d' : Decoder⦄ ⦃a : α⦄, body.run d = .ok a d' → ∃ n : Nat, count = n ∧ (n : Int) ≤ d.remaining ∧ d' = d.skip n

/-- Wherever the step succeeds, it has passed one element with a tag that is accepted. -/
def TakesElement (accepts : Tag → Bool) (body : Decoding α) : Prop :=
  ∀ ⦃d d' : Decoder⦄ ⦃a : α⦄, body.run d = .ok a d' → ∃ t : Tag, d.Passes t d' ∧ accepts t = true

/-- A result that is taken over leaves the decoder as it is. -/
theorem liftM_eq_ok {x : Except Fault α} {a : α} (run : EStateM.run (liftM x : Decoding α) d = .ok a d') :
    x = .ok a ∧ d' = d := by
  cases x with
  | error fault => cases run
  | ok b =>
    cases run
    exact ⟨rfl, rfl⟩

theorem eq_of_need {n : Nat} (enough : (need count).run d = .ok n d') :
    count = n ∧ (n : Int) ≤ d.remaining ∧ d' = d := by
  simp only [need, EStateM.run_bind, EStateM.run_get] at enough
  cases isNat : count.toNat? with
  | none =>
    rw [isNat] at enough
    cases enough
  | some k =>
    rw [isNat] at enough
    simp only at enough
    by_cases room : (k : Int) ≤ d.remaining
    · rw [if_pos room] at enough
      cases enough
      exact ⟨Number.eq_natCast_of_toNat? isNat, room, rfl⟩
    · rw [if_neg room] at enough
      cases enough

theorem eq_of_peekTag {tag : Option Tag} (peeked : peekTag.run d = .ok tag d') : d' = d := by
  obtain ⟨_, _, looked, read⟩ := bind_eq_ok peeked
  cases looked
  exact (liftM_eq_ok read).2

/-- A window that is taken lies inside the document. -/
theorem slice_inside {count : Number} {window : Slice} (run : (slice count).run d = .ok window d') :
    ∃ n : Nat, count = n ∧ (n : Int) ≤ d.remaining ∧ d.position + n ≤ d.source.length ∧ window = windowAt d n ∧
      d' = d.skip n := by
  obtain ⟨n, e, enough, taken⟩ := bind_eq_ok run
  obtain ⟨isCount, room, rfl⟩ := eq_of_need enough
  obtain ⟨_, _, looked, taken⟩ := bind_eq_ok taken
  cases looked
  obtain ⟨w, s, cut, taken⟩ := bind_eq_ok taken
  obtain ⟨found, rfl⟩ := liftM_eq_ok cut
  rw [Slice.within] at found
  by_cases inside : s.position + n ≤ s.source.length
  · rw [if_pos inside] at found
    cases found
    cases taken
    exact ⟨n, isCount, room, inside, rfl, rfl⟩
  · rw [if_neg inside] at found
    cases found

theorem consumes_slice (count : Number) : (slice count).Consumes count := by
  intro d d' window run
  obtain ⟨n, isCount, room, _, _, moved⟩ := slice_inside run
  exact ⟨n, isCount, room, moved⟩

theorem Consumes.bind {α β : Type} {body : Decoding α} {next : α → Decoding β} (begins : body.Consumes count)
    (still : ∀ {a e b d'}, (next a).run e = .ok b d' → d' = e) : (body >>= next).Consumes count := by
  intro d d' b run
  obtain ⟨a, e, first, second⟩ := bind_eq_ok run
  rw [still second]
  exact begins first

theorem consumes_content {α : Type} (count : Number) (rule : Slice → Except Fault α) :
    (content count rule).Consumes count := by
  intro d d' a run
  obtain ⟨_, _, begun, taken⟩ := bind_eq_ok run
  cases begun
  refine Consumes.bind (consumes_slice count) ?_ taken
  intro window e b d' last
  cases result : rule window with
  | error fault =>
    rw [result] at last
    cases last
  | ok b' =>
    rw [result] at last
    cases last
    rfl

theorem consumes_nested {α : Type} (count : Number) (body : Decoding α) : (nested count body).Consumes count := by
  intro d d' a run
  obtain ⟨n, e, enough, goes⟩ := bind_eq_ok run
  obtain ⟨isCount, room, rfl⟩ := eq_of_need enough
  obtain ⟨_, _, looked, goes⟩ := bind_eq_ok goes
  cases looked
  by_cases deep : e.maxDepth.less (e.depth + 1 : Nat) = true
  · simp only [if_pos deep] at goes
    cases goes
  · simp only [if_neg deep] at goes
    obtain ⟨a', s, done, last⟩ := bind_eq_ok goes
    obtain ⟨_, rfl⟩ := liftM_eq_ok done
    cases last
    exact ⟨n, isCount, room, rfl⟩

/-- A header that is read stands at the position in full, if the length that it declares is a natural number. -/
theorem header_stands {h : Header} (read : header.run d = .ok h d') {n : Nat} (natural : h.length = n) :
    h.tag.WellFormed ∧ ∃ header, Header.encode h.tag n = .ok header ∧ header <+: d.rest ∧ d' = d.skip header.length := by
  obtain ⟨_, _, looked, read⟩ := bind_eq_ok read
  cases looked
  obtain ⟨⟨h', content⟩, e, found, read⟩ := bind_eq_ok read
  obtain ⟨decoded, rfl⟩ := liftM_eq_ok found
  cases read
  obtain ⟨valid, header, written, split, gap⟩ := Overhang.header_eq_ok decoded natural
  have used : e.ahead.size - content.size = header.length := by
    rw [Overhang.size, Overhang.size, split, gap, List.length_append]
    omega
  refine ⟨valid, header, written, ⟨content.octets, split.symm⟩, ?_⟩
  simp only [used]
  rfl

/-- A header and as many places of the scope as it declares are one element. -/
theorem passes_of_header {h : Header} (read : header.run d = .ok h d') {n : Nat} (natural : h.length = n)
    (room : (n : Int) ≤ d'.remaining) : d.Passes h.tag (d'.skip n) := by
  obtain ⟨valid, header, written, front, rfl⟩ := header_stands read natural
  refine ⟨valid, ⟨header, n, written, front, ?_⟩, ?_⟩
  · rw [Decoder.skip_skip]
  · simp only [Decoder.remaining, Decoder.skip] at room ⊢
    omega

end Decoding

open Decoding

/-- What stands at the position stands there in any scope that is wide enough. -/
theorem Decoder.prefix_upTo {d : Decoder} {front : Octets} (ahead : front <+: d.rest) {stop : Nat}
    (wide : front.length ≤ (d.upTo stop).rest.length) : front <+: (d.upTo stop).rest := by
  have inSource : ∀ e : Decoder, e.rest <+: e.source.drop e.position := by
    intro e
    rw [rest, Octets.between, List.drop_take]
    exact List.take_prefix _ _
  exact List.prefix_of_prefix_length_le (ahead.trans (inSource d)) (inSource (d.upTo stop)) wide

/-- What is captured where the scope reaches past the last octet is captured inside the document as well. -/
theorem Any.exists_bounded {a : Any} {d d' : Decoder} (captured : read.run d = .ok a d') :
    ∃ e e' : Decoder, e.Bounded ∧ read.run e = .ok a e' := by
  obtain ⟨_, _, begun, captured⟩ := bind_eq_ok captured
  cases begun
  obtain ⟨h, e, found, captured⟩ := bind_eq_ok captured
  obtain ⟨window, e', taken, captured⟩ := bind_eq_ok captured
  obtain ⟨n, natural, room, inside, rfl, rfl⟩ := slice_inside taken
  obtain ⟨valid, header, written, front, rfl⟩ := header_stands found natural
  cases captured
  -- The same place, in the scope that ends where the element ends.
  have bounded : (d.upTo (d.position + (header.length + n))).Bounded := by
    refine ⟨Nat.le_add_right _ _, ?_⟩
    simp only [Decoder.skip] at inside
    rwa [Decoder.upTo, ← Nat.add_assoc]
  have length : (d.upTo (d.position + (header.length + n))).rest.length = header.length + n := by
    rw [bounded.length_rest]
    exact Nat.add_sub_cancel_left _ _
  obtain ⟨content, ahead⟩ := Decoder.prefix_upTo front (length ▸ Nat.le_add_right header.length n)
  have count : content.length = n := by
    rw [← ahead, List.length_append] at length
    exact Nat.add_left_cancel length
  subst count
  rw [← List.append_nil (header ++ content)] at ahead
  have run := run_read bounded valid written ahead.symm
  have width : d.position + header.length + content.length - d.position = header.length + content.length := by omega
  refine ⟨_, (d.upTo (d.position + (header.length + content.length))).skip (header.length + content.length), bounded, ?_⟩
  rw [run]
  simp only [Decoder.skip, Decoder.upTo, windowAt, width]

theorem Any.captured_inside {T : Schema} {v : Value}
    (captured : T = .any → ∀ a, v = .any a → ∃ d d', Any.read.run d = .ok a d') :
    T = .any → ∀ a, v = .any a → ∃ d d', Decoder.Bounded d ∧ Any.read.run d = .ok a d' := by
  intro isAny a is
  obtain ⟨_, _, read⟩ := captured isAny a is
  exact exists_bounded read

/-- The octets are one element with the tag of the value, which belongs to the type. -/
def Codec.Represents (c : Codec) (v : Value) (octets : Octets) : Prop :=
  ∃ t : Tag, c.tagOf v = .ok t ∧ t.Frames octets ∧ c.accepts t = true

/-- The content of the type is read to the end of what is declared, and no further. -/
def TaggedCodec.ConsumesContent (c : TaggedCodec) : Prop :=
  ∀ count, (c.readContent count).Consumes count

/-- What is read as a value is one element with a tag of the type. -/
def Codec.TakesElement (c : Codec) : Prop :=
  c.decode.TakesElement c.accepts

namespace TaggedCodec

variable {c : TaggedCodec}

theorem ConsumesContent.takesElement (consumes : c.ConsumesContent) : (Codec.tagged c).TakesElement := by
  intro d d' v run
  obtain ⟨h, e, expected, goes⟩ := bind_eq_ok run
  obtain ⟨n, natural, room, rfl⟩ := consumes h.length goes
  obtain ⟨_, _, begun, expected⟩ := bind_eq_ok expected
  cases begun
  obtain ⟨h', e', found, checked⟩ := bind_eq_ok expected
  by_cases accepted : h'.tag.equals c.tag = true
  · rw [if_pos accepted] at checked
    cases checked
    exact ⟨_, passes_of_header found natural room, accepted⟩
  · rw [if_neg accepted] at checked
    cases checked

theorem ConsumesContent.refine (consumes : c.ConsumesContent) (condition : Condition) :
    (c.refine condition).ConsumesContent := by
  intro count d d' v run
  obtain ⟨_, _, begun, goes⟩ := bind_eq_ok run
  cases begun
  refine Consumes.bind (consumes count) ?_ goes
  intro w e b d' checked
  cases problem : condition w with
  | some text =>
    rw [problem] at checked
    cases checked
  | none =>
    rw [problem] at checked
    cases checked
    rfl

theorem explicit_consumesContent (name : String) (tag : Tag) (inner : Codec) :
    (explicit name tag inner).ConsumesContent :=
  fun count => consumes_nested count _

theorem sequence_consumesContent (name : String) (tag : Tag) (fields : List (Field Codec)) :
    (sequence name tag fields).ConsumesContent :=
  fun count => consumes_nested count _

theorem set_consumesContent (name : String) (tag : Tag) (fields : List (Field Codec)) :
    (set name tag fields).ConsumesContent :=
  fun count => consumes_nested count _

theorem consumes_collection (name : String) (bounds : SizeBounds) (elements : Nat → Decoding (List Value))
    (count : Number) : (Collection.readContent name bounds elements count).Consumes count := by
  intro d d' v run
  obtain ⟨_, _, begun, goes⟩ := bind_eq_ok run
  cases begun
  exact consumes_nested count _ goes

theorem sequenceOf_consumesContent (name : String) (tag : Tag) (bounds : SizeBounds) (item : Codec) :
    (sequenceOf name tag bounds item).ConsumesContent :=
  consumes_collection name bounds (Collection.readInOrder name item)

theorem setOf_consumesContent (name : String) (tag : Tag) (bounds : SizeBounds) (item : Codec) :
    (setOf name tag bounds item).ConsumesContent :=
  consumes_collection name bounds (Collection.readSorted name item · [])

end TaggedCodec

theorem Primitive.consumesContent (p : Primitive) : p.codec.ConsumesContent :=
  fun count => consumes_content count p.rule.read

theorem UntaggedCodec.any_takesElement : (Codec.untagged any).TakesElement := by
  intro d d' v run
  obtain ⟨a, e, captured, last⟩ := bind_eq_ok run
  cases last
  obtain ⟨_, _, begun, goes⟩ := bind_eq_ok captured
  cases begun
  obtain ⟨h, e, found, goes⟩ := bind_eq_ok goes
  obtain ⟨n, natural, room, rfl⟩ := Consumes.bind (consumes_slice h.length) (by rintro window e b d' ⟨⟩; rfl) goes
  exact ⟨h.tag, passes_of_header found natural room, rfl⟩

theorem UntaggedCodec.time_takesElement : (Codec.untagged time).TakesElement := by
  have either : ∀ p : Primitive, (∀ t, p.codec.accepts t = true → time.accepts t = true) →
      p.codec.decode.TakesElement time.accepts := by
    intro p accepted d d' v run
    obtain ⟨t, passes, is⟩ := p.consumesContent.takesElement run
    exact ⟨t, passes, accepted t is⟩
  have utc := either .utcTime fun t is => Bool.or_eq_true_iff.mpr (Or.inl is)
  have generalized := either .generalizedTime fun t is => Bool.or_eq_true_iff.mpr (Or.inr is)
  intro d d' v run
  obtain ⟨tag, e, peeked, goes⟩ := bind_eq_ok run
  cases eq_of_peekTag peeked
  cases tag with
  | none => exact utc goes
  | some tag =>
    by_cases is : Primitive.generalizedTime.codec.accepts tag = true
    · simp only [if_pos is] at goes
      exact generalized goes
    · simp only [if_neg is] at goes
      exact utc goes

/-- A type with a fixed tag reads the content to its end, and any other type reads one element. -/
def Codec.TakesWhole : Codec → Prop
  | tagged c => c.ConsumesContent
  | untagged c => (Codec.untagged c).TakesElement

theorem Codec.TakesWhole.takesElement {c : Codec} (whole : c.TakesWhole) : c.TakesElement := by
  cases c with
  | tagged c => exact TaggedCodec.ConsumesContent.takesElement whole
  | untagged c => exact whole

namespace Schema

theorem Declared.takesWhole {T : Schema} (declared : T.Declared) : T.codec.TakesWhole := by
  induction declared using Declared.induct with
  | primitive p => exact p.consumesContent
  | time => exact UntaggedCodec.time_takesElement
  | any => exact UntaggedCodec.any_takesElement
  | sequence name tag types declared _ _ ih => exact TaggedCodec.sequence_consumesContent _ _ _
  | set name tag types declared _ _ _ ih => exact TaggedCodec.set_consumesContent _ _ _
  | sequenceOf name tag bounds type declared ih => exact TaggedCodec.sequenceOf_consumesContent _ _ _ _
  | setOf name tag bounds type declared ih => exact TaggedCodec.setOf_consumesContent _ _ _ _
  | explicit name tag type declared ih => exact TaggedCodec.explicit_consumesContent _ _ _
  | implicit name tagClass number type declared fixed ih =>
    rw [fixed] at ih
    rw [codec, fixed]
    exact ih
  | refine condition type declared fixed ih =>
    rw [fixed] at ih
    rw [codec, fixed]
    exact TaggedCodec.ConsumesContent.refine ih condition

/-- A declared type reads one element with a tag of its own, wherever the decoder stands. -/
theorem Declared.takesElement {T : Schema} (declared : T.Declared) : T.codec.TakesElement :=
  declared.takesWhole.takesElement

section

variable {T : Schema} (declared : T.Declared) {v : Value}
  (captured : T = .any → ∀ a, v = .any a → ∃ d d', Any.read.run d = .ok a d')

include declared captured

/-- An element that does not fit is not written. -/
theorem Declared.scarce {n : Nat} {e : Encoder} (still : e.sees v = v) (measured : T.codec.encodedLength v = .ok n)
    (scarce : e.remaining < n) :
    (T.codec.encode v).run e = .error (.coding (.noRoom n e.remaining) e.position) e := by
  rw [← still] at measured
  cases shape : T.codec with
  | tagged c =>
    rw [shape] at measured
    exact c.guarded.scarce trivial measured scarce
  | untagged c =>
    rcases declared.untagged shape with rfl | rfl
    · cases shape
      exact UntaggedCodec.time_guarded.scarce trivial measured scarce
    · cases shape
      refine UntaggedCodec.any_guarded.scarce ?_ measured scarce
      rw [still] at measured ⊢
      obtain ⟨a, is, _⟩ := Except.bind_eq_ok.mp measured
      cases UntaggedCodec.asAny_eq_ok is
      obtain ⟨d, d', bounded, read⟩ := Any.captured_inside captured rfl a rfl
      obtain ⟨octets, _, _, _, _, _, _, _, shows⟩ := Any.reads_read bounded read
      exact (Slice.length_of_octets shows).1

/-- What has been written for a suitable value at an encoder is what is written into a buffer of its own. -/
theorem Declared.toOctets_of_encode {e e' : Encoder} (suits : T.Suits v) (apart : v.Apart)
    (run : (T.codec.encode v).run e = .ok () e') : ∃ octets, T.codec.toOctets v = .ok octets ∧ e' = e.put octets := by
  have still := apart.sees e
  cases measured : T.codec.encodedLength v with
  | error fault => cases run.symm.trans (declared.guarded.refuses e (still.symm ▸ measured))
  | ok n =>
    have measures := declared.measures
    have room : n ≤ e.remaining := by
      refine Nat.not_lt.mp fun scarce => ?_
      cases run.symm.trans (declared.scarce captured still measured scarce)
    obtain ⟨octets, outcome, emits, full, _⟩ := (measures.fills measured).settles ⟨apart, suits⟩
    have ends := emits.run e (fun _ => trivial) room
    cases outcome with
    | error fault => cases run.symm.trans ends
    | ok done =>
      cases run.symm.trans ends
      refine ⟨octets, measures.toOctets_eq_ok.mpr ⟨?_, ?_⟩, rfl⟩
      · rw [measured, full rfl]
      · rw [full rfl]
        exact emits.own

omit captured in
/-- What has been written as measured in the encoder's own buffer is what is written into any such buffer. -/
theorem Declared.toOctets_of_position {e e' : Encoder} (own : e.lent = false)
    (run : (T.codec.encode v).run e = .ok () e') (whole : T.codec.encodedLength v = .ok (e'.position - e.position)) :
    ∃ octets, T.codec.toOctets v = .ok octets ∧ e' = e.put octets := by
  have measures := declared.measures
  obtain ⟨octets, _, fits, emits⟩ := (measures.fills whole).reaches own run
  have ends := emits.run e (fun lent => absurd lent (Bool.eq_false_iff.mp own)) fits
  cases run.symm.trans ends
  rw [Encoder.put, Nat.add_sub_cancel_left] at whole
  exact ⟨octets, measures.toOctets_eq_ok.mpr ⟨whole, emits⟩, rfl⟩

/-- What is written for a value is one element of the tag of the value, which belongs to the type. -/
theorem Declared.represents_of_toOctets (valid : ∀ tag, T.codec.tag? = some tag → tag.WellFormed) {octets : Octets}
    (written : T.codec.toOctets v = .ok octets) : T.codec.Represents v octets := by
  have measures := declared.measures
  obtain ⟨measured, emits⟩ := measures.toOctets_eq_ok.mp written
  have yields : Encoding.Yields (T.codec.encodedLength v) (T.codec.encode v) octets := ⟨measured, emits⟩
  cases shape : T.codec with
  | tagged c =>
    rw [shape] at measures yields valid
    have wellFormed := valid c.tag rfl
    exact ⟨c.tag, rfl, TaggedCodec.Measures.frames_of_wellFormed measures yields wellFormed, wellFormed.equals_self⟩
  | untagged c =>
    rcases declared.untagged shape with rfl | rfl
    · cases shape
      obtain ⟨p, type, emits⟩ := yields.emits.of_after
      obtain ⟨p', type', measured⟩ := Except.bind_eq_ok.mp yields.measured
      cases Except.ok.inj (type.symm.trans type')
      refine ⟨p.codec.tag, Except.bind_eq_ok.mpr ⟨p, type, rfl⟩, ?_, ?_⟩
      · exact TaggedCodec.Measures.frames_of_wellFormed p.measures ⟨measured, emits⟩ p.wellFormed
      · rcases UntaggedCodec.timeType_eq_ok type with rfl | rfl <;> rfl
    · cases shape
      obtain ⟨a, rfl, shows⟩ := UntaggedCodec.shows_of_yields (Any.captured_inside captured rfl) yields
      exact ⟨a.tag, rfl, shows.frames, rfl⟩

end

end Schema

end Der
