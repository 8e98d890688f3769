import Der.Proofs.Framing
import Der.Proofs.Locality

namespace Der

/-- Groups without the last of them do not end. -/
theorem Base128.groups_of_prefix {limit sofar n : Nat} {octets front : Octets}
    (read : groups limit sofar octets = .ok (n, [])) (begins : front <+: octets) (proper : front ≠ octets) :
    groups limit sofar front = .error .unterminated := by
  induction octets generalizing sofar front with
  | nil => cases read
  | cons octet tail ih =>
    cases front with
    | nil => rfl
    | cons first front =>
      obtain ⟨rfl, inner⟩ := List.cons_prefix_cons.mp begins
      rw [groups] at read ⊢
      by_cases large : limit < sofar * 128 + first.toNat % 128
      · rw [if_pos large] at read
        cases read
      rw [if_neg large] at read ⊢
      by_cases last : first.toNat < 128
      · rw [if_pos last] at read
        cases read
        rw [List.prefix_nil.mp inner] at proper
        exact absurd rfl proper
      · rw [if_neg last] at read ⊢
        exact ih read inner fun same => proper (congrArg _ same)

theorem Base128.decode_of_prefix {limit n : Nat} {octets front : Octets} (read : decode limit octets = .ok (n, []))
    (begins : front <+: octets) (proper : front ≠ octets) : decode limit front = .error .unterminated := by
  rw [decode] at read ⊢
  by_cases padded : octets.head? = some 128
  · rw [if_pos padded] at read
    cases read
  rw [if_neg padded] at read
  have unpadded : front.head? ≠ some 128 := by
    intro same
    obtain ⟨more, rfl⟩ := begins
    exact padded (by rw [List.head?_append, same]; rfl)
  rw [if_neg unpadded]
  exact groups_of_prefix read begins proper

/-- Identifier octets of which some are missing, but not all. -/
theorem Tag.decode_of_prefix {offset : Nat} {octets front : Octets} {t : Tag} (read : decode offset octets = .ok (t, []))
    (begins : front <+: octets) (proper : front ≠ octets) (some : front ≠ []) :
    decode offset front = .error (.coding .unterminatedTagNumber offset) := by
  cases octets with
  | nil => exact absurd (List.prefix_nil.mp begins) some
  | cons octet tail =>
    cases front with
    | nil => exact absurd rfl some
    | cons first front =>
      obtain ⟨rfl, inner⟩ := List.cons_prefix_cons.mp begins
      have shorter : front ≠ tail := fun same => proper (congrArg _ same)
      simp only [decode] at read ⊢
      by_cases low : first.toNat % 32 < leastHigh
      · rw [if_pos low] at read
        cases read
        exact absurd (List.prefix_nil.mp inner) shorter
      rw [if_neg low] at read ⊢
      cases number : Base128.decode maxNumber tail with
      | error flaw =>
        rw [number] at read
        cases flaw <;> cases read
      | ok result =>
        obtain ⟨n, rest⟩ := result
        rw [number] at read
        dsimp only at read
        by_cases small : n < leastHigh
        · rw [if_pos small] at read
          cases read
        rw [if_neg small] at read
        cases read
        rw [Base128.decode_of_prefix number inner shorter]

/-- Length octets of which some are missing. -/
theorem Length.decode_of_prefix {offset n : Nat} {octets front : Octets} (read : decode offset octets = .ok (n, []))
    (begins : front <+: octets) (proper : front ≠ octets) :
    ∃ cause : Fault.Cause, decode offset front = .error (.coding cause offset) ∧ cause.kind = .incomplete := by
  cases octets with
  | nil => cases read
  | cons octet tail =>
    cases front with
    | nil => exact ⟨.missingLength, rfl, rfl⟩
    | cons first front =>
      obtain ⟨rfl, inner⟩ := List.cons_prefix_cons.mp begins
      have shorter : front.length < tail.length := by
        refine Nat.lt_of_le_of_ne inner.length_le ?_
        intro same
        exact proper (congrArg _ (inner.eq_of_length same))
      by_cases short : first.toNat < leastLong
      · rw [decode, if_pos short] at read
        cases read
        cases shorter
      obtain ⟨count, counted, positive, narrow, room, _, _, none, _⟩ := long_of_decode short read
      have all : tail.length ≤ count := List.drop_eq_nil_iff.mp none.symm
      have same : first.toNat - 128 = count := by omega
      refine ⟨.truncatedLength, ?_, rfl⟩
      simp only [decode, same]
      rw [if_neg short, if_neg (by omega), if_neg (by omega), if_neg (by omega), if_pos (by omega)]

theorem Header.decode_of_tag_error {offset : Nat} {octets : Octets} {fault : Fault}
    (failed : Tag.decode offset octets = .error fault) : decode offset octets = .error fault := by
  rw [decode, failed]
  rfl

theorem Header.decode_of_length_error {offset : Nat} {octets rest : Octets} {t : Tag} {fault : Fault}
    (readTag : Tag.decode offset octets = .ok (t, rest))
    (failed : Length.decode (offset + (octets.length - rest.length)) rest = .error fault) :
    decode offset octets = .error fault := by
  rw [decode, readTag]
  simp only [bind, Except.bind, failed]

/-- Behind the tag, length octets or octets of the content that they declare are missing. -/
theorem Header.decode_of_prefix {offset length : Nat} {t : Tag} {octets front size content : Octets}
    (readTag : Tag.decode offset octets = .ok (t, front)) (written : Length.encode length = .ok size)
    (whole : content.length = length) (begins : front <+: size ++ content) (proper : front ≠ size ++ content) :
    ∃ (cause : Fault.Cause) (place : Nat), decode offset octets = .error (.coding cause place) ∧ cause.kind = .incomplete := by
  obtain ⟨size', again, readLength⟩ := Length.decode_encode (Length.le_max_of_encode written)
  cases Except.ok.inj (written.symm.trans again)
  by_cases sized : size <+: front
  · obtain ⟨left, rfl⟩ := sized
    have inner : left <+: content := List.prefix_append_right_inj size |>.mp begins
    have fewer : left.length < length := by
      rw [← whole]
      refine Nat.lt_of_le_of_ne inner.length_le ?_
      intro same
      exact proper (congrArg _ (inner.eq_of_length same))
    refine ⟨.missingContent length left.length, offset, ?_, rfl⟩
    rw [decode, readTag]
    simp only [bind, Except.bind, readLength, if_pos fewer]
    rfl
  · have inner : front <+: size :=
      (List.prefix_or_prefix_of_prefix begins (List.prefix_append size content)).resolve_right sized
    have all := readLength (offset + (octets.length - front.length)) []
    rw [List.append_nil] at all
    have shorter : front ≠ size := fun same => sized (same ▸ List.prefix_rfl)
    obtain ⟨cause, failed, kind⟩ := Length.decode_of_prefix all inner shorter
    exact ⟨cause, _, decode_of_length_error readTag failed, kind⟩

theorem Tag.Frames.identifier_prefix {t : Tag} {octets identifier : Octets} (frames : t.Frames octets)
    (written : t.encode = .ok identifier) : identifier <+: octets := by
  obtain ⟨valid, header, content, whole, rfl⟩ := frames
  obtain ⟨_, size, first, _, rfl⟩ := Header.encode_eq_ok whole
  cases Except.ok.inj (first.symm.trans written)
  rw [List.append_assoc]
  exact List.prefix_append _ _

/-- Of one element, something is missing. It is incomplete, unless it ends inside its identifier octets. -/
theorem Tag.Frames.decode_of_prefix {t : Tag} {octets front identifier : Octets} (frames : t.Frames octets)
    (written : t.encode = .ok identifier) (begins : front <+: octets) (proper : front ≠ octets) (offset : Nat) :
    ∃ (cause : Fault.Cause) (place : Nat), Header.decode offset front = .error (.coding cause place) ∧
      ((front = [] ∨ identifier <+: front) ∧ cause.kind = .incomplete ∨
        (front ≠ [] ∧ front <+: identifier ∧ front ≠ identifier) ∧ cause.kind = .invalidTag) := by
  have leads := frames.identifier_prefix written
  obtain ⟨valid, header, content, whole, rfl⟩ := frames
  obtain ⟨_, size, first, second, rfl⟩ := Header.encode_eq_ok whole
  cases Except.ok.inj (first.symm.trans written)
  obtain ⟨_, again, readTag⟩ := valid.decode_encode
  cases Except.ok.inj (written.symm.trans again)
  by_cases past : identifier <+: front
  · obtain ⟨left, rfl⟩ := past
    rw [List.append_assoc] at begins proper
    obtain ⟨cause, place, failed, kind⟩ := Header.decode_of_prefix (readTag offset left) second rfl
      (List.prefix_append_right_inj identifier |>.mp begins) fun same => proper (congrArg _ same)
    exact ⟨cause, place, failed, Or.inl ⟨Or.inr (List.prefix_append _ _), kind⟩⟩
  · by_cases none : front = []
    · subst none
      exact ⟨.missingTag, offset, Header.decode_of_tag_error rfl, Or.inl ⟨Or.inl rfl, rfl⟩⟩
    · have inner : front <+: identifier := (List.prefix_or_prefix_of_prefix begins leads).resolve_right past
      have shorter : front ≠ identifier := fun same => past (same ▸ List.prefix_rfl)
      have all := readTag offset []
      rw [List.append_nil] at all
      exact ⟨_, offset, Header.decode_of_tag_error (Tag.decode_of_prefix all inner shorter none),
        Or.inr ⟨⟨none, inner, shorter⟩, rfl⟩⟩

/-- The decoder in a scope that ends elsewhere. -/
def Decoder.upTo (d : Decoder) (stop : Nat) : Decoder :=
  { d with stop }

namespace Decoder

variable {d d' : Decoder} {octets : Octets} {stop : Nat}

theorem Takes.position_eq (takes : d.Takes octets d') : d'.position = d.position + octets.length := by
  rw [takes.state]
  rfl

section

variable (takes : d.Takes octets d') (holds : d'.position ≤ stop) (inside : stop ≤ d.source.length)

include takes holds inside

theorem Takes.bounded_upTo : (d.upTo stop).Bounded := by
  have position := takes.position_eq
  exact ⟨by simp only [Decoder.upTo]; omega, inside⟩

/-- What stands next in a scope stands next in any scope that holds it. -/
theorem Takes.upTo (bounded : d.Bounded) : (d.upTo stop).Takes octets (d'.upTo stop) := by
  have position := takes.position_eq
  have room : octets.length ≤ (d.upTo stop).rest.length := by
    rw [(takes.bounded_upTo holds inside).length_rest]
    simp only [Decoder.upTo]
    omega
  have same : (d.upTo stop).rest.take octets.length = octets := by
    have between := takes.between bounded
    rw [← (takes.bounded_upTo holds inside).between_skip room]
    rwa [takes.state] at between
  have state : d'.upTo stop = (d.upTo stop).skip octets.length := by
    rw [takes.state]
    rfl
  refine ⟨state, ?_⟩
  rw [state, rest_skip]
  calc (d.upTo stop).rest
      = (d.upTo stop).rest.take octets.length ++ (d.upTo stop).rest.drop octets.length :=
        (List.take_append_drop _ _).symm
    _ = octets ++ (d.upTo stop).rest.drop octets.length := by rw [same]

end

end Decoder

namespace Decoding

variable {α β : Type} {body : Decoding α} {next : α → Decoding β}

/-- What the step reads with success in a scope, it reads in every scope that holds it. -/
def Elastic (body : Decoding α) : Prop :=
  ∀ ⦃d d' : Decoder⦄ ⦃a : α⦄, d.Bounded → body.run d = .ok a d' →
    ∀ stop, d'.position ≤ stop → stop ≤ d.source.length → body.run (d.upTo stop) = .ok a (d'.upTo stop)

theorem elastic_pure (a : α) : (pure a : Decoding α).Elastic := by
  intro d d' a' bounded run stop holds inside
  cases run
  rfl

theorem elastic_offset : offset.Elastic := by
  intro d d' a bounded run stop holds inside
  cases run
  rfl

theorem Elastic.bind {right : α → Octets → Prop} (first : body.Elastic) (reads : body.Reads right)
    (goes : ∀ a, (next a).Elastic) (forward : ∀ a, (next a).Reads fun _ _ => True) : (body >>= next).Elastic := by
  intro d d' b bounded run stop holds inside
  obtain ⟨a, e, begun, ended⟩ := bind_eq_ok run
  obtain ⟨octets, takes, _⟩ := reads bounded begun
  have bounded' := takes.bounded bounded
  obtain ⟨more, takes', _⟩ := forward a bounded' ended
  have further := takes'.position_eq
  rw [EStateM.run_bind, first bounded begun stop (by omega) inside]
  rw [takes.state] at bounded' ended ⊢
  exact goes a bounded' ended stop holds inside

theorem elastic_content (count : Number) (rule : Slice → Except Fault α) : (content count rule).Elastic := by
  intro d d' a bounded run stop holds inside
  obtain ⟨n, rfl, room, rfl, read⟩ := content_eq_ok bounded run
  have takes := (Decoder.takes_take room).upTo holds inside bounded
  have enough := takes.length_le
  rw [List.length_take_of_le room] at enough
  have same : rule (windowAt (d.upTo stop) n) = .ok a := read
  rw [run_content ((Decoder.takes_take room).bounded_upTo holds inside) enough, same]
  rfl

/-- A scope inside the scope does not depend on where the outer one ends. -/
theorem elastic_nested (count : Number) (body : Decoding α) : (nested count body).Elastic := by
  intro d d' a bounded run stop holds inside
  obtain ⟨n, rfl, room, rfl, shallow, e, done⟩ := nested_eq_ok bounded run
  have takes := (Decoder.takes_take room).upTo holds inside bounded
  have enough := takes.length_le
  rw [List.length_take_of_le room] at enough
  have shallow : ¬ (d.upTo stop).maxDepth.less ((d.upTo stop).depth + 1 : Nat) = true := Bool.eq_false_iff.mp shallow
  have done : (complete body).run ((d.upTo stop).scope n) = .ok a e := done
  rw [run_nested ((Decoder.takes_take room).bounded_upTo holds inside) enough, if_neg shallow, done]
  rfl

end Decoding

open Decoding

/-- Content is read alike wherever the scope around it ends. -/
def TaggedCodec.Elastic (c : TaggedCodec) : Prop :=
  ∀ count, (c.readContent count).Elastic

/-- An element is read alike wherever the scope around it ends. -/
def UntaggedCodec.Elastic (c : UntaggedCodec) : Prop :=
  c.decode.Elastic

/-- An element is read alike wherever the scope around it ends. -/
def Codec.Elastic : Codec → Prop
  | tagged c => c.Elastic
  | untagged c => c.Elastic

/-- The scope must hold all the content that the header declares, and that is what the content takes. -/
theorem TaggedCodec.Elastic.decode {c : TaggedCodec} (elastic : c.Elastic) (framed : c.Framed) : c.decode.Elastic := by
  intro d d' v bounded run stop holds inside
  obtain ⟨h, e, first, second⟩ := bind_eq_ok run
  obtain ⟨length, header, isLength, valid, wrote, state, ahead, _⟩ := expect_eq_ok bounded first
  have takes : d.Takes header e := ⟨state, ahead⟩
  obtain ⟨content, takes', isCount⟩ := framed h.length (takes.bounded bounded) second
  have same : content.length = length := Number.natCast_inj (isCount.symm.trans isLength)
  have further := takes'.position_eq
  have source : stop ≤ e.source.length := by rwa [state]
  have header' := takes.upTo (by omega) inside bounded
  have content' := takes'.upTo holds source (takes.bounded bounded)
  have again := run_expect_of_encode (takes.bounded_upTo (by omega) inside) c.name valid wrote header'.ahead
    (same ▸ content'.length_le)
  have declared : (⟨c.tag, length⟩ : Header) = h := by
    have original := run_expect_of_encode bounded c.name valid wrote ahead (same ▸ takes'.length_le)
    rw [first] at original
    cases original
    rfl
  rw [TaggedCodec.decode, EStateM.run_bind, again, ← header'.state, declared]
  exact elastic h.length (takes.bounded bounded) second stop holds source

theorem Codec.Elastic.decode {c : Codec} (elastic : c.Elastic) (framed : c.Framed) : c.decode.Elastic := by
  cases c with
  | tagged c => exact TaggedCodec.Elastic.decode elastic framed
  | untagged c => exact elastic

theorem Primitive.elastic (p : Primitive) : p.codec.Elastic :=
  fun count => elastic_content count p.rule.read

theorem TaggedCodec.refine_eq_ok {inner : TaggedCodec} {condition : Condition} {count : Number} {d d' : Decoder}
    {v : Value} : ((inner.refine condition).readContent count).run d = .ok v d' ↔
      (inner.readContent count).run d = .ok v d' ∧ condition v = none := by
  constructor
  · intro run
    obtain ⟨start, e, begun, run⟩ := bind_eq_ok run
    cases begun
    obtain ⟨w, e, read, checked⟩ := bind_eq_ok run
    cases accepted : condition w with
    | some problem => simp only [accepted] at checked; cases checked
    | none =>
      simp only [accepted] at checked
      cases checked
      exact ⟨read, accepted⟩
  · intro parts
    obtain ⟨read, accepted⟩ := parts
    simp only [TaggedCodec.refine, EStateM.run_bind, run_offset, read, accepted]
    rfl

theorem TaggedCodec.Elastic.refine {inner : TaggedCodec} (elastic : inner.Elastic) (condition : Condition) :
    (inner.refine condition).Elastic := by
  intro count d d' v bounded run stop holds inside
  obtain ⟨read, accepted⟩ := refine_eq_ok.mp run
  exact refine_eq_ok.mpr ⟨elastic count bounded read stop holds inside, accepted⟩

theorem TaggedCodec.explicit_elastic (name : String) (tag : Tag) (inner : Codec) : (explicit name tag inner).Elastic :=
  fun count => elastic_nested count _

theorem TaggedCodec.sequence_elastic (name : String) (tag : Tag) (fields : List (Field Codec)) :
    (sequence name tag fields).Elastic :=
  fun count => elastic_nested count _

theorem TaggedCodec.set_elastic (name : String) (tag : Tag) (fields : List (Field Codec)) :
    (set name tag fields).Elastic :=
  fun count => elastic_nested count _

theorem Collection.elastic_readContent (name : String) (bounds : SizeBounds) (elements : Nat → Decoding (List Value))
    (count : Number) : (readContent name bounds elements count).Elastic :=
  elastic_offset.bind reads_offset (fun _ => elastic_nested count _) fun _ =>
    (reads_nested count _).mono fun _ _ _ => trivial

theorem UntaggedCodec.any_elastic : any.Elastic := by
  have captures : Any.read.Elastic := by
    intro d d' a bounded run stop holds inside
    obtain ⟨octets, takes, header, content, rfl, valid, written, _⟩ := Any.reads_read bounded run
    have takes' := takes.upTo holds inside bounded
    rw [Any.run_read bounded valid written takes.ahead] at run
    rw [Any.run_read (takes.bounded_upTo holds inside) valid written takes'.ahead]
    injection run with same state
    rw [← same, ← state]
    rfl
  exact captures.bind Any.reads_read (fun a => elastic_pure _) fun a => reads_pure trivial

theorem UntaggedCodec.time_elastic : time.Elastic := by
  intro d d' v bounded run stop holds inside
  obtain ⟨octets, takes, t, frames, _⟩ := time_framed bounded run
  have leads := frames.leads.append d'.rest
  have leads' := frames.leads.append (d'.upTo stop).rest
  rw [← takes.ahead] at leads
  rw [← (takes.upTo holds inside bounded).ahead] at leads'
  obtain ⟨_, _, looked, run⟩ := bind_eq_ok run
  rw [run_peekTag_of_leads bounded leads] at looked
  cases looked
  have goes : time.decode.run (d.upTo stop) =
      (if Primitive.generalizedTime.codec.accepts t then Primitive.generalizedTime.codec.decode
        else Primitive.utcTime.codec.decode).run (d.upTo stop) := by
    refine (EStateM.run_bind ..).trans ?_
    rw [run_peekTag_of_leads (takes.bounded_upTo holds inside) leads']
  rw [goes]
  by_cases is : Primitive.generalizedTime.codec.accepts t = true
  · simp only [if_pos is] at run ⊢
    exact (Primitive.elastic .generalizedTime).decode (Primitive.framed _) bounded run stop holds inside
  · simp only [if_neg is] at run ⊢
    exact (Primitive.elastic .utcTime).decode (Primitive.framed _) bounded run stop holds inside

namespace Schema

theorem Declared.elastic {T : Schema} (declared : T.Declared) : T.codec.Elastic := by
  induction declared using Declared.induct with
  | primitive p => exact p.elastic
  | time => exact UntaggedCodec.time_elastic
  | any => exact UntaggedCodec.any_elastic
  | sequence name tag types declared _ _ ih => exact TaggedCodec.sequence_elastic _ _ _
  | set name tag types declared _ _ _ ih => exact TaggedCodec.set_elastic _ _ _
  | sequenceOf name tag bounds type declared ih => exact Collection.elastic_readContent _ _ _
  | setOf name tag bounds type declared ih => exact Collection.elastic_readContent _ _ (Collection.readSorted _ _ · [])
  | explicit name tag type declared ih => exact TaggedCodec.explicit_elastic _ _ _
  | implicit name tagClass number type declared fixed ih =>
    rw [fixed] at ih
    rw [codec, fixed]
    exact ih
  | refine condition type declared fixed ih =>
    rw [fixed] at ih
    rw [codec, fixed]
    exact TaggedCodec.Elastic.refine ih condition

/-- Where no header can be read, no element is read. -/
theorem Declared.decode_of_header_error {T : Schema} (declared : T.Declared) {d : Decoder} (bounded : d.Bounded)
    {fault : Fault} (failed : Header.decode d.position d.rest = .error fault) :
    T.codec.decode.run d = .error fault d := by
  have header : Decoding.header.run d = .error fault d := by rw [run_header bounded, failed]
  have tagged : ∀ c : TaggedCodec, c.decode.run d = .error fault d := by
    intro c
    simp only [TaggedCodec.decode, expect, EStateM.run_bind, run_offset, header]
  cases shape : T.codec with
  | tagged c => exact tagged c
  | untagged c =>
    rcases declared.untagged shape with rfl | rfl
    · cases shape
      refine (EStateM.run_bind ..).trans ?_
      rw [run_peekTag bounded]
      cases ahead : d.rest with
      | nil => exact tagged _
      | cons first tail =>
        rw [ahead] at failed
        cases readTag : Tag.decode d.position (first :: tail) with
        | error fault' =>
          rw [Header.decode_of_tag_error readTag] at failed
          cases failed
          rfl
        | ok read =>
          obtain ⟨t, rest⟩ := read
          by_cases is : Primitive.generalizedTime.codec.accepts t = true
          · simp only [if_pos is]
            exact tagged _
          · simp only [if_neg is]
            exact tagged _
    · cases shape
      simp only [Codec.decode, UntaggedCodec.any, Any.read, EStateM.run_bind, run_offset, header]

theorem Declared.parse_of_header_error {T : Schema} (declared : T.Declared) {maxDepth : Number} {document : Octets}
    {fault : Fault} (failed : Header.decode 0 document = .error fault) :
    Document.parse T.codec maxDepth document = .error fault := by
  have run := declared.decode_of_header_error (Decoder.bounded_ofOctets document maxDepth)
    (by rw [Decoder.rest_ofOctets]; exact failed)
  simp only [Document.parse, outcome, complete, EStateM.run_bind, run]

/-- Octets behind a document are noticed where the document ends. -/
theorem Declared.parse_append {T : Schema} (declared : T.Declared) (blind : T.ByContent) {maxDepth : Number}
    {document : Octets} {v : Value} (parsed : Document.parse T.codec maxDepth document = .ok v) {more : Octets}
    (some : more ≠ []) :
    Document.parse T.codec maxDepth (document ++ more) =
      .error (.coding (.trailingOctets more.length) document.length) := by
  have first := Codec.Framed.run_of_parse declared.framed parsed
  -- The scope that ends with the document is read as the document on its own.
  have shifted : Decoder.Shifted 0 ⟨document ++ more, 0, document.length, 0, maxDepth⟩ (.ofOctets document maxDepth) := by
    refine ⟨Decoder.bounded_ofOctets document maxDepth, ?_, ?_, rfl, rfl, rfl, rfl⟩
    · exact (List.prefix_append document more).length_le
    · exact (List.take_left ..).trans (List.take_length ..).symm
  have agree := (declared.isLocal blind).tracks 0 shifted
  rw [first] at agree
  cases second : T.codec.decode.run ⟨document ++ more, 0, document.length, 0, maxDepth⟩ with
  | error fault e => rw [second] at agree; cases agree
  | ok w e =>
    rw [second] at agree
    cases agree with
    | ok same later =>
      obtain ⟨octets, takes, _⟩ := declared.framed.reads shifted.bounded_left second
      have length : octets.length = document.length := by
        have position := later.shifted.position
        rw [takes.state] at position
        simp only [Decoder.skip, Decoder.ofOctets] at position
        omega
      have whole : T.codec.decode.run (.ofOctets (document ++ more) maxDepth) =
          .ok w ((Decoder.ofOctets (document ++ more) maxDepth).skip document.length) := by
        have wide := declared.elastic.decode declared.framed shifted.bounded_left second _
          ((takes.bounded shifted.bounded_left).position_le.trans (takes.state ▸ shifted.inside)) (Nat.le_refl _)
        rw [takes.state, length] at wide
        exact wide
      have ahead := Decoder.rest_ofOctets (document ++ more) maxDepth
      have bounded := (Decoder.bounded_ofOctets _ maxDepth).skip (Decoder.takes_of_ahead ahead).length_le
      have left := Decoder.rest_skip_of_ahead ahead
      have trailing := run_finish bounded
      rw [left, if_neg some, bounded.remaining_eq, left] at trailing
      simp only [Document.parse, outcome, complete, EStateM.run_bind, whole, trailing]
      simp only [Decoder.fault, Decoder.skip, Decoder.ofOctets, Nat.zero_add]

/-- An accepted document is one element: it is refused with trailing data where it ends if more octets follow it, and if
octets are missing it is refused as incomplete, or for its tag where it ends inside the identifier octets. So no accepted
document begins with another one. For octets that follow, conditions must look at content only, since one that sees the
whole document through a window could refuse the value before its end is reached. -/
theorem Declared.parse_extent {T : Schema} (declared : T.Declared) {maxDepth : Number} {document : Octets} {v : Value}
    (parsed : Document.parse T.codec maxDepth document = .ok v) :
    (T.ByContent → ∀ more : Octets, more ≠ [] → Document.parse T.codec maxDepth (document ++ more) =
      .error (.coding (.trailingOctets more.length) document.length)) ∧
    (∃ tag identifier, T.codec.accepts tag = true ∧ tag.encode = .ok identifier ∧ identifier <+: document ∧
      ∀ front, front <+: document → front ≠ document → ∀ limit, ∃ (cause : Fault.Cause) (place : Nat),
        Document.parse T.codec limit front = .error (.coding cause place) ∧
          ((front = [] ∨ identifier <+: front) ∧ cause.kind = .incomplete ∨
            (front ≠ [] ∧ front <+: identifier ∧ front ≠ identifier) ∧ cause.kind = .invalidTag)) ∧
    ∀ limit other w, Document.parse T.codec limit other = .ok w → other <+: document ∨ document <+: other →
      other = document := by
  obtain ⟨tag, frames, accepted⟩ := Codec.Framed.of_parse declared.framed parsed
  refine ⟨fun blind more some => declared.parse_append blind parsed some, ?_, ?_⟩
  · obtain ⟨identifier, written, _⟩ := frames.valid.decode_encode
    refine ⟨tag, identifier, accepted, written, frames.identifier_prefix written, ?_⟩
    intro front begins proper limit
    obtain ⟨cause, place, failed, cases_⟩ := frames.decode_of_prefix written begins proper 0
    exact ⟨cause, place, declared.parse_of_header_error failed, cases_⟩
  · intro limit other w parsed' comparable
    obtain ⟨tag', frames', _⟩ := Codec.Framed.of_parse declared.framed parsed'
    rcases comparable with begins | begins
    · exact (frames'.eq_of_prefix frames begins).2
    · exact (frames.eq_of_prefix frames' begins).2.symm

/-- A serial number whose tag takes three octets, with an octet behind it, and without the last of the three. -/
theorem serial_extended_and_cut :
    Document.parse (implicit "Serial" 2 201 (.primitive .integer)).codec 0 [0x9F, 0x81, 0x49, 1, 5, 0] =
      .error (.coding (.trailingOctets 1) (5 : Nat)) ∧
    ∃ (cause : Fault.Cause) (place : Nat),
      Document.parse (implicit "Serial" 2 201 (.primitive .integer)).codec 0 [0x9F, 0x81] =
        .error (.coding cause place) ∧ cause.kind = .invalidTag := by
  have accepted : declareTagged "Serial" (some .implicit) none 201 (.primitive .integer) =
      .ok (implicit "Serial" 2 201 (.primitive .integer)) := rfl
  have declared : Declared (implicit "Serial" 2 201 (.primitive .integer)) := .tagged (.primitive .integer) accepted
  have blind : ByContent (implicit "Serial" 2 201 (.primitive .integer)) := by
    intro inner condition within
    rcases within.eq_or_child with same | ⟨U, direct, inside⟩
    · cases same
    · rw [List.mem_singleton.mp direct] at inside
      cases inside.eq_of_primitive
  have parsed : Document.parse (implicit "Serial" 2 201 (.primitive .integer)).codec 0 [0x9F, 0x81, 0x49, 1, 5] =
      .ok (.integer 5) := rfl
  obtain ⟨extended, ⟨tag, identifier, is, written, _, cut⟩, _⟩ := declared.parse_extent parsed
  refine ⟨extended blind [0] (List.cons_ne_nil _ _), ?_⟩
  have known : tag = ⟨2, false, 201⟩ := Tag.eq_of_equals is
  subst known
  have identified : Tag.encode ⟨2, false, 201⟩ = .ok [0x9F, 0x81, 0x49] := rfl
  cases Except.ok.inj (written.symm.trans identified)
  obtain ⟨cause, place, failed, kind⟩ := cut [0x9F, 0x81] (by decide) (by decide) 0
  refine ⟨cause, place, failed, ?_⟩
  rcases kind with ⟨whole, _⟩ | ⟨_, invalid⟩
  · exact absurd whole (by decide)
  · exact invalid

end Schema

end Der
