import Der.Proofs.Codec.Restores

namespace Der

theorem Number.truncate_le_of_not_less {x : Number} {n : Nat} (bound : Number.less n x = false) :
    x.truncate.toNat ≤ n := by
  cases x with
  | integer k =>
    rw [less_integer, decide_eq_false_iff_not] at bound
    rw [truncate]
    omega
  | fraction k twos reduced =>
    simp only [Number.less, compare?, beq_eq_false_iff_ne, ne_eq, Option.some.injEq, Int.compare_eq_lt] at bound
    have positive : (0 : Int) < (Nat.pow 2 twos : Nat) := Int.ofNat_lt.mpr (Nat.pow_pos Nat.zero_lt_two)
    have below := Int.ediv_le_of_le_mul positive (Int.not_lt.mp bound)
    have cut : k.tdiv (Nat.pow 2 twos : Nat) ≤ n := by
      by_cases negative : k < 0
      · have opposite := Int.ediv_nonneg (Int.neg_nonneg.mpr negative.le) positive.le
        rw [← Int.tdiv_eq_ediv_of_nonneg (Int.neg_nonneg.mpr negative.le), Int.neg_tdiv] at opposite
        omega
      · rwa [Int.tdiv_eq_ediv_of_nonneg (Int.not_lt.mp negative)]
    rw [truncate]
    omega
  | infinite | nan | absent => exact Nat.zero_le n

namespace Tag

theorem checkNumber_eq_ok {t : Tag} {n : Nat} (checked : t.checkNumber = .ok n) :
    t.number = n ∧ n ≤ maxNumber ∧ t.tagClass.less 0 = false ∧ Number.less 3 t.tagClass = false := by
  simp only [checkNumber] at checked
  split at checked
  · next isNat =>
    split at checked
    · cases checked
    · split at checked
      · cases checked
      · next small known =>
        cases checked
        exact ⟨Number.eq_natCast_of_toNat? isNat, Nat.not_lt.mp small,
          Bool.eq_false_iff.mpr fun negative => known (.inr (.inl negative)),
          Bool.eq_false_iff.mpr fun large => known (.inr (.inr large))⟩
  · cases checked

/-- The tag with its class cut to an integer. -/
def cut (t : Tag) : Tag :=
  ⟨t.tagClass.truncate.toNat, t.constructed, t.number⟩

/-- What is written for a tag is written for one that can be read back, with the class cut to an integer. -/
theorem cut_of_encode {t : Tag} {identifier : Octets} (written : t.encode = .ok identifier) :
    t.cut.WellFormed ∧ t.cut.encode = .ok identifier := by
  obtain ⟨n, checked, _⟩ := Except.bind_eq_ok.mp written
  obtain ⟨isNumber, smallNumber, -, smallClass⟩ := checkNumber_eq_ok checked
  have smallClass := Number.truncate_le_of_not_less smallClass
  refine ⟨⟨_, n, smallClass, smallNumber, rfl, isNumber⟩, ?_⟩
  rw [← written, encode_of_checkNumber checked, cut, isNumber,
    encode_of_checkNumber (checkNumber_natCast _ smallClass smallNumber)]
  rfl

theorem WellFormed.cut_eq {t : Tag} (valid : t.WellFormed) : t.cut = t := by
  obtain ⟨tagClass, form, number⟩ := t
  obtain ⟨c, n, _, _, rfl, rfl⟩ := valid
  rfl

/-- The octets are one element with the tag: a header, and as much content as it declares. -/
structure Frames (t : Tag) (octets : Octets) : Prop where
  valid : t.WellFormed
  parts : ∃ header content, Header.encode t content.length = .ok header ∧ octets = header ++ content

/-- What stands behind a written header is framed by the tag that is written, whatever the class was. -/
theorem frames_of_encode {t : Tag} {header content : Octets} (written : Header.encode t content.length = .ok header) :
    t.cut.Frames (header ++ content) := by
  obtain ⟨identifier, size, first, second, rfl⟩ := Header.encode_eq_ok written
  obtain ⟨valid, same⟩ := cut_of_encode first
  refine ⟨valid, identifier ++ size, content, ?_, rfl⟩
  rw [Header.encode, same, second]
  rfl

namespace Frames

variable {s t : Tag} {octets whole : Octets}

theorem leads (frames : t.Frames octets) : t.Leads octets := by
  obtain ⟨valid, header, content, written, rfl⟩ := frames
  exact valid.leads written content

theorem ne_nil (frames : t.Frames octets) : octets ≠ [] :=
  frames.leads.ne_nil

/-- The header of an element is read from its octets, whatever follows. -/
theorem decode_header (frames : t.Frames octets) :
    ∃ content : Octets, content.length < octets.length ∧ ∀ offset more,
      Header.decode offset (octets ++ more) = .ok (⟨t, content.length⟩, content ++ more) := by
  have some := frames.ne_nil
  obtain ⟨valid, header, content, written, rfl⟩ := frames
  refine ⟨content, ?_, ?_⟩
  · have lead := (valid.leads written []).ne_nil
    rw [List.append_nil] at lead
    have positive := List.length_pos_of_ne_nil lead
    rw [List.length_append]
    omega
  · intro offset more
    rw [List.append_assoc]
    exact Header.decode_encode valid written (List.prefix_append content more).length_le offset

/-- No element begins with another one. -/
theorem eq_of_prefix (frames : s.Frames octets) (frames' : t.Frames whole) (front : octets <+: whole) :
    s = t ∧ octets = whole := by
  obtain ⟨more, rfl⟩ := front
  obtain ⟨content, _, read⟩ := frames.decode_header
  obtain ⟨content', _, read'⟩ := frames'.decode_header
  have again := (read 0 more).symm.trans (List.append_nil (octets ++ more) ▸ read' 0 [])
  injection again with pair
  injection pair with headers contents
  injection headers with tags lengths
  have none : more = [] := by
    rw [List.append_nil] at contents
    have longer := congrArg List.length contents
    rw [List.length_append, ← Number.natCast_inj lengths] at longer
    exact List.length_eq_zero_iff.mp (by omega)
  exact ⟨tags, by rw [none, List.append_nil]⟩

/-- Elements that stand at the same place are the same. -/
theorem eq_of_ahead (frames : s.Frames octets) (frames' : t.Frames whole) {ahead : Octets} (front : octets <+: ahead)
    (front' : whole <+: ahead) : octets = whole := by
  rcases List.prefix_or_prefix_of_prefix front front' with shorter | longer
  · exact (frames.eq_of_prefix frames' shorter).2
  · exact (frames'.eq_of_prefix frames longer).2.symm

end Frames

end Tag

open Encoding Decoding

theorem Any.Shows.frames {a : Any} {octets : Octets} (shows : a.Shows octets) : a.tag.Frames octets := by
  obtain ⟨header, content, split, valid, written, _⟩ := shows
  exact ⟨valid, header, content, written, split⟩

/-- Content is read to the end of what is declared, and no further. -/
def TaggedCodec.Framed (c : TaggedCodec) : Prop :=
  ∀ count, (c.readContent count).Reads fun _ octets => count = octets.length

/-- What is read is one element with a tag of the type. -/
def UntaggedCodec.Framed (c : UntaggedCodec) : Prop :=
  c.decode.Reads fun _ octets => ∃ t : Tag, t.Frames octets ∧ c.accepts t = true

/-- What is read is one element with a tag of the type. -/
def Codec.Framed : Codec → Prop
  | tagged c => c.Framed
  | untagged c => c.Framed

theorem TaggedCodec.Framed.reads {c : TaggedCodec} (framed : c.Framed) :
    c.decode.Reads fun _ octets => c.tag.Frames octets ∧ c.accepts c.tag = true := by
  intro d d' v bounded run
  obtain ⟨h, e, first, second⟩ := bind_eq_ok run
  obtain ⟨length, header, isLength, valid, written, state, ahead, _⟩ := expect_eq_ok bounded first
  have takes : d.Takes header e := ⟨state, ahead⟩
  obtain ⟨content, takes', isCount⟩ := framed h.length (takes.bounded bounded) second
  have same : content.length = length := Number.natCast_inj (isCount.symm.trans isLength)
  subst same
  exact ⟨header ++ content, takes.trans takes', ⟨valid, header, content, written, rfl⟩, valid.equals_self⟩

theorem Codec.Framed.reads {c : Codec} (framed : c.Framed) :
    c.decode.Reads fun _ octets => ∃ t : Tag, t.Frames octets ∧ c.accepts t = true := by
  cases c with
  | tagged c => exact (TaggedCodec.Framed.reads framed).mono fun _ _ parts => ⟨c.tag, parts⟩
  | untagged c => exact framed

/-- A body that leaves nothing in its scope is complete. -/
theorem Decoding.outcome_complete {α : Type} {body : Decoding α} {d d' : Decoder} {a : α} (run : body.run d = .ok a d')
    (bounded : d'.Bounded) (none : d'.rest = []) : (complete body).outcome d = .ok a := by
  have finished := run_finish bounded
  rw [if_pos none] at finished
  simp only [outcome, complete, EStateM.run_bind, run, finished, EStateM.run_pure]

/-- A body that exhausts the scope of a decoder has read all that is left there. -/
theorem Decoding.Reads.of_outcome {α : Type} {body : Decoding α} {right : α → Octets → Prop} (reads : body.Reads right)
    {d : Decoder} (bounded : d.Bounded) {a : α} (done : (Decoding.complete body).outcome d = .ok a) : right a d.rest := by
  unfold outcome at done
  cases run : (Decoding.complete body).run d with
  | error fault e => rw [run] at done; cases done
  | ok a' e =>
    rw [run] at done
    cases done
    exact reads.complete bounded run

/-- A document that is accepted is one element with a tag of the type. -/
theorem Codec.Framed.of_parse {c : Codec} (framed : c.Framed) {maxDepth : Number} {document : Octets} {v : Value}
    (parsed : Document.parse c maxDepth document = .ok v) : ∃ t : Tag, t.Frames document ∧ c.accepts t = true := by
  have whole := framed.reads.of_outcome (Decoder.bounded_ofOctets document maxDepth) parsed
  rwa [Decoder.rest_ofOctets] at whole

/-- Reading a value that exhausts the scope stops where the scope ends. -/
theorem Codec.Framed.run_of_outcome {c : Codec} (framed : c.Framed) {d : Decoder} (bounded : d.Bounded) {v : Value}
    (done : (complete c.decode).outcome d = .ok v) : c.decode.run d = .ok v (d.skip d.rest.length) := by
  unfold outcome at done
  cases run : (complete c.decode).run d with
  | error fault e => rw [run] at done; cases done
  | ok v' e =>
    rw [run] at done
    cases done
    obtain ⟨v', e, read, ended⟩ := bind_eq_ok run
    obtain ⟨⟨⟩, s, finished, last⟩ := bind_eq_ok ended
    cases last
    obtain ⟨octets, takes, _⟩ := framed.reads bounded read
    rw [run_finish (takes.bounded bounded)] at finished
    by_cases none : e.rest = []
    · have whole := takes.ahead
      rw [none, List.append_nil] at whole
      rw [read, takes.state, whole]
    · rw [if_neg none] at finished
      cases finished

/-- Reading an accepted document stops where it ends. -/
theorem Codec.Framed.run_of_parse {c : Codec} (framed : c.Framed) {maxDepth : Number} {document : Octets} {v : Value}
    (parsed : Document.parse c maxDepth document = .ok v) :
    c.decode.run (.ofOctets document maxDepth) = .ok v ((Decoder.ofOctets document maxDepth).skip document.length) := by
  have run := framed.run_of_outcome (Decoder.bounded_ofOctets document maxDepth) parsed
  rwa [Decoder.rest_ofOctets] at run

theorem Decoding.reads_nested {α : Type} (count : Number) (body : Decoding α) :
    (nested count body).Reads fun _ octets => count = octets.length := by
  intro d d' a bounded run
  obtain ⟨n, isCount, room, state, _⟩ := nested_eq_ok bounded run
  have length : (d.rest.take n).length = n := List.length_take_of_le room
  refine ⟨d.rest.take n, ?_, isCount.trans (by rw [length])⟩
  rw [state]
  exact Decoder.takes_take room

theorem Primitive.framed (p : Primitive) : p.codec.Framed := by
  intro count d d' v bounded run
  obtain ⟨n, isCount, room, state, _⟩ := content_eq_ok bounded run
  have length : (d.rest.take n).length = n := List.length_take_of_le room
  refine ⟨d.rest.take n, ?_, isCount.trans (by rw [length])⟩
  rw [state]
  exact Decoder.takes_take room

theorem TaggedCodec.Framed.refine {inner : TaggedCodec} (framed : inner.Framed) (condition : Condition) :
    (inner.refine condition).Framed := by
  intro count
  refine reads_offset.before ?_
  intro start
  refine (framed count).bind ?_
  intro v octets isCount
  cases condition v with
  | some problem => exact (reads_throw _).bind fun _ _ => False.elim
  | none => exact reads_pure (by rwa [List.append_nil])

theorem TaggedCodec.explicit_framed (name : String) (tag : Tag) (inner : Codec) : (explicit name tag inner).Framed :=
  fun count => reads_nested count _

theorem TaggedCodec.sequence_framed (name : String) (tag : Tag) (fields : List (Field Codec)) :
    (sequence name tag fields).Framed :=
  fun count => reads_nested count _

theorem TaggedCodec.set_framed (name : String) (tag : Tag) (fields : List (Field Codec)) : (set name tag fields).Framed :=
  fun count => reads_nested count _

theorem TaggedCodec.sequenceOf_framed (name : String) (tag : Tag) (bounds : SizeBounds) (item : Codec) :
    (sequenceOf name tag bounds item).Framed :=
  fun count => reads_offset.before fun _ => reads_nested count _

theorem TaggedCodec.setOf_framed (name : String) (tag : Tag) (bounds : SizeBounds) (item : Codec) :
    (setOf name tag bounds item).Framed :=
  fun count => reads_offset.before fun _ => reads_nested count _

theorem UntaggedCodec.any_framed : any.Framed := by
  refine Any.reads_read.bind ?_
  intro a octets shows
  refine reads_pure ?_
  rw [List.append_nil]
  exact ⟨a.tag, shows.frames, rfl⟩

theorem UntaggedCodec.time_framed : time.Framed := by
  refine reads_peekTag.before ?_
  intro tag
  have either : ∀ p : Primitive, time.accepts p.codec.tag = true →
      p.codec.decode.Reads fun _ octets => ∃ t : Tag, t.Frames octets ∧ time.accepts t = true := by
    intro p accepted
    exact (TaggedCodec.Framed.reads p.framed).mono fun _ _ parts => ⟨_, parts.1, accepted⟩
  have utc := either .utcTime rfl
  have generalized := either .generalizedTime rfl
  cases tag with
  | none => exact utc
  | some tag =>
    by_cases is : Primitive.generalizedTime.codec.accepts tag = true
    · simp only [if_pos is]
      exact generalized
    · simp only [if_neg is]
      exact utc

namespace TaggedCodec.Measures

variable {c : TaggedCodec} {regular sure : Value → Prop} (measures : c.Measures regular sure) {v : Value} {octets : Octets}
  (yields : Yields (c.encodedLength v) (c.encode v) octets)

include measures yields

/-- What is written for a value of a tagged type is one element. -/
theorem frames : c.tag.cut.Frames octets := by
  obtain ⟨header, content, written, rfl, _⟩ := measures.split yields
  exact Tag.frames_of_encode written

theorem frames_of_wellFormed (valid : c.tag.WellFormed) : c.tag.Frames octets := by
  have frames := measures.frames yields
  rwa [valid.cut_eq] at frames

end TaggedCodec.Measures

namespace Schema

/-- What is read as a value of a declared type is one element with a tag of the type. -/
theorem Declared.framed {T : Schema} (declared : T.Declared) : T.codec.Framed := by
  induction declared using Declared.induct with
  | primitive p => exact p.framed
  | time => exact UntaggedCodec.time_framed
  | any => exact UntaggedCodec.any_framed
  | sequence name tag types declared _ _ ih => exact TaggedCodec.sequence_framed _ _ _
  | set name tag types declared _ _ _ ih => exact TaggedCodec.set_framed _ _ _
  | sequenceOf name tag bounds type declared ih => exact TaggedCodec.sequenceOf_framed _ _ _ _
  | setOf name tag bounds type declared ih => exact TaggedCodec.setOf_framed _ _ _ _
  | explicit name tag type declared ih => exact TaggedCodec.explicit_framed _ _ _
  | implicit name tagClass number type declared fixed ih =>
    rw [fixed] at ih
    rw [codec, fixed]
    exact ih
  | refine condition type declared fixed ih =>
    rw [fixed] at ih
    rw [codec, fixed]
    exact TaggedCodec.Framed.refine ih condition

section

variable {T : Schema} (declared : T.Declared) {v : Value} {octets : Octets}
  (captured : T = .any → ∀ a, v = .any a → ∃ d d', Decoder.Bounded d ∧ Any.read.run d = .ok a d')
  (written : T.codec.toOctets v = .ok octets)

include declared captured written

/-- What is written as a value of a declared type is one element. A captured element must have been captured by a
reader, since nothing else tells what octets it shows. -/
theorem Declared.frames_of_toOctets : ∃ t : Tag, t.Frames octets ∧ (∀ s, T.codec.tag? = some s → t = s.cut) ∧
    (T.codec.tag? = none → T.codec.accepts t = true) := by
  have measures := declared.measures
  obtain ⟨measured, emits⟩ := measures.toOctets_eq_ok.mp written
  have yields : Yields (T.codec.encodedLength v) (T.codec.encode v) octets := ⟨measured, emits⟩
  cases shape : T.codec with
  | tagged c =>
    rw [shape] at measures yields
    refine ⟨c.tag.cut, TaggedCodec.Measures.frames measures yields, ?_, nofun⟩
    intro s fixed
    cases fixed
    rfl
  | untagged c =>
    rcases declared.untagged shape with rfl | rfl
    · cases shape
      obtain ⟨p, type, yields⟩ := UntaggedCodec.yields_time yields
      refine ⟨_, TaggedCodec.Measures.frames_of_wellFormed p.measures yields p.wellFormed, nofun, ?_⟩
      intro _
      rcases type with rfl | rfl <;> rfl
    · cases shape
      obtain ⟨a, rfl, shows⟩ := UntaggedCodec.shows_of_yields (captured rfl) yields
      exact ⟨a.tag, shows.frames, nofun, fun _ => rfl⟩

/-- If a fixed tag can be read back, what is written has a tag of the type. -/
theorem Declared.accepts_of_toOctets (valid : ∀ tag, T.codec.tag? = some tag → tag.WellFormed) :
    ∃ t : Tag, t.Frames octets ∧ T.codec.accepts t = true := by
  obtain ⟨t, frames, fixed, accepted⟩ := declared.frames_of_toOctets captured written
  refine ⟨t, frames, ?_⟩
  cases shape : T.codec with
  | tagged c =>
    rw [shape] at fixed valid
    have wellFormed := valid c.tag rfl
    rw [fixed c.tag rfl, wellFormed.cut_eq]
    exact wellFormed.equals_self
  | untagged c =>
    rw [shape] at accepted
    exact accepted rfl

end

end Schema

end Der
