import Der.Proofs.Element
import Der.Proofs.Overhang

namespace Der

open Decoding

theorem Number.same_truncate_iff {x : Number} (natural : x.less 0 = false) :
    Number.same x.truncate.toNat x = true ↔ ∃ n : Int, x = .integer n := by
  cases x with
  | integer n =>
    have natural : ¬ n < 0 := of_decide_eq_false ((Number.less_integer n 0).symm.trans natural)
    have same : ((n.toNat : Nat) : Int) = n := Int.toNat_of_nonneg (Int.not_lt.mp natural)
    simp [Number.same, truncate, same]
  | fraction | infinite | nan | absent => simp [Number.same]

namespace Tag

variable {t : Tag} {identifier octets : Octets}

/-- The class of the tag is an integer. -/
def Integral (t : Tag) : Prop :=
  ∃ n : Int, t.tagClass = .integer n

theorem kind_of_checkNumber {fault : Fault} (refused : t.checkNumber = .error fault) :
    fault.kind? = some .invalidTag := by
  simp only [checkNumber] at refused
  split at refused
  · split at refused
    · cases refused
      rfl
    · split at refused
      · cases refused
        rfl
      · cases refused
  · cases refused
    rfl

/-- Writing and measuring a tag succeed together, or are refused for the same fault. -/
theorem refused_or_written (t : Tag) :
    (∃ fault, t.encode = .error fault ∧ t.encodedLength = .error fault ∧ fault.kind? = some .invalidTag) ∨
      ∃ identifier, t.encode = .ok identifier ∧ t.encodedLength = .ok identifier.length := by
  cases checked : t.checkNumber with
  | error fault =>
    refine .inl ⟨fault, ?_, ?_, kind_of_checkNumber checked⟩
    · rw [encode, checked]
      rfl
    · rw [encodedLength, checked]
      rfl
  | ok n =>
    have written := encode_of_checkNumber checked
    exact .inr ⟨_, written, by rw [encodedLength_eq, written]; rfl⟩

theorem equals_cut_iff (written : t.encode = .ok identifier) : t.cut.equals t = true ↔ t.Integral := by
  obtain ⟨n, checked, _⟩ := Except.bind_eq_ok.mp written
  obtain ⟨isNumber, _, natural, _⟩ := checkNumber_eq_ok checked
  have sameNumber : t.number.same t.number = true := by simp [Number.same, isNumber]
  rw [Integral, ← Number.same_truncate_iff natural]
  simp only [equals, cut, sameNumber, Bool.and_true, beq_self_eq_true]

/-- The tags that can be read back are those that can be written and have an integer for their class. -/
theorem wellFormed_iff (t : Tag) : t.WellFormed ↔ (∃ identifier, t.encode = .ok identifier) ∧ t.Integral := by
  constructor
  · intro valid
    obtain ⟨identifier, written, _⟩ := valid.decode_encode
    obtain ⟨c, _, _, _, isClass, _⟩ := valid
    exact ⟨⟨identifier, written⟩, c, isClass⟩
  · rintro ⟨⟨identifier, written⟩, integral⟩
    have same := eq_of_equals ((equals_cut_iff written).mpr integral)
    exact same ▸ (cut_of_encode written).1

/-- In front of anything, identifier octets are read as the tag with its class cut to an integer. -/
theorem tagAt_of_encode (written : t.encode = .ok identifier) (rest : Octets) :
    Overhang.tagAt (identifier ++ rest) 0 (identifier ++ rest).length = .ok (t.cut, identifier.length) := by
  obtain ⟨valid, same⟩ := cut_of_encode written
  obtain ⟨octets, again, _, back⟩ := exact_tagAt.reads t.cut valid
  cases Except.ok.inj (same.symm.trans again)
  have read := back [] rest (identifier ++ rest).length
    (by rw [List.length_nil, Nat.zero_add]; exact (List.prefix_append _ _).length_le) (Nat.le_refl _)
  rwa [List.nil_append, List.length_nil, Nat.zero_add] at read

theorem Frames.tagAt (frames : t.Frames octets) : ∃ next, Overhang.tagAt octets 0 octets.length = .ok (t, next) := by
  obtain ⟨valid, header, content, written, rfl⟩ := frames
  obtain ⟨identifier, size, first, _, rfl⟩ := Header.encode_eq_ok written
  have read := tagAt_of_encode first (size ++ content)
  rw [valid.cut_eq, ← List.append_assoc] at read
  exact ⟨_, read⟩

end Tag

/-- The tag that the octets begin with is a tag of the type. -/
def Codec.Recognizes (c : Codec) (octets : Octets) : Prop :=
  ∃ t next, Overhang.tagAt octets 0 octets.length = .ok (t, next) ∧ c.accepts t = true

/-- The octets are no document of the type, whatever the depth limit is, because of the tag. -/
def Codec.Refuses (c : Codec) (octets : Octets) : Prop :=
  ∀ maxDepth, ∃ fault, Document.parse c maxDepth octets = .error fault ∧ fault.kind? = some .unexpectedTag

theorem Codec.recognizes_iff {c : Codec} {t : Tag} {octets : Octets} (frames : t.Frames octets) :
    c.Recognizes octets ↔ c.accepts t = true := by
  obtain ⟨next, read⟩ := frames.tagAt
  constructor
  · rintro ⟨t', next', read', accepted⟩
    cases read.symm.trans read'
    exact accepted
  · intro accepted
    exact ⟨t, next, read, accepted⟩

namespace TaggedCodec

variable {c : TaggedCodec} {t : Tag} {octets : Octets}

/-- An element under another tag is refused, whatever its content is. -/
theorem parse_of_frames (frames : t.Frames octets) (differs : ¬ c.accepts t = true) (maxDepth : Number) :
    Document.parse (.tagged c) maxDepth octets = .error (.coding (.wrongTag c.tag c.name t) (0 : Nat)) := by
  obtain ⟨content, _, read⟩ := frames.decode_header
  have read := read 0 []
  rw [List.append_nil, List.append_nil] at read
  have header : Decoding.header.run (.ofOctets octets maxDepth) = .ok ⟨t, content.length⟩
      ((Decoder.ofOctets octets maxDepth).skip (octets.length - content.length)) := by
    rw [run_header (Decoder.bounded_ofOctets octets maxDepth), Decoder.rest_ofOctets,
      show (Decoder.ofOctets octets maxDepth).position = 0 from rfl, read]
  have differs : ¬ t.equals c.tag = true := differs
  have begun : c.decode.run (.ofOctets octets maxDepth) = .error (.coding (.wrongTag c.tag c.name t) (0 : Nat))
      ((Decoder.ofOctets octets maxDepth).skip (octets.length - content.length)) := by
    simp only [decode, expect, EStateM.run_bind, run_offset, header, if_neg differs]
    rfl
  simp only [Document.parse, outcome, complete, EStateM.run_bind, Codec.decode, begun]

/-- What a type with a fixed tag has written is recognized if the class of the tag is an integer, and refused
otherwise. -/
theorem recognizes_or_refuses {header content : Octets} (written : Header.encode c.tag content.length = .ok header) :
    ((Codec.tagged c).Recognizes (header ++ content) ↔ c.tag.Integral) ∧
      (¬ (Codec.tagged c).Recognizes (header ++ content) → (Codec.tagged c).Refuses (header ++ content)) := by
  have frames := Tag.frames_of_encode written
  obtain ⟨identifier, _, first, _, _⟩ := Header.encode_eq_ok written
  rw [Codec.recognizes_iff frames]
  refine ⟨Tag.equals_cut_iff first, ?_⟩
  intro differs maxDepth
  exact ⟨_, parse_of_frames frames differs maxDepth, rfl⟩

end TaggedCodec

namespace Tag

/-- Writing and measuring a tag are refused together, as a tag that is not valid, or succeed together. The tag that is
read back from what is written equals the tag itself just if its class is an integer, which makes it one of those that
identifier octets can carry. So every type with such a tag recognizes its elements, and refuses all of them if the
class is anything else that can be written. What is built for a declared type is such an element, and types without a
fixed tag recognize all that is built for them. -/
theorem reads_back_iff_integral (t : Tag) :
    ((∃ fault, t.encode = .error fault ∧ t.encodedLength = .error fault ∧ fault.kind? = some .invalidTag) ∨
      ∃ identifier, t.encode = .ok identifier ∧ t.encodedLength = .ok identifier.length) ∧
    (t.WellFormed ↔ (∃ identifier, t.encode = .ok identifier) ∧ t.Integral) ∧
    (∀ identifier, t.encode = .ok identifier →
      ∃ read, Overhang.tagAt identifier 0 identifier.length = .ok (read, identifier.length) ∧
        (read.equals t = true ↔ t.Integral)) ∧
    (∀ c : TaggedCodec, c.tag = t → ∀ content document, Element.build t content = .ok document →
      ((Codec.tagged c).Recognizes document ↔ t.Integral) ∧
        (¬ (Codec.tagged c).Recognizes document → (Codec.tagged c).Refuses document)) ∧
    ∀ T : Schema, T.Declared → ∀ (v : Value) (document : Octets),
      (T = .any → ∀ a, v = .any a → ∃ d d', Decoder.Bounded d ∧ Any.read.run d = .ok a d') →
      Document.build T.codec v = .ok document →
      (T.codec.tag? = some t → (T.codec.Recognizes document ↔ t.Integral) ∧
        (¬ T.codec.Recognizes document → T.codec.Refuses document)) ∧
      (T.codec.tag? = none → T.codec.Recognizes document) := by
  refine ⟨refused_or_written t, wellFormed_iff t, ?_, ?_, ?_⟩
  · intro identifier written
    have read := tagAt_of_encode written []
    rw [List.append_nil] at read
    exact ⟨t.cut, read, equals_cut_iff written⟩
  · rintro c rfl content document built
    obtain ⟨header, written, rfl⟩ := Element.build_eq_ok.mp built
    exact TaggedCodec.recognizes_or_refuses written
  · intro T declared v document captured built
    have measures := declared.measures
    constructor
    · intro fixed
      cases shape : T.codec with
      | tagged c =>
        rw [shape] at built fixed measures
        cases fixed
        obtain ⟨header, content, written, rfl, _⟩ := TaggedCodec.Measures.build_eq_ok measures |>.mp built
        exact TaggedCodec.recognizes_or_refuses written
      | untagged c =>
        rw [shape] at fixed
        cases fixed
    · intro none
      rw [measures.build_eq] at built
      obtain ⟨s, frames, _, accepted⟩ := declared.frames_of_toOctets captured built
      exact (Codec.recognizes_iff frames).mpr (accepted none)

/-- A flag of a class of its own is recognized. If its class is one and a half, the same octets stand for it, and they
are refused. -/
theorem flag_recognized_or_refused :
    encode ⟨1, false, 201⟩ = .ok [0x5F, 0x81, 0x49] ∧
      (∃ read, Overhang.tagAt [0x5F, 0x81, 0x49] 0 3 = .ok (read, 3) ∧ read.equals ⟨1, false, 201⟩ = true) ∧
      Document.build (Schema.implicit "Flag" 1 201 (.primitive .boolean)).codec (.boolean true) =
        .ok [0x5F, 0x81, 0x49, 1, 0xFF] ∧
      (Schema.implicit "Flag" 1 201 (.primitive .boolean)).codec.Recognizes [0x5F, 0x81, 0x49, 1, 0xFF] ∧
      Element.build ⟨.binary 3 1, false, 201⟩ [0xFF] = .ok [0x5F, 0x81, 0x49, 1, 0xFF] ∧
      (Schema.implicit "Flag" (.binary 3 1) 201 (.primitive .boolean)).codec.Refuses [0x5F, 0x81, 0x49, 1, 0xFF] := by
  obtain ⟨_, _, reads, _, documents⟩ := reads_back_iff_integral ⟨1, false, 201⟩
  obtain ⟨_, _, _, elements, _⟩ := reads_back_iff_integral ⟨.binary 3 1, false, 201⟩
  have written : encode ⟨1, false, 201⟩ = .ok [0x5F, 0x81, 0x49] := by decide +kernel
  obtain ⟨read, found, equal⟩ := reads _ written
  have declared : (Schema.implicit "Flag" 1 201 (.primitive .boolean)).Declared :=
    .tagged (.primitive .boolean) (show Schema.declareTagged "Flag" (some .implicit) (some 1) 201 _ = .ok _ from rfl)
  have recognized := (documents _ declared (.boolean true) [0x5F, 0x81, 0x49, 1, 0xFF] nofun rfl).1 rfl
  obtain ⟨integral, refused⟩ := elements (.implicit "Flag" (.binary 3 1) 201 Primitive.boolean.codec) rfl [0xFF]
    [0x5F, 0x81, 0x49, 1, 0xFF] rfl
  have missed := mt integral.mp (show ¬ Integral ⟨.binary 3 1, false, 201⟩ from nofun)
  exact ⟨written, ⟨read, found, equal.mpr ⟨1, rfl⟩⟩, rfl, recognized.1.mpr ⟨1, rfl⟩, rfl, refused missed⟩

/-- Under a class of one and a half, a tag is written, and read back with the class one. A type is declared under that
tag, and its document is refused by the type itself. -/
theorem fractional_class_reads_as_another :
    encode ⟨.binary 3 1, false, 2⟩ = .ok [0x42] ∧ encodedLength ⟨.binary 3 1, false, 2⟩ = .ok 1 ∧
      Overhang.tagAt [0x42] 0 1 = .ok (⟨1, false, 2⟩, 1) ∧ equals ⟨1, false, 2⟩ ⟨.binary 3 1, false, 2⟩ = false ∧
      Schema.declareTagged "Flag" (some .implicit) (some (.binary 3 1)) 2 (.primitive .boolean) =
        .ok (.implicit "Flag" (.binary 3 1) 2 (.primitive .boolean)) ∧
      Document.build (Schema.implicit "Flag" (.binary 3 1) 2 (.primitive .boolean)).codec (.boolean true) =
        .ok [0x42, 1, 0xFF] ∧
      Document.parse (Schema.implicit "Flag" (.binary 3 1) 2 (.primitive .boolean)).codec 1 [0x42, 1, 0xFF] =
        .error (.coding (.wrongTag ⟨.binary 3 1, false, 2⟩ "Flag" ⟨1, false, 2⟩) (0 : Nat)) :=
  ⟨rfl, rfl, rfl, rfl, rfl, rfl, rfl⟩

end Tag

end Der
