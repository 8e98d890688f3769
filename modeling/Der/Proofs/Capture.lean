import Der.Proofs.Canonical
import Der.Proofs.Framing

namespace Der

open Decoding

namespace Any

variable {a : Any} {c : Codec} {document octets : Octets}

/-- What is captured shows all the octets that there are. -/
theorem shows_of_capture {maxDepth : Number} (captured : (complete read).outcome (.ofOctets octets maxDepth) = .ok a) :
    a.Shows octets := by
  have shows := reads_read.of_outcome (Decoder.bounded_ofOctets octets maxDepth) captured
  rwa [Decoder.rest_ofOctets] at shows

/-- One element is captured, however deep scopes may be nested. -/
theorem capture_of_frames {t : Tag} (frames : t.Frames octets) (maxDepth : Number) :
    ∃ a, (complete read).outcome (.ofOctets octets maxDepth) = .ok a ∧ a.tag = t ∧ a.Shows octets := by
  obtain ⟨valid, header, content, written, rfl⟩ := frames
  have bounded := Decoder.bounded_ofOctets (header ++ content) maxDepth
  have ahead : (Decoder.ofOctets (header ++ content) maxDepth).rest = header ++ content ++ [] := by
    rw [Decoder.rest_ofOctets, List.append_nil]
  have takes := Decoder.takes_of_ahead ahead
  have run := run_read bounded valid written ahead
  rw [← List.length_append] at run
  have captured := outcome_complete run (takes.bounded bounded) (Decoder.rest_skip_of_ahead ahead)
  exact ⟨_, captured, rfl, shows_of_capture captured⟩

/-- A document that is read as an open type is captured. -/
theorem parse_eq (maxDepth : Number) (document : Octets) :
    Document.parse (Schema.codec .any) maxDepth document =
      ((complete read).outcome (.ofOctets document maxDepth)).map Value.any := by
  simp only [Document.parse, Schema.codec, Codec.decode, UntaggedCodec.any, outcome, complete, EStateM.run_bind,
    EStateM.run_pure]
  cases read.run (.ofOctets document maxDepth) with
  | error fault e => rfl
  | ok a e =>
    dsimp only
    cases finish.run e <;> rfl

theorem parse_eq_ok {maxDepth : Number} {v : Value}
    (parsed : Document.parse (Schema.codec .any) maxDepth document = .ok v) :
    ∃ a, v = .any a ∧ a.Shows document := by
  rw [parse_eq] at parsed
  obtain ⟨a, captured, rfl⟩ := Except.map_eq_ok.mp parsed
  exact ⟨a, rfl, shows_of_capture captured⟩

/-- A captured element with a tag of the type is interpreted as its octets are read. -/
theorem decodeAs_of_shows (shows : a.Shows octets) (accepted : c.accepts a.tag = true) (maxDepth : Number) :
    a.decodeAs c maxDepth = Document.parse c maxDepth octets := by
  obtain ⟨_, _, _, _, _, _, encoded⟩ := shows
  rw [decodeAs, accepted, encoded]
  rfl

/-- What is interpreted as a value of a type has a tag of the type, and all its octets are read. -/
theorem decodeAs_eq_ok_iff {maxDepth : Number} {v : Value} : a.decodeAs c maxDepth = .ok v ↔
    c.accepts a.tag = true ∧ ∃ octets, a.encoded.octets = .ok octets ∧ Document.parse c maxDepth octets = .ok v := by
  by_cases accepted : c.accepts a.tag = true
  · rw [decodeAs, accepted, and_iff_right rfl]
    exact Except.bind_eq_ok
  · rw [decodeAs, Bool.eq_false_iff.mpr accepted]
    exact iff_of_false nofun fun parts => absurd parts.1 Bool.false_ne_true

theorem decodeAs_eq_ok (shows : a.Shows octets) {maxDepth : Number} {v : Value} (read : a.decodeAs c maxDepth = .ok v) :
    Document.parse c maxDepth octets = .ok v := by
  obtain ⟨_, octets', encoded', parsed⟩ := decodeAs_eq_ok_iff.mp read
  obtain ⟨_, _, _, _, _, _, encoded⟩ := shows
  cases encoded'.symm.trans encoded
  exact parsed

/-- What is captured from a document is built as the document. -/
theorem build_of_shows (shows : a.Shows octets) : Document.build (Schema.codec .any) (.any a) = .ok octets := by
  rw [Schema.Declared.any.measures.build_eq]
  exact Encoding.Yields.toOctets (c := .untagged .any) (UntaggedCodec.yields_of_shows shows)

end Any

namespace Schema

/-- Reading a document as a type is capturing it and interpreting it as the type, with the same results and the same
limit on nested scopes. What is built for a value can be captured, and a captured document is built as it is. -/
theorem Declared.parse_iff_decodeAs {T : Schema} (declared : T.Declared) (maxDepth outer : Number) (document : Octets) :
    (∀ v, Document.parse T.codec maxDepth document = .ok v ↔
      ∃ a, Document.parse (codec .any) outer document = .ok (.any a) ∧ a.decodeAs T.codec maxDepth = .ok v) ∧
    (∀ v, (T = .any → ∀ a, v = .any a → ∃ d d', Decoder.Bounded d ∧ Any.read.run d = .ok a d') →
      ∀ built, Document.build T.codec v = .ok built →
        ∃ a, Any.ofValue T.codec v = .ok a ∧ a.toOctets = .ok built) ∧
    ∀ v, Document.parse (codec .any) outer document = .ok v →
      ∃ a, v = .any a ∧ a.toOctets = .ok document ∧ Document.build (codec .any) v = .ok document := by
  refine ⟨?_, ?_, ?_⟩
  · intro v
    constructor
    · intro parsed
      obtain ⟨t, frames, accepted⟩ := Codec.Framed.of_parse declared.framed parsed
      obtain ⟨a, captured, rfl, shows⟩ := Any.capture_of_frames frames outer
      refine ⟨a, ?_, ?_⟩
      · rw [Any.parse_eq, captured]
        rfl
      · rw [Any.decodeAs_of_shows shows accepted, parsed]
    · intro parts
      obtain ⟨a, parsed, read⟩ := parts
      obtain ⟨a', same, shows⟩ := Any.parse_eq_ok parsed
      cases same
      exact Any.decodeAs_eq_ok shows read
  · intro v captured built written
    rw [declared.measures.build_eq] at written
    obtain ⟨t, frames, _, _⟩ := declared.frames_of_toOctets captured written
    obtain ⟨a, capture, _, _, _, _, _, _, _, encoded⟩ := Any.capture_of_frames frames Decoder.defaultMaxDepth
    refine ⟨a, ?_, encoded⟩
    rw [Any.ofValue, written]
    exact capture
  · intro v parsed
    obtain ⟨a, rfl, shows⟩ := Any.parse_eq_ok parsed
    have built := Any.build_of_shows shows
    obtain ⟨_, _, _, _, _, _, encoded⟩ := shows
    exact ⟨a, rfl, encoded, built⟩

/-- A switch with an open note. It is captured where no scope may be nested, interpreted where one may be, and captured
again from its value. -/
theorem decodeAs_of_captured_switch :
    (∃ a, Document.parse (codec .any) 0 [0x30, 5, 1, 1, 0xFF, 5, 0] = .ok (.any a) ∧
      a.decodeAs (sequence "Switch" ⟨0, true, 16⟩ [.required "on" (.primitive .boolean), .required "note" .any]).codec 1 =
        .ok (.record [("on", .boolean true), ("note", .any ⟨⟨0, false, 5⟩, ⟨[0x30, 5, 1, 1, 0xFF, 5, 0], 7, 0, .document⟩,
          ⟨[0x30, 5, 1, 1, 0xFF, 5, 0], 5, 2, .document⟩⟩)])) ∧
    ∃ a, Any.ofValue (sequence "Switch" ⟨0, true, 16⟩ [.required "on" (.primitive .boolean), .required "note" .any]).codec
        (.record [("on", .boolean true), ("note", .any ⟨⟨0, false, 5⟩, ⟨[5, 0], 2, 0, .document⟩, ⟨[5, 0], 0, 2, .document⟩⟩)]) =
        .ok a ∧ a.toOctets = .ok [0x30, 5, 1, 1, 0xFF, 5, 0] := by
  have accepted : declareSequence "Switch" none none [.required "on" (.primitive .boolean), .required "note" .any] =
      .ok (sequence "Switch" ⟨0, true, 16⟩ [.required "on" (.primitive .boolean), .required "note" .any]) := rfl
  have declared : Declared (sequence "Switch" ⟨0, true, 16⟩
      [.required "on" (.primitive .boolean), .required "note" .any]) := by
    refine .sequence ?_ accepted
    intro f member
    rcases List.mem_cons.mp member with rfl | member
    · exact .primitive .boolean
    · rw [List.mem_singleton.mp member]
      exact .any
  obtain ⟨alike, captured, _⟩ := declared.parse_iff_decodeAs 1 0 [0x30, 5, 1, 1, 0xFF, 5, 0]
  exact ⟨(alike _).mp rfl, captured _ (fun wrong => by cases wrong) _ rfl⟩

end Schema

end Der
