import Der.Codec.Open
import Der.Proofs.Finding
import Der.Proofs.Values

namespace Der.Any

open Decoding

/-- The octets are an element with the tag and the content of the captured one, which shows all of them. -/
def Shows (a : Any) (octets : Octets) : Prop :=
  ∃ header content, octets = header ++ content ∧ a.tag.WellFormed ∧ Header.encode a.tag content.length = .ok header ∧
    a.value.octets = .ok content ∧ a.encoded.octets = .ok octets

variable {d : Decoder} {a : Any} {octets header content rest : Octets}

theorem run_read (bounded : d.Bounded) {tag : Tag} (valid : tag.WellFormed)
    (written : Header.encode tag content.length = .ok header) (ahead : d.rest = header ++ content ++ rest) :
    read.run d =
      .ok ⟨tag, windowAt (d.skip header.length) content.length, windowAt d (header.length + content.length)⟩
        (d.skip (header.length + content.length)) := by
  rw [List.append_assoc] at ahead
  have left := Decoder.rest_skip_of_ahead ahead
  have fits := (List.prefix_append content rest).length_le
  have first := run_header_of_encode bounded valid written ahead fits
  have second := run_slice (bounded.skip (Decoder.takes_of_ahead ahead).length_le) (Decoder.takes_of_ahead left).length_le
  have width : d.position + header.length + content.length - d.position = header.length + content.length := by omega
  simp only [read, EStateM.run_bind, run_offset, first, second, EStateM.run_get, EStateM.run_pure, Decoder.skip_skip]
  simp only [Decoder.skip, windowAt, ← Nat.add_assoc, width]

theorem octets_windows (bounded : d.Bounded) (ahead : d.rest = header ++ content ++ rest) :
    (windowAt (d.skip header.length) content.length).octets = .ok content ∧
      (windowAt d (header.length + content.length)).octets = .ok (header ++ content) := by
  have whole := (Decoder.takes_of_ahead ahead).length_le
  rw [List.append_assoc] at ahead
  have left := Decoder.rest_skip_of_ahead ahead
  have after := bounded.skip (Decoder.takes_of_ahead ahead).length_le
  constructor
  · rw [octets_windowAt after (Decoder.takes_of_ahead left).length_le, left, List.take_left]
  · rw [← List.length_append, octets_windowAt bounded whole, ahead, ← List.append_assoc, List.take_left]

/-- What is captured shows the octets that it has been read from. -/
theorem reads_read : read.Reads Shows := by
  intro d d' a bounded captured
  obtain ⟨_, _, begun, parts⟩ := bind_eq_ok captured
  cases begun
  obtain ⟨h, after, first, _⟩ := bind_eq_ok parts
  obtain ⟨length, header, isLength, valid, written, state, ahead, fits⟩ := header_eq_ok bounded first
  have takes : d.Takes header after := ⟨state, ahead⟩
  have whole := takes.trans (Decoder.takes_take fits)
  have count : (after.rest.take length).length = length := List.length_take_of_le fits
  rw [← count] at written
  rw [run_read bounded valid written whole.ahead, ← List.length_append, ← whole.state] at captured
  cases captured
  obtain ⟨value, encoded⟩ := octets_windows bounded whole.ahead
  rw [← List.length_append] at encoded
  exact ⟨_, whole, _, _, rfl, valid, written, value, encoded⟩

/-- An element that is shown is captured again wherever its octets stand. -/
theorem finds_read {layers : Nat} (shows : a.Shows octets) :
    Finds layers octets rest read fun b => (Value.any b).shown = (Value.any a).shown := by
  obtain ⟨header, content, rfl, valid, written, value, encoded⟩ := shows
  intro d bounded ahead admits
  obtain ⟨value', encoded'⟩ := octets_windows bounded ahead
  refine ⟨_, by rw [run_read bounded valid written ahead, List.length_append], ?_⟩
  dsimp only
  rw [Value.shown_any, Value.shown_any, Slice.shown_eq value, Slice.shown_eq value', Slice.shown_eq encoded,
    Slice.shown_eq encoded']

end Der.Any
