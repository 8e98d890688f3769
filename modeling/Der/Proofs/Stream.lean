import Der.Proofs.Element
import Der.Proofs.Overhang

namespace Der

namespace Decoding

variable {d d' : Decoder}

theorem run_octets (bounded : d.Bounded) {count : Nat} (room : count ≤ d.rest.length) :
    (octets count).run d = .ok (d.rest.take count) (d.skip count) := by
  rw [← bounded.between_skip room, octets, EStateM.run_bind, run_need bounded room]
  rfl

theorem octets_eq_ok (bounded : d.Bounded) {count : Number} {found : Octets}
    (read : (octets count).run d = .ok found d') :
    ∃ n : Nat, count = n ∧ n ≤ d.rest.length ∧ found = d.rest.take n ∧ d' = d.skip n := by
  obtain ⟨n, e, enough, _⟩ := bind_eq_ok read
  obtain ⟨rfl, room, rfl⟩ := need_eq_ok bounded enough
  rw [run_octets bounded room] at read
  cases read
  exact ⟨n, rfl, room, rfl, rfl⟩

end Decoding

open Decoding

namespace Element

/-- The octets are those of the element, and it tells their length and that of its content. -/
structure Spans (e : Element) (document : Octets) : Prop where
  valid : e.tag.WellFormed
  length : e.length = e.content.length
  build : Element.build e.tag e.content = .ok document
  stop : e.stop = document.length

variable {e : Element} {document octets : Octets}

/-- The content is what the document ends in. -/
theorem Spans.between (spans : e.Spans document) :
    e.content.length ≤ e.stop ∧ e.content = document.between (e.stop - e.content.length) e.stop := by
  obtain ⟨header, _, rfl⟩ := build_eq_ok.mp spans.build
  have stop := spans.stop
  rw [List.length_append] at stop
  refine ⟨by omega, ?_⟩
  have before : e.stop - e.content.length = header.length := by omega
  rw [before, stop, ← List.length_append, Octets.between, List.take_length, List.drop_left]

theorem Spans.stop_pos (spans : e.Spans document) : 0 < e.stop := by
  obtain ⟨header, written, rfl⟩ := build_eq_ok.mp spans.build
  obtain ⟨identifier, size, first, _, rfl⟩ := Header.encode_eq_ok written
  have some : 0 < identifier.length := by
    refine List.length_pos_of_ne_nil ?_
    rintro rfl
    exact Tag.encode_ne_nil _ first
  rw [spans.stop, List.length_append, List.length_append]
  omega

theorem run_read {d : Decoder} (bounded : d.Bounded) {tag : Tag} (valid : tag.WellFormed)
    {header content rest : Octets} (written : Header.encode tag content.length = .ok header)
    (ahead : d.rest = header ++ (content ++ rest)) :
    read.run d = .ok ⟨tag, content.length, content, d.position + header.length + content.length⟩
      ((d.skip header.length).skip content.length) := by
  have left := Decoder.rest_skip_of_ahead ahead
  have bounded' := bounded.skip (Decoder.takes_of_ahead ahead).length_le
  have first := run_header_of_encode bounded valid written ahead (List.prefix_append content rest).length_le
  have second := run_octets bounded' (Decoder.takes_of_ahead left).length_le
  rw [left, List.take_left] at second
  simp only [read, EStateM.run_bind, first, second, run_offset, EStateM.run_pure]
  rfl

/-- An element is found again where its octets stand. -/
theorem Spans.parse_append (spans : e.Spans document) (rest : Octets) : parse (document ++ rest) = .ok e := by
  obtain ⟨header, written, split⟩ := build_eq_ok.mp spans.build
  have ahead : (Decoder.ofOctets (document ++ rest) Decoder.defaultMaxDepth).rest = header ++ (e.content ++ rest) := by
    rw [Decoder.rest_ofOctets, split, List.append_assoc]
  have run := run_read (Decoder.bounded_ofOctets _ _) spans.valid written ahead
  have stop : (Decoder.ofOctets (document ++ rest) Decoder.defaultMaxDepth).position + header.length +
      e.content.length = e.stop := by
    rw [spans.stop, split, List.length_append]
    exact congrArg (· + _) (Nat.zero_add _)
  rw [stop, ← spans.length] at run
  exact outcome_eq_ok.mpr ⟨_, run⟩

theorem spans_of_parse (parsed : parse octets = .ok e) :
    ∃ document rest, e.Spans document ∧ octets = document ++ rest := by
  have bounded := Decoder.bounded_ofOctets octets Decoder.defaultMaxDepth
  have ahead := Decoder.rest_ofOctets octets Decoder.defaultMaxDepth
  obtain ⟨d, run⟩ := outcome_eq_ok.mp parsed
  obtain ⟨h, d', first, run⟩ := bind_eq_ok run
  obtain ⟨length, header, isLength, valid, written, rfl, split, fits⟩ := header_eq_ok bounded first
  have takes := Decoder.takes_of_ahead split
  obtain ⟨content, d', second, run⟩ := bind_eq_ok run
  obtain ⟨n, isCount, room, taken, rfl⟩ := octets_eq_ok (bounded.skip takes.length_le) second
  cases run
  obtain rfl : n = content.length := by rw [taken, List.length_take_of_le room]
  cases Number.natCast_inj (isLength.symm.trans isCount)
  have whole := (takes.trans (Decoder.takes_take room)).ahead
  rw [← taken, ahead] at whole
  refine ⟨header ++ content, _, ⟨valid, isCount, build_eq_ok.mpr ⟨header, written, rfl⟩, ?_⟩, whole⟩
  simp only [Decoder.skip, Decoder.ofOctets, Nat.zero_add, List.length_append]

theorem stop_pos_of_parse (parsed : parse octets = .ok e) : 0 < e.stop := by
  obtain ⟨_, _, spans, _⟩ := spans_of_parse parsed
  exact spans.stop_pos

/-- An element is read exactly if its octets stand at the start. -/
theorem parse_eq_ok : parse octets = .ok e ↔ ∃ document rest, e.Spans document ∧ octets = document ++ rest := by
  refine ⟨spans_of_parse, ?_⟩
  rintro ⟨document, rest, spans, rfl⟩
  exact spans.parse_append rest

/-- The elements that octets are a row of, each of them read from where the one before it stops. -/
def split (octets : Octets) : Except Fault (List Element) :=
  if octets = [] then .ok []
  else
    match _found : parse octets with
    | .error fault => .error fault
    | .ok e => do
      let more ← split (octets.drop e.stop)
      return e :: more
termination_by octets.length
decreasing_by
  have some := List.length_pos_of_ne_nil ‹octets ≠ []›
  have moves := stop_pos_of_parse _found
  rw [List.length_drop]
  omega

theorem split_nil : split [] = .ok [] := by
  rw [split, if_pos rfl]

theorem split_of_parse (some : octets ≠ []) (parsed : parse octets = .ok e) :
    split octets = (split (octets.drop e.stop)).map (e :: ·) := by
  rw [split, if_neg some]
  split
  · next fault refused => cases refused.symm.trans parsed
  · next e' parsed' =>
    cases parsed'.symm.trans parsed
    rfl

theorem Spans.split_append (spans : e.Spans document) (rest : Octets) :
    split (document ++ rest) = (split rest).map (e :: ·) := by
  have some : document ++ rest ≠ [] := by
    intro none
    have moves := spans.stop_pos
    rw [spans.stop, (List.append_eq_nil_iff.mp none).1] at moves
    exact Nat.lt_irrefl 0 moves
  rw [split_of_parse some (spans.parse_append rest), spans.stop, List.drop_left]

/-- Octets are split into elements exactly if they are the octets of the elements, one behind the other. -/
theorem split_eq_ok {elements : List Element} :
    split octets = .ok elements ↔ ∃ documents, List.Forall₂ Spans elements documents ∧ octets = documents.flatten := by
  constructor
  · intro found
    fun_induction split octets generalizing elements with
    | case1 =>
      cases found
      exact ⟨[], .nil, rfl⟩
    | case2 => cases found
    | case3 octets some e parsed ih =>
      obtain ⟨more, others, same⟩ := Except.bind_eq_ok.mp found
      cases same
      obtain ⟨documents, spans, left⟩ := ih others
      obtain ⟨document, rest, first, rfl⟩ := spans_of_parse parsed
      rw [first.stop, List.drop_left] at left
      exact ⟨document :: documents, .cons first spans, by rw [left, List.flatten_cons]⟩
  · rintro ⟨documents, spans, rfl⟩
    induction spans with
    | nil => exact split_nil
    | cons first _ ih => rw [List.flatten_cons, first.split_append, ih, Except.map]

/-- What is built for tags and contents, one behind the other, is the row of elements with these tags and contents. -/
theorem exists_spans {parts : List (Tag × Octets)} (valid : ∀ part ∈ parts, part.1.WellFormed) {documents : List Octets}
    (built : List.Forall₂ (fun part document => build part.1 part.2 = .ok document) parts documents) :
    ∃ elements, List.Forall₂ Spans elements documents ∧ elements.map (fun e => (e.tag, e.content)) = parts ∧
      (∀ e ∈ elements, e.length = e.content.length) ∧ elements.map stop = documents.map List.length := by
  induction built with
  | nil => exact ⟨[], .nil, rfl, fun _ none => absurd none List.not_mem_nil, rfl⟩
  | @cons part document parts documents first _ ih =>
    obtain ⟨elements, spans, tagged, lengths, stops⟩ := ih fun part later => valid part (List.mem_cons_of_mem _ later)
    let e : Element := ⟨part.1, part.2.length, part.2, document.length⟩
    refine ⟨e :: elements, .cons ⟨valid part List.mem_cons_self, rfl, first, rfl⟩ spans, ?_, ?_, ?_⟩
    · rw [List.map_cons, tagged]
    · intro e' member
      rcases List.mem_cons.mp member with rfl | later
      · rfl
      · exact lengths e' later
    · rw [List.map_cons, List.map_cons, stops]

/-- Elements of any tags and of contents that are not too long are found again in the row of their octets, which is
read to its end. Where an element is read, its content is what precedes its end, and the octets up to there are built
for its tag and its content. -/
theorem split_builds :
    (∀ parts : List (Tag × Octets), (∀ part ∈ parts, part.1.WellFormed ∧ part.2.length ≤ Length.max) →
      ∃ documents elements, parts.mapM (fun part => build part.1 part.2) = .ok documents ∧
        split documents.flatten = .ok elements ∧ elements.map (fun e => (e.tag, e.content)) = parts ∧
        (∀ e ∈ elements, e.length = e.content.length) ∧ elements.map stop = documents.map List.length) ∧
    ∀ octets e, parse octets = .ok e →
      e.tag.WellFormed ∧ e.length = e.content.length ∧ e.content.length ≤ e.stop ∧ e.stop ≤ octets.length ∧
        e.content = octets.between (e.stop - e.content.length) e.stop ∧
        build e.tag e.content = .ok (octets.take e.stop) := by
  constructor
  · intro parts valid
    have builds : ∀ part ∈ parts, ∃ document, build part.1 part.2 = .ok document := by
      intro part member
      obtain ⟨isTag, bound⟩ := valid part member
      obtain ⟨header, written⟩ := isTag.exists_header bound
      exact ⟨_, build_eq_ok.mpr ⟨header, written, rfl⟩⟩
    obtain ⟨documents, built⟩ := Except.exists_mapM builds
    obtain ⟨elements, spans, parts'⟩ :=
      exists_spans (fun part member => (valid part member).1) (Except.mapM_eq_ok.mp built)
    exact ⟨documents, elements, built, split_eq_ok.mpr ⟨documents, spans, rfl⟩, parts'⟩
  · intro octets e parsed
    obtain ⟨document, rest, spans, rfl⟩ := parse_eq_ok.mp parsed
    obtain ⟨room, ending⟩ := spans.between
    have front : (document ++ rest).take e.stop = document := List.take_left' spans.stop.symm
    have within : e.stop ≤ (document ++ rest).length := by
      rw [spans.stop, List.length_append]
      exact Nat.le_add_right _ _
    have same : (document ++ rest).between (e.stop - e.content.length) e.stop =
        document.between (e.stop - e.content.length) e.stop := by
      rw [Octets.between, Octets.between, front, spans.stop, List.take_length]
    exact ⟨spans.valid, spans.length, room, within, ending.trans same.symm, front.symm ▸ spans.build⟩

/-- The length of 128 octets takes two octets, and the tag number 201 takes two groups. The element behind them is
empty, and it is read as well where something else follows. -/
theorem split_builds_long_and_empty :
    (∃ elements, split ([0xDF, 0x81, 0x49, 0x81, 0x80] ++ List.replicate 128 0 ++ [5, 0]) = .ok elements ∧
      elements.map (fun e => (e.tag, e.content)) = [(⟨3, false, 201⟩, List.replicate 128 0), (.universal 5, [])] ∧
      elements.map stop = [133, 2]) ∧
    parse [5, 0, 7] = .ok ⟨.universal 5, 0, [], 2⟩ ∧ build (.universal 5) [] = .ok [5, 0] := by
  obtain ⟨rows, single⟩ := split_builds
  have tags : Tag.WellFormed ⟨3, false, 201⟩ ∧ Tag.WellFormed (.universal 5) :=
    ⟨⟨3, 201, by decide, by decide, rfl, rfl⟩, ⟨0, 5, by decide, by decide, rfl, rfl⟩⟩
  obtain ⟨documents, elements, built, found, same, _, stops⟩ :=
    rows [(⟨3, false, 201⟩, List.replicate 128 0), (.universal 5, [])] (by
      intro part member
      rcases List.mem_pair.mp member with rfl | rfl
      · exact ⟨tags.1, by rw [List.length_replicate]; decide⟩
      · exact ⟨tags.2, by decide⟩)
  have known : [((⟨3, false, 201⟩ : Tag), List.replicate 128 0), (.universal 5, ([] : Octets))].mapM
      (fun part => build part.1 part.2) =
        .ok [[0xDF, 0x81, 0x49, 0x81, 0x80] ++ List.replicate 128 0, [5, 0]] := by decide +kernel
  cases known.symm.trans built
  rw [List.flatten_cons, List.flatten_singleton] at found
  rw [List.map_cons, List.length_append, List.length_replicate] at stops
  have parsed : parse [5, 0, 7] = .ok ⟨.universal 5, 0, [], 2⟩ := by decide +kernel
  obtain ⟨_, _, _, _, _, again⟩ := single [5, 0, 7] _ parsed
  exact ⟨⟨elements, found, same, stops⟩, parsed, again⟩

end Element

end Der
