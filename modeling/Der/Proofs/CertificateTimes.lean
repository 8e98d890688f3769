import Der.Proofs.Times

namespace Der

open Content Decoding

namespace Primitive

variable {p : Primitive} {document : Octets} {maxDepth : Number} {v : Value}

theorem frames_of_parse (parsed : Document.parse (.tagged p.codec) maxDepth document = .ok v) :
    p.codec.tag.Frames document := by
  obtain ⟨header, content, written, rfl, _⟩ := parse_eq_ok.mp parsed
  exact ⟨p.wellFormed, header, content, written, rfl⟩

theorem frames_of_build (built : Document.build (.tagged p.codec) v = .ok document) : p.codec.tag.Frames document := by
  obtain ⟨header, content, written, rfl, _⟩ := p.measures.build_eq_ok.mp built
  exact ⟨p.wellFormed, header, content, written, rfl⟩

/-- No element is a UTCTime and a GeneralizedTime. -/
theorem frames_one_time (utc : utcTime.codec.tag.Frames document)
    (generalized : generalizedTime.codec.tag.Frames document) : False := by
  obtain ⟨same, _⟩ := utc.eq_of_prefix generalized List.prefix_rfl
  cases same

theorem utcTime_holdsTimes :
    HoldsTimes utcTime Time.utcText
      fun i => 1950 ≤ i.dateTime.year ∧ i.dateTime.year ≤ 2049 ∧ i.millis % 1000 = 0 := by
  refine holdsTimes rfl Time.utcTime_inverse ?_ Time.utcText_isOk_iff
  intro _ _ written
  rw [Time.length_utcText written]
  decide

theorem generalizedTime_holdsTimes :
    HoldsTimes generalizedTime Time.generalizedText fun i => 0 ≤ i.dateTime.year ∧ i.dateTime.year ≤ 9999 :=
  holdsTimes rfl Time.generalizedTime_inverse Time.length_generalizedText Time.generalizedText_isOk_iff

/-- The octets of a type of times are built again from the instant that is read from them. -/
theorem build_of_parse_time {name : String} {format : Option Instant → Except Fault String}
    {parse : String → Except Fault Instant} (rule : p.rule = .time name format parse)
    (inverse : Time.Inverse format parse) (parsed : Document.parse (.tagged p.codec) maxDepth document = .ok v) :
    ∃ i, v = .time (some i) ∧ Document.build (.tagged p.codec) (.time (some i)) = .ok document := by
  obtain ⟨header, content, written, rfl, read⟩ := parse_eq_ok.mp parsed
  obtain ⟨i, text, formatted, rfl, rfl⟩ := (read_time rule inverse (Slice.octets_behind header content)).mp read
  exact ⟨i, rfl, (build_time rule inverse).mpr ⟨text, formatted, Element.build_eq_ok.mpr ⟨header, written, rfl⟩⟩⟩

/-- A fraction of a second in a year of UTCTime is refused as a value. -/
theorem build_utcTime_fraction {i : Instant} (range : Time.InUtcRange i.dateTime) (part : i.millis % 1000 ≠ 0) :
    ∃ fault, Document.build (.tagged utcTime.codec) (.time (some i)) = .error fault ∧
      fault.kind? = some .invalidValue := by
  have milli : i.dateTime.milli ≠ 0 := by
    have same : i.dateTime.milli = (i.millis % 1000).toNat := DateTime.milli_ofMillis i.millis
    omega
  have refused : Time.utcText (some i) =
      .error (.ofCause (.utcTimeFraction (Time.messageText i.dateTime))) := by
    simp only [Time.utcText, Time.dateTime, bind, Except.bind, range, not_true_eq_false, if_false, milli,
      ne_eq, not_false_eq_true, if_true, pure, Except.pure]
    rfl
  refine ⟨.ofCause (.utcTimeFraction (Time.messageText i.dateTime)), ?_, rfl⟩
  simp only [Document.build, Codec.encodedLength, TaggedCodec.encodedLength, codec, TaggedCodec.primitive, rule,
    ContentRule.time, ContentRule.ofOctets, ContentRule.asTime, bind, Except.bind, refused]

end Primitive

namespace UntaggedCodec

variable {p : Primitive} {document : Octets} {maxDepth : Number} {v : Value} {i : Instant}

/-- A time of a certificate is built as the type of times that it is written as. -/
theorem build_time (type : timeType v = .ok p) :
    Document.build (.untagged time) v = Document.build (.tagged p.codec) v := by
  rw [Codec.Measures.build_eq (c := .untagged time) time_measures,
    Codec.Measures.build_eq (c := .tagged p.codec) p.measures]
  simp only [Codec.toOctets, Codec.encodedLength, Codec.encode, time, type]
  rfl

theorem timeType_of_inUtcRange (range : Time.InUtcRange i.dateTime) : timeType (.time (some i)) = .ok .utcTime :=
  congrArg Except.ok (if_pos range)

theorem timeType_of_not_inUtcRange (range : ¬Time.InUtcRange i.dateTime) :
    timeType (.time (some i)) = .ok .generalizedTime :=
  congrArg Except.ok (if_neg range)

theorem build_time_of_inUtcRange (range : Time.InUtcRange i.dateTime) :
    Document.build (.untagged time) (.time (some i)) =
      Document.build (.tagged Primitive.utcTime.codec) (.time (some i)) :=
  build_time (timeType_of_inUtcRange range)

theorem build_time_of_not_inUtcRange (range : ¬Time.InUtcRange i.dateTime) :
    Document.build (.untagged time) (.time (some i)) =
      Document.build (.tagged Primitive.generalizedTime.codec) (.time (some i)) :=
  build_time (timeType_of_not_inUtcRange range)

/-- An element with the tag of a type of times is read as that type. -/
theorem parse_time_of_frames (type : p = .utcTime ∨ p = .generalizedTime) (frames : p.codec.tag.Frames document) :
    Document.parse (.untagged time) maxDepth document = Document.parse (.tagged p.codec) maxDepth document := by
  have leads := frames.leads
  rw [← Decoder.rest_ofOctets document maxDepth] at leads
  have looked := run_peekTag_of_leads (Decoder.bounded_ofOctets document maxDepth) leads
  have run : time.decode.run (.ofOctets document maxDepth) = p.codec.decode.run (.ofOctets document maxDepth) := by
    refine (EStateM.run_bind ..).trans ?_
    rw [looked]
    rcases type with rfl | rfl <;> rfl
  simp only [Document.parse, Codec.decode, outcome, complete, EStateM.run_bind, run]

theorem parse_time (parsed : Document.parse (.untagged time) maxDepth document = .ok v) :
    ∃ p : Primitive, (p = .utcTime ∨ p = .generalizedTime) ∧
      Document.parse (.tagged p.codec) maxDepth document = .ok v := by
  obtain ⟨t, frames, accepted⟩ := Codec.Framed.of_parse (c := .untagged time) time_framed parsed
  rcases Bool.or_eq_true_iff.mp accepted with utc | generalized
  · rw [Tag.eq_of_equals utc] at frames
    exact ⟨.utcTime, Or.inl rfl, (parse_time_of_frames (Or.inl rfl) frames).symm.trans parsed⟩
  · rw [Tag.eq_of_equals generalized] at frames
    exact ⟨.generalizedTime, Or.inr rfl, (parse_time_of_frames (Or.inr rfl) frames).symm.trans parsed⟩

/-- The tag of a time of a certificate is that of its element, which is a UTCTime in the years of UTCTime only. -/
theorem frames_of_build_time (built : Document.build (.untagged time) (.time (some i)) = .ok document) :
    (Primitive.utcTime.codec.tag.Frames document ↔ Time.InUtcRange i.dateTime) ∧
      ∃ tag, time.tagOf (.time (some i)) = .ok tag ∧ tag.Frames document := by
  by_cases range : Time.InUtcRange i.dateTime
  · rw [build_time_of_inUtcRange range] at built
    have frames := Primitive.frames_of_build built
    refine ⟨iff_of_true frames range, _, ?_, frames⟩
    simp only [time, timeType_of_inUtcRange range]
    rfl
  · rw [build_time_of_not_inUtcRange range] at built
    have frames := Primitive.frames_of_build built
    refine ⟨iff_of_false (fun utc => Primitive.frames_one_time utc frames) range, _, ?_, frames⟩
    simp only [time, timeType_of_not_inUtcRange range]
    rfl

theorem build_time_isOk :
    (∃ document, Document.build (.untagged time) (.time (some i)) = .ok document) ↔
      0 ≤ i.dateTime.year ∧ i.dateTime.year ≤ 9999 ∧
        (i.dateTime.year < 1950 ∨ 2049 < i.dateTime.year ∨ i.millis % 1000 = 0) := by
  by_cases range : Time.InUtcRange i.dateTime
  · rw [build_time_of_inUtcRange range, Primitive.utcTime_holdsTimes.build]
    obtain ⟨low, high⟩ := range
    omega
  · rw [build_time_of_not_inUtcRange range, Primitive.generalizedTime_holdsTimes.build]
    rw [Time.InUtcRange] at range
    omega

theorem parse_of_build_time (built : Document.build (.untagged time) (.time (some i)) = .ok document)
    (maxDepth : Number) : Document.parse (.untagged time) maxDepth document = .ok (.time (some i)) := by
  by_cases range : Time.InUtcRange i.dateTime
  · rw [build_time_of_inUtcRange range] at built
    rw [parse_time_of_frames (Or.inl rfl) (Primitive.frames_of_build built)]
    exact Primitive.utcTime_holdsTimes.parse_build i document built maxDepth
  · rw [build_time_of_not_inUtcRange range] at built
    rw [parse_time_of_frames (Or.inr rfl) (Primitive.frames_of_build built)]
    exact Primitive.generalizedTime_holdsTimes.parse_build i document built maxDepth

/-- A time of a certificate is built just for the instants of years of four digits, and in the years of UTCTime just for
whole seconds. It is a UTCTime in these years only, its tag is the one foretold, and the instant is read from it. What
is read as a time of a certificate is an instant, and the same octets are built for it, unless they are a
GeneralizedTime in the years of UTCTime: then the octets of the UTCTime are built, or a fraction of a second is
refused. -/
theorem time_chosen_by_year :
    (∀ t : Option Instant, (∃ document, Document.build (.untagged time) (.time t) = .ok document) ↔
      ∃ i, t = some i ∧ 0 ≤ i.dateTime.year ∧ i.dateTime.year ≤ 9999 ∧
        (i.dateTime.year < 1950 ∨ 2049 < i.dateTime.year ∨ i.millis % 1000 = 0)) ∧
    (∀ i document, Document.build (.untagged time) (.time (some i)) = .ok document →
      (Primitive.utcTime.codec.tag.Frames document ↔ 1950 ≤ i.dateTime.year ∧ i.dateTime.year ≤ 2049) ∧
      (∃ tag, time.tagOf (.time (some i)) = .ok tag ∧ tag.Frames document) ∧
      ∀ maxDepth, Document.parse (.untagged time) maxDepth document = .ok (.time (some i))) ∧
    ∀ document maxDepth v, Document.parse (.untagged time) maxDepth document = .ok v → ∃ i, v = .time (some i) ∧
      (¬(Primitive.generalizedTime.codec.tag.Frames document ∧ 1950 ≤ i.dateTime.year ∧ i.dateTime.year ≤ 2049) →
        Document.build (.untagged time) v = .ok document) ∧
      (Primitive.generalizedTime.codec.tag.Frames document → 1950 ≤ i.dateTime.year → i.dateTime.year ≤ 2049 →
        (i.millis % 1000 = 0 → ∃ other, Document.build (.untagged time) v = .ok other ∧ other ≠ document ∧
          Document.build (.tagged Primitive.utcTime.codec) v = .ok other) ∧
        (i.millis % 1000 ≠ 0 → ∃ fault, Document.build (.untagged time) v = .error fault ∧
          fault.kind? = some .invalidValue)) := by
  refine ⟨?_, ?_, ?_⟩
  · intro t
    cases t with
    | none =>
      refine iff_of_false ?_ ?_
      · rintro ⟨document, built⟩
        cases built
      · rintro ⟨i, same, _⟩
        cases same
    | some i =>
      rw [build_time_isOk]
      constructor
      · exact fun parts => ⟨i, rfl, parts⟩
      · rintro ⟨_, same, parts⟩
        cases same
        exact parts
  · intro i document built
    obtain ⟨utc, tag⟩ := frames_of_build_time built
    exact ⟨utc, tag, parse_of_build_time built⟩
  · intro document maxDepth v parsed
    obtain ⟨p, rfl | rfl, parsed⟩ := parse_time parsed
    · obtain ⟨i, rfl, built⟩ := Primitive.build_of_parse_time rfl Time.utcTime_inverse parsed
      obtain ⟨low, high, _⟩ := (Primitive.utcTime_holdsTimes.build i).mp ⟨document, built⟩
      refine ⟨i, rfl, fun _ => (build_time_of_inUtcRange ⟨low, high⟩).trans built, fun generalized => ?_⟩
      exact (Primitive.frames_one_time (Primitive.frames_of_parse parsed) generalized).elim
    · obtain ⟨i, rfl, built⟩ := Primitive.build_of_parse_time rfl Time.generalizedTime_inverse parsed
      have frames := Primitive.frames_of_parse parsed
      -- What is built goes by the year alone, so a GeneralizedTime comes back just in the other years.
      refine ⟨i, rfl, ?_, ?_⟩
      · intro apart
        exact (build_time_of_not_inUtcRange fun range => apart ⟨frames, range⟩).trans built
      · intro _ low high
        rw [build_time_of_inUtcRange ⟨low, high⟩]
        refine ⟨fun whole => ?_, Primitive.build_utcTime_fraction ⟨low, high⟩⟩
        obtain ⟨other, shorter⟩ := (Primitive.utcTime_holdsTimes.build i).mpr ⟨low, high, whole⟩
        refine ⟨other, shorter, ?_, shorter⟩
        rintro rfl
        exact Primitive.frames_one_time (Primitive.frames_of_build shorter) frames

/-- The end of February 2000 is read from a GeneralizedTime and built as a UTCTime. Its last millisecond is read and
cannot be built. The first half second of 2050 is built as a GeneralizedTime. -/
theorem time_chosen_in_february :
    (∃ i, Document.parse (.untagged time) 100 (0x18 :: 0x0F :: Text.encodeUtf8 "20000229235959Z") =
        .ok (.time (some i)) ∧
      Document.build (.untagged time) (.time (some i)) = .ok (0x17 :: 0x0D :: Text.encodeUtf8 "000229235959Z")) ∧
    (∃ i fault, Document.parse (.untagged time) 100 (0x18 :: 0x13 :: Text.encodeUtf8 "20000229235959.999Z") =
        .ok (.time (some i)) ∧
      Document.build (.untagged time) (.time (some i)) = .error fault ∧ fault.kind? = some .invalidValue) ∧
    Document.parse (.untagged time) 100 (0x18 :: 0x11 :: Text.encodeUtf8 "20500101000000.5Z") =
      .ok (.time (some ⟨2524608000500, by decide⟩)) := by
  obtain ⟨_, builds, parses⟩ := time_chosen_by_year
  have shown : ∀ i document, Document.build (.tagged Primitive.generalizedTime.codec) (.time (some i)) = .ok document →
      Document.parse (.untagged time) 100 document = .ok (.time (some i)) ∧
        Primitive.generalizedTime.codec.tag.Frames document := by
    intro i document built
    have frames := Primitive.frames_of_build built
    rw [parse_time_of_frames (Or.inr rfl) frames]
    exact ⟨Primitive.generalizedTime_holdsTimes.parse_build i document built 100, frames⟩
  refine ⟨?_, ?_, ?_⟩
  · obtain ⟨parsed, frames⟩ := shown ⟨951868799000, by decide⟩ (0x18 :: 0x0F :: Text.encodeUtf8 "20000229235959Z")
      (by decide +kernel)
    obtain ⟨i, same, _, rebuilds⟩ := parses _ _ _ parsed
    cases same
    obtain ⟨other, built, _⟩ := (rebuilds frames (by decide +kernel) (by decide +kernel)).1 (by decide)
    have known : Document.build (.untagged time) (.time (some ⟨951868799000, by decide⟩)) =
        .ok (0x17 :: 0x0D :: Text.encodeUtf8 "000229235959Z") := by decide +kernel
    cases known.symm.trans built
    exact ⟨_, parsed, built⟩
  · obtain ⟨parsed, frames⟩ := shown ⟨951868799999, by decide⟩
      (0x18 :: 0x13 :: Text.encodeUtf8 "20000229235959.999Z") (by decide +kernel)
    obtain ⟨i, same, _, rebuilds⟩ := parses _ _ _ parsed
    cases same
    obtain ⟨fault, refused, kind⟩ := (rebuilds frames (by decide +kernel) (by decide +kernel)).2 (by decide)
    exact ⟨_, fault, parsed, refused, kind⟩
  · exact (builds _ _ (by decide +kernel)).2.2 100

end UntaggedCodec

end Der
