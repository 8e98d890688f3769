import Der.Proofs.Times

namespace Der

namespace Content.Time

theorem span_digits {digits rest : List Char} (all : ∀ c ∈ digits, c.isDigit = true)
    (stops : ∀ c ∈ rest.head?, c.isDigit = false) :
    (digits ++ rest).takeWhile Char.isDigit = digits ∧ (digits ++ rest).dropWhile Char.isDigit = rest := by
  cases rest with
  | nil =>
    rw [List.append_nil]
    exact ⟨List.takeWhile_eq_self_iff.mpr all, List.dropWhile_eq_nil_iff.mpr all⟩
  | cons c rest => exact takeWhile_digits rest all (stops c rfl)

/-- The end of a time text: no zone, universal time, or an offset ahead of it or behind it. -/
inductive Zone where
  | unnamed
  | universal
  | offset (ahead : Bool) (hours minutes : Fin 100)
  deriving DecidableEq

/-- The characters of a zone. -/
def Zone.chars : Zone → List Char
  | unnamed => []
  | universal => ['Z']
  | offset ahead hours minutes => (if ahead then '+' else '-') :: twoDigits [hours, minutes]

theorem Zone.stops (zone : Zone) : ∀ c ∈ zone.chars.head?, c.isDigit = false := by
  intro c first
  rcases zone with _ | _ | ⟨_ | _, hours, minutes⟩ <;> cases first <;> rfl

theorem Zone.isZone_chars (zone : Zone) : isZone zone.chars = true := by
  cases zone with
  | unnamed => rfl
  | universal => rfl
  | offset ahead hours minutes =>
    have small : ∀ n ∈ [hours.val, minutes.val], n < 100 := by
      intro n member
      simp only [List.mem_cons, List.not_mem_nil, or_false] at member
      omega
    have count : (twoDigits [hours.val, minutes.val]).length = 4 := length_twoDigits small
    have all : (twoDigits [hours.val, minutes.val]).all Char.isDigit = true :=
      List.all_eq_true.mpr fun c => isDigit_of_mem_twoDigits
    unfold isZone chars
    split
    · rfl
    · rfl
    · next parts =>
      cases parts
      rw [count, all]
      cases ahead <;> rfl

/-- A zone does not begin like a fraction. -/
theorem Zone.unmarked (zone : Zone) {mark : Char} {rest : List Char} (shape : zone.chars = mark :: rest) :
    ¬ (mark = '.' ∨ mark = ',') := by
  rcases zone with _ | _ | ⟨_ | _, hours, minutes⟩ <;> cases shape <;> decide

theorem Zone.eq_universal {zone : Zone} (shape : zone.chars = ['Z']) : zone = universal := by
  rcases zone with _ | _ | ⟨_ | _, hours, minutes⟩ <;> cases shape
  rfl

theorem Zone.ascii (zone : Zone) : Text.Ascii zone.chars := by
  cases zone with
  | unnamed => nofun
  | universal => exact ascii_end
  | offset ahead hours minutes =>
    have sign : Text.Ascii [if ahead then '+' else '-'] := by
      intro c member
      cases List.mem_singleton.mp member
      cases ahead <;> decide
    exact ascii_append sign (ascii_digits fun c => isDigit_of_mem_twoDigits)

/-- A fraction: a point or a comma, and some digits. -/
structure Fraction where
  mark : Char
  digits : List Char
  pointOrComma : mark = '.' ∨ mark = ','
  nonempty : digits ≠ []
  all : ∀ c ∈ digits, c.isDigit = true
  deriving DecidableEq

/-- What holds of the point and of the comma holds of the mark. -/
theorem Fraction.mark_holds (fraction : Fraction) {P : Char → Prop} (point : P '.') (comma : P ',') : P fraction.mark := by
  rcases fraction.pointOrComma with same | same
  · rwa [same]
  · rwa [same]

/-- A time text of the general rules: pairs of digits, perhaps a fraction of the last of the units, and a zone. -/
structure General where
  numbers : List Nat
  fraction? : Option Fraction
  zone : Zone
  small : ∀ n ∈ numbers, n < 100
  deriving DecidableEq

namespace General

variable {t : General}

/-- What stands behind the pairs of digits. -/
def tail (t : General) : List Char :=
  (t.fraction?.elim [] fun fraction => fraction.mark :: fraction.digits) ++ t.zone.chars

/-- The characters of the text. -/
def chars (t : General) : List Char :=
  twoDigits t.numbers ++ t.tail

/-- The text. -/
def text (t : General) : String :=
  String.ofList t.chars

/-- The octets of the text. -/
def octets (t : General) : Octets :=
  Text.encodeUtf8 t.text

/-- UTCTime shows year, month, day, hour, minute and perhaps second, without a fraction. -/
def Utc (t : General) : Prop :=
  (t.numbers.length = 5 ∨ t.numbers.length = 6) ∧ t.fraction? = none

/-- The distinguished form of UTCTime shows the second, and universal time. -/
def DistinguishedUtc (t : General) : Prop :=
  t.numbers.length = 6 ∧ t.fraction? = none ∧ t.zone = .universal

/-- GeneralizedTime shows the two halves of the year, month, day, hour, perhaps minute, and then perhaps second. -/
def Generalized (t : General) : Prop :=
  t.numbers.length = 5 ∨ t.numbers.length = 6 ∨ t.numbers.length = 7

/-- The distinguished form of GeneralizedTime shows the second, its fraction behind a point, and universal time. -/
def DistinguishedGeneralized (t : General) : Prop :=
  t.numbers.length = 7 ∧ (∀ fraction ∈ t.fraction?, fraction.mark = '.') ∧ t.zone = .universal

/-- No unit above the second has a fraction. -/
def WholeMinutes (t : General) : Prop :=
  t.fraction? = none ∨ t.numbers.length = 7

instance (t : General) : Decidable t.WholeMinutes :=
  inferInstanceAs (Decidable (_ ∨ _))

theorem stops (t : General) : ∀ c ∈ t.tail.head?, c.isDigit = false := by
  intro c first
  rw [tail] at first
  cases part : t.fraction? with
  | none =>
    rw [part] at first
    exact t.zone.stops c first
  | some fraction =>
    rw [part] at first
    cases first
    exact fraction.mark_holds (P := fun c => c.isDigit = false) rfl rfl

theorem span_chars (t : General) :
    t.chars.takeWhile Char.isDigit = twoDigits t.numbers ∧ t.chars.dropWhile Char.isDigit = t.tail :=
  span_digits (fun _ => isDigit_of_mem_twoDigits) t.stops

theorem ascii (t : General) : Text.Ascii t.chars := by
  refine ascii_append (ascii_digits fun c => isDigit_of_mem_twoDigits) (ascii_append ?_ t.zone.ascii)
  cases t.fraction? with
  | none => nofun
  | some fraction =>
    have mark : Text.Ascii [fraction.mark] := by
      intro c member
      rw [List.mem_singleton.mp member]
      exact fraction.mark_holds (P := fun c => c.toNat < 128) (by decide) (by decide)
    exact ascii_append mark (ascii_digits fraction.all)

theorem tail_of_whole (none : t.fraction? = none) : t.tail = t.zone.chars := by
  rw [tail, none]
  rfl

theorem tail_of_fraction {fraction : Fraction} (shows : t.fraction? = some fraction) :
    t.tail = fraction.mark :: (fraction.digits ++ t.zone.chars) := by
  rw [tail, shows]
  rfl

/-- The general form of UTCTime is recognized. -/
theorem Utc.isGeneral (general : t.Utc) : isGeneralUtc t.chars = true := by
  obtain ⟨front, back⟩ := t.span_chars
  obtain ⟨count, none⟩ := general
  simp only [isGeneralUtc, front, back, length_twoDigits t.small, tail_of_whole none, t.zone.isZone_chars, Bool.and_true,
    Bool.or_eq_true, decide_eq_true_eq]
  omega

theorem isZone_fraction (fraction : Fraction) (rest : List Char) :
    isZone (fraction.mark :: (fraction.digits ++ rest)) = false :=
  fraction.mark_holds (P := fun c => isZone (c :: (fraction.digits ++ rest)) = false) rfl rfl

theorem Generalized.counted (general : t.Generalized) :
    (decide (2 * t.numbers.length = 10) || decide (2 * t.numbers.length = 12) ||
      decide (2 * t.numbers.length = 14)) = true := by
  rcases general with five | six | seven
  · rw [five]
    rfl
  · rw [six]
    rfl
  · rw [seven]
    rfl

/-- The general form of GeneralizedTime is recognized if only seconds have a fraction. -/
theorem Generalized.isGeneral (general : t.Generalized) (whole : t.WholeMinutes) :
    isGeneralGeneralized t.chars = true := by
  obtain ⟨front, back⟩ := t.span_chars
  have counted := general.counted
  simp only [isGeneralGeneralized, front, back, length_twoDigits t.small]
  rcases part : t.fraction? with _ | fraction
  · rw [tail_of_whole part]
    split
    · next mark rest shape =>
      rw [if_neg fun marked => t.zone.unmarked shape marked.2, counted, ← shape, t.zone.isZone_chars]
      rfl
    · exact counted
  · have seconds : t.numbers.length = 7 := by
      rcases whole with none | seconds
      · rw [part] at none
        cases none
      · exact seconds
    rw [tail_of_fraction part]
    simp only [seconds, fraction.pointOrComma, and_self, if_true, (span_digits fraction.all t.zone.stops).2,
      t.zone.isZone_chars]

/-- The general form of GeneralizedTime is not recognized if an hour or a minute has a fraction. -/
theorem isGeneralGeneralized_eq_false (fine : ¬ t.WholeMinutes) : isGeneralGeneralized t.chars = false := by
  obtain ⟨front, back⟩ := t.span_chars
  obtain ⟨shown, early⟩ := not_or.mp fine
  obtain ⟨fraction, part⟩ := Option.ne_none_iff_exists'.mp shown
  have short : ¬ (2 * t.numbers.length = 14 ∧ (fraction.mark = '.' ∨ fraction.mark = ',')) := by omega
  simp only [isGeneralGeneralized, front, back, length_twoDigits t.small, tail_of_fraction part, if_neg short,
    isZone_fraction, Bool.and_false]

/-- A UTCTime text that is not of the distinguished form is refused for its form. -/
theorem ofUtcText_eq (general : t.Utc) (other : ¬ t.DistinguishedUtc) :
    ofUtcText t.text = .error (.ofCause (.utcTimeForm true t.text)) := by
  obtain ⟨front, back⟩ := t.span_chars
  simp only [ofUtcText, text, String.toList_ofList, front, back, pairs_twoDigits t.small, general.isGeneral]
  split
  · next numbers ending =>
    have zone : t.zone = .universal := by
      rw [tail_of_whole general.2] at ending
      exact Zone.eq_universal ending
    exact absurd ⟨by rw [numbers]; rfl, general.2, zone⟩ other
  · rfl

/-- The end of the strict form names universal time, behind a fraction with a point if there is one. -/
theorem strictEnd?_tail {digits : List Char} (strict : strictEnd? t.tail = some digits) :
    (∀ fraction ∈ t.fraction?, fraction.mark = '.') ∧ t.zone = .universal := by
  obtain ⟨all, shape⟩ := strictEnd?_eq_some.mp strict
  have ends : (digits ++ ['Z']).takeWhile Char.isDigit = digits ∧ (digits ++ ['Z']).dropWhile Char.isDigit = ['Z'] :=
    span_digits all (by rintro c ⟨⟩; rfl)
  rcases part : t.fraction? with _ | fraction
  · rw [tail_of_whole part] at shape
    refine ⟨nofun, ?_⟩
    by_cases none : digits = []
    · rw [pointed, if_pos none] at shape
      exact Zone.eq_universal shape
    · rw [pointed, if_neg none] at shape
      exact absurd (Or.inl rfl) (t.zone.unmarked shape)
  · rw [tail_of_fraction part] at shape
    by_cases none : digits = []
    · rw [pointed, if_pos none] at shape
      have mark := fraction.pointOrComma
      rw [(List.cons.inj shape).1] at mark
      exact absurd mark (by decide)
    · rw [pointed, if_neg none, List.cons_append] at shape
      obtain ⟨point, rest⟩ := List.cons.inj shape
      have zone := (span_digits fraction.all t.zone.stops).2
      rw [rest, ends.2] at zone
      refine ⟨?_, Zone.eq_universal zone.symm⟩
      rintro _ ⟨⟩
      exact point

/-- A GeneralizedTime text that is not of the distinguished form is refused for its form. -/
theorem ofGeneralizedText_eq (other : ¬ t.DistinguishedGeneralized) :
    ofGeneralizedText t.text = .error (.ofCause (.generalizedTimeForm (isGeneralGeneralized t.chars) t.text)) := by
  obtain ⟨front, back⟩ := t.span_chars
  simp only [ofGeneralizedText, text, String.toList_ofList, front, back, pairs_twoDigits t.small]
  split
  · next numbers strict =>
    exact absurd ⟨by rw [numbers]; rfl, strictEnd?_tail strict⟩ other
  · rfl

end General

/-- Half past midnight of 1 January 2050, as a fraction of the hour. -/
def halfPastMidnight : General where
  numbers := [20, 50, 1, 1, 0]
  fraction? := some ⟨'.', ['5'], Or.inl rfl, by decide, List.all_eq_true.mp rfl⟩
  zone := .universal
  small := by decide

end Content.Time

namespace Primitive

open Content Decoding

/-- Wherever the element of the content stands, it is refused for a cause of a kind, which is placed at the content. -/
structure Refuses (p : Primitive) (content : Octets) (kind : Fault.Kind) (cause : Fault.Cause) : Prop where
  kind_eq : cause.kind = kind
  read : ∀ window : Slice, window.octets = .ok content → p.rule.read window = .error (.ofCause cause)
  decode : ∀ header, Header.encode p.codec.tag content.length = .ok header → ∀ (d : Decoder) (more : Octets),
    d.Bounded → d.rest = header ++ content ++ more → p.codec.decode.run d =
      .error (.coding cause (some (d.position + header.length : Nat))) (d.skip (header.length + content.length))
  parse : ∀ header, Header.encode p.codec.tag content.length = .ok header → ∀ maxDepth,
    Document.parse (.tagged p.codec) maxDepth (header ++ content) = .error (.coding cause (some header.length))

section

variable {p : Primitive} {content header : Octets} {cause : Fault.Cause}
  (refused : ∀ window : Slice, window.octets = .ok content → p.rule.read window = .error (.ofCause cause))

include refused

theorem run_decode_of_refused (written : Header.encode p.codec.tag content.length = .ok header) {d : Decoder}
    {more : Octets} (bounded : d.Bounded) (ahead : d.rest = header ++ content ++ more) : p.codec.decode.run d =
      .error (.coding cause (some (d.position + header.length : Nat))) (d.skip (header.length + content.length)) := by
  rw [List.append_assoc] at ahead
  have fits : content.length ≤ (content ++ more).length := by
    rw [List.length_append]
    exact Nat.le_add_right _ _
  have first := run_expect_of_encode bounded p.codec.name p.wellFormed written ahead fits
  have inside := (Decoder.takes_of_ahead ahead).bounded bounded
  have stands := Decoder.rest_skip_of_ahead ahead
  have room : content.length ≤ (d.skip header.length).rest.length := by rwa [stands]
  have shows : (windowAt (d.skip header.length) content.length).octets = .ok content := by
    rw [octets_windowAt inside room, stands, List.take_left]
  have run : (p.codec.readContent content.length).run (d.skip header.length) = _ := run_content inside room p.rule.read
  rw [refused _ shows, Decoder.skip_skip] at run
  rw [TaggedCodec.decode, EStateM.run_bind, first]
  exact run

theorem refuses_of_read {kind : Fault.Kind} (same : cause.kind = kind) : p.Refuses content kind cause where
  kind_eq := same
  read := refused
  decode _ written _ _ bounded ahead := run_decode_of_refused refused written bounded ahead
  parse header written maxDepth := by
    have bounded := Decoder.bounded_ofOctets (header ++ content) maxDepth
    have ahead : (Decoder.ofOctets (header ++ content) maxDepth).rest = header ++ content ++ [] := by
      rw [Decoder.rest_ofOctets, List.append_nil]
    have run := run_decode_of_refused refused written bounded ahead
    rw [show Decoder.position _ + header.length = header.length from Nat.zero_add _] at run
    simp only [Document.parse, outcome, complete, Codec.decode, EStateM.run_bind, run]

end

theorem refuses_of_text {name : String} {format : Option Instant → Except Fault String}
    {parse : String → Except Fault Instant} {p : Primitive} (rule : p.rule = .time name format parse) {t : Time.General}
    {kind : Fault.Kind} {cause : Fault.Cause} (refused : parse t.text = .error (.ofCause cause))
    (same : cause.kind = kind) : p.Refuses t.octets kind cause := by
  refine refuses_of_read ?_ same
  intro window shows
  have ascii : Text.decodeAscii t.octets = .ok t.text := t.ascii.decodeAscii_encodeUtf8
  rw [rule]
  simp only [ContentRule.time, ContentRule.ofOctets, shows, bind, Except.bind, ascii, refused]

/-- Content is refused for one cause. -/
theorem Refuses.unique {content : Octets} {kind kind' : Fault.Kind} {cause cause' : Fault.Cause} {p : Primitive}
    (refuses : p.Refuses content kind cause) (refuses' : p.Refuses content kind' cause') : cause = cause' := by
  have shows := Slice.octets_ofOctets content
  have same := (refuses.read _ shows).symm.trans (refuses'.read _ shows)
  injection same with same
  injection same

/-- A time text of the general rules that is not of the distinguished form is refused as not canonical, whatever it leaves
out and whichever zone it names, and whether or not there is such a date. The exception are the texts of GeneralizedTime
with a fraction of an hour or of a minute: they are refused like texts that are no times at all. -/
theorem general_times_refused (t : Time.General) :
    (t.Utc → ¬ t.DistinguishedUtc → utcTime.Refuses t.octets .nonCanonical (.utcTimeForm true t.text)) ∧
    (t.Generalized → ¬ t.DistinguishedGeneralized →
      (generalizedTime.Refuses t.octets .nonCanonical (.generalizedTimeForm true t.text) ↔ t.WholeMinutes)) ∧
    (¬ t.WholeMinutes → generalizedTime.Refuses t.octets .invalidValue (.generalizedTimeForm false t.text)) := by
  have malformed : ¬ t.WholeMinutes → generalizedTime.Refuses t.octets .invalidValue (.generalizedTimeForm false t.text) := by
    intro fine
    have refused := Time.General.ofGeneralizedText_eq fun distinguished => fine (Or.inr distinguished.1)
    rw [Time.General.isGeneralGeneralized_eq_false fine] at refused
    exact refuses_of_text rfl refused rfl
  refine ⟨?_, ?_, malformed⟩
  · intro general other
    exact refuses_of_text rfl (Time.General.ofUtcText_eq general other) rfl
  · intro general other
    constructor
    · intro refuses
      refine Classical.byContradiction fun fine => ?_
      cases refuses.unique (malformed fine)
    · intro whole
      have refused := Time.General.ofGeneralizedText_eq other
      rw [general.isGeneral whole] at refused
      exact refuses_of_text rfl refused rfl

/-- The last minute of 2049 an hour ahead of universal time, the middle of the first second after it with a comma, and
the middle of its first hour. -/
theorem general_times_refused_new_year :
    Document.parse (.tagged utcTime.codec) 100 (0x17 :: 0x0f :: Text.encodeUtf8 "4912312359+0100") =
      .error (.coding (.utcTimeForm true "4912312359+0100") (some 2)) ∧
    Document.parse (.tagged generalizedTime.codec) 100 (0x18 :: 0x16 :: Text.encodeUtf8 "20500101000000,50+0100") =
      .error (.coding (.generalizedTimeForm true "20500101000000,50+0100") (some 2)) ∧
    Document.parse (.tagged generalizedTime.codec) 100 (0x18 :: 0x0d :: Text.encodeUtf8 "2050010100.5Z") =
      .error (.coding (.generalizedTimeForm false "2050010100.5Z") (some 2)) := by
  refine ⟨?_, ?_, ?_⟩
  · have refuses := (general_times_refused ⟨[49, 12, 31, 23, 59], none, .offset true 1 0, by decide⟩).1
      ⟨Or.inl rfl, rfl⟩ (fun distinguished => absurd distinguished.1 (by decide))
    exact refuses.parse [0x17, 0x0f] (by decide +kernel) 100
  · have refuses := (general_times_refused ⟨[20, 50, 1, 1, 0, 0, 0],
      some ⟨',', ['5', '0'], Or.inr rfl, by decide, List.all_eq_true.mp rfl⟩, .offset true 1 0, by decide⟩).2.1
      (Or.inr (Or.inr rfl)) (fun distinguished => absurd distinguished.2.2 (by decide))
    exact (refuses.mpr (Or.inr rfl)).parse [0x18, 0x16] (by decide +kernel) 100
  · have refuses := (general_times_refused Time.halfPastMidnight).2.2 (by decide)
    exact refuses.parse [0x18, 0x0d] (by decide +kernel) 100

/-- Half past midnight of 1 January 2050 has a text of the general rules, with a fraction of the hour, that is refused like
a text that is no time at all. -/
theorem half_hour_refused_as_invalid :
    Time.halfPastMidnight.text = "2050010100.5Z" ∧ DateTime.Valid ⟨2050, 1, 1, 0, 30, 0, 0⟩ ∧
      Time.halfPastMidnight.Generalized ∧ ¬ Time.halfPastMidnight.DistinguishedGeneralized ∧
      Document.parse (.tagged generalizedTime.codec) 100 (0x18 :: 0x0d :: Time.halfPastMidnight.octets) =
        .error (.coding (.generalizedTimeForm false "2050010100.5Z") (some 2)) ∧
      Fault.Cause.kind (.generalizedTimeForm false "2050010100.5Z") = .invalidValue := by
  have other : ¬ Time.halfPastMidnight.DistinguishedGeneralized :=
    fun distinguished => absurd distinguished.1 (by decide)
  have refused : Time.ofGeneralizedText Time.halfPastMidnight.text =
      .error (.ofCause (.generalizedTimeForm false Time.halfPastMidnight.text)) := by decide +kernel
  have refuses := refuses_of_text (p := generalizedTime) rfl refused rfl
  exact ⟨by decide +kernel, by decide, Or.inl rfl, other, refuses.parse [0x18, 0x0d] (by decide +kernel) 100, rfl⟩

end Primitive

end Der
