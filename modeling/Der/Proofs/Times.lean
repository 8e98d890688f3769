import Der.Proofs.Content.Time
import Der.Proofs.Element

namespace Der

namespace DateTime

open Calendar

/-- The milliseconds since the start of 1970 if parts that are out of range run over into the parts above them. -/
def rolledOver (t : DateTime) : Int :=
  let months : Int := t.month - 1
  toMillis { t with year := t.year + months / 12, month := (months % 12).toNat + 1 }

theorem Valid.rolledOver_eq {t : DateTime} (valid : t.Valid) : t.rolledOver = t.toMillis := by
  obtain ⟨someMonth, lastMonth, _⟩ := valid
  have year : t.year + ((t.month : Int) - 1) / 12 = t.year := by omega
  have month : (((t.month : Int) - 1) % 12).toNat + 1 = t.month := by omega
  simp only [rolledOver, year, month]

/-- A date and time of day is on the calendar exactly if it is read back from where it rolls over to. -/
theorem valid_iff_rolledOver {t : DateTime} (small : t.milli < 1000) :
    t.Valid ↔ { ofMillis t.rolledOver with milli := t.milli } = t := by
  constructor
  · intro valid
    rw [valid.rolledOver_eq, valid.ofMillis_toMillis]
  · intro same
    obtain ⟨someMonth, lastMonth, someDay, lastDay, hour, minute, second, _⟩ := valid_ofMillis t.rolledOver
    rw [← same]
    exact ⟨someMonth, lastMonth, someDay, lastDay, hour, minute, second, small⟩

theorem milli_ofMillis (millis : Int) : (ofMillis millis).milli = (millis % 1000).toNat := by
  obtain ⟨month, day, same, _⟩ := ofMillis_parts millis
  rw [same]
  simp only [dayLength]
  omega

/-- The instants of the years that have four digits are not too far away. -/
theorem Valid.near {t : DateTime} (valid : t.Valid) (low : 0 ≤ t.year) (high : t.year ≤ 9999) :
    t.toMillis.natAbs ≤ 8640000000000000 := by
  have last := valid.before_next_year
  obtain ⟨_, _, someDay, _, hour, minute, second, milli⟩ := valid
  have first : 0 ≤ daysBeforeYear t.year := show daysBeforeYear 0 ≤ _ from daysBeforeYear_mono low
  have final : daysBeforeYear (t.year + 1) ≤ daysBeforeYear 10000 := daysBeforeYear_mono (by omega)
  have total : daysBeforeYear 10000 = 3652425 := rfl
  rw [total] at final
  simp only [toMillis, epoch, dayLength]
  omega

end DateTime

namespace Content.Time

/-- A date and time of day of a year of four digits is that of an instant exactly if it is on the calendar. -/
theorem instant_isOk_iff {t : DateTime} (low : 0 ≤ t.year) (high : t.year ≤ 9999) :
    (∃ i, instant t = .ok i) ↔ t.Valid := by
  constructor
  · rintro ⟨i, read⟩
    exact (dateTime_of_instant read).2
  · intro valid
    refine ⟨⟨t.toMillis, valid.near low high⟩, ?_⟩
    simp only [instant, if_pos valid, Instant.ofMillis?, dif_pos (valid.near low high)]

/-- A date and time of day is that of an instant exactly if it rolls over to the instant and is read back from it. -/
theorem instant_eq_ok_iff {t : DateTime} {i : Instant} (small : t.milli < 1000) :
    instant t = .ok i ↔ i.millis = t.rolledOver ∧ { i.dateTime with milli := t.milli } = t := by
  have back : i.dateTime.toMillis = i.millis := DateTime.toMillis_ofMillis i.millis
  constructor
  · intro read
    obtain ⟨same, valid⟩ := dateTime_of_instant read
    rw [valid.rolledOver_eq, ← back, same]
    exact ⟨rfl, rfl⟩
  · rintro ⟨place, same⟩
    have valid : t.Valid := by
      rw [DateTime.valid_iff_rolledOver small, ← place]
      exact same
    rw [valid.rolledOver_eq] at place
    have whole : i.dateTime = t := by
      rw [Instant.dateTime, place, valid.ofMillis_toMillis]
    rw [← whole]
    exact instant_dateTime i

theorem utcText_isOk_iff (i : Instant) :
    (∃ text, utcText (some i) = .ok text) ↔
      1950 ≤ i.dateTime.year ∧ i.dateTime.year ≤ 2049 ∧ i.millis % 1000 = 0 := by
  have milli : i.dateTime.milli = (i.millis % 1000).toNat := DateTime.milli_ofMillis i.millis
  constructor
  · rintro ⟨text, written⟩
    obtain ⟨_, same, range, whole, _⟩ := utcText_eq_ok written
    cases same
    exact ⟨range.1, range.2, by omega⟩
  · rintro ⟨low, high, whole⟩
    exact ⟨_, utcText_some ⟨low, high⟩ (by omega)⟩

theorem generalizedText_isOk_iff (i : Instant) :
    (∃ text, generalizedText (some i) = .ok text) ↔ 0 ≤ i.dateTime.year ∧ i.dateTime.year ≤ 9999 := by
  constructor
  · rintro ⟨text, written⟩
    obtain ⟨_, same, low, high, _⟩ := generalizedText_eq_ok written
    cases same
    exact ⟨low, high⟩
  · rintro ⟨low, high⟩
    exact ⟨_, generalizedText_some low high⟩

theorem length_utcText {t : Option Instant} {text : String} (written : utcText t = .ok text) :
    text.toList.length = 13 := by
  obtain ⟨i, _, _, _, rfl⟩ := utcText_eq_ok written
  have valid : i.dateTime.Valid := DateTime.valid_ofMillis i.millis
  rw [String.toList_ofList, List.length_append, length_twoDigits (small_utcNumbers valid)]
  rfl

theorem length_generalizedText {t : Option Instant} {text : String} (written : generalizedText t = .ok text) :
    text.toList.length ≤ 19 := by
  obtain ⟨i, _, _, high, rfl⟩ := generalizedText_eq_ok written
  have valid : i.dateTime.Valid := DateTime.valid_ofMillis i.millis
  have digits := length_thousandths_le valid.2.2.2.2.2.2.2
  have tail : (pointed (thousandths i.dateTime.milli)).length ≤ 4 := by
    unfold pointed
    split
    · exact Nat.zero_le _
    · rw [List.length_cons]
      omega
  rw [String.toList_ofList, List.length_append, length_twoDigits (small_generalizedNumbers valid high),
    List.length_append]
  simp only [generalizedNumbers, List.length_cons, List.length_nil]
  omega

/-- A text of six pairs of digits is read exactly if it shows a date and time of day of the calendar. -/
theorem ofUtcText_isOk_iff {year month day hour minute second : Nat}
    (small : ∀ n ∈ [year, month, day, hour, minute, second], n < 100) :
    (∃ i, ofUtcText (String.ofList (twoDigits [year, month, day, hour, minute, second] ++ ['Z'])) = .ok i) ↔
      DateTime.Valid ⟨if 50 ≤ year then 1900 + year else 2000 + year, month, day, hour, minute, second, 0⟩ := by
  have digits : ∀ c ∈ twoDigits [year, month, day, hour, minute, second], c.isDigit = true :=
    fun c => isDigit_of_mem_twoDigits
  obtain ⟨front, back⟩ := takeWhile_digits (c := 'Z') [] digits rfl
  have below : year < 100 := small year List.mem_cons_self
  have century : (((if 50 ≤ year then 1900 else 2000) + year : Nat) : Int) =
      if 50 ≤ year then 1900 + (year : Int) else 2000 + year := by
    split <;> rfl
  simp only [ofUtcText, String.toList_ofList, front, back, pairs_twoDigits small, length_twoDigits small,
    List.length_cons, List.length_nil, if_true, century]
  refine instant_isOk_iff ?_ ?_ <;> simp only <;> split <;> omega

/-- A text of a year of four digits, five pairs of digits and a fraction is read exactly if it shows a date and time of
day of the calendar, and milliseconds without zeros at their end. -/
theorem ofGeneralizedText_isOk_iff {year month day hour minute second : Nat} {digits : List Char} (early : year < 10000)
    (small : ∀ n ∈ [month, day, hour, minute, second], n < 100) (all : ∀ c ∈ digits, c.isDigit = true) :
    (∃ i, ofGeneralizedText (String.ofList (Digits.ofNat 4 year ++ twoDigits [month, day, hour, minute, second] ++
        pointed digits ++ ['Z'])) = .ok i) ↔
      DateTime.Valid ⟨year, month, day, hour, minute, second, 0⟩ ∧ digits.length ≤ 3 ∧
        digits.getLast? ≠ some '0' := by
  have pairwise : ∀ n ∈ [year / 100, year % 100, month, day, hour, minute, second], n < 100 := by
    intro n member
    rcases List.mem_cons.mp member with rfl | member
    · omega
    · rcases List.mem_cons.mp member with rfl | later
      · omega
      · exact small n later
  have text : Digits.ofNat 4 year ++ twoDigits [month, day, hour, minute, second] ++ pointed digits ++ ['Z'] =
      twoDigits [year / 100, year % 100, month, day, hour, minute, second] ++ (pointed digits ++ ['Z']) := by
    rw [ofNat_four, twoDigits_cons (year / 100), twoDigits_cons (year % 100)]
    simp only [List.append_assoc]
  have leading : ∀ c ∈ twoDigits [year / 100, year % 100, month, day, hour, minute, second], c.isDigit = true :=
    fun c => isDigit_of_mem_twoDigits
  have ending := strictEnd?_eq_some.mpr ⟨all, rfl⟩
  obtain ⟨mark, rest, shape, notDigit⟩ := pointed_end digits
  obtain ⟨front, back⟩ := takeWhile_digits rest leading notDigit
  have whole : year / 100 * 100 + year % 100 = year := by omega
  rw [shape] at ending
  unfold ofGeneralizedText
  simp only [text, String.toList_ofList, shape, front, back, ending, pairs_twoDigits pairwise,
    length_twoDigits pairwise, List.length_cons, List.length_nil, whole, ne_eq, not_true_eq_false, if_false]
  by_cases zero : digits.getLast? = some '0'
  · rw [if_pos zero]
    exact iff_of_false nofun fun parts => parts.2.2 zero
  rw [if_neg zero]
  by_cases fine : 3 < digits.length
  · rw [if_pos fine]
    exact iff_of_false nofun fun parts => absurd parts.2.1 (Nat.not_le.mpr fine)
  rw [if_neg fine]
  have thousand : Digits.toNat (digits ++ List.replicate (3 - digits.length) '0') < 1000 := by
    obtain ⟨padded, three⟩ := digits_filled all (Nat.not_lt.mp fine)
    have bound := Digits.toNat_lt padded
    rw [three] at bound
    exact bound
  rw [instant_isOk_iff (by simp only; omega) (by simp only; omega)]
  simp only [DateTime.Valid, zero, not_false_eq_true, and_true]
  omega

end Content.Time

namespace Primitive

open Content

/-- A type of times holds the instants that have a text in a format, and these are the instants of a set. The document
of an instant is the element of its text, and it is read as the instant. No other content is read at all. -/
structure HoldsTimes (p : Primitive) (format : Option Instant → Except Fault String) (held : Instant → Prop) : Prop where
  build : ∀ t, (∃ document, Document.build (.tagged p.codec) (.time (some t)) = .ok document) ↔ held t
  parse_build : ∀ t document, Document.build (.tagged p.codec) (.time (some t)) = .ok document →
    ∀ maxDepth, Document.parse (.tagged p.codec) maxDepth document = .ok (.time (some t))
  parse : ∀ content document, Element.build p.codec.tag content = .ok document → ∀ maxDepth v,
    Document.parse (.tagged p.codec) maxDepth document = .ok v ↔
      ∃ t text, held t ∧ format (some t) = .ok text ∧ content = Text.encodeUtf8 text ∧ v = .time (some t)
  read : ∀ (window : Slice) content, window.octets = .ok content → ∀ v, p.rule.read window = .ok v ↔
    ∃ t text, held t ∧ format (some t) = .ok text ∧ content = Text.encodeUtf8 text ∧ v = .time (some t)

section

variable {p : Primitive} {name : String} {format : Option Instant → Except Fault String}
  {parse : String → Except Fault Instant} {held : Instant → Prop} (rule : p.rule = .time name format parse)
  (inverse : Time.Inverse format parse)

include rule inverse

/-- Content is read as an instant exactly if it is the text of the instant. -/
theorem read_time {window : Slice} {content : Octets} (shows : window.octets = .ok content) {v : Value} :
    p.rule.read window = .ok v ↔
      ∃ t text, format (some t) = .ok text ∧ content = Text.encodeUtf8 text ∧ v = .time (some t) := by
  have reads : p.rule.read window = (do return .time (some (← parse (← Text.decodeAscii content)))) := by
    rw [rule]
    simp only [ContentRule.time, ContentRule.ofOctets, shows]
    rfl
  rw [reads]
  constructor
  · intro done
    obtain ⟨text, ascii, done⟩ := Except.bind_eq_ok.mp done
    obtain ⟨t, parsed, same⟩ := Except.bind_eq_ok.mp done
    cases same
    exact ⟨t, text, inverse.format_parse parsed, (Text.ascii_of_decodeAscii ascii).2.1.symm, rfl⟩
  · rintro ⟨t, text, written, rfl, rfl⟩
    obtain ⟨i, same, parsed⟩ := inverse.parse_format written
    cases same
    have ascii := (inverse.ascii written).decodeAscii_encodeUtf8
    rw [String.ofList_toList] at ascii
    exact Except.bind_eq_ok.mpr ⟨text, ascii, Except.bind_eq_ok.mpr ⟨t, parsed, rfl⟩⟩

/-- An instant yields content exactly if it has a text, and the content is the text. -/
theorem yields_time {t : Instant} {content : Octets} :
    Encoding.Yields (p.codec.contentLength (.time (some t))) (p.codec.writeContent (.time (some t))) content ↔
      ∃ text, format (some t) = .ok text ∧ content = Text.encodeUtf8 text := by
  constructor
  · intro yields
    have emits : Encoding.Emits False (p.rule.write (.time (some t))) content.length content (.ok ()) := yields.emits
    rw [rule] at emits
    have whole : (do return Text.encodeUtf8 (← format (some t)) : Except Fault Octets) = .ok content :=
      @ContentRule.octets_of_emits (fun v => do return Text.encodeUtf8 (← format (← ContentRule.asTime name v)))
        (.time (some t)) _ _ emits
    obtain ⟨text, written, same⟩ := Except.bind_eq_ok.mp whole
    cases same
    exact ⟨text, written, rfl⟩
  · rintro ⟨text, written, rfl⟩
    have shows := Slice.octets_ofOctets (Text.encodeUtf8 text)
    have read := (read_time rule inverse shows).mpr ⟨t, text, written, rfl, rfl⟩
    obtain ⟨_, measured, emits⟩ := p.rule_lawful.canonical shows read
    exact ⟨measured, emits⟩

theorem build_time {t : Instant} {document : Octets} :
    Document.build (.tagged p.codec) (.time (some t)) = .ok document ↔
      ∃ text, format (some t) = .ok text ∧ Element.build p.codec.tag (Text.encodeUtf8 text) = .ok document := by
  rw [p.measures.build_eq_ok]
  constructor
  · rintro ⟨header, content, written, rfl, yields⟩
    obtain ⟨text, formatted, rfl⟩ := (yields_time rule inverse).mp yields
    exact ⟨text, formatted, Element.build_eq_ok.mpr ⟨header, written, rfl⟩⟩
  · rintro ⟨text, formatted, element⟩
    obtain ⟨header, written, rfl⟩ := Element.build_eq_ok.mp element
    exact ⟨header, _, written, rfl, (yields_time rule inverse).mpr ⟨text, formatted, rfl⟩⟩

theorem parse_time {content document : Octets} (element : Element.build p.codec.tag content = .ok document)
    {maxDepth : Number} {v : Value} :
    Document.parse (.tagged p.codec) maxDepth document = .ok v ↔
      ∃ t text, format (some t) = .ok text ∧ content = Text.encodeUtf8 text ∧ v = .time (some t) := by
  obtain ⟨header, written, rfl⟩ := Element.build_eq_ok.mp element
  rw [parse_append_iff written, read_time rule inverse (Slice.octets_behind header content)]

/-- A text is accepted as content exactly if it is read as an instant. -/
theorem parse_time_isOk {text : String} {document : Octets}
    (element : Element.build p.codec.tag (Text.encodeUtf8 text) = .ok document) {maxDepth : Number} :
    (∃ v, Document.parse (.tagged p.codec) maxDepth document = .ok v) ↔ ∃ i, parse text = .ok i := by
  simp only [parse_time rule inverse element]
  constructor
  · rintro ⟨v, t, text', written, same, -⟩
    have back := Text.decodeUtf8_encodeUtf8 text
    rw [same, Text.decodeUtf8_encodeUtf8] at back
    cases back
    obtain ⟨i, _, parsed⟩ := inverse.parse_format written
    exact ⟨i, parsed⟩
  · rintro ⟨i, parsed⟩
    exact ⟨_, i, text, inverse.format_parse parsed, rfl, rfl⟩

theorem holdsTimes (short : ∀ {t text}, format t = .ok text → text.toList.length ≤ 19)
    (formats : ∀ t, (∃ text, format (some t) = .ok text) ↔ held t) : p.HoldsTimes format held := by
  have texts : ∀ {content v}, (∃ t text, format (some t) = .ok text ∧ content = Text.encodeUtf8 text ∧
      v = Value.time (some t)) ↔ ∃ t text, held t ∧ format (some t) = .ok text ∧ content = Text.encodeUtf8 text ∧
      v = .time (some t) := by
    intro content v
    constructor
    · rintro ⟨t, text, written, parts⟩
      exact ⟨t, text, (formats t).mp ⟨text, written⟩, written, parts⟩
    · rintro ⟨t, text, _, parts⟩
      exact ⟨t, text, parts⟩
  refine ⟨?_, ?_, ?_, ?_⟩
  · intro t
    rw [← formats]
    constructor
    · rintro ⟨document, built⟩
      obtain ⟨text, written, _⟩ := (build_time rule inverse).mp built
      exact ⟨text, written⟩
    · rintro ⟨text, written⟩
      have length := (inverse.ascii written).length_encodeUtf8
      rw [String.ofList_toList] at length
      have bound : (Text.encodeUtf8 text).length ≤ Length.max := by
        rw [length]
        exact (short written).trans (by decide)
      obtain ⟨header, element⟩ := p.wellFormed.exists_header bound
      exact ⟨_, (build_time rule inverse).mpr ⟨text, written, Element.build_eq_ok.mpr ⟨header, element, rfl⟩⟩⟩
  · intro t document built maxDepth
    obtain ⟨text, written, element⟩ := (build_time rule inverse).mp built
    exact (parse_time rule inverse element).mpr ⟨t, text, written, rfl, rfl⟩
  · intro content document element maxDepth v
    rw [parse_time rule inverse element, texts]
  · intro window content shows v
    rw [read_time rule inverse shows, texts]

end

/-- UTCTime holds the whole seconds of the years from 1950 to 2049, and GeneralizedTime the instants of the years of four
digits: each is built as the element of its text and read from it, and nothing else is read. In particular a text of
pairs of digits is refused if there is no such date or time of day, or if its fraction ends in a zero or has more than
three digits. That there is such a date and time of day is seen by reading it back from the instant that it rolls over
to. -/
theorem times_read_formatted :
    HoldsTimes utcTime Time.utcText
      (fun t => 1950 ≤ t.dateTime.year ∧ t.dateTime.year ≤ 2049 ∧ t.millis % 1000 = 0) ∧
    HoldsTimes generalizedTime Time.generalizedText (fun t => 0 ≤ t.dateTime.year ∧ t.dateTime.year ≤ 9999) ∧
    (∀ year month day hour minute second, (∀ n ∈ [year, month, day, hour, minute, second], n < 100) →
      ∀ document, Element.build utcTime.codec.tag
        (Text.encodeUtf8 (String.ofList (Time.twoDigits [year, month, day, hour, minute, second] ++ ['Z']))) =
          .ok document →
      ∀ maxDepth, (∃ v, Document.parse (.tagged utcTime.codec) maxDepth document = .ok v) ↔
        DateTime.Valid ⟨if 50 ≤ year then 1900 + year else 2000 + year, month, day, hour, minute, second, 0⟩) ∧
    (∀ (year month day hour minute second : Nat) (digits : List Char), year < 10000 →
      (∀ n ∈ [month, day, hour, minute, second], n < 100) → (∀ c ∈ digits, c.isDigit = true) →
      ∀ document, Element.build generalizedTime.codec.tag
        (Text.encodeUtf8 (String.ofList (Digits.ofNat 4 year ++ Time.twoDigits [month, day, hour, minute, second] ++
          Time.pointed digits ++ ['Z']))) = .ok document →
      ∀ maxDepth, (∃ v, Document.parse (.tagged generalizedTime.codec) maxDepth document = .ok v) ↔
        DateTime.Valid ⟨year, month, day, hour, minute, second, 0⟩ ∧ digits.length ≤ 3 ∧
          digits.getLast? ≠ some '0') ∧
    ∀ (t : DateTime) (i : Instant), t.milli < 1000 →
      (Time.instant t = .ok i ↔ i.millis = t.rolledOver ∧ { i.dateTime with milli := t.milli } = t) := by
  refine ⟨?_, ?_, ?_, ?_, fun t i small => Time.instant_eq_ok_iff small⟩
  · refine holdsTimes rfl Time.utcTime_inverse ?_ Time.utcText_isOk_iff
    intro _ _ written
    rw [Time.length_utcText written]
    decide
  · exact holdsTimes rfl Time.generalizedTime_inverse Time.length_generalizedText Time.generalizedText_isOk_iff
  · intro year month day hour minute second small document element maxDepth
    rw [parse_time_isOk rfl Time.utcTime_inverse element, Time.ofUtcText_isOk_iff small]
  · intro year month day hour minute second digits early small all document element maxDepth
    rw [parse_time_isOk rfl Time.generalizedTime_inverse element, Time.ofGeneralizedText_isOk_iff early small all]

/-- The last millisecond of February 2000 is on its 29th day, which February 1900 did not have. -/
theorem times_read_leap_day :
    Document.parse (.tagged generalizedTime.codec) 100 (0x18 :: 0x13 :: Text.encodeUtf8 "20000229235959.999Z") =
      .ok (.time (some ⟨951868799999, by decide⟩)) ∧
    ¬∃ v, Document.parse (.tagged generalizedTime.codec) 100 (0x18 :: 0x0f :: Text.encodeUtf8 "19000229000000Z") =
      .ok v := by
  refine ⟨?_, ?_⟩
  · have built : Document.build (.tagged generalizedTime.codec) (.time (some ⟨951868799999, by decide⟩)) =
        .ok (0x18 :: 0x13 :: Text.encodeUtf8 "20000229235959.999Z") := by decide +kernel
    exact times_read_formatted.2.1.parse_build _ _ built 100
  · have element : Element.build generalizedTime.codec.tag (Text.encodeUtf8 (String.ofList (Digits.ofNat 4 1900 ++
        Time.twoDigits [2, 29, 0, 0, 0] ++ Time.pointed [] ++ ['Z']))) =
        .ok (0x18 :: 0x0f :: Text.encodeUtf8 "19000229000000Z") := by decide +kernel
    rw [times_read_formatted.2.2.2.1 1900 2 29 0 0 0 [] (by decide) (by decide) nofun _ element 100]
    decide

end Primitive

end Der
