import Der.Codec.Primitive
import Der.Proofs.Content.Integer
import Der.Proofs.Content.ObjectIdentifier
import Der.Proofs.Content.Text
import Der.Proofs.Content.Time
import Der.Proofs.Values
import Der.Proofs.Writing

namespace Der

/-- Two readings have the same outcome: values that show the same octets, or one fault without a place. -/
inductive Alike : Except Fault Value → Except Fault Value → Prop
  | ok {v w : Value} (same : v.shown = w.shown) : Alike (.ok v) (.ok w)
  | error (cause : Fault.Cause) : Alike (.error (.ofCause cause)) (.error (.ofCause cause))

theorem Alike.of_unplaced {x : Except Fault Value} (unplaced : Fault.Unplaced x) : Alike x x := by
  cases x with
  | ok v => exact .ok rfl
  | error fault =>
    obtain ⟨cause, rfl⟩ := unplaced fault rfl
    exact .error cause

namespace ContentRule

open Encoding

/-- What a content rule promises about the values that it writes, up to their normal form, and about the
windows that it reads. -/
structure Lawful (rule : ContentRule) (normal : Value → Value) (sure : Value → Prop) : Prop where
  unplaced : ∀ v, Fault.Unplaced (rule.length v)
  fills : ∀ {v n}, rule.length v = .ok n → Fills (rule.write v) n v.Regular (sure v)
  canonical : ∀ {window : Slice} {octets v}, window.octets = .ok octets → rule.read window = .ok v →
    v.Plain ∧ Yields (rule.length v) (rule.write v) octets
  complete : ∀ {v room octets} {window : Slice}, Emits False (rule.write v) room octets (.ok ()) →
    window.octets = .ok octets → ∃ w, rule.read window = .ok w ∧ w.shown = (normal v).shown
  alike : ∀ {one other : Slice} {octets}, one.octets = .ok octets → other.octets = .ok octets →
    Alike (rule.read one) (rule.read other)

theorem Lawful.mono {rule : ContentRule} {normal : Value → Value} {sure sure' : Value → Prop}
    (lawful : rule.Lawful normal sure) (stronger : ∀ v, sure' v → sure v) : rule.Lawful normal sure' where
  unplaced := lawful.unplaced
  fills measured := (lawful.fills measured).mono id fun _ => stronger _
  canonical := lawful.canonical
  complete := lawful.complete
  alike := lawful.alike

/-- Plain values and whole contents correspond one to one, up to normal forms. Of any other value, no more is
measured than is written. -/
structure Exact (length : Value → Except Fault Nat) (octets : Value → Except Fault Octets)
    (read : Octets → Except Fault Value) (normal : Value → Value) : Prop where
  measured : ∀ v, v.Plain → length v = (octets v).map List.length
  least : ∀ {v n content}, ¬ v.Plain → length v = .ok n → octets v = .ok content → n ≤ content.length
  canonical : ∀ {content v}, read content = .ok v → v.Plain ∧ octets v = .ok content
  complete : ∀ {content v}, octets v = .ok content → read content = .ok (normal v)
  refused : ∀ v, Fault.Unplaced (octets v)
  unmeasured : ∀ v, Fault.Unplaced (length v)
  unread : ∀ content, Fault.Unplaced (read content)

theorem emits_of_octets {octets : Value → Except Fault Octets} {v : Value} {content : Octets}
    (written : octets v = .ok content) :
    Emits False (do Encoding.octets (← octets v)) content.length content (.ok ()) :=
  (emits_octets content).after written

theorem octets_of_emits {octets : Value → Except Fault Octets} {v : Value} {room : Nat} {content : Octets}
    (emits : Emits False (do Encoding.octets (← octets v)) room content (.ok ())) : octets v = .ok content := by
  obtain ⟨content', written, ends⟩ := emits.of_after
  rw [(ends.unique (emits_octets content')).1]
  exact written

theorem Exact.lawful {length : Value → Except Fault Nat} {octets : Value → Except Fault Octets}
    {read : Octets → Except Fault Value} {normal : Value → Value} (exact : Exact length octets read normal) :
    (ofOctets length octets read).Lawful normal fun _ => True where
  unplaced := exact.unmeasured
  fills := by
    intro v n measured
    apply fills_bind (exact.refused v).blameless
    · intro regular _
      rw [show (ofOctets length octets read).length = length from rfl, exact.measured v regular.plain] at measured
      obtain ⟨content, written, _⟩ := Except.map_eq_ok.mp measured
      exact ⟨content, written⟩
    · intro content written
      by_cases plain : v.Plain
      · rw [show (ofOctets length octets read).length = length from rfl, exact.measured v plain, written] at measured
        cases measured
        exact fills_octets content
      · exact (fills_octets content).beyond (exact.least plain measured written)
          fun regular => plain regular.plain
  canonical := by
    intro window content v shows done
    obtain ⟨_, same, done⟩ := Except.bind_eq_ok.mp done
    cases shows.symm.trans same
    obtain ⟨plain, written⟩ := exact.canonical done
    exact ⟨plain, (exact.measured v plain).trans (by rw [written]; rfl), emits_of_octets written⟩
  complete := by
    intro v room content window emits shows
    have done := exact.complete (octets_of_emits emits)
    exact ⟨normal v, Except.bind_eq_ok.mpr ⟨content, shows, done⟩, rfl⟩
  alike := by
    intro one other content first second
    have left : (ofOctets length octets read).read one = read content := by
      simp only [ofOctets, first]
      rfl
    have right : (ofOctets length octets read).read other = read content := by
      simp only [ofOctets, second]
      rfl
    rw [left, right]
    exact Alike.of_unplaced (exact.unread content)

theorem boolean_lawful : boolean.Lawful (fun v => .boolean v.truth) fun _ => True := by
  refine Exact.lawful ⟨fun v _ => rfl, ?_, ?_, ?_, fun v => Fault.only_ok _, fun v => Fault.only_ok _, ?_⟩
  · intro v n content _ measured written
    cases measured
    cases written
    exact Nat.le_refl 1
  · intro content v done
    split at done
    · next octet =>
      by_cases zero : octet = 0
      · rw [if_pos zero] at done
        cases done
        rw [zero]
        exact ⟨trivial, rfl⟩
      · rw [if_neg zero] at done
        by_cases ones : octet = 255
        · rw [if_pos ones] at done
          cases done
          rw [ones]
          exact ⟨trivial, rfl⟩
        · rw [if_neg ones] at done
          cases done
    · cases done
  · intro content v done
    cases done
    cases v.truth <;> rfl
  · intro content
    split
    · exact (Fault.only_ok _).ite ((Fault.only_ok _).ite (Fault.unplaced_error _))
    · exact Fault.unplaced_error _

theorem unplaced_asInteger (v : Value) : Fault.Unplaced (asInteger v) := by
  cases v with
  | integer n => exact Fault.only_ok n
  | _ => exact Fault.unplaced_error _

theorem unplaced_asSafeInteger (v : Value) : Fault.Unplaced (asSafeInteger v) := by
  cases v with
  | number x =>
    simp only [asSafeInteger]
    split
    · exact Fault.only_ok _
    · exact Fault.unplaced_error _
  | _ => exact Fault.unplaced_error _

theorem unplaced_asSlice (name : String) (v : Value) : Fault.Unplaced (asSlice name v) := by
  cases v with
  | octets s => exact Fault.only_ok s
  | _ => exact Fault.unplaced_error _

theorem unplaced_asBits (v : Value) : Fault.Unplaced (asBits v) := by
  cases v with
  | bits b => exact Fault.only_ok b
  | _ => exact Fault.unplaced_error _

theorem unplaced_asText (name : String) (v : Value) : Fault.Unplaced (asText name v) := by
  cases v with
  | text s => exact Fault.only_ok s
  | utf16 units => exact Fault.only_ok _
  | _ => exact Fault.unplaced_error _

theorem unplaced_toText (name : String) (v : Value) : Fault.Unplaced (toText name v) := by
  unfold toText
  split
  · exact Fault.only_ok _
  · exact Fault.only_ok _
  · exact unplaced_asText name v

theorem unplaced_checkText (name : String) (alphabet : Char → Bool) (text : String) :
    Fault.Unplaced (Content.Text.check name alphabet text) :=
  (Fault.only_ok _).ite (Fault.unplaced_error _)

theorem unplaced_checkedText (name : String) (alphabet : Char → Bool) (v : Value) :
    Fault.Unplaced (checkedText name alphabet v) := by
  unfold checkedText
  split
  · exact unplaced_checkText name alphabet _
  · exact (unplaced_asText name v).bind fun text => unplaced_checkText name alphabet text

theorem unplaced_asTime (name : String) (v : Value) : Fault.Unplaced (asTime name v) := by
  cases v with
  | time t => exact Fault.only_ok t
  | _ => exact Fault.unplaced_error _

theorem asInteger_eq_ok {v : Value} {n : Int} (is : asInteger v = .ok n) : v = .integer n := by
  cases v <;> cases is
  rfl

theorem asSafeInteger_eq_ok {v : Value} {n : Int} :
    asSafeInteger v = .ok n ↔ v = .number (.integer n) ∧ n.natAbs ≤ Number.maxSafe := by
  constructor
  · intro is
    cases v with
    | number x =>
      cases x with
      | integer k =>
        simp only [asSafeInteger, Number.toSafe?] at is
        by_cases safe : k.natAbs ≤ Number.maxSafe
        · rw [if_pos safe] at is
          cases is
          exact ⟨rfl, safe⟩
        · rw [if_neg safe] at is
          cases is
      | _ => cases is
    | _ => cases is
  · intro parts
    obtain ⟨rfl, safe⟩ := parts
    simp only [asSafeInteger, Number.toSafe?, if_pos safe]

theorem asSlice_eq_ok {name : String} {v : Value} {s : Slice} (is : asSlice name v = .ok s) : v = .octets s := by
  cases v <;> cases is
  rfl

theorem asBits_eq_ok {v : Value} {b : BitString} (is : asBits v = .ok b) : v = .bits b := by
  cases v <;> cases is
  rfl

/-- A value where a text is wanted, as the text that is written for it, and any other value as it is. -/
def normalText : Value → Value
  | .undefined => .text ""
  | .utf16 units => .text (Content.Text.ofUtf16 units)
  | .inherited x => .text x.text
  | v => v

theorem toText_eq_ok {name : String} {v : Value} {text : String} (is : toText name v = .ok text) :
    normalText v = .text text := by
  cases v <;> cases is <;> rfl

theorem asText_eq_ok {name : String} {v : Value} {text : String} (is : asText name v = .ok text) :
    v.Plain ∧ normalText v = .text text := by
  cases v <;> cases is <;> exact ⟨trivial, rfl⟩

theorem checkedText_eq_ok {name text : String} {alphabet : Char → Bool} {v : Value}
    (is : checkedText name alphabet v = .ok text) :
    normalText v = .text text ∧ text.toList.all alphabet = true := by
  cases v with
  | inherited x =>
    obtain ⟨rfl, all⟩ := Content.Text.check_eq_ok is
    exact ⟨rfl, all⟩
  | _ =>
    obtain ⟨text', found, checked⟩ := Except.bind_eq_ok.mp is
    obtain ⟨rfl, all⟩ := Content.Text.check_eq_ok checked
    exact ⟨(asText_eq_ok found).2, all⟩

theorem asTime_eq_ok {name : String} {v : Value} {t : Option Instant} (is : asTime name v = .ok t) :
    v = .time t := by
  cases v <;> cases is
  rfl

theorem unplaced_checkInteger (content : Octets) : Fault.Unplaced (Content.Integer.check content) := by
  unfold Content.Integer.check
  split
  · exact Fault.unplaced_error _
  · exact Fault.only_ok _
  · exact (Fault.unplaced_error _).ite (Fault.only_ok _)

theorem unplaced_decodeInteger (content : Octets) : Fault.Unplaced (Content.Integer.decode content) :=
  (unplaced_checkInteger content).bind fun _ => Fault.only_ok _

theorem integer_lawful : integer.Lawful id fun _ => True := by
  refine Exact.lawful ⟨?_, ?_, ?_, ?_, fun v => (unplaced_asInteger v).bind fun n => Fault.only_ok _, ?_, ?_⟩
  · intro v plain
    cases v with
    | undefined => cases plain
    | inherited x => cases plain
    | integer n => exact congrArg Except.ok (Content.Integer.length_encode n).symm
    | _ => rfl
  · intro v n content exotic _ written
    cases v <;> first | exact absurd trivial exotic | cases written
  · intro content v done
    obtain ⟨n, value, same⟩ := Except.bind_eq_ok.mp done
    cases same
    exact ⟨trivial, congrArg Except.ok (Content.Integer.encode_of_decode value)⟩
  · intro content v done
    obtain ⟨n, is, same⟩ := Except.bind_eq_ok.mp done
    cases same
    rw [asInteger_eq_ok is, Content.Integer.decode_encode]
    rfl
  · intro v
    cases v with
    | undefined => exact Fault.only_ok 1
    | inherited x => exact Fault.only_ok 1
    | _ => exact (unplaced_asInteger _).bind fun n => Fault.only_ok _
  · intro content
    exact (unplaced_decodeInteger content).bind fun n => Fault.only_ok _

theorem safeInteger_lawful : safeInteger.Lawful id fun _ => True := by
  refine Exact.lawful ⟨?_, ?_, ?_, ?_, fun v => (unplaced_asSafeInteger v).bind fun n => Fault.only_ok _,
    fun v => (unplaced_asSafeInteger v).bind fun n => Fault.only_ok _, ?_⟩
  · intro v _
    cases asSafeInteger v with
    | error fault => rfl
    | ok n => exact congrArg Except.ok (Content.Integer.length_encode n).symm
  · intro v n content exotic _ written
    cases v <;> first | exact absurd trivial exotic | cases written
  · intro content v done
    obtain ⟨n, value, done⟩ := Except.bind_eq_ok.mp done
    by_cases large : Number.maxSafe < n.natAbs
    · simp only [if_pos large] at done
      cases done
    · simp only [if_neg large] at done
      cases done
      refine ⟨trivial, Except.bind_eq_ok.mpr ⟨n, asSafeInteger_eq_ok.mpr ⟨rfl, Nat.not_lt.mp large⟩, ?_⟩⟩
      exact congrArg Except.ok (Content.Integer.encode_of_decode value)
  · intro content v done
    obtain ⟨n, is, same⟩ := Except.bind_eq_ok.mp done
    cases same
    obtain ⟨rfl, safe⟩ := asSafeInteger_eq_ok.mp is
    refine Except.bind_eq_ok.mpr ⟨n, Content.Integer.decode_encode n, ?_⟩
    simp only [if_neg (Nat.not_lt.mpr safe)]
    rfl
  · intro content
    refine (unplaced_decodeInteger content).bind ?_
    intro n
    exact Fault.Only.ite (Fault.unplaced_error _) (Fault.only_ok _)

theorem unplaced_readAll (size : Nat) (octets : Octets) :
    Fault.Unplaced (Content.ObjectIdentifier.readAll size octets) := by
  fun_induction Content.ObjectIdentifier.readAll size octets with
  | case1 octets none => exact Fault.only_ok _
  | case2 octets some flaw => exact Fault.unplaced_error _
  | case3 octets some flaw => exact Fault.unplaced_error _
  | case4 octets some flaw => exact Fault.unplaced_error _
  | case5 octets some n rest first _ ih =>
    intro fault failed
    cases others : Content.ObjectIdentifier.readAll size rest with
    | error fault' =>
      rw [others] at failed
      cases failed
      exact ih _ others
    | ok more =>
      rw [others] at failed
      cases failed

theorem unplaced_subidentifiers (text : String) :
    Fault.Unplaced (Content.ObjectIdentifier.subidentifiers text) := by
  unfold Content.ObjectIdentifier.subidentifiers
  simp only
  refine (Fault.unplaced_error _).ite ?_
  refine Fault.Only.bind (Fault.Only.mapM ?_) ?_
  · intro part _
    exact (Fault.unplaced_error _).ite ((Fault.unplaced_error _).ite (Fault.only_ok _))
  · intro arcs
    split
    · refine (Fault.unplaced_error _).ite ?_
      refine (Fault.unplaced_error _).ite ?_
      exact (Fault.unplaced_error _).ite (Fault.only_ok _)
    · exact Fault.unplaced_error _

theorem objectIdentifier_lawful : objectIdentifier.Lawful normalText fun _ => True := by
  refine Exact.lawful ⟨?_, ?_, ?_, ?_, fun v => (unplaced_asText _ v).bind fun text =>
    (unplaced_subidentifiers text).bind fun numbers => Fault.only_ok _, fun v => (unplaced_asText _ v).bind fun text =>
    (unplaced_subidentifiers text).bind fun numbers => Fault.only_ok _, ?_⟩
  · intro v _
    cases asText "OBJECT IDENTIFIER" v with
    | error fault => rfl
    | ok text => exact Content.ObjectIdentifier.width_eq text
  · intro v n content exotic _ written
    obtain ⟨text, is, _⟩ := Except.bind_eq_ok.mp written
    exact absurd (asText_eq_ok is).1 exotic
  · intro content v done
    obtain ⟨text, value, same⟩ := Except.bind_eq_ok.mp done
    cases same
    exact ⟨trivial, Content.ObjectIdentifier.encode_of_decode value⟩
  · intro content v done
    obtain ⟨text, is, written⟩ := Except.bind_eq_ok.mp done
    rw [(asText_eq_ok is).2]
    exact Except.bind_eq_ok.mpr ⟨text, Content.ObjectIdentifier.decode_encode written, rfl⟩
  · intro content
    refine Fault.Only.bind ?_ fun text => Fault.only_ok _
    refine (unplaced_readAll content.length content).bind ?_
    intro numbers
    cases numbers with
    | nil => exact Fault.unplaced_error _
    | cons head more => exact Fault.only_ok _

theorem utf8_lawful : utf8.Lawful normalText fun _ => True := by
  refine Exact.lawful ⟨?_, ?_, ?_, ?_, fun v => (unplaced_toText _ v).bind fun text => Fault.only_ok _,
    fun v => (unplaced_toText _ v).bind fun text => Fault.only_ok _, ?_⟩
  · intro v _
    cases toText "UTF8String" v <;> rfl
  · intro v n content _ measured written
    obtain ⟨text, is, same⟩ := Except.bind_eq_ok.mp measured
    cases same
    obtain ⟨text', is', same⟩ := Except.bind_eq_ok.mp written
    cases same
    cases is.symm.trans is'
    exact Nat.le_refl _
  · intro content v done
    obtain ⟨text, value, same⟩ := Except.bind_eq_ok.mp done
    cases same
    exact ⟨trivial, congrArg Except.ok (Content.Text.encodeUtf8_of_decodeUtf8 value)⟩
  · intro content v done
    obtain ⟨text, is, same⟩ := Except.bind_eq_ok.mp done
    cases same
    rw [toText_eq_ok is]
    exact Except.bind_eq_ok.mpr ⟨text, Content.Text.decodeUtf8_encodeUtf8 text, rfl⟩
  · intro content
    refine Fault.Only.bind ?_ fun text => Fault.only_ok _
    unfold Content.Text.decodeUtf8
    split
    · exact Fault.only_ok _
    · exact Fault.unplaced_error _

theorem unplaced_decodeAscii (content : Octets) : Fault.Unplaced (Content.Text.decodeAscii content) := by
  unfold Content.Text.decodeAscii
  split
  · exact Fault.unplaced_error _
  · exact Fault.only_ok _

/-- The text of an inherited member is longer than the number of its parameters. -/
theorem parameters_le_length (name : String) (parameters : Fin 3) :
    (parameters : Nat) ≤ (Inherited.function name parameters).text.length := by
  have long : 9 ≤ (Inherited.function name parameters).text.length := by
    rw [Inherited.text, String.length_append, String.length_append, Nat.add_assoc]
    exact Nat.le_add_right 9 _
  omega

/-- Where no text was given, no more is measured than the text has characters. -/
theorem length_le_of_restricted {name : String} {alphabet : Char → Bool} {v : Value} {text : String} {n : Nat}
    (exotic : ¬ v.Plain) (is : normalText v = .text text) (measured : (restricted name alphabet).length v = .ok n) :
    n ≤ text.length := by
  obtain ⟨_, checked, measured⟩ := Except.bind_eq_ok.mp measured
  cases v with
  | inherited x =>
    cases is
    cases x with
    | function own parameters =>
      cases measured
      exact parameters_le_length own parameters
    | prototype => cases measured
  | undefined => cases checked
  | sparse before after => cases checked
  | _ => exact absurd trivial exotic

theorem restricted_lawful (name : String) {alphabet : Char → Bool}
    (ascii : ∀ {chars : List Char}, chars.all alphabet = true → Content.Text.Ascii chars) :
    (restricted name alphabet).Lawful normalText fun _ => True := by
  have octets : ∀ {text : String}, text.toList.all alphabet = true →
      (Content.Text.encodeUtf8 text).length = text.length ∧
        Content.Text.decodeAscii (Content.Text.encodeUtf8 text) = .ok text := by
    intro text all
    have length := (ascii all).length_encodeUtf8
    have back := (ascii all).decodeAscii_encodeUtf8
    rw [String.ofList_toList] at length back
    exact ⟨length, back⟩
  refine Exact.lawful ⟨?_, ?_, ?_, ?_, fun v => (unplaced_checkedText name alphabet v).bind fun text =>
    Fault.only_ok _, ?_, ?_⟩
  · intro v plain
    have measure : ∀ text, checkedText name alphabet v = .ok text →
        text.length = (Content.Text.encodeUtf8 text).length :=
      fun text checked => (octets (checkedText_eq_ok checked).2).1.symm
    cases checked : checkedText name alphabet v with
    | error fault => rfl
    | ok text =>
      cases v with
      | inherited x => cases plain
      | _ => exact congrArg Except.ok (measure text checked)
  · intro v n content exotic measured written
    obtain ⟨text, checked, same⟩ := Except.bind_eq_ok.mp written
    cases same
    obtain ⟨is, all⟩ := checkedText_eq_ok checked
    rw [(octets all).1]
    exact length_le_of_restricted exotic is measured
  · intro content v done
    obtain ⟨text, value, done⟩ := Except.bind_eq_ok.mp done
    obtain ⟨text', checked, same⟩ := Except.bind_eq_ok.mp done
    cases same
    obtain ⟨rfl, _⟩ := Content.Text.check_eq_ok checked
    refine ⟨trivial, Except.bind_eq_ok.mpr ⟨text', Except.bind_eq_ok.mpr ⟨text', rfl, checked⟩, ?_⟩⟩
    exact congrArg Except.ok (Content.Text.ascii_of_decodeAscii value).2.1
  · intro content v done
    obtain ⟨text, checked, same⟩ := Except.bind_eq_ok.mp done
    cases same
    obtain ⟨normal, all⟩ := checkedText_eq_ok checked
    rw [normal]
    exact Except.bind_eq_ok.mpr ⟨text, (octets all).2, Except.bind_eq_ok.mpr ⟨text, if_pos all, rfl⟩⟩
  · intro v
    refine (unplaced_checkedText name alphabet v).bind fun text => ?_
    cases v with
    | inherited x =>
      cases x with
      | function own parameters => exact Fault.only_ok _
      | prototype => exact Fault.unplaced_error _
    | _ => exact Fault.only_ok _
  · intro content
    refine (unplaced_decodeAscii content).bind ?_
    intro text
    exact (unplaced_checkText name alphabet text).bind fun text => Fault.only_ok _

theorem unplaced_instant (t : DateTime) : Fault.Unplaced (Content.Time.instant t) := by
  unfold Content.Time.instant
  refine Fault.Only.ite ?_ (Fault.unplaced_error _)
  split
  · exact Fault.only_ok _
  · exact Fault.unplaced_error _

theorem unplaced_ofUtcText (text : String) : Fault.Unplaced (Content.Time.ofUtcText text) := by
  unfold Content.Time.ofUtcText
  simp only
  split
  · exact (unplaced_instant _).ite (Fault.unplaced_error _)
  · exact Fault.unplaced_error _

theorem unplaced_ofGeneralizedText (text : String) : Fault.Unplaced (Content.Time.ofGeneralizedText text) := by
  unfold Content.Time.ofGeneralizedText
  simp only
  split
  · refine (Fault.unplaced_error _).ite ?_
    refine (Fault.unplaced_error _).ite ?_
    exact (Fault.unplaced_error _).ite (unplaced_instant _)
  · exact Fault.unplaced_error _

theorem unplaced_dateTime (t : Option Instant) : Fault.Unplaced (Content.Time.dateTime t) := by
  cases t with
  | none => exact Fault.unplaced_error _
  | some i => exact Fault.only_ok _

theorem unplaced_utcText (t : Option Instant) : Fault.Unplaced (Content.Time.utcText t) := by
  refine (unplaced_dateTime t).bind ?_
  intro parts
  refine (Fault.unplaced_error _).ite ?_
  exact (Fault.unplaced_error _).ite (Fault.only_ok _)

theorem unplaced_generalizedText (t : Option Instant) : Fault.Unplaced (Content.Time.generalizedText t) := by
  refine (unplaced_dateTime t).bind ?_
  intro parts
  exact (Fault.unplaced_error _).ite (Fault.only_ok _)

theorem time_lawful (name : String) {format : Option Instant → Except Fault String}
    {parse : String → Except Fault Instant} (inverse : Content.Time.Inverse format parse)
    (refused : ∀ t, Fault.Unplaced (format t)) (unread : ∀ text, Fault.Unplaced (parse text)) :
    (time name format parse).Lawful id fun _ => True := by
  refine Exact.lawful ⟨?_, ?_, ?_, ?_, fun v => (unplaced_asTime name v).bind fun t =>
    (refused t).bind fun text => Fault.only_ok _, fun v => (unplaced_asTime name v).bind fun t =>
    (refused t).bind fun text => Fault.only_ok _, ?_⟩
  · intro v _
    cases asTime name v with
    | error fault => rfl
    | ok t =>
      cases written : format t with
      | error fault =>
        simp only [bind, Except.bind, written]
        rfl
      | ok text =>
        have length := (inverse.ascii written).length_encodeUtf8
        rw [String.ofList_toList] at length
        simp only [bind, Except.bind, written]
        exact congrArg Except.ok length.symm
  · intro v n content exotic _ written
    cases v <;> first | exact absurd trivial exotic | cases written
  · intro content v done
    obtain ⟨text, value, done⟩ := Except.bind_eq_ok.mp done
    obtain ⟨i, parsed, same⟩ := Except.bind_eq_ok.mp done
    cases same
    refine ⟨trivial, Except.bind_eq_ok.mpr ⟨some i, rfl, Except.bind_eq_ok.mpr
      ⟨text, inverse.format_parse parsed, ?_⟩⟩⟩
    exact congrArg Except.ok (Content.Text.ascii_of_decodeAscii value).2.1
  · intro content v done
    obtain ⟨t, is, done⟩ := Except.bind_eq_ok.mp done
    obtain ⟨text, written, same⟩ := Except.bind_eq_ok.mp done
    cases same
    obtain ⟨i, rfl, parsed⟩ := inverse.parse_format written
    have back := (inverse.ascii written).decodeAscii_encodeUtf8
    rw [String.ofList_toList] at back
    rw [asTime_eq_ok is]
    exact Except.bind_eq_ok.mpr ⟨text, back, Except.bind_eq_ok.mpr ⟨i, parsed, rfl⟩⟩
  · intro content
    refine (unplaced_decodeAscii content).bind ?_
    intro text
    exact (unread text).bind fun i => Fault.only_ok _

theorem null_lawful : null.Lawful (fun _ => .null) fun _ => True where
  unplaced v := Fault.only_ok 0
  fills := by
    intro v n measured
    cases measured
    exact fills_pure
  canonical := by
    intro window octets v shows done
    have length := (Slice.length_of_octets shows).2
    by_cases none : window.length = 0
    · rw [none] at length
      cases (if_pos none).symm.trans done
      rw [List.eq_nil_of_length_eq_zero length]
      exact ⟨trivial, rfl, emits_pure ()⟩
    · simp only [null, if_neg none] at done
      cases done
  complete := by
    intro v room octets window emits shows
    have length := (Slice.length_of_octets shows).2
    rw [(emits.unique (emits_pure ())).1] at length
    exact ⟨.null, if_pos length.symm, rfl⟩
  alike := by
    intro one other octets first second
    have length := (Slice.length_of_octets first).2
    have length' := (Slice.length_of_octets second).2
    have same : null.read one = null.read other := by
      simp only [null, ← length, ← length']
    rw [same]
    refine Alike.of_unplaced ?_
    exact (Fault.only_ok _).ite (Fault.unplaced_error _)

theorem octetString_lawful : octetString.Lawful id Value.Backed where
  unplaced := by
    intro v
    cases v with
    | inherited x =>
      cases x with
      | function own parameters => exact Fault.only_ok _
      | prototype => exact Fault.unplaced_error _
    | _ => exact (unplaced_asSlice _ _).bind fun s => Fault.only_ok _
  fills := by
    intro v n measured
    cases v with
    | octets s =>
      cases measured
      exact Fills.after (a := s) rfl (fills_window (fun regular => regular.apart.octets rfl) fun _ backed => backed)
    | inherited x => exact fills_error fun regular => regular.plain.elim
    | _ => cases measured
  canonical := by
    intro window octets v shows done
    cases done
    refine ⟨trivial, ?_, Emits.after (a := window) rfl (emits_window shows False.elim)⟩
    rw [(Slice.length_of_octets shows).2]
    rfl
  complete := by
    intro v room octets window emits shows
    obtain ⟨s, is, ends⟩ := emits.of_after
    obtain ⟨octets', shows', same⟩ := octets_of_emits_window ends
    cases asSlice_eq_ok is
    subst same
    refine ⟨.octets window, rfl, ?_⟩
    rw [id, Value.shown_octets, Value.shown_octets, Slice.shown_eq shows, Slice.shown_eq shows']
  alike := by
    intro one other octets first second
    refine Alike.ok ?_
    rw [Value.shown_octets, Value.shown_octets, Slice.shown_eq first, Slice.shown_eq second]

theorem unplaced_check (unused : Number) (data : Octets) : Fault.Unplaced (BitString.check unused data) := by
  apply Fault.Only.bind
  · unfold BitString.unusedCount
    split
    · exact (Fault.only_ok _).ite (Fault.unplaced_error _)
    · exact Fault.unplaced_error _
  · intro count
    split
    · exact (Fault.only_ok _).ite (Fault.unplaced_error _)
    · exact (Fault.only_ok _).ite (Fault.unplaced_error _)

theorem check_eq_ok {unused : Number} {data : Octets} {count : Nat}
    (checked : BitString.check unused data = .ok count) : unused = count ∧ count ≤ 7 := by
  obtain ⟨n, counted, checked⟩ := Except.bind_eq_ok.mp checked
  have same : n = count := by
    split at checked
    · split at checked
      · cases checked
        rfl
      · cases checked
    · split at checked
      · cases checked
        rfl
      · cases checked
  subst same
  unfold BitString.unusedCount at counted
  cases isNat : unused.toNat? with
  | none => rw [isNat] at counted; cases counted
  | some k =>
    rw [isNat] at counted
    by_cases small : k ≤ 7
    · simp only [if_pos small] at counted
      cases counted
      exact ⟨Number.eq_natCast_of_toNat? isNat, small⟩
    · simp only [if_neg small] at counted
      cases counted

theorem emits_bits (unused : Nat) {s : Slice} {data : Octets} (shows : s.octets = .ok data) :
    Emits False (do Encoding.octet (UInt8.ofNat unused); Encoding.window s) (1 + data.length)
      (UInt8.ofNat unused :: data) (.ok ()) :=
  (emits_octets [UInt8.ofNat unused]).bind (emits_window shows False.elim)

theorem bitString_read {window : Slice} {first : UInt8} {data : Octets} (shows : window.octets = .ok (first :: data)) :
    bitString.read window =
      (BitString.check first.toNat data).map fun unused => .bits ⟨unused, window.dropFirst 1⟩ := by
  simp only [bitString, shows, bind, Except.bind]
  cases BitString.check first.toNat data with
  | error fault => rfl
  | ok unused => rfl

theorem octets_dropFirst_one {window : Slice} {first : UInt8} {data : Octets} (shows : window.octets = .ok (first :: data)) :
    (window.dropFirst 1).octets = .ok data :=
  Slice.octets_dropFirst shows (Nat.succ_pos _)

/-- What is measured is written, unless the octets are gone or the check of the unused bits fails. -/
theorem bitString_fills {v : Value} {n : Nat} (measured : bitString.length v = .ok n) :
    Fills (bitString.write v) n v.Regular (∀ b, v = .bits b → b.Passes) := by
  obtain ⟨b, is, same⟩ := Except.bind_eq_ok.mp measured
  cases same
  cases asBits_eq_ok is
  refine Fills.after is ?_
  apply fills_bind b.data.unplaced_octets.blameless
  · intro _ sure
    obtain ⟨data, _, shows, _⟩ := sure b rfl
    exact ⟨data, shows⟩
  · intro data shows
    apply fills_bind (unplaced_check b.unused data).blameless
    · intro _ sure
      obtain ⟨data', count, shows', checked⟩ := sure b rfl
      cases shows.symm.trans shows'
      exact ⟨count, checked⟩
    · intro unused _
      refine (fills_octets [UInt8.ofNat unused]).bind (fills_window (fun regular => regular.apart.bits rfl) ?_)
      exact fun _ _ => (Slice.length_of_octets shows).1

theorem bitString_canonical {window : Slice} {octets : Octets} {v : Value} (shows : window.octets = .ok octets)
    (done : bitString.read window = .ok v) : v.Plain ∧ Yields (bitString.length v) (bitString.write v) octets := by
  cases octets with
  | nil =>
    simp only [bitString, shows, bind, Except.bind] at done
    cases done
  | cons first data =>
    rw [bitString_read shows] at done
    obtain ⟨unused, checked, rfl⟩ := Except.map_eq_ok.mp done
    cases Number.natCast_inj (check_eq_ok checked).1
    have length := (Slice.length_of_octets shows).2
    have rest := octets_dropFirst_one shows
    rw [List.length_cons] at length
    refine ⟨trivial, ?_, ?_⟩
    · simp only [bitString, asBits, Slice.dropFirst, ← length, List.length_cons, Nat.add_sub_cancel, Nat.add_comm 1]
      rfl
    · rw [List.length_cons, Nat.add_comm, ← UInt8.ofNat_toNat (x := first)]
      refine Emits.after rfl (Emits.after rest (Emits.after ?_ (emits_bits first.toNat rest)))
      rw [UInt8.ofNat_toNat]
      exact checked

theorem bitString_complete {v : Value} {room : Nat} {octets : Octets} {window : Slice}
    (emits : Emits False (bitString.write v) room octets (.ok ())) (shows : window.octets = .ok octets) :
    ∃ w, bitString.read window = .ok w ∧ w.shown = v.shown := by
  obtain ⟨b, is, goes⟩ := emits.of_after
  obtain ⟨data, shows', goes⟩ := goes.of_after
  obtain ⟨unused, checked, ends⟩ := goes.of_after
  cases asBits_eq_ok is
  obtain ⟨count, small⟩ := check_eq_ok checked
  rw [(ends.unique (emits_bits unused shows')).1] at shows
  have octet : (UInt8.ofNat unused).toNat = unused := UInt8.toNat_ofNat_of_lt' (by simp only [UInt8.size]; omega)
  rw [count] at checked
  refine ⟨.bits ⟨unused, window.dropFirst 1⟩, ?_, ?_⟩
  · rw [bitString_read shows, octet, checked]
    rfl
  · rw [Value.shown_bits, Value.shown_bits, Slice.shown_eq (octets_dropFirst_one shows), Slice.shown_eq shows', count]

theorem bitString_alike {one other : Slice} {octets : Octets} (first : one.octets = .ok octets)
    (second : other.octets = .ok octets) : Alike (bitString.read one) (bitString.read other) := by
  cases octets with
  | nil =>
    simp only [bitString, first, second, bind, Except.bind]
    exact .error _
  | cons octet data =>
    rw [bitString_read first, bitString_read second]
    cases checked : BitString.check octet.toNat data with
    | error fault =>
      obtain ⟨cause, rfl⟩ := unplaced_check _ _ fault checked
      exact .error cause
    | ok unused =>
      refine Alike.ok ?_
      rw [Value.shown_bits, Value.shown_bits, Slice.shown_eq (octets_dropFirst_one first),
        Slice.shown_eq (octets_dropFirst_one second)]

theorem bitString_lawful : bitString.Lawful id fun v => ∀ b, v = .bits b → b.Passes where
  unplaced v := (unplaced_asBits v).bind fun _ => Fault.only_ok _
  fills := bitString_fills
  canonical := bitString_canonical
  complete := bitString_complete
  alike := bitString_alike

/-- The window on a magnitude without redundant zeros. -/
def trimmed (s : Slice) : Slice :=
  match s.octets with
  | .ok octets => .ofOctets (Content.Integer.trim octets)
  | .error _ => s

/-- A magnitude without redundant zeros, and any other value as it is. -/
def normalMagnitude : Value → Value
  | .octets s => .octets (trimmed s)
  | v => v

theorem octets_onMagnitude {s : Slice} {octets : Octets} (shows : s.octets = .ok octets) :
    (onMagnitude s (Content.Integer.trim octets)).octets = .ok (Content.Integer.trim octets) := by
  obtain ⟨front, whole⟩ | none := Content.Integer.suffix_trim octets
  · have length := (Slice.length_of_octets shows).2
    have counted := congrArg List.length whole
    rw [List.length_append] at counted
    rw [onMagnitude, if_neg (by omega), Slice.octets_dropFirst shows (by omega)]
    refine congrArg Except.ok ?_
    have skip : s.length - (Content.Integer.trim octets).length = front.length := by omega
    rw [skip]
    exact (congrArg (List.drop front.length) whole.symm).trans List.drop_left
  · subst none
    have length : 0 = s.length := (Slice.length_of_octets shows).2
    rw [onMagnitude, if_pos (length ▸ Nat.one_pos), Slice.octets_ofOctets]

theorem holder_onMagnitude {s : Slice} (m : Octets) (apart : s.holder ≠ .output) :
    (onMagnitude s m).holder ≠ .output := by
  unfold onMagnitude
  split
  · exact Holder.noConfusion
  · exact apart

theorem fills_magnitude {s : Slice} {m : Octets} {regular sure : Prop} (shows : s.octets = .ok m)
    (apart : regular → s.holder ≠ .output) :
    Fills (do
        if Content.Integer.startsHigh m then Encoding.octet 0
        Encoding.window s)
      (m.length + (Content.Integer.signOctets m).length) regular sure := by
  obtain ⟨backed, length⟩ := Slice.length_of_octets shows
  rw [length]
  by_cases high : Content.Integer.startsHigh m = true
  · rw [Content.Integer.signOctets, if_pos high, if_pos high, Nat.add_comm]
    exact (fills_octets [0]).bind (fills_window apart fun _ _ => backed)
  · rw [Content.Integer.signOctets, if_neg high, if_neg high]
    exact fills_window apart fun _ _ => backed

theorem emits_magnitude {s : Slice} {m : Octets} (shows : s.octets = .ok m) :
    Emits False (do
        if Content.Integer.startsHigh m then Encoding.octet 0
        Encoding.window s)
      (m.length + (Content.Integer.signOctets m).length) (Content.Integer.signOctets m ++ m) (.ok ()) := by
  by_cases high : Content.Integer.startsHigh m = true
  · rw [Content.Integer.signOctets, if_pos high, if_pos high, Nat.add_comm]
    exact (emits_octets [0]).bind (emits_window shows False.elim)
  · rw [Content.Integer.signOctets, if_neg high, if_neg high]
    exact emits_window shows False.elim

theorem magnitude_eq_ok {v : Value} {m : Octets} (is : magnitude v = .ok m) :
    ∃ s octets, v = .octets s ∧ s.octets = .ok octets ∧ m = Content.Integer.trim octets := by
  obtain ⟨s, window, is⟩ := Except.bind_eq_ok.mp is
  obtain ⟨octets, shows, same⟩ := Except.bind_eq_ok.mp is
  cases same
  exact ⟨s, octets, asSlice_eq_ok window, shows, rfl⟩

theorem unplaced_magnitude (v : Value) : Fault.Unplaced (magnitude v) :=
  (unplaced_asSlice _ v).bind fun s => s.unplaced_octets.bind fun _ => Fault.only_ok _

theorem octets_dropSign {window : Slice} {octets : Octets} (shows : window.octets = .ok octets) :
    (window.dropFirst (Content.Integer.signWidth octets)).octets =
      .ok (octets.drop (Content.Integer.signWidth octets)) := by
  refine Slice.octets_dropFirst shows ?_
  unfold Content.Integer.signWidth
  split <;> omega

theorem unsigned_read {window : Slice} {octets : Octets} (shows : window.octets = .ok octets) :
    unsigned.read window = (Content.Integer.checkUnsigned octets).map fun _ =>
      .octets (window.dropFirst (Content.Integer.signWidth octets)) := by
  simp only [unsigned, shows, bind, Except.bind]
  cases Content.Integer.checkUnsigned octets with
  | error fault => rfl
  | ok done => rfl

theorem unplaced_checkUnsigned (octets : Octets) : Fault.Unplaced (Content.Integer.checkUnsigned octets) := by
  refine (unplaced_checkInteger octets).bind ?_
  intro done
  exact (Fault.unplaced_error _).ite (Fault.only_ok _)

/-- What is written for a window on a magnitude is the magnitude without redundant zeros, after its sign octet. -/
theorem emits_unsigned {s : Slice} {octets : Octets} (shows : s.octets = .ok octets) :
    Emits False (unsigned.write (.octets s))
      ((Content.Integer.trim octets).length + (Content.Integer.signOctets (Content.Integer.trim octets)).length)
      (Content.Integer.signOctets (Content.Integer.trim octets) ++ Content.Integer.trim octets) (.ok ()) := by
  have is : magnitude (.octets s) = .ok (Content.Integer.trim octets) :=
    Except.bind_eq_ok.mpr ⟨s, rfl, Except.bind_eq_ok.mpr ⟨octets, shows, rfl⟩⟩
  exact Emits.after (a := s) rfl (Emits.after is (emits_magnitude (octets_onMagnitude shows)))

theorem unsigned_lawful : unsigned.Lawful normalMagnitude fun _ => True where
  unplaced v := (unplaced_magnitude v).bind fun m => Fault.only_ok _
  fills := by
    intro v n measured
    obtain ⟨m, is, same⟩ := Except.bind_eq_ok.mp measured
    cases same
    obtain ⟨s, octets, rfl, shows, rfl⟩ := magnitude_eq_ok is
    refine Fills.after (a := s) rfl (Fills.after is (fills_magnitude (octets_onMagnitude shows) ?_))
    exact fun regular => holder_onMagnitude _ (regular.apart.octets rfl)
  canonical := by
    intro window octets v shows done
    rw [unsigned_read shows] at done
    obtain ⟨_, checked, rfl⟩ := Except.map_eq_ok.mp done
    obtain ⟨minimal, whole⟩ := Content.Integer.minimal_of_checkUnsigned checked
    have is : magnitude (.octets (window.dropFirst (Content.Integer.signWidth octets))) =
        .ok (octets.drop (Content.Integer.signWidth octets)) := by
      refine Except.bind_eq_ok.mpr ⟨_, rfl, Except.bind_eq_ok.mpr ⟨_, octets_dropSign shows, ?_⟩⟩
      rw [minimal.trim_eq]
      rfl
    have emits := emits_unsigned (octets_dropSign shows)
    rw [minimal.trim_eq] at emits
    have length := congrArg List.length whole
    rw [List.length_append, Nat.add_comm] at length
    rw [whole, length] at emits
    exact ⟨trivial, Except.bind_eq_ok.mpr ⟨_, is, congrArg Except.ok length⟩, emits⟩
  complete := by
    intro v room octets window emits shows
    obtain ⟨s, is, goes⟩ := emits.of_after
    cases asSlice_eq_ok is
    obtain ⟨m, is, _⟩ := goes.of_after
    obtain ⟨_, raw, ⟨⟩, shows', rfl⟩ := magnitude_eq_ok is
    rw [(emits.unique (emits_unsigned shows')).1] at shows
    obtain ⟨checked, back⟩ := (Content.Integer.minimal_trim raw).checkUnsigned
    have rest := octets_dropSign shows
    rw [back] at rest
    refine ⟨_, by rw [unsigned_read shows, checked]; rfl, ?_⟩
    rw [Value.shown_octets, normalMagnitude, trimmed, shows', Value.shown_octets, Slice.shown_eq rest,
      Slice.shown_ofOctets]
  alike := by
    intro one other octets first second
    rw [unsigned_read first, unsigned_read second]
    cases checked : Content.Integer.checkUnsigned octets with
    | error fault =>
      obtain ⟨cause, rfl⟩ := unplaced_checkUnsigned octets fault checked
      exact .error cause
    | ok done =>
      refine Alike.ok ?_
      rw [Value.shown_octets, Value.shown_octets, Slice.shown_eq (octets_dropSign first),
        Slice.shown_eq (octets_dropSign second)]

end ContentRule

namespace Primitive

/-- A value as it is read back: booleans by their truth, magnitudes without redundant zeros, texts without
surrogates that stand alone. -/
def normal : Primitive → Value → Value
  | boolean => fun v => .boolean v.truth
  | null => fun _ => .null
  | unsigned => ContentRule.normalMagnitude
  | objectIdentifier | utf8String | printableString | ia5String => ContentRule.normalText
  | _ => id

/-- A value that is written once it has been measured: its windows are backed, and it is no ill-formed bit
string. -/
def Sure (p : Primitive) (v : Value) : Prop :=
  v.Backed ∧ (p = bitString → ∀ b, v = .bits b → b.Passes)

theorem rule_lawful (p : Primitive) : p.rule.Lawful p.normal p.Sure := by
  cases p with
  | boolean => exact ContentRule.boolean_lawful.mono fun _ _ => trivial
  | integer => exact ContentRule.integer_lawful.mono fun _ _ => trivial
  | safeInteger => exact ContentRule.safeInteger_lawful.mono fun _ _ => trivial
  | unsigned => exact ContentRule.unsigned_lawful.mono fun _ _ => trivial
  | bitString => exact ContentRule.bitString_lawful.mono fun _ sure => sure.2 rfl
  | octetString => exact ContentRule.octetString_lawful.mono fun _ sure => sure.1
  | null => exact ContentRule.null_lawful.mono fun _ _ => trivial
  | objectIdentifier => exact ContentRule.objectIdentifier_lawful.mono fun _ _ => trivial
  | utf8String => exact ContentRule.utf8_lawful.mono fun _ _ => trivial
  | printableString =>
    exact (ContentRule.restricted_lawful _ Content.Text.ascii_of_isPrintable).mono fun _ _ => trivial
  | ia5String => exact (ContentRule.restricted_lawful _ Content.Text.ascii_of_isIa5).mono fun _ _ => trivial
  | utcTime =>
    exact (ContentRule.time_lawful _ Content.Time.utcTime_inverse ContentRule.unplaced_utcText
      ContentRule.unplaced_ofUtcText).mono fun _ _ => trivial
  | generalizedTime =>
    exact (ContentRule.time_lawful _ Content.Time.generalizedTime_inverse ContentRule.unplaced_generalizedText
      ContentRule.unplaced_ofGeneralizedText).mono fun _ _ => trivial

end Primitive

end Der
