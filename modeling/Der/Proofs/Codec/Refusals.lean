import Der.Proofs.Codec.ContentRule

namespace Der

namespace Fault

/-- The causes for which content octets are refused. -/
def Cause.ofContent : Cause → Bool
  | booleanLength _ | badBoolean _ | emptyInteger | redundantOctet _ | unsafeInteger _ | negativeMagnitude
  | badUnusedBits _ | unusedBitsOfNothing _ | nonzeroPadding | missingUnusedBits | nullContent _
  | emptyIdentifier | paddedSubidentifier _ | truncatedSubidentifier _ | oversizedSubidentifier
  | malformedUtf8 | nonAscii _ | outsideAlphabet .. | noSuchDate .. | utcTimeForm .. | generalizedTimeForm ..
  | fractionZeros _ | fineFraction _ => true
  | _ => false

/-- The causes for which a reader stops on its way to the content of primitive types. -/
def Cause.ofStructure : Cause → Bool
  | missingTag | paddedTagNumber | unterminatedTagNumber | oversizedTagNumber | shortTagNumber _
  | missingLength | indefiniteLength | reservedLength | wideLength _ | truncatedLength | paddedLength | shortLength _
  | missingContent .. | missingOctets .. | trailingOctets _ | tooDeep _ | wrongTag .. | encodedDefault _
  | unknownComponent .. | disorderedComponent .. | disorderedElement _ | wrongSize .. | refused .. => true
  | missingField kind _ _ => kind = .incomplete || kind = .unexpectedTag
  | _ => false

theorem Cause.ofContent_of_ofStructure {cause : Cause} (structural : cause.ofStructure = true) :
    cause.ofContent = false := by
  cases cause with
  | missingField kind field container => rfl
  | _ => first | rfl | cases structural

/-- No reader fails for want of room to write, nor because octets have been taken away. -/
theorem Cause.kind_of_read {cause : Cause} (read : cause.ofStructure = true ∨ cause.ofContent = true) :
    cause.kind ≠ .bufferTooSmall ∧ cause.kind ≠ .detachedSource := by
  constructor
  · intro same
    cases cause with
    | utcTimeForm general text => cases general <;> cases same
    | generalizedTimeForm general text => cases general <;> cases same
    | missingField kind field container =>
      cases same
      rcases read with read | read <;> cases read
    | custom kind text => rcases read with read | read <;> cases read
    | noRoom | smallBuffer => rcases read with read | read <;> cases read
    | _ => cases same
  · intro same
    cases cause with
    | utcTimeForm general text => cases general <;> cases same
    | generalizedTimeForm general text => cases general <;> cases same
    | missingField kind field container =>
      cases same
      rcases read with read | read <;> cases read
    | custom kind text => rcases read with read | read <;> cases read
    | lostSource | wipedSecret => rcases read with read | read <;> cases read
    | _ => cases same

/-- The faults of a result are refusals of content octets. -/
def Refuses {α : Type} (x : Except Fault α) : Prop :=
  ∀ fault, x = .error fault → ∃ cause, fault = .ofCause cause ∧ cause.ofContent = true

variable {α β : Type}

theorem refuses_ok (a : α) : Refuses (.ok a : Except Fault α) := by
  intro fault failed
  cases failed

theorem refuses_error {cause : Cause} (refused : cause.ofContent = true) :
    Refuses (.error (.ofCause cause) : Except Fault α) := by
  intro fault failed
  cases failed
  exact ⟨cause, rfl, refused⟩

theorem Refuses.bind {x : Except Fault α} {f : α → Except Fault β} (first : Refuses x) (next : ∀ a, Refuses (f a)) :
    Refuses (x >>= f) := by
  intro fault failed
  cases x with
  | error cause => exact first fault (by injection failed with same; rw [same])
  | ok a => exact next a fault failed

theorem Refuses.map {x : Except Fault α} (first : Refuses x) (f : α → β) : Refuses (x.map f) := by
  cases x with
  | error fault =>
    obtain ⟨cause, rfl, refused⟩ := first fault rfl
    exact refuses_error refused
  | ok a => exact refuses_ok (f a)

theorem Refuses.ite {condition : Prop} [Decidable condition] {x y : Except Fault α} (first : Refuses x)
    (second : Refuses y) : Refuses (if condition then x else y) := by
  by_cases holds : condition
  · rwa [if_pos holds]
  · rwa [if_neg holds]

end Fault

open Fault

namespace Content

theorem Integer.refuses_check (octets : Octets) : Refuses (check octets) := by
  cases octets with
  | nil => exact refuses_error rfl
  | cons first tail =>
    cases tail with
    | nil => exact refuses_ok ()
    | cons second rest => exact (refuses_error rfl).ite (refuses_ok ())

theorem Integer.refuses_decode (octets : Octets) : Refuses (decode octets) :=
  (refuses_check octets).bind fun _ => refuses_ok _

theorem Integer.refuses_checkUnsigned (octets : Octets) : Refuses (checkUnsigned octets) :=
  (refuses_check octets).bind fun _ => (refuses_error rfl).ite (refuses_ok ())

theorem ObjectIdentifier.refuses_readAll (size : Nat) (octets : Octets) : Refuses (readAll size octets) := by
  fun_induction readAll size octets with
  | case1 octets none => exact refuses_ok _
  | case2 octets some flaw => exact refuses_error rfl
  | case3 octets some flaw => exact refuses_error rfl
  | case4 octets some flaw => exact refuses_error rfl
  | case5 octets some n rest first _ ih => exact ih.map _

theorem ObjectIdentifier.refuses_decode (octets : Octets) : Refuses (decode octets) := by
  refine (refuses_readAll octets.length octets).bind ?_
  intro numbers
  cases numbers with
  | nil => exact refuses_error rfl
  | cons head more => exact refuses_ok _

theorem Text.refuses_decodeUtf8 (octets : Octets) : Refuses (decodeUtf8 octets) := by
  unfold decodeUtf8
  split
  · exact refuses_ok _
  · exact refuses_error rfl

theorem Text.refuses_decodeAscii (octets : Octets) : Refuses (decodeAscii octets) := by
  unfold decodeAscii
  split
  · exact refuses_error rfl
  · exact refuses_ok _

theorem Text.refuses_check (name : String) (alphabet : Char → Bool) (text : String) : Refuses (check name alphabet text) :=
  (refuses_ok text).ite (refuses_error rfl)

theorem Time.refuses_instant (t : DateTime) : Refuses (instant t) := by
  unfold instant
  refine Refuses.ite ?_ (refuses_error rfl)
  split
  · exact refuses_ok _
  · exact refuses_error rfl

theorem Time.refuses_ofUtcText (text : String) : Refuses (ofUtcText text) := by
  unfold ofUtcText
  dsimp only
  split
  · exact (refuses_instant _).ite (refuses_error rfl)
  · exact refuses_error rfl

theorem Time.refuses_ofGeneralizedText (text : String) : Refuses (ofGeneralizedText text) := by
  unfold ofGeneralizedText
  dsimp only
  split
  · refine (refuses_error rfl).ite ?_
    refine (refuses_error rfl).ite ?_
    exact (refuses_error rfl).ite (refuses_instant _)
  · exact refuses_error rfl

end Content

theorem BitString.refuses_check (unused : Number) (data : Octets) : Refuses (check unused data) := by
  have count : Refuses (unusedCount unused) := by
    unfold unusedCount
    split
    · exact (refuses_ok _).ite (refuses_error rfl)
    · exact refuses_error rfl
  refine count.bind ?_
  intro count
  split
  · exact (refuses_ok _).ite (refuses_error rfl)
  · exact (refuses_ok _).ite (refuses_error rfl)

namespace ContentRule

variable {window : Slice} {octets : Octets} (shows : window.octets = .ok octets)

include shows

/-- A rule that computes with the octets of a window refuses what it refuses of them. -/
theorem refuses_ofOctets {length : Value → Except Fault Nat} {written : Value → Except Fault Octets}
    {read : Octets → Except Fault Value} (refuses : ∀ octets, Refuses (read octets)) :
    Refuses ((ofOctets length written read).read window) := by
  have same : (ofOctets length written read).read window = read octets := by
    simp only [ofOctets, shows]
    rfl
  rw [same]
  exact refuses octets

theorem refuses_restricted (name : String) (alphabet : Char → Bool) :
    Refuses ((restricted name alphabet).read window) := by
  apply refuses_ofOctets shows
  intro octets
  refine (Content.Text.refuses_decodeAscii octets).bind ?_
  intro text
  exact (Content.Text.refuses_check name alphabet text).bind fun _ => refuses_ok _

theorem refuses_time (name : String) {format : Option Instant → Except Fault String}
    {parse : String → Except Fault Instant} (refuses : ∀ text, Refuses (parse text)) :
    Refuses ((time name format parse).read window) := by
  apply refuses_ofOctets shows
  intro octets
  refine (Content.Text.refuses_decodeAscii octets).bind ?_
  intro text
  exact (refuses text).bind fun _ => refuses_ok _

theorem refuses_bitString : Refuses (bitString.read window) := by
  cases octets with
  | nil =>
    simp only [bitString, shows, bind, Except.bind]
    exact refuses_error rfl
  | cons first data =>
    rw [bitString_read shows]
    exact (BitString.refuses_check _ data).bind fun _ => refuses_ok _

theorem refuses_unsigned : Refuses (unsigned.read window) := by
  rw [unsigned_read shows]
  exact (Content.Integer.refuses_checkUnsigned octets).bind fun _ => refuses_ok _

end ContentRule

namespace Primitive

/-- The rule of a primitive type refuses a window for its content only. -/
theorem refuses_read (p : Primitive) {window : Slice} {octets : Octets} (shows : window.octets = .ok octets) :
    Refuses (p.rule.read window) := by
  cases p with
  | boolean =>
    apply ContentRule.refuses_ofOctets shows
    intro octets
    split
    · exact (refuses_ok _).ite ((refuses_ok _).ite (refuses_error rfl))
    · exact refuses_error rfl
  | integer => exact ContentRule.refuses_ofOctets shows fun octets =>
      (Content.Integer.refuses_decode octets).bind fun _ => refuses_ok _
  | safeInteger =>
    apply ContentRule.refuses_ofOctets shows
    intro octets
    refine (Content.Integer.refuses_decode octets).bind ?_
    intro n
    exact Refuses.ite (refuses_error rfl) (refuses_ok _)
  | unsigned => exact ContentRule.refuses_unsigned shows
  | bitString => exact ContentRule.refuses_bitString shows
  | octetString => exact refuses_ok _
  | null => exact (refuses_ok _).ite (refuses_error rfl)
  | objectIdentifier => exact ContentRule.refuses_ofOctets shows fun octets =>
      (Content.ObjectIdentifier.refuses_decode octets).bind fun _ => refuses_ok _
  | utf8String => exact ContentRule.refuses_ofOctets shows fun octets =>
      (Content.Text.refuses_decodeUtf8 octets).bind fun _ => refuses_ok _
  | printableString => exact ContentRule.refuses_restricted shows _ _
  | ia5String => exact ContentRule.refuses_restricted shows _ _
  | utcTime => exact ContentRule.refuses_time shows _ Content.Time.refuses_ofUtcText
  | generalizedTime => exact ContentRule.refuses_time shows _ Content.Time.refuses_ofGeneralizedText

/-- The rule refuses the window for the cause for which it refuses its octets anywhere else. -/
theorem read_eq_error (p : Primitive) {window : Slice} {octets : Octets} (shows : window.octets = .ok octets)
    {fault : Fault} (failed : p.rule.read window = .error fault) :
    ∃ cause, fault = .ofCause cause ∧ cause.ofContent = true ∧
      p.rule.read (.ofOctets octets) = .error (.ofCause cause) := by
  obtain ⟨cause, rfl, refused⟩ := p.refuses_read shows fault failed
  refine ⟨cause, rfl, refused, ?_⟩
  have alike := p.rule_lawful.alike shows (Slice.octets_ofOctets octets)
  rw [failed] at alike
  generalize p.rule.read (.ofOctets octets) = other at alike
  cases alike
  rfl

theorem ofContent_of_read (p : Primitive) {content : Octets} {cause : Cause}
    (refused : p.rule.read (.ofOctets content) = .error (.ofCause cause)) : cause.ofContent = true := by
  obtain ⟨_, same, marked, _⟩ := p.read_eq_error (Slice.octets_ofOctets content) refused
  cases same
  exact marked

end Primitive

end Der
