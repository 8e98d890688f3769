import Der.Proofs.Canonical
import Der.Proofs.Constraints

namespace Der

open Encoding

/-- A length in the fewest octets. -/
def Length.octets (n : Nat) : Octets :=
  if n < 128 then [UInt8.ofNat n] else UInt8.ofNat (128 + Octets.width n) :: Octets.ofNat (Octets.width n) n

namespace Element

/-- The element with the identifier octet and the content. -/
def octets (identifier : UInt8) (content : Octets) : Octets :=
  identifier :: (Length.octets content.length ++ content)

/-- The element of an INTEGER. -/
def integer (n : Int) : Octets :=
  octets 2 (Content.Integer.encode n)

/-- The element of a SEQUENCE of the given elements. -/
def sequence (parts : List Octets) : Octets :=
  octets 0x30 parts.flatten

end Element

theorem Header.encode_eq_octets {tag : Tag} {identifier : UInt8} (short : tag.encode = .ok [identifier]) {n : Nat}
    (bound : n ≤ Length.max) : encode tag n = .ok (identifier :: Length.octets n) := by
  rw [encode, short, Length.encode_natCast bound]
  rfl

namespace Encoding

/-- Whatever can be measured is written as the octets, and octets that are not longer than the largest length can be. -/
structure Lays (measured : Except Fault Nat) (body : Encoding Unit) (octets : Octets) : Prop where
  sure : ∀ n, measured = .ok n → Yields measured body octets
  fits : octets.length ≤ Length.max → Yields measured body octets

theorem Yields.lays {measured : Except Fault Nat} {body : Encoding Unit} {octets : Octets}
    (yields : Yields measured body octets) : Lays measured body octets :=
  ⟨fun _ _ => yields, fun _ => yields⟩

/-- A measure with the same result, and a body that writes the same. -/
theorem Lays.wrap {measured measured' : Except Fault Nat} {body body' : Encoding Unit} {octets : Octets}
    (lays : Lays measured body octets) (same : measured' = measured)
    (emits : Emits False body octets.length octets (.ok ()) → Emits False body' octets.length octets (.ok ())) :
    Lays measured' body' octets := by
  subst same
  exact ⟨fun n done => ⟨(lays.sure n done).measured, emits (lays.sure n done).emits⟩,
    fun bound => ⟨(lays.fits bound).measured, emits (lays.fits bound).emits⟩⟩

/-- Parts that are written one after the other lay their octets one after the other. -/
theorem lays_forM {α : Type} {measure : α → Except Fault Nat} {write : α → Encoding Unit} {parts : List α}
    {strings : List Octets}
    (each : List.Forall₂ (fun part string => Lays (measure part) (write part) string) parts strings) :
    Lays (Codec.sumLengths measure parts) (parts.forM write) strings.flatten where
  sure := by
    intro n done
    have measured := Codec.measured_of_sumLengths done
    refine yields_forM ?_
    clear done
    induction each with
    | nil => exact .nil
    | cons first _ ih =>
      obtain ⟨k, own⟩ := measured _ List.mem_cons_self
      exact .cons (first.sure k own) (ih fun part later => measured part (List.mem_cons_of_mem _ later))
  fits := by
    intro bound
    refine yields_forM ?_
    -- A bound on all strings together is one on the first string and one on the others.
    induction each with
    | nil => exact .nil
    | cons first _ ih =>
      rw [List.flatten_cons, List.length_append] at bound
      exact .cons (first.fits (by omega)) (ih (by omega))

end Encoding

/-- The content octets of the value. -/
def TaggedCodec.Lays (c : TaggedCodec) (v : Value) (content : Octets) : Prop :=
  Encoding.Lays (c.contentLength v) (c.writeContent v) content

/-- The element of the value. -/
def Codec.Lays (c : Codec) (v : Value) (octets : Octets) : Prop :=
  Encoding.Lays (c.encodedLength v) (c.encode v) octets

namespace TaggedCodec.Lays

variable {c : TaggedCodec} {v : Value} {content : Octets} (lays : c.Lays v content)

include lays

theorem refine {condition : Condition} (accepted : condition v = none) : (c.refine condition).Lays v content := by
  refine lays.wrap ?_ id
  rw [refine_contentLength, accepted]

/-- An element that can be measured has content that is not too long. -/
theorem bound_of_measured {n : Nat} (measured : c.encodedLength v = .ok n) : content.length ≤ Length.max := by
  obtain ⟨length, header, inside, written, _⟩ := encodedLength_eq_ok measured
  have same := (lays.sure length inside).measured
  rw [inside] at same
  cases same
  exact Header.le_max_of_encode written

variable {identifier : UInt8} (short : c.tag.encode = .ok [identifier])

include short

theorem yields (bound : content.length ≤ Length.max) :
    Yields (c.encodedLength v) (c.encode v) (Element.octets identifier content) := by
  have header := Header.encode_eq_octets short bound
  exact yields_of_content (lays.fits bound) header

/-- An element is the content after its header, and there is one just if the content is not too long. -/
theorem yields_iff {octets : Octets} : Yields (c.encodedLength v) (c.encode v) octets ↔
    content.length ≤ Length.max ∧ octets = Element.octets identifier content := by
  constructor
  · intro other
    have bound := lays.bound_of_measured other.measured
    exact ⟨bound, (other.emits.unique (lays.yields short bound).emits).1⟩
  · intro parts
    obtain ⟨bound, rfl⟩ := parts
    exact lays.yields short bound

theorem element : (Codec.tagged c).Lays v (Element.octets identifier content) where
  sure n measured := lays.yields short (lays.bound_of_measured measured)
  fits bound := by
    refine lays.yields short ?_
    rw [Element.octets, List.length_cons, List.length_append] at bound
    omega

end TaggedCodec.Lays

/-- A bit string without unused bits can always be written. -/
theorem BitString.check_zero (data : Octets) : check 0 data = .ok 0 := by
  have counted : unusedCount 0 = .ok 0 := rfl
  rw [check, counted]
  cases data.getLast? with
  | none => rfl
  | some last => exact if_pos (Nat.mod_one _)

namespace Primitive

/-- A window on a magnitude is written as the INTEGER that it denotes. -/
theorem unsigned_yields {window : Slice} {magnitude : Octets} (shows : window.octets = .ok magnitude) :
    Yields (unsigned.codec.contentLength (.octets window)) (unsigned.codec.writeContent (.octets window))
      (Content.Integer.encode (Octets.toNat magnitude)) := by
  have is : ContentRule.magnitude (.octets window) = .ok (Content.Integer.trim magnitude) :=
    Except.bind_eq_ok.mpr ⟨window, rfl, Except.bind_eq_ok.mpr ⟨magnitude, shows, rfl⟩⟩
  rw [← Content.Integer.signOctets_append_trim]
  refine ⟨?_, ?_⟩
  · rw [List.length_append, Nat.add_comm]
    exact Except.bind_eq_ok.mpr ⟨_, is, rfl⟩
  · rw [List.length_append, Nat.add_comm]
    exact ContentRule.emits_unsigned shows

theorem unsigned_lays {window : Slice} {magnitude : Octets} (shows : window.octets = .ok magnitude) :
    unsigned.codec.Lays (.octets window) (Content.Integer.encode (Octets.toNat magnitude)) :=
  (unsigned_yields shows).lays

theorem safeInteger_yields {n : Int} (safe : n.natAbs ≤ Number.maxSafe) :
    Yields (safeInteger.codec.contentLength (.number (.integer n)))
      (safeInteger.codec.writeContent (.number (.integer n))) (Content.Integer.encode n) := by
  have is := ContentRule.asSafeInteger_eq_ok.mpr ⟨rfl, safe⟩
  refine ⟨?_, (emits_octets _).after (Except.bind_eq_ok.mpr ⟨n, is, rfl⟩)⟩
  rw [Content.Integer.length_encode]
  exact Except.bind_eq_ok.mpr ⟨n, is, rfl⟩

theorem safeInteger_lays {n : Int} (safe : n.natAbs ≤ Number.maxSafe) :
    safeInteger.codec.Lays (.number (.integer n)) (Content.Integer.encode n) :=
  (safeInteger_yields safe).lays

/-- Nothing is written for NULL, whatever the value. -/
theorem null_lays (v : Value) : null.codec.Lays v [] :=
  Yields.lays ⟨rfl, emits_pure ()⟩

theorem objectIdentifier_lays {text : String} {octets : Octets}
    (written : Content.ObjectIdentifier.encode text = .ok octets) :
    objectIdentifier.codec.Lays (.text text) octets := by
  have width : Content.ObjectIdentifier.width text = .ok octets.length := by
    rw [Content.ObjectIdentifier.width_eq, written]
    rfl
  refine Yields.lays ⟨?_, (emits_octets octets).after (Except.bind_eq_ok.mpr ⟨text, rfl, written⟩)⟩
  exact Except.bind_eq_ok.mpr ⟨text, rfl, width⟩

/-- A bit string that can be written is the count of unused bits in an octet before the octets. -/
theorem bitString_yields {b : BitString} {data : Octets} {count : Nat} (shows : b.data.octets = .ok data)
    (checked : BitString.check b.unused data = .ok count) :
    Yields (bitString.codec.contentLength (.bits b)) (bitString.codec.writeContent (.bits b))
      (UInt8.ofNat count :: data) := by
  have size : (UInt8.ofNat count :: data).length = 1 + b.data.length := by
    rw [← (Slice.length_of_octets shows).2, List.length_cons, Nat.add_comm]
  refine ⟨?_, ?_⟩
  · rw [size]
    rfl
  · rw [List.length_cons, Nat.add_comm]
    exact Emits.after rfl (Emits.after shows (Emits.after checked (ContentRule.emits_bits count shows)))

theorem bitString_lays {b : BitString} {data : Octets} {count : Nat} (shows : b.data.octets = .ok data)
    (checked : BitString.check b.unused data = .ok count) :
    bitString.codec.Lays (.bits b) (UInt8.ofNat count :: data) :=
  (bitString_yields shows checked).lays

end Primitive

theorem UntaggedCodec.any_lays {a : Any} {octets : Octets} (shown : a.encoded.octets = .ok octets) :
    (Codec.untagged any).Lays (.any a) octets :=
  (yields_any shown).lays

theorem TaggedCodec.sequenceOf_lays (name : String) (tag : Tag) {bounds : SizeBounds} {item : Codec}
    {items : List Value} {strings : List Octets} (admitted : bounds.Admits items.length)
    (each : List.Forall₂ item.Lays items strings) :
    (sequenceOf name tag bounds item).Lays (.list items) strings.flatten :=
  (lays_forM each).wrap (Collection.contentLength_of_admits admitted) fun emits =>
    ((Collection.writeInOrder_list name item items).symm ▸ emits :)

namespace Member

variable {container : String} {m : Member} {members : List Member} {entries : Record} {octets : Octets}

/-- The octets of the members of a record. -/
def Lays (container : String) (members : List Member) (entries : Record) (octets : Octets) : Prop :=
  ∃ chosen strings, select container entries members = .ok chosen ∧
    List.Forall₂ (fun part string => part.1.Lays part.2 string) chosen strings ∧ octets = strings.flatten

theorem lays_nil : Lays container [] entries [] :=
  ⟨[], [], rfl, .nil, rfl⟩

/-- A member without a default before the others. -/
theorem Lays.put {v : Value} {first : Octets} (lays : Lays container members entries octets)
    (present : entries.member? m.name = some v) (plain : m.defaultOctets = none) (own : m.codec.Lays v first) :
    Lays container (m :: members) entries (first ++ octets) := by
  obtain ⟨chosen, strings, selected, each, rfl⟩ := lays
  have kept : m.isDefault v = .ok false := by
    rw [isDefault, plain]
    rfl
  refine ⟨(m.codec, v) :: chosen, first :: strings, ?_, .cons own each, List.flatten_cons.symm⟩
  simp only [select, present, kept, selected, bind, Except.bind]
  rfl

/-- A member that is absent before the others. -/
theorem Lays.skip (lays : Lays container members entries octets) (absent : entries.member? m.name = none)
    (optional : m.presence.mayBeAbsent = true) : Lays container (m :: members) entries octets := by
  obtain ⟨chosen, strings, selected, each, rfl⟩ := lays
  refine ⟨chosen, strings, ?_, each, rfl⟩
  rw [select, absent]
  simp only [if_pos optional, selected]

theorem Lays.content (lays : Lays container members entries octets) :
    Encoding.Lays (contentLength container members (.record entries)) (writeContent container members (.record entries))
      octets := by
  obtain ⟨chosen, strings, selected, each, rfl⟩ := lays
  refine (lays_forM each).wrap ?_ fun emits => Emits.after rfl (emits.after selected)
  simp only [contentLength, Value.toRecord, bind, Except.bind, selected]

/-- Members that are selected for writing include all that may not be absent. -/
theorem present_of_select {chosen : List (Codec × Value)} (selected : select container entries members = .ok chosen)
    (member : m ∈ members) (needed : m.presence.mayBeAbsent = false) : ∃ v, entries.member? m.name = some v := by
  induction members generalizing chosen with
  | nil => cases member
  | cons first rest ih =>
    rcases select_cons_eq_ok selected with ⟨others, left⟩ | ⟨v, more, present, _, others, _⟩
    · rcases List.mem_cons.mp member with rfl | later
      · rcases left with ⟨_, optional⟩ | ⟨v, present, _⟩
        · rw [needed] at optional
          cases optional
        · exact ⟨v, present⟩
      · exact ih others later
    · rcases List.mem_cons.mp member with rfl | later
      · exact ⟨v, present⟩
      · exact ih others later

end Member

namespace Schema

variable {container : String} {fields : List (Field Schema)} {entries : Record} {octets : Octets}
  (lays : Member.Lays container ((fieldCodecs fields).map Member.ofField) entries octets)

include lays

theorem plainSequence_yields_iff {document : Octets} :
    Yields ((plainSequence container fields).codec.encodedLength (.record entries))
      ((plainSequence container fields).codec.encode (.record entries)) document ↔
      octets.length ≤ Length.max ∧ document = Element.octets 0x30 octets := by
  have content : TaggedCodec.Lays (.sequence container (constructedTag none none sequenceNumber) (fieldCodecs fields))
      (.record entries) octets := lays.content
  exact content.yields_iff rfl

theorem plainSequence_lays :
    (plainSequence container fields).codec.Lays (.record entries) (Element.octets 0x30 octets) := by
  have content : TaggedCodec.Lays (.sequence container (constructedTag none none sequenceNumber) (fieldCodecs fields))
      (.record entries) octets := lays.content
  exact content.element rfl

end Schema

/-- A record that is measured has all fields that may not be absent, unless it inherits them. -/
theorem Schema.present_of_contentLength {container : String} {fields : List (Field Schema)} {entries : Record} {n : Nat}
    (measured : Member.contentLength container ((fieldCodecs fields).map Member.ofField) (.record entries) = .ok n)
    {f : Field Schema} (field : f ∈ fields) (needed : f.presence.mayBeAbsent = false)
    (ordinary : Inherited.ofName? f.name = none) :
    ∃ u k, entries.get? f.name = some u ∧ f.type.codec.encodedLength u = .ok k := by
  have own := Member.measured_of_contentLength (v := .record entries) rfl measured _ (Member.ofField_mem field)
  obtain ⟨_, is, measured⟩ := Except.bind_eq_ok.mp measured
  cases is
  obtain ⟨chosen, selected, _⟩ := Except.bind_eq_ok.mp measured
  obtain ⟨u, found⟩ := Member.present_of_select selected (Member.ofField_mem field) needed
  obtain ⟨k, measured⟩ := own u found
  rcases Record.get?_of_member? found with stands | ⟨x, inherited, _⟩
  · exact ⟨u, k, stands, measured⟩
  · cases ordinary.symm.trans inherited

/-- What is read as a sequence without defaults is a record of what is read as its fields. -/
theorem Schema.plainSequence_grants {container : String} {fields : List (Field Schema)} (good : String → Value → Prop)
    (named : (fields.map Field.name).Nodup) (required : ∀ f ∈ fields, f.presence.default? = none)
    (grants : ∀ f ∈ fields, f.type.codec.Grants (good f.name)) :
    (plainSequence container fields).codec.Grants fun v =>
      ∃ entries : Record, v = .record entries ∧ ∀ f ∈ fields, ∀ u, entries.get? f.name = some u → good f.name u := by
  have trusted : Member.Trusted (fun m => good m.name) ((fieldCodecs fields).map Member.ofField) [] := by
    refine ⟨⟨?_, fun _ _ => rfl⟩, ?_, ?_⟩
    · rw [fieldCodecs_eq_map, List.map_map, List.map_map]
      exact named
    · intro m member
      obtain ⟨f, field, rfl⟩ := Member.mem_ofField member
      exact grants f field
    · intro m member v default
      obtain ⟨f, field, rfl⟩ := Member.mem_ofField member
      cases (required f field).symm.trans default
  intro count
  refine Decoding.Returns.nested ((Member.returns_sequence trusted).bind fun entries kept => ?_) count
  exact Decoding.returns_pure ⟨entries, rfl, fun f field => kept.entries _ (Member.ofField_mem field)⟩

theorem Schema.plainSequence_grants_pair {container : String} {f g : Field Schema} {first second : Value → Prop}
    (differ : f.name ≠ g.name) (plain : f.presence.default? = none) (plain' : g.presence.default? = none)
    (grants : f.type.codec.Grants first) (grants' : g.type.codec.Grants second) :
    (plainSequence container [f, g]).codec.Grants fun v => ∃ r : Record, v = .record r ∧
      (∀ u, r.get? f.name = some u → first u) ∧ ∀ u, r.get? g.name = some u → second u := by
  have named : ([f, g].map Field.name).Nodup := List.nodup_cons.mpr
    ⟨fun within => differ (List.mem_singleton.mp within), List.pairwise_singleton _ g.name⟩
  have whole : (plainSequence container [f, g]).codec.Grants _ := plainSequence_grants
    (fun name u => (name = f.name → first u) ∧ (name = g.name → second u)) named
    (List.forall_mem_cons.mpr ⟨plain, List.forall_mem_singleton.mpr plain'⟩)
    (List.forall_mem_cons.mpr ⟨grants.mono fun u is => ⟨fun _ => is, fun same => absurd same differ⟩,
      List.forall_mem_singleton.mpr (grants'.mono fun u is => ⟨fun same => absurd same.symm differ, fun _ => is⟩)⟩)
  refine whole.mono ?_
  rintro v ⟨r, rfl, good⟩
  refine ⟨r, rfl, fun u held => ?_, fun u held => ?_⟩
  · exact (good _ List.mem_cons_self u held).1 rfl
  · exact (good _ (List.mem_cons_of_mem _ List.mem_cons_self) u held).2 rfl

end Der
