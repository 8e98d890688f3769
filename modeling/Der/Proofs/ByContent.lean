import Der.Proofs.TwoPass

namespace Der

/-- Two steps do the same in a buffer of the encoder's own, which stays its own. -/
def Encoding.Same {α : Type} (one other : Encoding α) : Prop :=
  ∀ e : Encoder, e.lent = false →
    one.run e = other.run e ∧ ∀ a e', other.run e = .ok a e' → e'.lent = false

namespace Encoding

variable {α β : Type}

theorem same_liftM (x : Except Fault α) : Same (liftM x) (liftM x) := by
  refine fun e own => ⟨rfl, fun a e' run => ?_⟩
  rw [Fault.run_liftM] at run
  cases x with
  | error fault => cases run
  | ok b =>
    cases run
    exact own

theorem same_pure (a : α) : Same (pure a) (pure a) :=
  same_liftM (.ok a)

theorem same_throw (fault : Fault) : Same (throw fault : Encoding α) (throw fault) :=
  same_liftM (.error fault)

theorem Same.bind {one other : Encoding α} {next next' : α → Encoding β} (begins : Same one other)
    (goes : ∀ a, Same (next a) (next' a)) : Same (one >>= next) (other >>= next') := by
  intro e own
  obtain ⟨same, still⟩ := begins e own
  rw [EStateM.run_bind, EStateM.run_bind, same]
  cases run : other.run e with
  | error fault e' => exact ⟨rfl, nofun⟩
  | ok a e' => exact goes a e' (still a e' run)

/-- Steps that go on alike from what has been computed, and from that with a change. -/
theorem same_map {x : Except Fault α} {change : α → β} {next : β → Encoding Unit} {next' : α → Encoding Unit}
    (goes : ∀ a, Same (next (change a)) (next' a)) : Same (liftM (x.map change) >>= next) (liftM x >>= next') := by
  cases x with
  | error fault => exact same_throw fault
  | ok a => exact goes a

theorem same_reserve (count : Nat) : Same (reserve count) (reserve count) := by
  refine fun e own => ⟨rfl, fun a e' run => ?_⟩
  rw [run_reserve] at run
  split at run
  · cases run
  · cases run
    exact own

theorem same_octets (octets : Octets) : Same (Encoding.octets octets) (Encoding.octets octets) :=
  (same_reserve octets.length).bind fun _ e own => ⟨rfl, fun _ _ run => by cases run; exact own⟩

theorem same_header (tag : Tag) (length : Number) : Same (Encoding.header tag length) (Encoding.header tag length) :=
  (same_liftM _).bind fun _ => (same_reserve _).bind fun _ => ((same_liftM _).bind same_octets).bind fun _ =>
    (same_liftM _).bind same_octets

/-- Windows that show the same octets are written alike. -/
theorem same_window {s t : Slice} (shows : s.octets = t.octets) : Same (window s) (window t) := by
  intro e own
  rw [run_window, run_window, Encoder.refreshed_of_own own, Encoder.refreshed_of_own own, shows]
  exact (same_liftM t.octets).bind same_octets e own

theorem Same.seen {v w : Value} {next next' : Value → Encoding β} (goes : Same (next v) (next' w)) :
    Same (current v >>= next) (current w >>= next') := by
  intro e own
  rw [EStateM.run_bind, EStateM.run_bind, run_current, run_current, Encoder.sees_of_own own, Encoder.sees_of_own own]
  exact goes e own

theorem same_forM {write : β → Encoding Unit} {write' : α → Encoding Unit} {change : α → β} {parts : List α}
    (same : ∀ part ∈ parts, Same (write (change part)) (write' part)) :
    Same ((parts.map change).forM write) (parts.forM write') := by
  induction parts with
  | nil => exact same_pure ()
  | cons part rest ih =>
    exact (same part List.mem_cons_self).bind fun _ => ih fun other later => same other (List.mem_cons_of_mem _ later)

theorem Same.toOctets {one other : Encoding Unit} (same : Same one other) (size : Nat) :
    one.toOctets size = other.toOctets size := by
  rw [Encoding.toOctets, Encoding.toOctets, (same (.ofSize size) rfl).1]

end Encoding

open Encoding

/-- The rule does not see where the windows of a value keep their octets. -/
structure ContentRule.ByContent (rule : ContentRule) : Prop where
  length : ∀ v : Value, rule.length v.shown = rule.length v
  write : ∀ v : Value, Same (rule.write v.shown) (rule.write v)

/-- The type does not see where the windows of a value keep their octets. -/
structure TaggedCodec.ByContent (c : TaggedCodec) : Prop where
  contentLength : ∀ v : Value, c.contentLength v.shown = c.contentLength v
  writeContent : ∀ v : Value, Same (c.writeContent v.shown) (c.writeContent v)

/-- The type does not see where the windows of a value keep their octets. -/
structure UntaggedCodec.ByContent (c : UntaggedCodec) : Prop where
  encodedLength : ∀ v : Value, c.encodedLength v.shown = c.encodedLength v
  encode : ∀ v : Value, Same (c.encode v.shown) (c.encode v)

/-- The type does not see where the windows of a value keep their octets. -/
def Codec.ByContent : Codec → Prop
  | tagged c => c.ByContent
  | untagged c => c.ByContent

namespace Codec.ByContent

variable {c : Codec} (blind : c.ByContent)

include blind

theorem encodedLength (v : Value) : c.encodedLength v.shown = c.encodedLength v := by
  cases c with
  | tagged c =>
    simp only [Codec.encodedLength, TaggedCodec.encodedLength, TaggedCodec.ByContent.contentLength blind v]
  | untagged c => exact UntaggedCodec.ByContent.encodedLength blind v

theorem encode (v : Value) : Same (c.encode v.shown) (c.encode v) := by
  cases c with
  | tagged c =>
    refine Same.seen ?_
    rw [TaggedCodec.ByContent.contentLength blind v]
    exact (same_liftM _).bind fun length => (same_header c.tag length).bind fun _ =>
      Same.seen (TaggedCodec.ByContent.writeContent blind v)
  | untagged c => exact UntaggedCodec.ByContent.encode blind v

theorem toOctets (v : Value) : c.toOctets v.shown = c.toOctets v := by
  rw [Codec.toOctets, Codec.toOctets, encodedLength blind]
  simp only [(encode blind v).toOctets]

end Codec.ByContent

namespace ContentRule

theorem byContent_ofOctets {length : Value → Except Fault Nat} {octets : Value → Except Fault Octets}
    {read : Octets → Except Fault Value} (lengths : ∀ v : Value, length v.shown = length v)
    (strings : ∀ v : Value, octets v.shown = octets v) : (ofOctets length octets read).ByContent where
  length := lengths
  write v := by
    have writes : ∀ u : Value, (ofOctets length octets read).write u = (liftM (octets u) >>= Encoding.octets) :=
      fun _ => rfl
    rw [writes, writes, strings]
    exact (same_liftM _).bind same_octets

theorem asInteger_shown (v : Value) : asInteger v.shown = asInteger v := by cases v <;> rfl

theorem asSafeInteger_shown (v : Value) : asSafeInteger v.shown = asSafeInteger v := by cases v <;> rfl

theorem asText_shown (name : String) (v : Value) : asText name v.shown = asText name v := by cases v <;> rfl

theorem toText_shown (name : String) (v : Value) : toText name v.shown = toText name v := by cases v <;> rfl

theorem checkedText_shown (name : String) (alphabet : Char → Bool) (v : Value) :
    checkedText name alphabet v.shown = checkedText name alphabet v := by cases v <;> rfl

theorem asTime_shown (name : String) (v : Value) : asTime name v.shown = asTime name v := by cases v <;> rfl

theorem truth_shown (v : Value) : v.shown.truth = v.truth := by cases v <;> rfl

theorem magnitude_shown (v : Value) : magnitude v.shown = magnitude v := by
  cases v with
  | octets s => simp only [Value.shown_octets, magnitude, asSlice, bind, Except.bind, Slice.octets_shown]
  | _ => rfl

theorem octetString_byContent : octetString.ByContent where
  length v := by
    cases v with
    | octets s => simp only [Value.shown_octets, octetString, asSlice, bind, Except.bind, Slice.length_shown]
    | _ => rfl
  write v := by
    cases v with
    | octets s => exact same_window (Slice.octets_shown s)
    | _ => exact same_throw _

theorem bitString_byContent : bitString.ByContent where
  length v := by
    cases v with
    | bits b => simp only [Value.shown_bits, bitString, asBits, bind, Except.bind, Slice.length_shown]
    | _ => rfl
  write v := by
    cases v with
    | bits b =>
      have writes : ∀ b : BitString, bitString.write (.bits b) = (do
          let data ← b.data.octets
          let unused ← BitString.check b.unused data
          Encoding.octet (UInt8.ofNat unused)
          Encoding.window b.data : Encoding Unit) := fun b => rfl
      rw [Value.shown_bits, writes, writes, Slice.octets_shown]
      exact (same_liftM _).bind fun data => (same_liftM _).bind fun unused => (same_octets _).bind fun _ =>
        same_window (Slice.octets_shown b.data)
    | _ => exact same_throw _

theorem octets_onMagnitude_shown (s : Slice) (m : Octets) :
    (onMagnitude s.shown m).octets = (onMagnitude s m).octets := by
  cases shows : s.octets with
  | error fault => rw [Slice.shown, shows]
  | ok octets =>
    have length := (Slice.length_of_octets shows).2
    simp only [onMagnitude, Slice.length_shown]
    split
    · rfl
    · rw [Slice.octets_dropFirst shows (by omega), Slice.octets_dropFirst (by rwa [Slice.octets_shown]) (by omega)]

theorem unsigned_byContent : unsigned.ByContent where
  length v := by simp only [unsigned, magnitude_shown]
  write v := by
    cases v with
    | octets s =>
      have writes : ∀ s : Slice, unsigned.write (.octets s) = (do
          let m ← magnitude (.octets s)
          (if Content.Integer.startsHigh m then Encoding.octet 0 else pure ())
          Encoding.window (onMagnitude s m) : Encoding Unit) := by
        intro s
        refine congrArg (liftM (magnitude (.octets s)) >>= · : _ → Encoding Unit) (funext fun m => ?_)
        split <;> rfl
      rw [Value.shown_octets, writes, writes, ← Value.shown_octets, magnitude_shown]
      refine (same_liftM _).bind fun m => ?_
      refine Same.bind ?_ fun _ => same_window (octets_onMagnitude_shown s m)
      split
      · exact same_octets _
      · exact same_pure ()
    | _ => exact same_throw _

theorem integer_byContent : integer.ByContent :=
  byContent_ofOctets (fun v => by cases v <;> rfl) fun v => by rw [asInteger_shown]

theorem restricted_byContent (name : String) (alphabet : Char → Bool) : (restricted name alphabet).ByContent := by
  refine byContent_ofOctets (fun v => ?_) fun v => by rw [checkedText_shown]
  rw [checkedText_shown]
  cases v <;> rfl

end ContentRule

theorem Primitive.rule_byContent (p : Primitive) : p.rule.ByContent := by
  have time : ∀ name v, ContentRule.asTime name (Value.shown v) = ContentRule.asTime name v := ContentRule.asTime_shown
  cases p with
  | boolean => exact ContentRule.byContent_ofOctets (fun _ => rfl) fun v => by rw [ContentRule.truth_shown]
  | integer => exact ContentRule.integer_byContent
  | safeInteger =>
    exact ContentRule.byContent_ofOctets (fun v => by rw [ContentRule.asSafeInteger_shown])
      fun v => by rw [ContentRule.asSafeInteger_shown]
  | unsigned => exact ContentRule.unsigned_byContent
  | bitString => exact ContentRule.bitString_byContent
  | octetString => exact ContentRule.octetString_byContent
  | null => exact ⟨fun _ => rfl, fun _ => same_pure ()⟩
  | objectIdentifier =>
    exact ContentRule.byContent_ofOctets (fun v => by rw [ContentRule.asText_shown])
      fun v => by rw [ContentRule.asText_shown]
  | utf8String =>
    exact ContentRule.byContent_ofOctets (fun v => by rw [ContentRule.toText_shown])
      fun v => by rw [ContentRule.toText_shown]
  | printableString | ia5String => exact ContentRule.restricted_byContent _ _
  | utcTime | generalizedTime => exact ContentRule.byContent_ofOctets (fun v => by rw [time]) fun v => by rw [time]

theorem Primitive.byContent (p : Primitive) : p.codec.ByContent :=
  ⟨p.rule_byContent.length, p.rule_byContent.write⟩

theorem UntaggedCodec.any_byContent : any.ByContent where
  encodedLength v := by
    cases v with
    | any a => simp only [Value.shown_any, any, asAny, bind, Except.bind, Any.encodedLength, Slice.length_shown]
    | _ => rfl
  encode v := by
    cases v with
    | any a => exact same_window (Slice.octets_shown a.encoded)
    | _ => exact same_throw _

theorem UntaggedCodec.timeType_shown (v : Value) : timeType v.shown = timeType v := by
  rw [timeType, timeType, ContentRule.asTime_shown]

theorem UntaggedCodec.time_byContent : time.ByContent where
  encodedLength v := by
    have blind : ∀ p : Primitive, p.codec.encodedLength v.shown = p.codec.encodedLength v := fun p =>
      Codec.ByContent.encodedLength (c := .tagged p.codec) p.byContent v
    simp only [time, timeType_shown, blind]
  encode v := by
    have writes : ∀ u : Value, time.encode u = (liftM (timeType u) >>= fun p => p.codec.encode u) := fun _ => rfl
    rw [writes, writes, timeType_shown]
    exact (same_liftM _).bind fun p => Codec.ByContent.encode (c := .tagged p.codec) p.byContent v

theorem TaggedCodec.explicit_byContent (name : String) (tag : Tag) {inner : Codec} (blind : inner.ByContent) :
    (explicit name tag inner).ByContent :=
  ⟨blind.encodedLength, blind.encode⟩

theorem TaggedCodec.ByContent.implicit {inner : TaggedCodec} (blind : inner.ByContent) (name : String)
    (tagClass number : Number) : (inner.implicit name tagClass number).ByContent :=
  ⟨blind.contentLength, blind.writeContent⟩

theorem TaggedCodec.ByContent.refine {inner : TaggedCodec} (blind : inner.ByContent) {condition : Condition}
    (seen : condition.ByContent) : (inner.refine condition).ByContent where
  contentLength v := by rw [refine_contentLength, refine_contentLength, seen v, blind.contentLength]
  writeContent := blind.writeContent

namespace Codec

variable {α β : Type} {change : α → β} {parts : List α}

theorem sumLengths_map {measure : β → Except Fault Nat} {measure' : α → Except Fault Nat}
    (same : ∀ part ∈ parts, measure (change part) = measure' part) :
    sumLengths measure (parts.map change) = sumLengths measure' parts := by
  induction parts with
  | nil => rfl
  | cons part rest ih =>
    rw [List.map_cons, sumLengths, sumLengths, same part List.mem_cons_self,
      ih fun other later => same other (List.mem_cons_of_mem _ later)]

end Codec

namespace Collection

theorem count?_shown (v : Value) : count? v.shown = count? v := by
  cases v with
  | list items => rw [Value.shown_list, count?, count?, List.length_map]
  | sparse before after => rw [Value.shown_sparse, count?, count?, List.length_map, List.length_map]
  | _ => rfl

theorem place_shown (v : Value) : place v.shown = (place v).map Value.shown := by cases v <;> rfl

theorem places_shown (name : String) (v : Value) :
    places name v.shown = (places name v).map (List.map (Option.map Value.shown)) := by
  cases v with
  | list items =>
    rw [Value.shown_list]
    simp only [places, Except.map, List.map_map]
    rfl
  | sparse before after =>
    rw [Value.shown_sparse]
    simp only [places, Except.map, List.map_append, List.map_cons, List.map_map, Option.map_none, Function.comp_def,
      place_shown]
  | _ => rfl

theorem filterMap_shown (places : List (Option Value)) :
    (places.map (Option.map Value.shown)).filterMap id = (places.filterMap id).map Value.shown := by
  rw [List.filterMap_map, List.map_filterMap]
  rfl

theorem getD_shown (places : List (Option Value)) :
    (places.map (Option.map Value.shown)).map (·.getD .undefined) =
      (places.map (·.getD .undefined)).map Value.shown := by
  rw [List.map_map, List.map_map]
  exact List.map_congr_left fun place _ => by cases place <;> rfl

theorem any_isNone_shown (places : List (Option Value)) :
    (places.map (Option.map Value.shown)).any (·.isNone) = places.any (·.isNone) := by
  rw [List.any_map]
  exact congrArg places.any (funext fun place => Option.isNone_map)

variable {name : String} {bounds : SizeBounds} {item : Codec} (blind : item.ByContent)

include blind

theorem contentLength_shown (v : Value) : contentLength name bounds item v.shown = contentLength name bounds item v := by
  have sums : ∀ places : List (Option Value),
      Codec.sumLengths item.encodedLength ((places.map (Option.map Value.shown)).filterMap id) =
        Codec.sumLengths item.encodedLength (places.filterMap id) := by
    intro places
    rw [filterMap_shown, Codec.sumLengths_map fun u _ => blind.encodedLength u]
  rw [contentLength, contentLength, count?_shown, places_shown]
  cases places name v with
  | error fault => rfl
  | ok places => simp only [Except.map, bind, Except.bind, sums]

theorem writeInOrder_shown (v : Value) : Same (writeInOrder name item v.shown) (writeInOrder name item v) := by
  rw [writeInOrder, writeInOrder, places_shown]
  refine same_map fun places => ?_
  rw [getD_shown]
  exact same_forM fun u _ => blind.encode u

theorem writeSorted_shown (v : Value) : Same (writeSorted name item v.shown) (writeSorted name item v) := by
  have each : ∀ values : List Value, (values.map Value.shown).mapM item.toOctets = values.mapM item.toOctets := by
    intro values
    simp only [List.mapM_map, Function.comp_def, blind.toOctets]
  have strings : ∀ octets : List Octets, Same (octets.forM Encoding.octets) (octets.forM Encoding.octets) := by
    intro octets
    have alone : Same ((octets.map id).forM Encoding.octets) (octets.forM Encoding.octets) :=
      same_forM fun part _ => same_octets part
    rwa [List.map_id] at alone
  rw [writeSorted, writeSorted, places_shown]
  refine same_map fun places => ?_
  rw [filterMap_shown, each, any_isNone_shown]
  refine (same_liftM _).bind fun encoded => (strings _).bind fun _ => ?_
  split
  · exact same_throw _
  · exact same_pure ()

end Collection

theorem TaggedCodec.sequenceOf_byContent (name : String) (tag : Tag) (bounds : SizeBounds) {item : Codec}
    (blind : item.ByContent) : (sequenceOf name tag bounds item).ByContent :=
  ⟨Collection.contentLength_shown blind, Collection.writeInOrder_shown blind⟩

theorem TaggedCodec.setOf_byContent (name : String) (tag : Tag) (bounds : SizeBounds) {item : Codec}
    (blind : item.ByContent) : (setOf name tag bounds item).ByContent :=
  ⟨Collection.contentLength_shown blind, Collection.writeSorted_shown blind⟩

namespace Member

variable {container : String} {members : List Member} (blind : ∀ m ∈ members, m.codec.ByContent)

include blind

theorem select_shown (record : Record) : select container (Value.shownEntries record) members =
    (select container record members).map (List.map fun part => (part.1, part.2.shown)) := by
  induction members with
  | nil => rfl
  | cons m rest ih =>
    have others := ih fun m' later => blind m' (List.mem_cons_of_mem _ later)
    have own : ∀ v : Value, m.isDefault v.shown = m.isDefault v := fun v => by
      rw [isDefault, isDefault, (blind m List.mem_cons_self).toOctets]
    rw [select, select, Value.member?_shownEntries]
    cases record.member? m.name with
    | none =>
      simp only [Option.map_none]
      by_cases absent : m.presence.mayBeAbsent = true
      · rw [if_pos absent, if_pos absent, others]
      · rw [if_neg absent, if_neg absent]
        rfl
    | some v =>
      simp only [Option.map_some, own, others]
      cases m.isDefault v with
      | error fault => rfl
      | ok omitted =>
        cases omitted with
        | true => rfl
        | false => cases select container record rest <;> rfl

theorem contentLength_shown (v : Value) :
    contentLength container members v.shown = contentLength container members v := by
  rw [contentLength, contentLength, Value.toRecord_shown]
  cases v.toRecord container with
  | error fault => rfl
  | ok record =>
    simp only [Except.map, bind, Except.bind, select_shown blind]
    cases selected : select container record members with
    | error fault => rfl
    | ok chosen =>
      apply Codec.sumLengths_map
      intro part member
      obtain ⟨m, within, same, _⟩ := mem_of_select selected part member
      rw [same]
      exact (blind m within).encodedLength part.2

theorem writeContent_shown (v : Value) :
    Same (writeContent container members v.shown) (writeContent container members v) := by
  rw [writeContent, writeContent, Value.toRecord_shown]
  refine same_map fun record => ?_
  rw [select_shown blind]
  cases selected : select container record members with
  | error fault => exact same_throw fault
  | ok chosen =>
    refine same_forM fun part member => ?_
    obtain ⟨m, within, same, _⟩ := mem_of_select selected part member
    rw [same]
    exact (blind m within).encode part.2

end Member

namespace Schema

/-- What is written for a value of a declared type goes by content if the conditions do. -/
theorem Declared.byContent {T : Schema} (declared : T.Declared) (blind : T.ByContent) : T.codec.ByContent := by
  induction declared using Declared.induct with
  | primitive p => exact p.byContent
  | time => exact UntaggedCodec.time_byContent
  | any => exact UntaggedCodec.any_byContent
  | @sequence name tag fields types declared _ _ ih =>
    have each : ∀ m ∈ (fieldCodecs fields).map Member.ofField, m.codec.ByContent := by
      intro m member
      obtain ⟨f, field, rfl⟩ := Member.mem_ofField member
      exact ih f field (blind.child (List.mem_map_of_mem field))
    exact ⟨Member.contentLength_shown each, Member.writeContent_shown each⟩
  | @set name tag fields types declared _ _ _ ih =>
    have each : ∀ m ∈ Member.canonical ((fieldCodecs fields).map Member.ofField), m.codec.ByContent := by
      intro m member
      obtain ⟨f, field, rfl⟩ := Member.mem_ofField (Member.mem_canonical member)
      exact ih f field (blind.child (List.mem_map_of_mem field))
    exact ⟨Member.contentLength_shown each, Member.writeContent_shown each⟩
  | sequenceOf name tag bounds type declared ih =>
    exact TaggedCodec.sequenceOf_byContent _ _ _ (ih (blind.child List.mem_cons_self))
  | setOf name tag bounds type declared ih =>
    exact TaggedCodec.setOf_byContent _ _ _ (ih (blind.child List.mem_cons_self))
  | explicit name tag type declared ih =>
    exact TaggedCodec.explicit_byContent _ _ (ih (blind.child List.mem_cons_self))
  | implicit name tagClass number type declared fixed ih =>
    have inner := ih (blind.child List.mem_cons_self)
    rw [fixed] at inner
    rw [codec, fixed]
    exact TaggedCodec.ByContent.implicit inner _ _ _
  | refine condition type declared fixed ih =>
    have inner := ih (blind.child List.mem_cons_self)
    rw [fixed] at inner
    rw [codec, fixed]
    exact TaggedCodec.ByContent.refine inner (blind _ _ (.self _))

end Schema

end Der
