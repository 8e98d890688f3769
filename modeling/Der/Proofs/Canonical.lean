import Der.Proofs.ByContent
import Der.Proofs.Codec.Open
import Der.Proofs.Codec.Structure

namespace Der

open Encoding Decoding

/-- Content that is read is what is written for the value, which is a plain one. -/
def TaggedCodec.Canonical (c : TaggedCodec) : Prop :=
  ∀ count, (c.readContent count).Reads fun v octets =>
    count = octets.length ∧ v.Plain ∧ Yields (c.contentLength v) (c.writeContent v) octets

/-- An element that is read is what is written for the value, which is a plain one. -/
def UntaggedCodec.Canonical (c : UntaggedCodec) : Prop :=
  c.decode.Reads fun v octets => v.Plain ∧ Yields (c.encodedLength v) (c.encode v) octets

/-- What is read is what is written for the value. -/
def Codec.Canonical : Codec → Prop
  | tagged c => c.Canonical
  | untagged c => c.Canonical

theorem TaggedCodec.Canonical.reads {c : TaggedCodec} (canonical : c.Canonical) :
    c.decode.Reads fun v octets => v.Plain ∧ Yields (c.encodedLength v) (c.encode v) octets := by
  refine (reads_expect c.tag c.name).bind ?_
  intro h header parts
  obtain ⟨length, isLength, wrote⟩ := parts
  refine (canonical h.length).mono ?_
  intro v octets parts
  obtain ⟨isCount, plain, yields⟩ := parts
  have same : octets.length = length := Number.natCast_inj (isCount.symm.trans isLength)
  subst same
  exact ⟨plain, yields_of_content yields wrote⟩

theorem Codec.Canonical.reads {c : Codec} (canonical : c.Canonical) :
    c.decode.Reads fun v octets => v.Plain ∧ Yields (c.encodedLength v) (c.encode v) octets := by
  cases c with
  | tagged c => exact TaggedCodec.Canonical.reads canonical
  | untagged c => exact canonical

theorem Primitive.canonical (p : Primitive) : p.codec.Canonical := by
  intro count
  refine reads_content ?_
  intro window octets v shows read
  exact p.rule_lawful.canonical shows read

theorem TaggedCodec.explicit_canonical (name : String) (tag : Tag) {inner : Codec} (canonical : inner.Canonical) :
    (explicit name tag inner).Canonical :=
  fun count => canonical.reads.nested count

theorem TaggedCodec.Canonical.implicit {inner : TaggedCodec} (canonical : inner.Canonical) (name : String)
    (tagClass number : Number) : (inner.implicit name tagClass number).Canonical :=
  canonical

theorem TaggedCodec.Canonical.refine {inner : TaggedCodec} (canonical : inner.Canonical) (condition : Condition) :
    (inner.refine condition).Canonical := by
  intro count
  refine reads_offset.before ?_
  intro start
  refine (canonical count).bind ?_
  intro v octets parts
  obtain ⟨isCount, plain, yields⟩ := parts
  cases met : condition v with
  | some problem => exact (reads_throw _).bind fun _ _ => False.elim
  | none =>
    refine reads_pure ?_
    rw [List.append_nil]
    refine ⟨isCount, plain, ?_, yields.emits⟩
    rw [refine_contentLength, met]
    exact yields.measured

/-- A captured element is written as the octets of the whole of it. -/
theorem UntaggedCodec.yields_any {a : Any} {octets : Octets} (shown : a.encoded.octets = .ok octets) :
    Yields (any.encodedLength (.any a)) (any.encode (.any a)) octets := by
  refine ⟨?_, (emits_window shown False.elim).after rfl⟩
  rw [(Slice.length_of_octets shown).2]
  rfl

theorem UntaggedCodec.yields_of_shows {a : Any} {octets : Octets} (shows : a.Shows octets) :
    Yields (any.encodedLength (.any a)) (any.encode (.any a)) octets := by
  obtain ⟨_, _, _, _, _, _, shown⟩ := shows
  exact yields_any shown

theorem UntaggedCodec.any_canonical : any.Canonical := by
  refine Any.reads_read.bind ?_
  intro a octets shows
  refine reads_pure ?_
  rw [List.append_nil]
  exact ⟨trivial, yields_of_shows shows⟩

/-- Parts that are written one after the other yield their octets joined. -/
theorem Encoding.yields_forM {α : Type} {measure : α → Except Fault Nat} {write : α → Encoding Unit} {parts : List α}
    {strings : List Octets} (each : List.Forall₂ (fun part octets => Yields (measure part) (write part) octets) parts strings) :
    Yields (Codec.sumLengths measure parts) (parts.forM write) strings.flatten := by
  induction each with
  | nil => exact ⟨rfl, emits_pure ()⟩
  | cons first _ others =>
    refine ⟨?_, ?_⟩
    · rw [Codec.sumLengths, first.measured, List.flatten_cons, List.length_append]
      simp only [bind, Except.bind, others.measured]
      rfl
    · rw [List.flatten_cons, List.length_append]
      exact first.emits.bind others.emits

namespace Collection

variable {name : String} {item : Codec} {previous : Octets}

/-- Elements with the octets that are written for each of them. -/
def Written (item : Codec) (items : List Value) (encoded : List Octets) : Prop :=
  List.Forall₂ (fun v octets => Yields (item.encodedLength v) (item.encode v) octets) items encoded

theorem reads_inOrder (canonical : item.Canonical) (fuel : Nat) :
    (readInOrder name item fuel).Reads fun items octets => ∃ encoded, Written item items encoded ∧ octets = encoded.flatten := by
  induction fuel with
  | zero => exact reads_fail _
  | succ fuel ih =>
    refine Reads.after_get ?_
    intro d
    by_cases finished : d.isFinished = true
    · rw [if_pos finished]
      exact reads_pure ⟨[], .nil, rfl⟩
    · rw [if_neg finished]
      refine canonical.reads.bind ?_
      intro v octets parts
      obtain ⟨_, yields⟩ := parts
      refine ih.bind ?_
      intro items _ parts
      obtain ⟨encoded, written, rfl⟩ := parts
      refine reads_pure ?_
      refine ⟨octets :: encoded, .cons yields written, ?_⟩
      rw [List.append_nil, List.flatten_cons]

/-- An element is read together with its octets. -/
theorem reads_element (canonical : item.Canonical) :
    (readElement item).Reads fun read octets =>
      read.2 = octets ∧ Yields (item.encodedLength read.1) (item.encode read.1) octets := by
  intro d d' read bounded run
  obtain ⟨_, _, begun, run⟩ := Decoding.bind_eq_ok run
  cases begun
  obtain ⟨v, e, decoded, run⟩ := Decoding.bind_eq_ok run
  cases run
  obtain ⟨element, takes, _, yields⟩ := canonical.reads bounded decoded
  exact ⟨element, takes, takes.between bounded, yields⟩

theorem reads_sorted (canonical : item.Canonical) (fuel : Nat) :
    (readSorted name item fuel previous).Reads fun items octets => ∃ encoded, Written item items encoded ∧
      octets = encoded.flatten ∧ (previous :: encoded).Pairwise fun a b => Octets.compare a b ≤ 0 := by
  induction fuel generalizing previous with
  | zero => exact reads_fail _
  | succ fuel ih =>
    refine Reads.after_get ?_
    intro d
    by_cases finished : d.isFinished = true
    · rw [if_pos finished]
      exact reads_pure ⟨[], .nil, rfl, List.pairwise_singleton _ _⟩
    · rw [if_neg finished]
      refine (reads_element canonical).bind ?_
      intro parts _ both
      obtain ⟨v, element⟩ := parts
      obtain ⟨rfl, yields⟩ := both
      dsimp only at yields ⊢
      by_cases less : 0 < Octets.compare previous element
      · rw [if_pos less]
        exact (reads_throw _).bind fun _ _ => False.elim
      · rw [if_neg less]
        refine ih.bind ?_
        intro items _ parts
        obtain ⟨encoded, written, rfl, ordered⟩ := parts
        refine reads_pure ?_
        refine ⟨element :: encoded, .cons yields written, ?_, ?_⟩
        · rw [List.append_nil, List.flatten_cons]
        · refine List.pairwise_cons.mpr ⟨?_, ordered⟩
          intro later member
          have first : Octets.compare previous element ≤ 0 := Int.not_lt.mp less
          rcases List.mem_cons.mp member with rfl | member
          · exact first
          · exact Octets.compare_le_trans first ((List.pairwise_cons.mp ordered).1 later member)

/-- A collection is read as its elements are, if there are as many as there may be. -/
theorem reads_content {bounds : SizeBounds} {elements : Nat → Decoding (List Value)} {right : List Value → Octets → Prop}
    (reads : ∀ fuel, (elements fuel).Reads right) (count : Number) :
    (readContent name bounds elements count).Reads fun v octets => count = octets.length ∧
      ∃ items, v = .list items ∧ bounds.Admits items.length ∧ right items octets := by
  refine reads_offset.before ?_
  intro start
  apply Reads.nested
  refine Reads.after_get ?_
  intro d
  refine (reads _).bind ?_
  intro items octets holds
  by_cases admitted : bounds.Admits items.length
  · rw [if_neg fun wrong => wrong admitted]
    refine reads_pure ?_
    rw [List.append_nil]
    exact ⟨items, rfl, admitted, holds⟩
  · rw [if_pos admitted]
    exact (reads_throw _).bind fun _ _ => False.elim

/-- The elements of a set are written in the order of their octets. -/
theorem yields_sorted (name : String) {bounds : SizeBounds} {items : List Value} {encoded : List Octets}
    (admitted : bounds.Admits items.length) (written : Written item items encoded) :
    Yields (contentLength name bounds item (.list items)) (writeSorted name item (.list items))
      (Octets.sort encoded).flatten := by
  have yields := yields_forM written
  have each : items.mapM item.toOctets = .ok encoded := by
    rw [Except.mapM_eq_ok]
    exact written.imp fun v element => Yields.toOctets
  refine ⟨?_, ?_⟩
  · rw [length_flatten_sort, ← yields.measured]
    exact contentLength_of_admits admitted
  · rw [writeSorted_list]
    exact (emits_forM_octets (Octets.sort encoded)).after each

end Collection

theorem TaggedCodec.sequenceOf_canonical (name : String) (tag : Tag) (bounds : SizeBounds) {item : Codec}
    (canonical : item.Canonical) : (sequenceOf name tag bounds item).Canonical := by
  intro count
  refine (Collection.reads_content (Collection.reads_inOrder canonical) count).mono ?_
  intro v _ parts
  obtain ⟨isCount, items, rfl, admitted, encoded, written, rfl⟩ := parts
  have yields := yields_forM written
  refine ⟨isCount, trivial, ?_, ?_⟩
  · rw [← yields.measured]
    exact Collection.contentLength_of_admits admitted
  · have writes : (sequenceOf name tag bounds item).writeContent = Collection.writeInOrder name item := rfl
    rw [writes, Collection.writeInOrder_list]
    exact yields.emits

theorem TaggedCodec.setOf_canonical (name : String) (tag : Tag) (bounds : SizeBounds) {item : Codec}
    (canonical : item.Canonical) : (setOf name tag bounds item).Canonical := by
  intro count
  refine (Collection.reads_content (fun fuel => Collection.reads_sorted canonical fuel) count).mono ?_
  intro v _ parts
  obtain ⟨isCount, items, rfl, admitted, encoded, written, rfl, ordered⟩ := parts
  have sorted := Octets.sort_of_pairwise (List.pairwise_cons.mp ordered).2
  have yields := Collection.yields_sorted name admitted written
  rw [sorted] at yields
  exact ⟨isCount, trivial, yields⟩

namespace Member

variable {container : String} {m : Member} {members passed : List Member} {record : Record}

/-- The default of the member, if it has one, has been written. -/
def Prepared (m : Member) : Prop :=
  ∀ v, m.presence.default? = some v → ∃ octets, m.codec.toOctets v = .ok octets ∧ m.defaultOctets = some octets

/-- What a member is read from is not the default. -/
theorem reads_read (canonical : m.codec.Canonical) :
    m.read.Reads fun v octets => v.Plain ∧ Yields (m.codec.encodedLength v) (m.codec.encode v) octets ∧
      m.defaultOctets ≠ some octets := by
  intro d d' v bounded run
  obtain ⟨_, _, begun, run⟩ := Decoding.bind_eq_ok run
  cases begun
  obtain ⟨v', e, decoded, run⟩ := Decoding.bind_eq_ok run
  obtain ⟨element, takes, plain, yields⟩ := canonical.reads bounded decoded
  simp only [EStateM.run_bind, EStateM.run_get, takes.between bounded] at run
  by_cases equal : m.defaultOctets = some element
  · rw [if_pos equal] at run
    cases run
  · rw [if_neg equal] at run
    cases run
    exact ⟨element, takes, plain, yields, equal⟩

/-- From one record to the other, the members have been read from the octets: other names are as before, and what
is selected for writing yields the octets. -/
structure Filled (container : String) (members : List Member) (before after : Record) (octets : Octets) : Prop where
  others : ∀ name, (∀ m ∈ members, m.name ≠ name) → after.get? name = before.get? name
  selected : ∃ chosen, select container after members = .ok chosen ∧
    Yields (Codec.sumLengths (fun part => part.1.encodedLength part.2) chosen)
      (chosen.forM fun part => part.1.encode part.2) octets

/-- A member that has been read is selected again. -/
theorem Filled.read {after : Record} {v : Value} {first octets : Octets}
    (filled : Filled container members (record.assign m.name v) after octets) (free : record.Free m.name) (plain : v.Plain)
    (yields : Yields (m.codec.encodedLength v) (m.codec.encode v) first) (differs : m.defaultOctets ≠ some first)
    (named : ∀ other ∈ members, other.name ≠ m.name) : Filled container (m :: members) record after (first ++ octets) where
  others := by
    intro name apart
    have before := filled.others name fun other member => apart other (List.mem_cons_of_mem _ member)
    rw [before, Record.get?_assign_of_ne (apart m List.mem_cons_self).symm]
  selected := by
    obtain ⟨chosen, selected, more⟩ := filled.selected
    have held : after.get? m.name = some v := by rw [filled.others m.name named, free.get?_assign]
    have entry : after.member? m.name = some v := Record.member?_of_get? held (by rintro rfl; exact plain)
    have kept : m.isDefault v = .ok false := by
      unfold isDefault
      cases known : m.defaultOctets with
      | none => rfl
      | some octets =>
        have unequal : first ≠ octets := fun same => differs (by rw [known, same])
        simp only [yields.toOctets, bind, Except.bind, decide_eq_false unequal]
        rfl
    refine ⟨(m.codec, v) :: chosen, ?_, ?_, ?_⟩
    · simp only [select, entry, kept, selected, bind, Except.bind]
      rfl
    · simp only [Codec.sumLengths, yields.measured, more.measured, bind, Except.bind, List.length_append]
      rfl
    · rw [List.length_append]
      exact yields.emits.bind more.emits

/-- A member that has been skipped is not selected. -/
theorem reads_skip {missing : Fault.Kind} (prepared : m.Prepared) (free : record.Free m.name)
    (absent : m.presence = .optional → Inherited.ofName? m.name = none) :
    (m.skip container missing record).Reads fun skipped octets => octets = [] ∧
      (∀ name, name ≠ m.name → skipped.get? name = record.get? name) ∧
      ∀ after members, after.get? m.name = skipped.get? m.name →
        select container after (m :: members) = select container after members := by
  unfold skip
  cases presence : m.presence with
  | required => exact reads_fail _
  | optional =>
    refine reads_pure ⟨rfl, fun _ _ => rfl, ?_⟩
    intro after members same
    have none : after.member? m.name = none := Record.member?_of_absent (absent presence) (same.trans free.fresh)
    rw [select, none, presence]
    rfl
  | default v =>
    change (pure (record.assign m.name v) : Decoding Record).Reads _
    refine reads_pure ⟨rfl, fun _ => Record.get?_assign_of_ne, ?_⟩
    intro after members same
    obtain ⟨octets, written, known⟩ := prepared v (by rw [presence]; rfl)
    have omitted : m.isDefault v = .ok true := by
      simp only [isDefault, known, written, bind, Except.bind, decide_true]
      rfl
    rw [free.get?_assign] at same
    -- A default that is undefined is not found, and is passed over as well.
    by_cases found : after.member? m.name = some v
    · simp only [select, found, omitted, bind, Except.bind]
      rfl
    · have none : after.member? m.name = none := by
        rw [Record.member?, same] at found ⊢
        cases v <;> first | rfl | exact absurd rfl found
      rw [select, none, presence]
      rfl

theorem Filled.yields {after : Record} {octets : Octets} (filled : Filled container members record after octets) :
    Yields (contentLength container members (.record after)) (writeContent container members (.record after)) octets := by
  obtain ⟨chosen, selected, measured, emits⟩ := filled.selected
  refine ⟨?_, (emits.after selected).after rfl⟩
  simp only [contentLength, Value.toRecord, bind, Except.bind, selected, measured]

theorem Filled.skip {skipped after : Record} {octets : Octets} (filled : Filled container members skipped after octets)
    (others : ∀ name, name ≠ m.name → skipped.get? name = record.get? name)
    (passed : ∀ after members, after.get? m.name = skipped.get? m.name →
      select container after (m :: members) = select container after members)
    (named : ∀ other ∈ members, other.name ≠ m.name) : Filled container (m :: members) record after octets where
  others := by
    intro name apart
    rw [filled.others name fun other member => apart other (List.mem_cons_of_mem _ member)]
    exact others name (apart m List.mem_cons_self).symm
  selected := by
    obtain ⟨chosen, selected, yields⟩ := filled.selected
    exact ⟨chosen, by rw [passed after members (filled.others m.name named), selected], yields⟩

theorem filled_nil (container : String) (record : Record) : Filled container [] record record [] :=
  ⟨fun _ _ => rfl, [], rfl, rfl, emits_pure ()⟩

/-- Members with codecs in canonical form, none of which has been read yet. -/
structure Readable (members : List Member) (record : Record) : Prop extends Unread members record where
  canonical : ∀ m ∈ members, m.codec.Canonical
  prepared : ∀ m ∈ members, m.Prepared
  absent : ∀ m ∈ members, m.presence = .optional → Inherited.ofName? m.name = none

/-- The same members in another order. -/
theorem Readable.perm {others : List Member} (readable : Readable members record) (same : others.Perm members) :
    Readable others record where
  toUnread := readable.toUnread.perm same
  canonical m member := readable.canonical m (same.mem_iff.mp member)
  prepared m member := readable.prepared m (same.mem_iff.mp member)
  absent m member := readable.absent m (same.mem_iff.mp member)

namespace Readable

variable (readable : Readable (m :: members) record)

include readable

theorem tail {after : Record} (others : ∀ name, name ≠ m.name → after.get? name = record.get? name) :
    Readable members after where
  toUnread := readable.toUnread.tail others
  canonical other member := readable.canonical other (List.mem_cons_of_mem _ member)
  prepared other member := readable.prepared other (List.mem_cons_of_mem _ member)
  absent other member := readable.absent other (List.mem_cons_of_mem _ member)

/-- The member is read, and then the others. -/
theorem read_then {next : Value → Decoding Record}
    (goes : ∀ v, Readable members (record.assign m.name v) →
      (next v).Reads (Filled container members (record.assign m.name v))) :
    (m.read >>= next).Reads (Filled container (m :: members) record) := by
  refine (reads_read (readable.canonical m List.mem_cons_self)).bind ?_
  intro v first parts
  obtain ⟨plain, yields, differs⟩ := parts
  refine (goes v (readable.tail fun _ => Record.get?_assign_of_ne)).mono ?_
  intro after octets filled
  exact filled.read readable.free plain yields differs readable.apart

/-- The member is skipped, and the others are read. -/
theorem skip_then (missing : Fault.Kind) {next : Record → Decoding Record}
    (goes : ∀ skipped, Readable members skipped → (next skipped).Reads (Filled container members skipped)) :
    (m.skip container missing record >>= next).Reads (Filled container (m :: members) record) := by
  refine (reads_skip (readable.prepared m List.mem_cons_self) readable.free
    (readable.absent m List.mem_cons_self)).bind ?_
  intro skipped _ parts
  obtain ⟨rfl, others, passed⟩ := parts
  refine (goes skipped (readable.tail others)).mono ?_
  intro after octets filled
  rw [List.nil_append]
  exact filled.skip others passed readable.apart

end Readable

theorem reads_sequence (readable : Readable members record) :
    (readSequence container members record).Reads (Filled container members record) := by
  induction members generalizing record with
  | nil => exact reads_pure (filled_nil container record)
  | cons m rest ih =>
    rw [readSequence_cons]
    refine (reads_comes m).before ?_
    intro present
    cases present with
    | true => exact readable.read_then fun v others => ih others
    | false => exact readable.skip_then _ fun skipped others => ih others

theorem reads_foldlM_skip {missing : Fault.Kind} (readable : Readable members record) :
    (members.foldlM (fun (record : Record) (m : Member) => m.skip container missing record) record).Reads
      (Filled container members record) := by
  induction members generalizing record with
  | nil => exact reads_pure (filled_nil container record)
  | cons m rest ih =>
    rw [List.foldlM_cons]
    exact readable.skip_then _ fun skipped others => ih others

theorem reads_set (readable : Readable members record) :
    (readSet container passed members record).Reads (Filled container members record) := by
  induction members generalizing passed record with
  | nil =>
    rw [readSet]
    refine reads_peekTag.before ?_
    intro tag
    cases tag with
    | none => exact reads_foldlM_skip readable
    | some tag =>
      dsimp only
      cases passed.find? (·.codec.accepts tag) with
      | some m => exact reads_fail _
      | none => exact reads_fail _
  | cons m rest ih =>
    rw [readSet]
    refine reads_peekTag.before ?_
    intro tag
    cases tag with
    | none => exact reads_foldlM_skip readable
    | some tag =>
      dsimp only
      cases passed.find? (·.codec.accepts tag) with
      | some m' => exact reads_fail _
      | none =>
        by_cases accepted : m.codec.accepts tag = true
        · rw [if_pos accepted]
          exact readable.read_then fun v others => ih others
        · rw [if_neg accepted]
          by_cases later : rest.any (·.codec.accepts tag) = true
          · rw [if_pos later]
            exact readable.skip_then _ fun skipped others => ih others
          · rw [if_neg later]
            exact reads_fail _

end Member

theorem TaggedCodec.sequence_canonical (name : String) (tag : Tag) {fields : List (Field Codec)}
    (readable : Member.Readable (fields.map Member.ofField) []) : (sequence name tag fields).Canonical := by
  intro count
  have body : (do return .record (← Member.readSequence name (fields.map Member.ofField) []) : Decoding Value).Reads
      fun v octets => ∃ after, v = .record after ∧ Member.Filled name (fields.map Member.ofField) [] after octets := by
    refine (Member.reads_sequence readable).bind ?_
    intro after octets filled
    refine reads_pure ?_
    rw [List.append_nil]
    exact ⟨after, rfl, filled⟩
  refine (body.nested count).mono ?_
  intro v octets parts
  obtain ⟨isCount, after, rfl, filled⟩ := parts
  exact ⟨isCount, trivial, filled.yields⟩

theorem TaggedCodec.set_canonical (name : String) (tag : Tag) {fields : List (Field Codec)}
    (readable : Member.Readable (Member.canonical (fields.map Member.ofField)) []) : (set name tag fields).Canonical := by
  intro count
  have body : (do return .record (← Member.readSet name [] (Member.canonical (fields.map Member.ofField)) []) :
      Decoding Value).Reads fun v octets => ∃ after, v = .record after ∧
        Member.Filled name (Member.canonical (fields.map Member.ofField)) [] after octets := by
    refine (Member.reads_set readable).bind ?_
    intro after octets filled
    refine reads_pure ?_
    rw [List.append_nil]
    exact ⟨after, rfl, filled⟩
  refine (body.nested count).mono ?_
  intro v octets parts
  obtain ⟨isCount, after, rfl, filled⟩ := parts
  exact ⟨isCount, trivial, filled.yields⟩

namespace Schema

theorem readable_of_fields {fields : List (Field Schema)} (canonical : ∀ f ∈ fields, f.type.codec.Canonical)
    (defaults : Field.checkDefaults (fieldCodecs fields) = .ok ()) (named : (fields.map Field.name).Nodup)
    (usual : "__proto__" ∉ fields.map Field.name)
    (absent : ∀ f ∈ fields, f.presence = .optional → Inherited.ofName? f.name = none) :
    Member.Readable ((fieldCodecs fields).map Member.ofField) [] where
  canonical m member := by
    obtain ⟨f, field, rfl⟩ := Member.mem_ofField member
    exact canonical f field
  prepared m member := by
    obtain ⟨f, field, rfl⟩ := List.mem_map.mp member
    intro v default
    obtain ⟨octets, written⟩ := toOctets_of_checkDefaults defaults f field v default
    refine ⟨octets, written, ?_⟩
    have same : f.presence.default? = some v := default
    simp only [Member.ofField, same, Option.bind_some, written]
    rfl
  named := by
    rw [fieldCodecs_eq_map, List.map_map, List.map_map]
    exact named
  usual m member := by
    obtain ⟨f, field, rfl⟩ := Member.mem_ofField member
    exact fun same => usual (List.mem_map.mpr ⟨f, field, same⟩)
  absent m member := by
    obtain ⟨f, field, rfl⟩ := Member.mem_ofField member
    exact absent f field
  fresh _ _ := rfl

/-- Every declared type without times of certificates is read as it is written, if its fields can be told apart. -/
theorem Declared.canonical {T : Schema} (declared : T.Declared) (named : T.Named) (traceable : T.Traceable)
    (timeless : ¬ T.Contains .time) : T.codec.Canonical := by
  induction declared using Declared.induct with
  | primitive p => exact p.canonical
  | time => exact absurd (.self _) timeless
  | any => exact UntaggedCodec.any_canonical
  | @sequence name tag fields types declared _ defaults ih =>
    have each : ∀ f ∈ fields, f.type.codec.Canonical := by
      intro f field
      have direct : f.type ∈ (Schema.sequence name tag fields).children := List.mem_map_of_mem field
      exact ih f field (named.child direct) (traceable.child direct) fun within => timeless (.child direct within)
    exact TaggedCodec.sequence_canonical _ _ (readable_of_fields each defaults (named _ (.self _))
      (traceable.usual _ (.self _)) (traceable.absent _ (.self _)))
  | @set name tag fields types declared defaults _ _ ih =>
    have each : ∀ f ∈ fields, f.type.codec.Canonical := by
      intro f field
      have direct : f.type ∈ (Schema.set name tag fields).children := List.mem_map_of_mem field
      exact ih f field (named.child direct) (traceable.child direct) fun within => timeless (.child direct within)
    have readable := readable_of_fields each defaults (named _ (.self _)) (traceable.usual _ (.self _))
      (traceable.absent _ (.self _))
    exact TaggedCodec.set_canonical _ _ (readable.perm (List.mergeSort_perm _ _))
  | sequenceOf name tag bounds type declared ih =>
    have canonical := ih (named.child List.mem_cons_self) (traceable.child List.mem_cons_self) fun within =>
      timeless (.child List.mem_cons_self within)
    exact TaggedCodec.sequenceOf_canonical _ _ _ canonical
  | setOf name tag bounds type declared ih =>
    have canonical := ih (named.child List.mem_cons_self) (traceable.child List.mem_cons_self) fun within =>
      timeless (.child List.mem_cons_self within)
    exact TaggedCodec.setOf_canonical _ _ _ canonical
  | explicit name tag type declared ih =>
    have canonical := ih (named.child List.mem_cons_self) (traceable.child List.mem_cons_self) fun within =>
      timeless (.child List.mem_cons_self within)
    exact TaggedCodec.explicit_canonical _ _ canonical
  | implicit name tagClass number type declared fixed ih =>
    have canonical := ih (named.child List.mem_cons_self) (traceable.child List.mem_cons_self) fun within =>
      timeless (.child List.mem_cons_self within)
    rw [fixed] at canonical
    rw [codec, fixed]
    exact TaggedCodec.Canonical.implicit canonical _ _ _
  | refine condition type declared fixed ih =>
    have canonical := ih (named.child List.mem_cons_self) (traceable.child List.mem_cons_self) fun within =>
      timeless (.child List.mem_cons_self within)
    rw [fixed] at canonical
    rw [codec, fixed]
    exact TaggedCodec.Canonical.refine canonical condition

/-- Building undoes parsing: a document that is accepted is the one that is built from the value. So no two
documents are read as the same value, even if the windows of the values look into documents of their own. Fields
that cannot be told apart from what records have without them are left out here. -/
theorem Declared.build_of_parse {T : Schema} (declared : T.Declared) (named : T.Named) (traceable : T.Traceable)
    (timeless : ¬ T.Contains .time)
    {maxDepth : Number} {document : Octets} {v : Value} (parsed : Document.parse T.codec maxDepth document = .ok v) :
    Document.build T.codec v = .ok document ∧
      (T.ByContent → ∀ maxDepth' document' v', Document.parse T.codec maxDepth' document' = .ok v' →
        v'.shown = v.shown → document' = document) := by
  have built : ∀ {maxDepth document v}, Document.parse T.codec maxDepth document = .ok v →
      T.codec.toOctets v = .ok document := by
    intro maxDepth document v parsed
    unfold Document.parse Decoding.outcome at parsed
    cases run : (Decoding.complete T.codec.decode).run (.ofOctets document maxDepth) with
    | error fault e => rw [run] at parsed; cases parsed
    | ok v' e =>
      rw [run] at parsed
      cases parsed
      have canonical := declared.canonical named traceable timeless
      obtain ⟨_, yields⟩ := canonical.reads.complete (Decoder.bounded_ofOctets document maxDepth) run
      rw [Decoder.rest_ofOctets] at yields
      exact yields.toOctets
  refine ⟨by rw [declared.measures.build_eq, built parsed], ?_⟩
  intro blind maxDepth' document' v' parsed' same
  have first := built parsed
  have second := built parsed'
  rw [← (declared.byContent blind).toOctets, same, (declared.byContent blind).toOctets, first] at second
  injection second with equal
  exact equal.symm

/-- A version with a default, which is written since it is another one, and four bits. -/
theorem build_of_parsed_version_and_flags :
    Document.build (sequence "Settings" ⟨0, true, 16⟩ [⟨"version", .default (.integer 0), .primitive .integer⟩,
        .required "flags" (.primitive .bitString)]).codec
      (.record [("version", .integer 5), ("flags", .bits ⟨4, ⟨[0x30, 7, 2, 1, 5, 3, 2, 4, 0xF0], 8, 1, .document⟩⟩)]) =
      .ok [0x30, 7, 2, 1, 5, 3, 2, 4, 0xF0] := by
  have accepted : declareSequence "Settings" none none [⟨"version", .default (.integer 0), .primitive .integer⟩,
      .required "flags" (.primitive .bitString)] =
      .ok (sequence "Settings" ⟨0, true, 16⟩ [⟨"version", .default (.integer 0), .primitive .integer⟩,
        .required "flags" (.primitive .bitString)]) := rfl
  have declared : Declared (sequence "Settings" ⟨0, true, 16⟩ [⟨"version", .default (.integer 0), .primitive .integer⟩,
      .required "flags" (.primitive .bitString)]) := by
    refine .sequence ?_ accepted
    intro f member
    rcases List.mem_cons.mp member with rfl | member
    · exact .primitive .integer
    · rw [List.mem_singleton.mp member]
      exact .primitive .bitString
  have within : ∀ {S}, Contains (sequence "Settings" ⟨0, true, 16⟩ [⟨"version", .default (.integer 0),
      .primitive .integer⟩, .required "flags" (.primitive .bitString)]) S →
      (S = sequence "Settings" ⟨0, true, 16⟩ [⟨"version", .default (.integer 0), .primitive .integer⟩,
        .required "flags" (.primitive .bitString)]) ∨ ∃ p : Primitive, S = .primitive p := by
    intro S part
    rcases part.eq_or_child with same | ⟨U, direct, inner⟩
    · exact Or.inl same
    · rcases List.mem_cons.mp direct with rfl | direct
      · exact Or.inr ⟨.integer, inner.eq_of_primitive⟩
      · rw [List.mem_singleton.mp direct] at inner
        exact Or.inr ⟨.bitString, inner.eq_of_primitive⟩
  have named : Named (sequence "Settings" ⟨0, true, 16⟩ [⟨"version", .default (.integer 0), .primitive .integer⟩,
      .required "flags" (.primitive .bitString)]) := by
    intro S part
    rcases within part with rfl | ⟨p, rfl⟩
    · decide
    · exact List.nodup_nil
  have traceable : Traceable (sequence "Settings" ⟨0, true, 16⟩ [⟨"version", .default (.integer 0),
      .primitive .integer⟩, .required "flags" (.primitive .bitString)]) := by
    refine ⟨fun S part => ?_, fun S part f field optional => ?_⟩
    · rcases within part with rfl | ⟨p, rfl⟩
      · decide
      · exact List.not_mem_nil
    · rcases within part with rfl | ⟨p, rfl⟩
      · rcases List.mem_cons.mp field with rfl | field
        · cases optional
        · cases List.mem_singleton.mp field
          cases optional
      · cases field
  have timeless : ¬ Contains (sequence "Settings" ⟨0, true, 16⟩ [⟨"version", .default (.integer 0),
      .primitive .integer⟩, .required "flags" (.primitive .bitString)]) .time := by
    intro part
    rcases within part with wrong | ⟨p, wrong⟩ <;> cases wrong
  have parsed : Document.parse (sequence "Settings" ⟨0, true, 16⟩ [⟨"version", .default (.integer 0), .primitive .integer⟩,
      .required "flags" (.primitive .bitString)]).codec 100 [0x30, 7, 2, 1, 5, 3, 2, 4, 0xF0] =
      .ok (.record [("version", .integer 5), ("flags", .bits ⟨4, ⟨[0x30, 7, 2, 1, 5, 3, 2, 4, 0xF0], 8, 1, .document⟩⟩)]) := rfl
  exact (declared.build_of_parse named traceable timeless parsed).1

/-- An optional flag under the name of an inherited member is left out of the document, and found in the record that
is read from it. -/
theorem inherited_member_built :
    Document.parse (sequence "S" ⟨0, true, 16⟩ [.optional "constructor" (.primitive .boolean)]).codec 100 [0x30, 0] =
        .ok (.record []) ∧
      Document.build (sequence "S" ⟨0, true, 16⟩ [.optional "constructor" (.primitive .boolean)]).codec (.record []) =
        .ok [0x30, 3, 1, 1, 0xFF] :=
  ⟨rfl, rfl⟩

end Schema

end Der
