import Der.Proofs.Framing
import Der.Proofs.Schema.Distinct

namespace Der

theorem Presence.mem_reach_iff {α : Type} {presence : α → Presence} {parts : List α} {part : α} :
    part ∈ reach presence parts ↔ ∃ j : Nat, parts[j]? = some part ∧
      ∀ k other, k < j → parts[k]? = some other → (presence other).mayBeAbsent = true := by
  induction parts with
  | nil =>
    constructor
    · intro reached
      cases reached
    · intro parts
      obtain ⟨j, found, _⟩ := parts
      cases found
  | cons first rest ih =>
    rw [mem_reach_cons, ih]
    constructor
    · intro reached
      rcases reached with rfl | ⟨optional, j, found, absent⟩
      · exact ⟨0, rfl, fun k other before => absurd before (Nat.not_lt_zero k)⟩
      · refine ⟨j + 1, found, ?_⟩
        intro k other before at_
        cases k with
        | zero =>
          cases at_
          exact optional
        | succ k => exact absent k other (Nat.lt_of_succ_lt_succ before) at_
    · intro parts
      obtain ⟨j, found, absent⟩ := parts
      cases j with
      | zero =>
        cases found
        exact Or.inl rfl
      | succ j =>
        refine Or.inr ⟨absent 0 first (Nat.succ_pos j) rfl, j, found, ?_⟩
        exact fun k other before => absent (k + 1) other (Nat.succ_lt_succ before)

/-- A type with a fixed tag accepts that tag. -/
theorem Codec.accepts_fixed {c : Codec} {tag : Tag} (fixed : c.tag? = some tag) (valid : tag.WellFormed) :
    c.accepts tag = true := by
  cases c with
  | untagged c => cases fixed
  | tagged c =>
    cases fixed
    exact valid.equals_self

namespace Field

variable {α : Type}

/-- The first field may be absent, and so may all the fields between it and the second one. -/
def Follows (fields : List (Field α)) (f g : Field α) : Prop :=
  f.presence.mayBeAbsent = true ∧ ∃ i j : Nat, i < j ∧ fields[i]? = some f ∧ fields[j]? = some g ∧
    ∀ k h, i < k → k < j → fields[k]? = some h → h.presence.mayBeAbsent = true

theorem follows_cons {first f g : Field α} {rest : List (Field α)} :
    Follows (first :: rest) f g ↔
      (f = first ∧ f.presence.mayBeAbsent = true ∧ g ∈ Presence.reach Field.presence rest) ∨ Follows rest f g := by
  rw [Presence.mem_reach_iff]
  constructor
  · intro follows
    obtain ⟨optional, i, j, less, isFirst, isSecond, absent⟩ := follows
    obtain ⟨j, rfl⟩ := Nat.exists_eq_succ_of_ne_zero (Nat.ne_of_gt (Nat.zero_lt_of_lt less))
    cases i with
    | zero =>
      cases isFirst
      refine Or.inl ⟨rfl, optional, j, isSecond, ?_⟩
      exact fun k h before => absent (k + 1) h (Nat.succ_pos k) (Nat.succ_lt_succ before)
    | succ i =>
      refine Or.inr ⟨optional, i, j, Nat.lt_of_succ_lt_succ less, isFirst, isSecond, ?_⟩
      exact fun k h after before => absent (k + 1) h (Nat.succ_lt_succ after) (Nat.succ_lt_succ before)
  · intro parts
    rcases parts with ⟨rfl, optional, j, isSecond, absent⟩ | ⟨optional, i, j, less, isFirst, isSecond, absent⟩
    · refine ⟨optional, 0, j + 1, Nat.succ_pos j, rfl, isSecond, ?_⟩
      intro k h after before at_
      obtain ⟨k, rfl⟩ := Nat.exists_eq_succ_of_ne_zero (Nat.ne_of_gt after)
      exact absent k h (Nat.lt_of_succ_lt_succ before) at_
    · refine ⟨optional, i + 1, j + 1, Nat.succ_lt_succ less, isFirst, isSecond, ?_⟩
      intro k h after before at_
      obtain ⟨k, rfl⟩ := Nat.exists_eq_succ_of_ne_zero (Nat.ne_of_gt (Nat.zero_lt_of_lt after))
      exact absent k h (Nat.lt_of_succ_lt_succ after) (Nat.lt_of_succ_lt_succ before) at_

theorem follows_next {f g : Field α} {rest : List (Field α)} (optional : f.presence.mayBeAbsent = true) :
    Follows (f :: g :: rest) f g :=
  follows_cons.mpr (Or.inl ⟨rfl, optional, Presence.mem_reach_cons.mpr (Or.inl rfl)⟩)

theorem Follows.mem {fields : List (Field α)} {f g : Field α} (follows : Follows fields f g) : f ∈ fields ∧ g ∈ fields := by
  obtain ⟨_, i, j, _, isFirst, isSecond, _⟩ := follows
  exact ⟨List.mem_of_getElem? isFirst, List.mem_of_getElem? isSecond⟩

variable {f g : Field Codec} {fields rest : List (Field Codec)}

theorem exists_of_clashIn? {name : String} (found : f.clashIn? rest = some name) :
    ∃ g ∈ Presence.reach Field.presence rest, g.name = name ∧ f.clashes g = true := by
  induction rest with
  | nil => cases found
  | cons later rest ih =>
    rw [clashIn?] at found
    by_cases clash : f.clashes later = true
    · rw [if_pos clash] at found
      exact ⟨later, Presence.mem_reach_cons.mpr (Or.inl rfl), Option.some.inj found, clash⟩
    · rw [if_neg clash] at found
      by_cases optional : later.presence.mayBeAbsent = true
      · rw [if_pos optional] at found
        obtain ⟨g, reached, same⟩ := ih found
        exact ⟨g, Presence.mem_reach_cons.mpr (Or.inr ⟨optional, reached⟩), same⟩
      · rw [if_neg optional] at found
        cases found

/-- The fields of a reported ambiguity follow each other and clash. -/
theorem exists_of_ambiguity? {name later : String} (found : ambiguity? fields = some (name, later)) :
    ∃ f g, Follows fields f g ∧ f.name = name ∧ g.name = later ∧ f.clashes g = true := by
  induction fields with
  | nil => cases found
  | cons first rest ih =>
    rw [ambiguity?] at found
    split at found
    · rename_i other clash
      cases found
      by_cases optional : first.presence.mayBeAbsent = true
      · rw [if_pos optional] at clash
        obtain ⟨g, reached, same, clashes⟩ := exists_of_clashIn? clash
        exact ⟨first, g, follows_cons.mpr (Or.inl ⟨rfl, optional, reached⟩), rfl, same, clashes⟩
      · rw [if_neg optional] at clash
        cases clash
    · obtain ⟨f, g, follows, same⟩ := ih found
      exact ⟨f, g, follows_cons.mpr (Or.inr follows), same⟩

/-- If no ambiguity is reported, no field clashes with one that can follow it. -/
theorem clashes_of_ambiguity? (clear : ambiguity? fields = none) :
    ∀ f g, Follows fields f g → f.clashes g = false := by
  induction fields with
  | nil =>
    intro f g follows
    cases follows.mem.1
  | cons first rest ih =>
    obtain ⟨own, others⟩ := ambiguity?_cons clear
    intro f g follows
    rcases follows_cons.mp follows with ⟨rfl, optional, reached⟩ | later
    · exact clashes_of_clashIn? (own optional) g reached
    · exact ih others f g later

/-- Fields clash if they share a tag, provided that one of them has a fixed tag. -/
theorem clashes_iff (own : ∀ tag, f.type.tag? = some tag → tag.WellFormed)
    (own' : ∀ tag, g.type.tag? = some tag → tag.WellFormed) : f.clashes g = true ↔
    (f.type.tag?.isSome = true ∨ g.type.tag?.isSome = true) ∧ ∃ t, f.type.accepts t = true ∧ g.type.accepts t = true := by
  constructor
  · intro clash
    simp only [clashes, Bool.or_eq_true, Option.any_eq_true] at clash
    rcases clash with ⟨tag, fixed, accepted⟩ | ⟨tag, fixed, accepted⟩
    · exact ⟨Or.inl (Option.isSome_of_eq_some fixed), tag, Codec.accepts_fixed fixed (own tag fixed), accepted⟩
    · exact ⟨Or.inr (Option.isSome_of_eq_some fixed), tag, accepted, Codec.accepts_fixed fixed (own' tag fixed)⟩
  · intro parts
    obtain ⟨fixed, t, first, second⟩ := parts
    by_contra clear
    have apart := apart_of_clashes (Bool.eq_false_iff.mpr clear) fixed t second
    rw [first] at apart
    cases apart

theorem blameless_checkDefaults (measures : ∀ f ∈ fields, ∃ regular sure, f.type.Measures regular sure) :
    Fault.Blameless (checkDefaults fields) := by
  induction fields with
  | nil => exact Fault.only_ok ()
  | cons first rest ih =>
    have others := ih fun f later => measures f (List.mem_cons_of_mem first later)
    obtain ⟨_, _, own⟩ := measures first List.mem_cons_self
    rw [checkDefaults]
    cases first.presence.default? with
    | none => exact others
    | some v => exact (own.blameless_toOctets v).bind fun _ => others

end Field

namespace Member

open Decoding

variable {container : String} {source record : Record} {m : Member} {rest : List Member} {fields : List (Field Codec)}
  {octets : Octets} {d d' : Decoder}

/-- What is written for the member is one element that the member accepts. -/
def Tells (m : Member) (source : Record) : Prop :=
  ∀ v octets, source.member? m.name = some v → m.codec.toOctets v = .ok octets →
    ∃ t : Tag, t.Frames octets ∧ m.codec.accepts t = true

/-- From one record to the other, each member has been handed what is read from the octets that are written for it in the
source, and nothing else. One that was left out has been handed its default, if there is one. -/
inductive Handed (source : Record) : List Member → Record → Record → Prop
  | nil (record : Record) : Handed source [] record record
  | skip {m : Member} {rest : List Member} {record skipped after : Record} (left : m.LeftOut source)
      (becomes : skipped = (m.presence.default?.elim record fun v => record.assign m.name v))
      (others : Handed source rest skipped after) : Handed source (m :: rest) record after
  | read {m : Member} {rest : List Member} {record after : Record} {v w : Value} {octets : Octets} {d d' : Decoder}
      (present : source.member? m.name = some v) (differs : m.isDefault v = .ok false)
      (written : m.codec.toOctets v = .ok octets) (takes : d.Takes octets d')
      (decoded : m.codec.decode.run d = .ok w d') (others : Handed source rest (record.assign m.name w) after) :
      Handed source (m :: rest) record after

theorem mayBeAbsent_of_leftOut {f : Field Codec} (left : (ofField f).LeftOut source) : f.presence.mayBeAbsent = true := by
  rcases left with ⟨_, optional⟩ | ⟨v, _, same⟩
  · exact optional
  · obtain ⟨name, presence, type⟩ := f
    cases presence with
    | required => cases same
    | optional => rfl
    | default u => rfl

/-- A member that may be absent is skipped if nothing stands ahead, or an element of another type. -/
theorem run_readSequence_of_foreign (optional : m.presence.mayBeAbsent = true)
    (foreign : d.rest = [] ∨ ∃ t : Tag, t.Leads d.rest ∧ m.codec.accepts t = false) (bounded : d.Bounded)
    (admits : d.Admits 0) : (readSequence container (m :: rest) record).run d =
      (readSequence container rest (m.presence.default?.elim record fun v => record.assign m.name v)).run d := by
  obtain ⟨_, looked, rfl⟩ := finds_not_comes optional foreign bounded rfl admits
  rw [readSequence_cons, EStateM.run_bind, looked]
  simp only [Bool.false_eq_true, if_false, skip]
  cases presence : m.presence with
  | required => rw [presence] at optional; cases optional
  | optional => rfl
  | default v => rfl

/-- A member is read if an element that it accepts stands ahead. -/
theorem run_readSequence_of_leads {t : Tag} (leads : t.Leads d.rest) (accepted : m.codec.accepts t = true)
    (bounded : d.Bounded) (admits : d.Admits 0) : (readSequence container (m :: rest) record).run d =
      (m.read >>= fun v => readSequence container rest (record.assign m.name v)).run d := by
  obtain ⟨_, looked, rfl⟩ := finds_comes leads accepted bounded rfl admits
  rw [readSequence_cons, EStateM.run_bind, looked]
  rfl

theorem decode_of_read {v : Value} (run : m.read.run d = .ok v d') : m.codec.decode.run d = .ok v d' := by
  obtain ⟨_, _, begun, run⟩ := bind_eq_ok run
  cases begun
  obtain ⟨v', e, decoded, run⟩ := bind_eq_ok run
  simp only [EStateM.run_bind, EStateM.run_get] at run
  split at run
  · cases run
  · cases run
    exact decoded

/-- The octets begin with a tag of a field that can come first. -/
theorem Laid.begins (tells : ∀ f ∈ fields, (ofField f).Tells source) (laid : Laid source (fields.map ofField) octets) :
    octets = [] ∨
      ∃ t : Tag, t.Leads octets ∧ ∃ g ∈ Presence.reach Field.presence fields, g.type.accepts t = true := by
  induction fields generalizing octets with
  | nil =>
    cases laid
    exact Or.inl rfl
  | cons f rest ih =>
    rw [List.map_cons] at laid
    cases laid with
    | skip left others =>
      rcases ih (fun g later => tells g (List.mem_cons_of_mem f later)) others with none | ⟨t, leads, g, reached, accepted⟩
      · exact Or.inl none
      · exact Or.inr ⟨t, leads, g, Presence.mem_reach_cons.mpr (Or.inr ⟨mayBeAbsent_of_leftOut left, reached⟩), accepted⟩
    | put present differs yields others =>
      obtain ⟨t, frames, accepted⟩ := tells f List.mem_cons_self _ _ present yields.toOctets
      exact Or.inr ⟨t, frames.leads.append _, f, Presence.mem_reach_cons.mpr (Or.inl rfl), accepted⟩

/-- If fields accept no tag of those that can follow them while they are absent, reading hands each member what was
written for it. -/
theorem handed_of_run (framed : ∀ f ∈ fields, f.type.Framed) (tells : ∀ f ∈ fields, (ofField f).Tells source)
    (apart : ∀ f g, Field.Follows fields f g → ∀ t, g.type.accepts t = true → f.type.accepts t = false)
    (laid : Laid source (fields.map ofField) octets) (bounded : d.Bounded) (admits : d.Admits 0) (ahead : d.rest = octets)
    {after : Record} (run : (readSequence container (fields.map ofField) record).run d = .ok after d') :
    Handed source (fields.map ofField) record after := by
  induction fields generalizing octets record d with
  | nil =>
    cases run
    exact .nil _
  | cons f rest ih =>
    have tellsLater := fun g later => tells g (List.mem_cons_of_mem f later)
    have others := fun {octets record d} => @ih octets record d (fun g later => framed g (List.mem_cons_of_mem f later))
      tellsLater fun g h follows => apart g h (Field.follows_cons.mpr (Or.inr follows))
    subst ahead
    rw [List.map_cons] at laid run ⊢
    generalize stands : d.rest = octets at laid
    cases laid with
    | skip left laid =>
      have optional := mayBeAbsent_of_leftOut left
      have foreign : d.rest = [] ∨ ∃ t : Tag, t.Leads d.rest ∧ f.type.accepts t = false := by
        rw [stands]
        refine (laid.begins tellsLater).imp_right ?_
        rintro ⟨t, leads, g, reached, accepted⟩
        exact ⟨t, leads, apart f g (Field.follows_cons.mpr (Or.inl ⟨rfl, optional, reached⟩)) t accepted⟩
      rw [run_readSequence_of_foreign (m := ofField f) optional foreign bounded admits] at run
      exact .skip left rfl (others laid bounded admits stands run)
    | @put _ _ v first octets present differs yields laid =>
      obtain ⟨t, frames, accepted⟩ := tells f List.mem_cons_self _ _ present yields.toOctets
      rw [run_readSequence_of_leads (m := ofField f) (stands ▸ frames.leads.append octets) accepted bounded admits] at run
      obtain ⟨w, e, read, run⟩ := bind_eq_ok run
      have decoded := decode_of_read read
      obtain ⟨octets', takes, t', frames', _⟩ := (framed f List.mem_cons_self).reads bounded decoded
      have same : octets' = first :=
        frames'.eq_of_ahead frames (takes.ahead ▸ List.prefix_append octets' e.rest)
          (stands ▸ List.prefix_append first octets)
      subst same
      have behind : e.rest = octets := by rw [takes.state, Decoder.rest_skip_of_ahead stands]
      have admits' : e.Admits 0 := by
        rw [takes.state]
        exact admits
      exact .read present differs yields.toOctets takes decoded (others laid (takes.bounded bounded) admits' behind run)

end Member

namespace TaggedCodec

open Encoding Decoding

/-- A document that has been built is read member by member. -/
theorem laid_of_parse {name : String} {tag : Tag} {fields : List (Field Codec)} {regular sure : Value → Prop}
    (measures : (sequence name tag fields).Measures regular sure)
    (each : ∀ m ∈ fields.map Member.ofField, ∃ regular sure, m.codec.Measures regular sure) {u v : Value} {source : Record}
    {document : Octets} {maxDepth : Number} (is : u.toRecord name = .ok source)
    (yields : Yields ((sequence name tag fields).encodedLength u) ((sequence name tag fields).encode u) document)
    (parsed : Document.parse (.tagged (sequence name tag fields)) maxDepth document = .ok v) :
    ∃ content record d d', v = .record record ∧ Member.Laid source (fields.map Member.ofField) content ∧
      Decoder.Bounded d ∧ d.Admits 0 ∧ d.rest = content ∧
      (Member.readSequence name (fields.map Member.ofField) []).run d = .ok record d' := by
  obtain ⟨header, content, written, rfl, inside⟩ := measures.split yields
  have bounded := Decoder.bounded_ofOctets (header ++ content) maxDepth
  have ahead := Decoder.rest_ofOctets (header ++ content) maxDepth
  have run := Codec.Framed.run_of_parse (c := .tagged _) (sequence_framed name tag fields) parsed
  obtain ⟨h, e, first, run⟩ := bind_eq_ok run
  obtain ⟨_, _, _, valid, _⟩ := expect_eq_ok bounded first
  have same := first.symm.trans (run_expect_of_encode bounded name valid written ahead le_rfl)
  cases same
  have bounded := bounded.skip (Decoder.takes_of_ahead ahead).length_le
  have ahead := Decoder.rest_skip_of_ahead ahead
  obtain ⟨n, isCount, room, _, shallow, e, run⟩ := nested_eq_ok bounded run
  cases Number.natCast_inj isCount
  obtain ⟨_, _, body, ended⟩ := bind_eq_ok run
  obtain ⟨record, d', reads, last⟩ := bind_eq_ok body
  cases last
  obtain ⟨_, _, _, last⟩ := bind_eq_ok ended
  cases last
  refine ⟨content, record, _, _, rfl, Member.laid_of_yields each is inside, bounded.scope room, ?_, ?_, reads⟩
  · intro k least
    rwa [Nat.le_zero.mp least]
  · rw [bounded.rest_scope room, ahead, List.take_length]

end TaggedCodec

namespace Schema

theorem mem_fieldCodecs {fields : List (Field Schema)} {f : Field Codec} (member : f ∈ fieldCodecs fields) :
    ∃ g ∈ fields, g.map codec = f := by
  rw [fieldCodecs_eq_map] at member
  exact List.mem_map.mp member

section

variable (name : String) (tagClass? number? : Option Number) {fields : List (Field Schema)}

/-- A declaration is refused for an ambiguity only if the check has found one. -/
theorem declareSequence_eq_error (types : ∀ f ∈ fields, f.type.Declared) {field later : String} :
    declareSequence name tagClass? number? fields = .error (.misuse (.ambiguousField name field later)) ↔
      Field.ambiguity? (fieldCodecs fields) = some (field, later) := by
  have measures : ∀ f ∈ fieldCodecs fields, ∃ regular sure, f.type.Measures regular sure := by
    intro f member
    obtain ⟨g, field, rfl⟩ := mem_fieldCodecs member
    exact ⟨_, _, (types g field).measures⟩
  simp only [declareSequence]
  cases Field.ambiguity? (fieldCodecs fields) with
  | some clash =>
    constructor
    · intro refused
      cases refused
      rfl
    · intro found
      cases found
      rfl
  | none =>
    constructor
    · intro refused
      have blameless := (Field.blameless_checkDefaults measures).bind fun _ =>
        Fault.only_ok (sequence name (constructedTag tagClass? number? sequenceNumber) fields)
      obtain ⟨cause, offset, wrong⟩ := blameless _ refused
      cases wrong
    · intro found
      cases found

section

variable (types : ∀ f ∈ fields, f.type.Declared)
  (valid : ∀ f ∈ fields, ∀ tag, f.type.codec.tag? = some tag → tag.WellFormed)

include types valid

theorem declareSequence_ambiguous_iff :
    (∃ field later, declareSequence name tagClass? number? fields = .error (.misuse (.ambiguousField name field later))) ↔
      ∃ f g, Field.Follows (fieldCodecs fields) f g ∧ (f.type.tag?.isSome = true ∨ g.type.tag?.isSome = true) ∧
        ∃ t, f.type.accepts t = true ∧ g.type.accepts t = true := by
  have known : ∀ f ∈ fieldCodecs fields, ∀ tag, f.type.tag? = some tag → tag.WellFormed := by
    intro f member tag fixed
    obtain ⟨g, field, rfl⟩ := mem_fieldCodecs member
    exact valid g field tag fixed
  have clashes_iff {f g : Field Codec} (follows : Field.Follows (fieldCodecs fields) f g) :=
    Field.clashes_iff (known f follows.mem.1) (known g follows.mem.2)
  constructor
  · intro refused
    obtain ⟨field, later, refused⟩ := refused
    obtain ⟨f, g, follows, _, _, clash⟩ :=
      Field.exists_of_ambiguity? ((declareSequence_eq_error name tagClass? number? types).mp refused)
    exact ⟨f, g, follows, (clashes_iff follows).mp clash⟩
  · intro shared
    obtain ⟨f, g, follows, shared⟩ := shared
    have clash := (clashes_iff follows).mpr shared
    cases found : Field.ambiguity? (fieldCodecs fields) with
    | none => rw [Field.clashes_of_ambiguity? found f g follows] at clash; cases clash
    | some names => exact ⟨_, _, (declareSequence_eq_error name tagClass? number? types).mpr found⟩

/-- What is built for a record and parsed again hands each member what was written for it. -/
theorem handed_of_built {T : Schema} (accepted : declareSequence name tagClass? number? fields = .ok T)
    (fixed : ∀ f g, Field.Follows (fieldCodecs fields) f g → f.type.tag?.isSome = true ∨ g.type.tag?.isSome = true)
    {u v : Value} {source : Record} {document : Octets} {maxDepth : Number} (is : u.toRecord name = .ok source)
    (captured : ∀ f ∈ fields, f.type = .any → ∀ a, source.get? f.name = some (.any a) →
      ∃ d d', Decoder.Bounded d ∧ Any.read.run d = .ok a d')
    (built : Document.build T.codec u = .ok document) (parsed : Document.parse T.codec maxDepth document = .ok v) :
    ∃ record, v = .record record ∧ Member.Handed source ((fieldCodecs fields).map Member.ofField) [] record := by
  have declared := Declared.sequence types accepted
  obtain ⟨rfl, clear, _⟩ := declareSequence_eq_ok accepted
  have measures := declared.measures
  rw [measures.build_eq] at built
  obtain ⟨measured, emits⟩ := measures.toOctets_eq_ok.mp built
  have each : ∀ m ∈ (fieldCodecs fields).map Member.ofField, ∃ regular sure, m.codec.Measures regular sure := by
    intro m member
    obtain ⟨_, within, rfl⟩ := List.mem_map.mp member
    obtain ⟨g, field, rfl⟩ := mem_fieldCodecs within
    exact ⟨_, _, (types g field).measures⟩
  obtain ⟨content, record, d, d', rfl, laid, bounded, admits, ahead, run⟩ :=
    TaggedCodec.laid_of_parse measures each is ⟨measured, emits⟩ parsed
  refine ⟨record, rfl, Member.handed_of_run ?_ ?_ ?_ laid bounded admits ahead run⟩
  · intro f member
    obtain ⟨g, field, rfl⟩ := mem_fieldCodecs member
    exact (types g field).framed
  · intro f member w octets present written
    obtain ⟨g, field, rfl⟩ := mem_fieldCodecs member
    refine (types g field).accepts_of_toOctets ?_ written (valid g field)
    intro any a same
    subst same
    rcases Record.get?_of_member? present with stands | ⟨x, _, wrong⟩
    · exact captured g field any a stands
    · cases wrong
  · intro f g follows
    exact Field.apart_of_clashes (Field.clashes_of_ambiguity? clear f g follows) (fixed f g follows)

/-- Where fixed tags can be written, a sequence is refused as ambiguous just if a field that may be absent and one that can
follow it share a tag, and one of the two has a fixed tag. If fields that can follow each other always have a fixed tag
among them, an accepted sequence hands each member what was written for it, captured elements being those of a reader. -/
theorem declareSequence_refuses_iff :
    ((∃ field later, declareSequence name tagClass? number? fields = .error (.misuse (.ambiguousField name field later))) ↔
      ∃ f g, Field.Follows (fieldCodecs fields) f g ∧ (f.type.tag?.isSome = true ∨ g.type.tag?.isSome = true) ∧
        ∃ t, f.type.accepts t = true ∧ g.type.accepts t = true) ∧
    ∀ {T : Schema}, declareSequence name tagClass? number? fields = .ok T →
      (∀ f g, Field.Follows (fieldCodecs fields) f g → f.type.tag?.isSome = true ∨ g.type.tag?.isSome = true) →
      ∀ {u v : Value} {source : Record} {document : Octets} {maxDepth : Number}, u.toRecord name = .ok source →
        (∀ f ∈ fields, f.type = .any → ∀ a, source.get? f.name = some (.any a) →
          ∃ d d', Decoder.Bounded d ∧ Any.read.run d = .ok a d') →
        Document.build T.codec u = .ok document → Document.parse T.codec maxDepth document = .ok v →
        ∃ record, v = .record record ∧ Member.Handed source ((fieldCodecs fields).map Member.ofField) [] record :=
  ⟨declareSequence_ambiguous_iff name tagClass? number? types valid,
    fun accepted fixed => handed_of_built name tagClass? number? types valid accepted fixed⟩

end

/-- A time that may be absent stands ahead of another time: the declaration is refused if the type of that one has a fixed
tag. A flag ahead of a time is told apart from it. -/
theorem times_refused_and_handed :
    (∃ field later, declareSequence "Period" none none [.optional "from" .time, .required "until" (.primitive .utcTime)] =
      .error (.misuse (.ambiguousField "Period" field later))) ∧
    ∃ record, Value.record [("at", .time (some ⟨0, Nat.zero_le _⟩))] = .record record ∧
      Member.Handed [("at", .time (some ⟨0, Nat.zero_le _⟩))]
        ((fieldCodecs [.optional "critical" (.primitive .boolean), .required "at" .time]).map Member.ofField) [] record := by
  constructor
  · have types : ∀ f ∈ [Field.optional "from" time, .required "until" (primitive .utcTime)], f.type.Declared :=
      List.forall_mem_cons.mpr ⟨.time, List.forall_mem_singleton.mpr (.primitive .utcTime)⟩
    refine (declareSequence_refuses_iff "Period" none none types ?_).1.mpr ?_
    · refine List.forall_mem_cons.mpr ⟨nofun, List.forall_mem_singleton.mpr ?_⟩
      intro tag fixed
      cases fixed
      exact Primitive.utcTime.wellFormed
    · exact ⟨_, _, Field.follows_next rfl, Or.inr rfl, Primitive.utcTime.codec.tag, rfl, rfl⟩
  · have types : ∀ f ∈ [Field.optional "critical" (primitive .boolean), .required "at" time], f.type.Declared :=
      List.forall_mem_cons.mpr ⟨.primitive .boolean, List.forall_mem_singleton.mpr .time⟩
    refine (declareSequence_refuses_iff "Note" none none types ?_).2 (T := sequence "Note" ⟨0, true, 16⟩ _) rfl ?_
      (u := .record [("at", .time (some ⟨0, Nat.zero_le _⟩))]) rfl ?_ rfl (rfl : Document.parse _ 1 _ = _)
    · refine List.forall_mem_cons.mpr ⟨?_, List.forall_mem_singleton.mpr nofun⟩
      intro tag fixed
      cases fixed
      exact Primitive.boolean.wellFormed
    · intro f g follows
      rcases Field.follows_cons.mp follows with ⟨rfl, _, _⟩ | later
      · exact Or.inl rfl
      · rcases Field.follows_cons.mp later with ⟨rfl, optional, _⟩ | none
        · cases optional
        · cases none.mem.1
    · exact List.forall_mem_cons.mpr ⟨nofun, List.forall_mem_singleton.mpr nofun⟩

/-- Types without fixed tags are not compared with each other. A time that may be absent is accepted ahead of another time,
although both types accept the tag of coordinated times, and if both may be absent, the second is read back as the first. -/
theorem times_accepted_and_confused :
    declareSequence "S" none none [.optional "a" .time, .required "b" .time] =
      .ok (sequence "S" ⟨0, true, 16⟩ [.optional "a" .time, .required "b" .time]) ∧
    Field.Follows (fieldCodecs [.optional "a" .time, .required "b" .time])
      (.optional "a" (.untagged .time)) (.required "b" (.untagged .time)) ∧
    (Codec.untagged .time).accepts Primitive.utcTime.codec.tag = true ∧
    declareSequence "S" none none [.optional "a" .time, .optional "b" .time] =
      .ok (sequence "S" ⟨0, true, 16⟩ [.optional "a" .time, .optional "b" .time]) ∧
    ∃ document,
      Document.build (sequence "S" ⟨0, true, 16⟩ [.optional "a" .time, .optional "b" .time]).codec
        (.record [("b", .time (some ⟨0, Nat.zero_le _⟩))]) = .ok document ∧
      Document.parse (sequence "S" ⟨0, true, 16⟩ [.optional "a" .time, .optional "b" .time]).codec 1 document =
        .ok (.record [("a", .time (some ⟨0, Nat.zero_le _⟩))]) := by
  exact ⟨rfl, Field.follows_next rfl, rfl, rfl, _, rfl, rfl⟩

end

end Schema

end Der
