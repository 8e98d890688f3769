import Der.Proofs.Codec.Restores

namespace Der

open Encoding Decoding

namespace Member

variable {container : String} {m : Member} {record : Record} {layers : Nat} {t : Tag} {octets rest : Octets}

/-- A member that has been left out becomes its default, if it has one. -/
theorem finds_skip {missing : Fault.Kind} (optional : m.presence.mayBeAbsent = true) (free : record.Free m.name) :
    Finds layers [] rest (m.skip container missing record)
      (· = record ++ (m.presence.default?.map (m.name, ·)).toList) := by
  unfold skip
  cases presence : m.presence with
  | required => rw [presence] at optional; cases optional
  | optional => exact finds_pure (List.append_nil record).symm
  | default v => exact finds_pure free.assign_eq

/-- A member comes next if an element that it accepts stands ahead. -/
theorem finds_comes (leads : t.Leads rest) (accepted : m.codec.accepts t = true) :
    Finds layers [] rest m.comes (· = true) := by
  unfold comes
  cases m.presence.mayBeAbsent with
  | true =>
    refine (finds_peekTag leads).before_eq ?_
    exact finds_pure accepted
  | false =>
    refine finds_get.before ?_
    intro d parts
    obtain ⟨bounded, ahead⟩ := parts
    have unfinished := bounded.not_isFinished leads.ne_nil (ahead.trans (List.append_nil rest).symm)
    exact finds_pure (by rw [Bool.eq_false_iff.mpr unfinished]; rfl)

/-- A member that may be absent does not come next if nothing stands ahead, or an element of another type. -/
theorem finds_not_comes (optional : m.presence.mayBeAbsent = true)
    (foreign : octets = [] ∨ ∃ t : Tag, t.Leads octets ∧ m.codec.accepts t = false) :
    Finds layers [] octets m.comes (· = false) := by
  unfold comes
  rw [if_pos optional]
  rcases foreign with rfl | ⟨t, leads, refused⟩
  · refine finds_peekTag_nil.before_eq ?_
    exact finds_pure rfl
  · refine (finds_peekTag leads).before_eq ?_
    exact finds_pure refused

theorem finds_read {wanted : Value → Prop} (finds : Finds layers octets rest m.codec.decode wanted)
    (differs : m.defaultOctets ≠ some octets) : Finds layers octets rest m.read wanted := by
  intro d bounded ahead admits
  obtain ⟨v, run, holds⟩ := finds bounded ahead admits
  have between := (Decoder.takes_of_ahead ahead).between bounded
  refine ⟨v, ?_, holds⟩
  simp only [read, EStateM.run_bind, run_offset, run, EStateM.run_get, between]
  rw [if_neg differs]
  rfl

section

variable {source : Record} {members : List Member}

/-- The member is left out of what is written for the record. It is absent, and may be, or it has the element of its
default. -/
def LeftOut (m : Member) (source : Record) : Prop :=
  source.member? m.name = none ∧ m.presence.mayBeAbsent = true ∨ ∃ v, source.member? m.name = some v ∧ m.isDefault v = .ok true

/-- The octets of the members of a record, one after the other. -/
inductive Laid (source : Record) : List Member → Octets → Prop
  | nil : Laid source [] []
  | skip {m : Member} {rest : List Member} {octets : Octets} (left : m.LeftOut source) (others : Laid source rest octets) :
      Laid source (m :: rest) octets
  | put {m : Member} {rest : List Member} {v : Value} {first octets : Octets} (present : source.member? m.name = some v)
      (differs : m.isDefault v = .ok false) (yields : Yields (m.codec.encodedLength v) (m.codec.encode v) first)
      (others : Laid source rest octets) : Laid source (m :: rest) (first ++ octets)

/-- What is written for the members that are selected is laid out in their order. -/
theorem laid_of_selected (measures : ∀ m ∈ members, ∃ regular sure, m.codec.Measures regular sure)
    {chosen : List (Codec × Value)} (selected : select container source members = .ok chosen)
    (yields : Yields (Codec.sumLengths (fun part => part.1.encodedLength part.2) chosen)
      (chosen.forM fun part => part.1.encode part.2) octets) : Laid source members octets := by
  induction members generalizing chosen octets with
  | nil =>
    cases selected
    obtain ⟨rfl, _⟩ := yields.emits.unique (emits_pure ())
    exact .nil
  | cons m rest ih =>
    have fills : ∀ part ∈ chosen, ∀ n, part.1.encodedLength part.2 = .ok n → Fills (part.1.encode part.2) n False False := by
      intro part member n measured
      obtain ⟨u, within, same, _⟩ := mem_of_select selected part member
      obtain ⟨regular, sure, measures⟩ := measures u within
      rw [same] at measured ⊢
      exact (measures.fills measured).mono False.elim False.elim
    have later := fun u within => measures u (List.mem_cons_of_mem m within)
    rcases select_cons_eq_ok selected with ⟨others, left⟩ | ⟨v, more, present, differs, others, rfl⟩
    · exact .skip left (ih later others yields)
    · obtain ⟨first, octets, rfl, yieldsFirst, yieldsMore⟩ := Codec.split_cons fills yields
      exact .put present differs yieldsFirst (ih later others yieldsMore)

theorem laid_of_yields (measures : ∀ m ∈ members, ∃ regular sure, m.codec.Measures regular sure) {v : Value}
    (is : v.toRecord container = .ok source)
    (yields : Yields (contentLength container members v) (writeContent container members v) octets) :
    Laid source members octets := by
  obtain ⟨source', is', measured⟩ := Except.bind_eq_ok.mp yields.measured
  cases Except.ok.inj (is.symm.trans is')
  obtain ⟨chosen, selected, measured⟩ := Except.bind_eq_ok.mp measured
  obtain ⟨source', is', emits⟩ := yields.emits.of_after
  cases Except.ok.inj (is.symm.trans is')
  obtain ⟨chosen', selected', emits⟩ := emits.of_after
  cases Except.ok.inj (selected.symm.trans selected')
  exact laid_of_selected measures selected ⟨measured, emits⟩

end

end Member

namespace Slot

variable {container : String} {layers : Nat} {source record : Record} {s : Slot} {slots : List Slot} {octets : Octets}
  {passed : List Member}

/-- No tag of the second is accepted by the first. -/
def Apart (s u : Slot) : Prop :=
  ∀ t, u.member.codec.accepts t = true → s.member.codec.accepts t = false

/-- Each slot that may be absent is apart from those that can follow it. -/
def Clear : List Slot → Prop
  | [] => True
  | s :: rest =>
    (s.member.presence.mayBeAbsent = true → ∀ u ∈ Presence.reach (fun u => u.member.presence) rest, s.Apart u) ∧
      Clear rest

/-- Octets of the members of a record, one after the other. A member without octets may be absent, and becomes its
default. One that has octets is found in them, and read as its entry. -/
inductive Found (layers : Nat) (source : Record) : List Slot → Octets → Prop
  | nil : Found layers source [] []
  | skip {s : Slot} {rest : List Slot} {octets : Octets} (optional : s.member.presence.mayBeAbsent = true)
      (becomes : s.entry source = s.member.presence.default?.map (s.member.name, ·))
      (others : Found layers source rest octets) : Found layers source (s :: rest) octets
  | read {s : Slot} {rest : List Slot} {v : Value} {t : Tag} {first octets : Octets}
      (becomes : s.entry source = some (s.member.name, v)) (leads : t.Leads first)
      (accepted : s.member.codec.accepts t = true)
      (finds : ∀ rest, Finds layers first rest s.member.read fun w => w.shown = v.shown)
      (others : Found layers source rest octets) : Found layers source (s :: rest) (first ++ octets)

/-- The octets begin with a tag of a member that can come first. -/
theorem Found.begins (found : Found layers source slots octets) : octets = [] ∨
    ∃ t : Tag, t.Leads octets ∧ ∃ s ∈ Presence.reach (fun u => u.member.presence) slots, s.member.codec.accepts t = true := by
  induction found with
  | nil => exact Or.inl rfl
  | @skip s rest octets optional becomes others ih =>
    rcases ih with rfl | ⟨t, leads, u, reached, accepted⟩
    · exact Or.inl rfl
    · exact Or.inr ⟨t, leads, u, Presence.mem_reach_cons.mpr (Or.inr ⟨optional, reached⟩), accepted⟩
  | @read s rest v t first octets becomes leads accepted finds others ih =>
    exact Or.inr ⟨t, leads.append octets, s, Presence.mem_reach_cons.mpr (Or.inl rfl), accepted⟩

theorem entries_cons (s : Slot) (slots : List Slot) (source : Record) :
    entries (s :: slots) source = (s.entry source).toList ++ entries slots source := by
  unfold entries
  rw [List.filterMap_cons]
  cases s.entry source with
  | none => rfl
  | some entry => rfl

/-- The record has grown by the entries of the slots. -/
def Grown (source : Record) (slots : List Slot) (before after : Record) : Prop :=
  Value.shownEntries after = Value.shownEntries (before ++ entries slots source)

theorem Grown.skip {after : Record} (becomes : s.entry source = s.member.presence.default?.map (s.member.name, ·))
    (grown : Grown source slots (record ++ (s.member.presence.default?.map (s.member.name, ·)).toList) after) :
    Grown source (s :: slots) record after := by
  rw [Grown, entries_cons, becomes, ← List.append_assoc]
  exact grown

theorem Grown.read {after : Record} {v w : Value} (becomes : s.entry source = some (s.member.name, v))
    (same : w.shown = v.shown) (grown : Grown source slots (record ++ [(s.member.name, w)]) after) :
    Grown source (s :: slots) record after := by
  rw [Grown] at grown ⊢
  rw [grown, entries_cons, becomes]
  simp only [Value.shownEntries, List.map_append, List.map_cons, List.map_nil, Option.toList, same, List.append_assoc]

theorem grown_nil (source record : Record) : Grown source [] record record := by
  rw [Grown, entries, List.filterMap_nil, List.append_nil]

section

variable (unread : Member.Unread ((s :: slots).map member) record) {next : Record → Decoding Record}
  (goes : ∀ after, Member.Unread (slots.map member) after →
    Finds layers octets [] (next after) (Grown source slots after))

include unread goes

/-- The member is skipped, and the others are found. -/
theorem finds_skip_then (missing : Fault.Kind) (optional : s.member.presence.mayBeAbsent = true)
    (becomes : s.entry source = s.member.presence.default?.map (s.member.name, ·)) :
    Finds layers octets [] (s.member.skip container missing record >>= next) (Grown source (s :: slots) record) := by
  refine (Member.finds_skip optional unread.free).before_eq ?_
  exact (goes _ unread.default).mono le_rfl fun after grown => grown.skip becomes

/-- The member is read, and the others are found. -/
theorem finds_read_then {v : Value} {first : Octets} (becomes : s.entry source = some (s.member.name, v))
    (finds : ∀ rest, Finds layers first rest s.member.read fun w => w.shown = v.shown) :
    Finds layers (first ++ octets) [] (s.member.read >>= fun w => next (record.assign s.member.name w))
      (Grown source (s :: slots) record) := by
  refine (finds _).bind ?_
  intro w same
  have later := unread.assign w
  rw [unread.free.assign_eq] at later ⊢
  exact (goes _ later).mono le_rfl fun after grown => grown.read becomes same

end

theorem Found.finds_sequence (found : Found layers source slots octets) (clear : Clear slots)
    (unread : Member.Unread (slots.map member) record) :
    Finds layers octets [] (Member.readSequence container (slots.map member) record) (Grown source slots record) := by
  induction found generalizing record with
  | nil => exact finds_pure (grown_nil source record)
  | @skip s rest octets optional becomes others ih =>
    obtain ⟨apart, clear⟩ := clear
    have foreign : octets = [] ∨ ∃ t : Tag, t.Leads octets ∧ s.member.codec.accepts t = false := by
      rcases others.begins with none | ⟨t, leads, u, reached, accepted⟩
      · exact Or.inl none
      · exact Or.inr ⟨t, leads, apart optional u reached t accepted⟩
    rw [List.map_cons, Member.readSequence_cons]
    refine (Member.finds_not_comes optional (by rwa [List.append_nil])).before_eq ?_
    exact finds_skip_then unread (fun after later => ih clear later) .incomplete optional becomes
  | @read s rest v t first octets becomes leads accepted finds others ih =>
    rw [List.map_cons, Member.readSequence_cons]
    refine (Member.finds_comes (leads.append _ |>.append _) accepted).before_eq ?_
    exact finds_read_then unread (fun after later => ih clear.2 later) becomes finds

/-- With no octets left, all members are skipped. -/
theorem Found.finds_foldlM (found : Found layers source slots octets) (none : octets = [])
    (unread : Member.Unread (slots.map member) record) (missing : Fault.Kind) :
    Finds layers octets [] ((slots.map member).foldlM (fun record m => m.skip container missing record) record)
      (Grown source slots record) := by
  induction found generalizing record with
  | nil => exact finds_pure (grown_nil source record)
  | skip optional becomes others ih =>
    rw [List.map_cons, List.foldlM_cons]
    exact finds_skip_then unread (fun after later => ih none later) missing optional becomes
  | read becomes leads accepted finds others ih => exact absurd (List.append_eq_nil_iff.mp none).1 leads.ne_nil

/-- Members that have been passed accept no tag of the slots. -/
def Past (passed : List Member) (slots : List Slot) : Prop :=
  ∀ m ∈ passed, ∀ s ∈ slots, ∀ t, s.member.codec.accepts t = true → m.codec.accepts t = false

theorem Past.find?_eq_none (past : Past passed slots) {t : Tag} (within : s ∈ slots)
    (accepted : s.member.codec.accepts t = true) : passed.find? (fun m => m.codec.accepts t) = none := by
  rw [List.find?_eq_none]
  intro m member
  rw [past m member s within t accepted]
  exact Bool.false_ne_true

theorem Past.pass (past : Past passed (s :: slots)) (apart : ∀ u ∈ slots, s.Apart u) :
    Past (passed ++ [s.member]) slots := by
  intro m member u within
  rcases List.mem_append.mp member with before | last
  · exact past m before u (List.mem_cons_of_mem s within)
  · rw [List.mem_singleton.mp last]
    exact apart u within

theorem Found.finds_set (found : Found layers source slots octets) (distinct : slots.Pairwise Apart)
    (past : Past passed slots) (unread : Member.Unread (slots.map member) record) :
    Finds layers octets [] (Member.readSet container passed (slots.map member) record) (Grown source slots record) := by
  induction found generalizing record passed with
  | nil =>
    rw [List.map_nil, Member.readSet]
    refine finds_peekTag_nil.before_eq ?_
    exact finds_pure (grown_nil source record)
  | @skip s rest octets optional becomes others ih =>
    obtain ⟨apart, distinct⟩ := List.pairwise_cons.mp distinct
    rw [List.map_cons, Member.readSet]
    rcases others.begins with rfl | ⟨t, leads, u, reached, accepted⟩
    · refine finds_peekTag_nil.before_eq ?_
      exact (Found.skip optional becomes others).finds_foldlM rfl unread .incomplete
    · have within := Presence.mem_of_reach reached
      have later : (rest.map member).any (fun m => m.codec.accepts t) = true :=
        List.any_eq_true.mpr ⟨u.member, List.mem_map_of_mem within, accepted⟩
      refine (finds_peekTag (leads.append [])).before_eq ?_
      dsimp only
      rw [past.find?_eq_none (List.mem_cons_of_mem s within) accepted]
      dsimp only
      rw [if_neg (by rw [apart u within t accepted]; exact Bool.false_ne_true), if_pos later]
      exact finds_skip_then unread (fun after => ih distinct (past.pass apart)) .unexpectedTag optional becomes
  | @read s rest v t first octets becomes leads accepted finds others ih =>
    obtain ⟨apart, distinct⟩ := List.pairwise_cons.mp distinct
    rw [List.map_cons, Member.readSet]
    refine (finds_peekTag ((leads.append octets).append [])).before_eq ?_
    dsimp only
    rw [past.find?_eq_none List.mem_cons_self accepted]
    dsimp only
    rw [if_pos accepted]
    exact finds_read_then unread (fun after => ih distinct (past.pass apart)) becomes finds

theorem entry_of_absent (absent : source.own? s.member.name = none) :
    s.entry source = s.member.presence.default?.map (s.member.name, ·) := by
  rw [entry, absent]

theorem entry_of_default {v : Value} (present : source.own? s.member.name = some v) (same : s.member.isDefault v = .ok true) :
    s.entry source = s.member.presence.default?.map (s.member.name, ·) := by
  simp only [entry, present, if_pos same]

theorem entry_of_kept {v : Value} (present : source.own? s.member.name = some v) (differs : s.member.isDefault v = .ok false) :
    s.entry source = some (s.member.name, s.normal v) := by
  simp only [entry, present, differs]
  rfl

/-- The member is measured, and what was given to the record for it, and is written, is restored. -/
structure Restores (layers : Nat) (source : Record) (s : Slot) : Prop where
  given : source.own? s.member.name = none → Inherited.ofName? s.member.name = none
  optional : s.member.defaultOctets.isSome = true → s.member.presence.mayBeAbsent = true
  measures : ∃ regular sure, s.member.codec.Measures regular sure
  restores : ∃ good, s.member.codec.Restores s.normal good layers ∧ ∀ u, source.own? s.member.name = some u → good u

theorem Restores.mayBeAbsent (restores : s.Restores layers source) {v : Value} (same : s.member.isDefault v = .ok true) :
    s.member.presence.mayBeAbsent = true := by
  refine restores.optional ?_
  rw [Member.isDefault] at same
  cases known : s.member.defaultOctets with
  | none => rw [known] at same; cases same
  | some octets => rfl

/-- What has been written for a member of the record is found and read as its normal form. -/
theorem Restores.read (restores : s.Restores layers source) {v : Value} {first octets : Octets}
    {rest : List Slot} (present : source.own? s.member.name = some v) (differs : s.member.isDefault v = .ok false)
    (yields : Yields (s.member.codec.encodedLength v) (s.member.codec.encode v) first)
    (others : Found layers source rest octets) : Found layers source (s :: rest) (first ++ octets) := by
  obtain ⟨regular, sure, measures⟩ := restores.measures
  obtain ⟨good, restores, isGood⟩ := restores.restores
  obtain ⟨t, leads, accepted⟩ := restores.leads measures (isGood v present) yields
  refine .read (entry_of_kept present differs) leads accepted ?_ others
  intro rest
  refine Member.finds_read (restores.decode measures (isGood v present) yields rest) ?_
  intro known
  simp only [Member.isDefault, known, yields.toOctets, bind, Except.bind, decide_true] at differs
  cases differs

theorem found_of_laid (each : ∀ s ∈ slots, s.Restores layers source)
    (laid : Member.Laid source (slots.map member) octets) : Found layers source slots octets := by
  induction slots generalizing octets with
  | nil =>
    cases laid
    exact .nil
  | cons s rest ih =>
    have own := each s List.mem_cons_self
    have later := fun u slot => each u (List.mem_cons_of_mem s slot)
    have found := Record.member?_eq_own? own.given
    rw [List.map_cons] at laid
    cases laid with
    | skip left others =>
      rw [Member.LeftOut, found] at left
      rcases left with ⟨absent, optional⟩ | ⟨v, present, same⟩
      · exact .skip optional (entry_of_absent absent) (ih later others)
      · exact .skip (own.mayBeAbsent same) (entry_of_default present same) (ih later others)
    | put present differs yields others => exact own.read (found.symm.trans present) differs yields (ih later others)

theorem found_of_yields {v : Value} (each : ∀ source, v.toRecord container = .ok source → ∀ s ∈ slots, s.Restores layers source)
    (yields : Yields (Member.contentLength container (slots.map member) v)
      (Member.writeContent container (slots.map member) v) octets) :
    ∃ source, v.toRecord container = .ok source ∧ Found layers source slots octets := by
  obtain ⟨source, is, _⟩ := Except.bind_eq_ok.mp yields.measured
  have measures : ∀ m ∈ slots.map member, ∃ regular sure, m.codec.Measures regular sure := by
    intro m within
    obtain ⟨s, slot, rfl⟩ := List.mem_map.mp within
    exact (each source is s slot).measures
  exact ⟨source, is, found_of_laid (each source is) (Member.laid_of_yields measures is yields)⟩

/-- A record that has grown from nothing by the entries of the slots is the normal form. -/
theorem finds_record {v : Value} (is : v.toRecord container = .ok source) {reader : Decoding Record}
    (finds : Finds layers octets [] reader (Grown source slots [])) (rest : Octets) :
    Finds (layers + 1) octets rest (nested octets.length (reader >>= fun after => pure (Value.record after)))
      fun w => w.shown = (normalRecord container slots v).shown := by
  refine Finds.nested ?_
  refine finds.after ?_
  intro after grown
  refine finds_pure ?_
  rw [normalRecord, is]
  dsimp only
  rw [Value.shown_record, Value.shown_record, grown, List.nil_append]

end Slot

namespace TaggedCodec

variable (name : String) {tag : Tag} (valid : tag.WellFormed) {fields : List (Field Codec)} {slots : List Slot}
  {good : Value → Prop} {layers : Nat} (unread : Member.Unread (slots.map Slot.member) [])
  (each : ∀ v source, good v → v.toRecord name = .ok source → ∀ s ∈ slots, s.Restores layers source)

include valid unread each

theorem sequence_restores (members : fields.map Member.ofField = slots.map Slot.member) (clear : Slot.Clear slots) :
    (sequence name tag fields).Restores (Slot.normalRecord name slots) good (layers + 1) where
  valid := valid
  finds := by
    intro v octets isGood yields rest
    have inside : Yields (Member.contentLength name (fields.map Member.ofField) v)
        (Member.writeContent name (fields.map Member.ofField) v) octets := yields
    rw [members] at inside
    obtain ⟨source, is, found⟩ := Slot.found_of_yields (fun source => each v source isGood) inside
    have reads : Finds layers octets [] (Member.readSequence name (slots.map Slot.member) [])
        (Slot.Grown source slots []) := found.finds_sequence clear unread
    have finds := Slot.finds_record is reads rest
    rwa [← members] at finds

theorem set_restores (members : Member.canonical (fields.map Member.ofField) = slots.map Slot.member)
    (distinct : slots.Pairwise Slot.Apart) :
    (set name tag fields).Restores (Slot.normalRecord name slots) good (layers + 1) where
  valid := valid
  finds := by
    intro v octets isGood yields rest
    have inside : Yields (Member.contentLength name (Member.canonical (fields.map Member.ofField)) v)
        (Member.writeContent name (Member.canonical (fields.map Member.ofField)) v) octets := yields
    rw [members] at inside
    obtain ⟨source, is, found⟩ := Slot.found_of_yields (fun source => each v source isGood) inside
    have past : Slot.Past [] slots := fun m member => absurd member List.not_mem_nil
    have reads : Finds layers octets [] (Member.readSet name [] (slots.map Slot.member) [])
        (Slot.Grown source slots []) := found.finds_set distinct past unread
    have finds := Slot.finds_record is reads rest
    rwa [← members] at finds

end TaggedCodec

end Der
