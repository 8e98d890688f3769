import Mathlib.Data.List.ReduceOption
import Der.Proofs.Acceptance
import Der.Proofs.Schema.Ambiguity

namespace Der

open Decoding

theorem Tag.Leads.unique {s t : Tag} {octets : Octets} (leads : s.Leads octets) (leads' : t.Leads octets) : s = t := by
  obtain ⟨rest, read⟩ := leads
  obtain ⟨rest', read'⟩ := leads'
  have same := (read 0 []).symm.trans (read' 0 [])
  exact (Prod.mk.inj (Except.ok.inj same)).1

/-- For each field in turn, the octets of its member or nothing, and the record of the values. Members that are present
are accepted by their types and are not the elements of their defaults. Members that are absent may be, and become their
defaults. -/
inductive Field.Composes (depth : Nat) (maxDepth : Number) : List (Field Codec) → List (Option Octets) → Record → Prop
  | nil : Composes depth maxDepth [] [] []
  | absent {f : Field Codec} {rest : List (Field Codec)} {parts : List (Option Octets)} {record : Record}
      (optional : f.presence.mayBeAbsent = true) (others : Composes depth maxDepth rest parts record) :
      Composes depth maxDepth (f :: rest) (none :: parts) ((f.presence.default?.map (f.name, ·)).toList ++ record)
  | present {f : Field Codec} {rest : List (Field Codec)} {octets : Octets} {v : Value} {parts : List (Option Octets)}
      {record : Record} (parses : f.type.Parses depth maxDepth octets v)
      (differs : ∀ u, f.presence.default? = some u → f.type.toOctets u ≠ .ok octets)
      (others : Composes depth maxDepth rest parts record) :
      Composes depth maxDepth (f :: rest) (some octets :: parts) ((f.name, v) :: record)

/-- The octets of the members that are present, one after the other. -/
def Field.content (parts : List (Option Octets)) : Octets :=
  parts.reduceOption.flatten

namespace Field

variable {depth : Nat} {maxDepth : Number} {f : Field Codec} {fields : List (Field Codec)}
  {parts parts' : List (Option Octets)} {record record' : Record}

@[simp] theorem content_nil : content [] = [] := rfl

@[simp] theorem content_none (parts : List (Option Octets)) : content (none :: parts) = content parts := rfl

@[simp] theorem content_some (octets : Octets) (parts : List (Option Octets)) :
    content (some octets :: parts) = octets ++ content parts := rfl

theorem content_append (parts parts' : List (Option Octets)) : content (parts ++ parts') = content parts ++ content parts' := by
  rw [content, List.reduceOption_append, List.flatten_append]
  rfl

/-- The content begins with a tag of a field that can come first. -/
theorem Composes.begins (portable : ∀ f ∈ fields, f.type.Portable) (composes : Composes depth maxDepth fields parts record) :
    content parts = [] ∨ ∃ t : Tag, t.Leads (content parts) ∧
      ∃ g ∈ Presence.reach Field.presence fields, g.type.accepts t = true := by
  induction composes with
  | nil => exact Or.inl rfl
  | @absent f rest parts record optional others ih =>
    rcases ih fun g later => portable g (List.mem_cons_of_mem f later) with none | ⟨t, leads, g, reached, accepted⟩
    · exact Or.inl none
    · exact Or.inr ⟨t, leads, g, Presence.mem_reach_cons.mpr (Or.inr ⟨optional, reached⟩), accepted⟩
  | @present f rest octets v parts record parses differs others ih =>
    obtain ⟨t, frames, accepted⟩ := (portable f List.mem_cons_self).frames parses
    exact Or.inr ⟨t, frames.leads.append _, f, Presence.mem_reach_cons.mpr (Or.inl rfl), accepted⟩

/-- Fields accept no tag of those that can follow them while they are absent. -/
def Apart (fields : List (Field Codec)) : Prop :=
  ∀ f g, Follows fields f g → ∀ t, g.type.accepts t = true → f.type.accepts t = false

theorem Apart.tail (apart : Apart (f :: fields)) : Apart fields :=
  fun g h follows => apart g h (follows_cons.mpr (Or.inr follows))

theorem Apart.head (apart : Apart (f :: fields)) (optional : f.presence.mayBeAbsent = true) :
    ∀ g ∈ Presence.reach Field.presence fields, ∀ t, g.type.accepts t = true → f.type.accepts t = false :=
  fun g reached => apart f g (follows_cons.mpr (Or.inl ⟨rfl, optional, reached⟩))

/-- No tag is accepted by a field and by a later one. -/
def Exclusive (fields : List (Field Codec)) : Prop :=
  fields.Pairwise fun f g => ∀ t, g.type.accepts t = true → f.type.accepts t = false

theorem Exclusive.apart (exclusive : Exclusive fields) : Apart fields := by
  intro f g follows
  obtain ⟨_, i, j, before, isFirst, isSecond, _⟩ := follows
  obtain ⟨inside, rfl⟩ := List.getElem?_eq_some_iff.mp isFirst
  obtain ⟨inside', rfl⟩ := List.getElem?_eq_some_iff.mp isSecond
  exact List.pairwise_iff_getElem.mp exclusive i j inside inside' before

/-- What the fields behind an absent one compose is not mistaken for its member. -/
theorem Composes.foreign (portable : ∀ g ∈ fields, g.type.Portable) (apart : Apart (f :: fields))
    (optional : f.presence.mayBeAbsent = true) (composes : Composes depth maxDepth fields parts record) :
    content parts = [] ∨ ∃ t : Tag, t.Leads (content parts) ∧ f.type.accepts t = false := by
  refine (composes.begins portable).imp_right ?_
  rintro ⟨t, leads, g, reached, accepted⟩
  exact ⟨t, leads, apart.head optional g reached t accepted⟩

/-- What stands behind an absent member does not begin with an element of its type. -/
theorem Composes.ne_append (portable : ∀ g ∈ f :: fields, g.type.Portable) (apart : Apart (f :: fields))
    (optional : f.presence.mayBeAbsent = true) (composes : Composes depth maxDepth fields parts record)
    {octets more : Octets} {v : Value} (parses : f.type.Parses depth maxDepth octets v) :
    content parts ≠ octets ++ more := by
  intro same
  obtain ⟨t, frames, accepted⟩ := (portable f List.mem_cons_self).frames parses
  have leads := frames.leads.append more
  rw [← same] at leads
  rcases composes.foreign (fun g later => portable g (List.mem_cons_of_mem f later)) apart optional with
    none | ⟨s, leads', refused⟩
  · exact leads.ne_nil none
  · rw [Tag.Leads.unique leads leads', refused] at accepted
    cases accepted

/-- The same octets are composed in one way only. -/
theorem Composes.unique (portable : ∀ f ∈ fields, f.type.Portable) (apart : Apart fields)
    (composes : Composes depth maxDepth fields parts record) (composes' : Composes depth maxDepth fields parts' record')
    (same : content parts = content parts') : parts = parts' ∧ record = record' := by
  induction composes generalizing parts' record' with
  | nil =>
    cases composes'
    exact ⟨rfl, rfl⟩
  | @absent f rest parts record optional others ih =>
    cases composes' with
    | absent _ others' =>
      obtain ⟨rfl, rfl⟩ := ih (fun g later => portable g (List.mem_cons_of_mem f later)) apart.tail others' same
      exact ⟨rfl, rfl⟩
    | present parses differs others' => exact absurd same (others.ne_append portable apart optional parses)
  | @present f rest octets v parts record parses differs others ih =>
    cases composes' with
    | absent optional others' => exact absurd same.symm (others'.ne_append portable apart optional parses)
    | @present _ _ octets' v' parts' record' parses' differs' others' =>
      obtain ⟨t, frames, _⟩ := (portable f List.mem_cons_self).frames parses
      obtain ⟨t', frames', _⟩ := (portable f List.mem_cons_self).frames parses'
      rw [content_some, content_some] at same
      have first : octets = octets' :=
        frames.eq_of_ahead frames' (List.prefix_append octets (content parts)) (same ▸ List.prefix_append octets' _)
      subst first
      obtain ⟨rfl, rfl⟩ := ih (fun g later => portable g (List.mem_cons_of_mem f later)) apart.tail others'
        (List.append_cancel_left same)
      cases Except.ok.inj (parses.symm.trans parses')
      exact ⟨rfl, rfl⟩

theorem Composes.length_eq (composes : Composes depth maxDepth fields parts record) : parts.length = fields.length := by
  induction composes with
  | nil => rfl
  | absent _ _ ih => exact congrArg (· + 1) ih
  | present _ _ _ ih => exact congrArg (· + 1) ih

theorem Composes.split {others : List (Field Codec)} (composes : Composes depth maxDepth (fields ++ others) parts record) :
    ∃ first second before after, parts = first ++ second ∧ Composes depth maxDepth fields first before ∧
      Composes depth maxDepth others second after := by
  induction fields generalizing parts record with
  | nil => exact ⟨[], parts, [], record, rfl, .nil, composes⟩
  | cons f rest ih =>
    rw [List.cons_append] at composes
    cases composes with
    | absent optional later =>
      obtain ⟨first, second, before, after, rfl, composes, composes'⟩ := ih later
      exact ⟨_, second, _, after, rfl, .absent optional composes, composes'⟩
    | present parses differs later =>
      obtain ⟨first, second, before, after, rfl, composes, composes'⟩ := ih later
      exact ⟨_, second, _, after, rfl, .present parses differs composes, composes'⟩

/-- Where the last part is there, it is the member of the last field. -/
theorem Composes.of_concat {octets : Octets} (composes : Composes depth maxDepth fields (parts ++ [some octets]) record) :
    ∃ passed last before v, fields = passed ++ [last] ∧ Composes depth maxDepth passed parts before ∧
      last.type.Parses depth maxDepth octets v ∧
      ∀ u, last.presence.default? = some u → last.type.toOctets u ≠ .ok octets := by
  have length := composes.length_eq
  rcases List.eq_nil_or_concat fields with rfl | ⟨passed, last, rfl⟩
  · rw [List.length_append] at length
    cases length
  · rw [List.concat_eq_append] at composes length ⊢
    obtain ⟨first, second, before, after, same, composes, single⟩ := composes.split
    have sizes : second.length = [some octets].length := single.length_eq
    obtain ⟨rfl, rfl⟩ := List.append_inj' same sizes.symm
    cases single with
    | present parses differs _ => exact ⟨passed, last, before, _, rfl, composes, parses, differs⟩

end Field

/-- The record has grown by one entry before the others. -/
theorem Record.Same.read {record after added : Record} {name : String} {v w : Value}
    (grown : after.Same (record.assign name v ++ added)) (free : record.Free name) (entry : v.Same w) :
    after.Same (record ++ (name, w) :: added) := by
  rw [free.assign_eq] at grown
  rw [Record.Same, grown]
  simp only [Value.shownEntries, List.map_append, List.map_cons, List.append_assoc, List.cons_append,
    List.nil_append, show v.shown = w.shown from entry]

theorem Record.Same.skip {record after added entry : Record} (grown : after.Same (record ++ entry ++ added)) :
    after.Same (record ++ (entry ++ added)) := by
  rwa [List.append_assoc] at grown

namespace Member

open Der.Field

variable {container : String} {m : Member} {record after added : Record} {d d' e : Decoder} {octets more : Octets}
  {v w : Value} {f : Field Codec} {fields rest : List (Field Codec)} {parts : List (Option Octets)} {missing : Fault.Kind}

theorem ofField_differs : (ofField f).defaultOctets ≠ some octets ↔
    ∀ u, f.presence.default? = some u → f.type.toOctets u ≠ .ok octets := by
  simp only [ofField]
  cases f.presence.default? with
  | none => exact iff_of_true nofun nofun
  | some u =>
    simp only [Option.bind_some, Option.some.injEq, forall_eq']
    cases f.type.toOctets u with
    | error fault => exact iff_of_true nofun nofun
    | ok written => exact not_congr ⟨fun same => congrArg _ (Option.some.inj same), fun same => congrArg _ (Except.ok.inj same)⟩

theorem read_eq_ok (portable : m.codec.Portable) (bounded : d.Bounded) (run : m.read.run d = .ok v d') :
    ∃ octets w, d.Takes octets d' ∧ m.codec.Parses d.depth d.maxDepth octets w ∧ m.defaultOctets ≠ some octets ∧
      v.Same w := by
  obtain ⟨start, e, begun, run⟩ := bind_eq_ok run
  cases begun
  obtain ⟨u, e, decoded, run⟩ := bind_eq_ok run
  obtain ⟨octets, w, takes, parses, same⟩ := portable.parses_of_run bounded decoded
  simp only [EStateM.run_bind, EStateM.run_get, takes.between bounded] at run
  by_cases equal : m.defaultOctets = some octets
  · rw [if_pos equal] at run
    cases run
  · rw [if_neg equal] at run
    cases run
    exact ⟨octets, w, takes, parses, equal, same⟩

theorem run_read_of_parses (portable : m.codec.Portable) (bounded : d.Bounded) (ahead : d.rest = octets ++ more)
    (parses : m.codec.Parses d.depth d.maxDepth octets w) (differs : m.defaultOctets ≠ some octets) :
    ∃ v, m.read.run d = .ok v (d.skip octets.length) ∧ v.Same w := by
  obtain ⟨v, decoded, same⟩ := portable.run_of_parses bounded ahead parses
  have between := (Decoder.takes_of_ahead ahead).between bounded
  refine ⟨v, ?_, same⟩
  simp only [read, EStateM.run_bind, run_offset, decoded, EStateM.run_get, between]
  rw [if_neg differs]
  rfl

theorem skip_eq_ok (free : record.Free m.name) (run : (m.skip container missing record).run d = .ok after d') :
    d' = d ∧ m.presence.mayBeAbsent = true ∧ after = record ++ (m.presence.default?.map (m.name, ·)).toList := by
  unfold skip at run
  cases presence : m.presence with
  | required => rw [presence] at run; cases run
  | optional =>
    rw [presence] at run
    cases run
    exact ⟨rfl, rfl, (List.append_nil _).symm⟩
  | default u =>
    rw [presence] at run
    cases run
    exact ⟨rfl, rfl, free.assign_eq⟩

theorem run_skip (optional : m.presence.mayBeAbsent = true) :
    (m.skip container missing record).run d =
      .ok (m.presence.default?.elim record fun v => record.assign m.name v) d := by
  unfold skip
  cases presence : m.presence with
  | required => rw [presence] at optional; cases optional
  | optional => rfl
  | default u => rfl

theorem elim_default (presence : Presence) {name : String} (free : record.Free name) :
    (presence.default?.elim record fun v => record.assign name v) =
      record ++ (presence.default?.map (name, ·)).toList := by
  cases presence.default? with
  | none => exact (List.append_nil record).symm
  | some u => exact free.assign_eq

/-- From the first decoder to the second, the members of the fields stand one after the other, and the record has grown
by their values. -/
def Grows (fields : List (Field Codec)) (d d' : Decoder) (record after : Record) : Prop :=
  ∃ parts added, Composes d.depth d.maxDepth fields parts added ∧ d.Takes (content parts) d' ∧
    after.Same (record ++ added)

theorem grows_nil (d : Decoder) (record : Record) : Grows [] d d record record :=
  ⟨[], [], .nil, Decoder.takes_nil d, by rw [List.append_nil]; rfl⟩

theorem Grows.read (portable : f.type.Portable) (bounded : d.Bounded) (free : record.Free f.name)
    (run : (ofField f).read.run d = .ok v e) (others : Grows rest e d' (record.assign f.name v) after) :
    Grows (f :: rest) d d' record after := by
  obtain ⟨octets, w, takes, parses, differs, same⟩ := read_eq_ok portable bounded run
  obtain ⟨parts, added, composes, takes', grown⟩ := others
  rw [takes.state] at composes
  exact ⟨_, _, .present parses (ofField_differs.mp differs) composes, takes.trans takes', grown.read free same⟩

theorem Grows.skip (free : record.Free f.name) {skipped : Record}
    (run : ((ofField f).skip container missing record).run d = .ok skipped e) (others : Grows rest e d' skipped after) :
    Grows (f :: rest) d d' record after := by
  obtain ⟨rfl, optional, rfl⟩ := skip_eq_ok free run
  obtain ⟨parts, added, composes, takes, grown⟩ := others
  exact ⟨_, _, .absent optional composes, takes, grown.skip⟩

/-- What is read for a sequence is composed of its members. -/
theorem grows_of_readSequence (portable : ∀ f ∈ fields, f.type.Portable) (unread : Unread (fields.map ofField) record)
    (bounded : d.Bounded) (run : (readSequence container (fields.map ofField) record).run d = .ok after d') :
    Grows fields d d' record after := by
  induction fields generalizing record d with
  | nil =>
    cases run
    exact grows_nil _ _
  | cons f rest ih =>
    have later := fun g behind => portable g (List.mem_cons_of_mem f behind)
    have free := unread.free
    rw [List.map_cons, readSequence_cons] at run
    obtain ⟨present, e, looked, run⟩ := bind_eq_ok run
    obtain ⟨_, none, rfl⟩ := reads_comes _ bounded looked
    obtain rfl : e = d := none.state
    cases present with
    | true =>
      obtain ⟨v, e, read, run⟩ := bind_eq_ok run
      obtain ⟨octets, w, takes, _⟩ := read_eq_ok (portable f List.mem_cons_self) bounded read
      exact .read (portable f List.mem_cons_self) bounded free read
        (ih later (unread.assign v) (takes.bounded bounded) run)
    | false =>
      obtain ⟨skipped, e, skip, run⟩ := bind_eq_ok run
      obtain ⟨rfl, _, rfl⟩ := skip_eq_ok free skip
      exact .skip free skip (ih later unread.default bounded run)

/-- What is composed of the members of a sequence is read. -/
theorem run_readSequence_of_composes (portable : ∀ f ∈ fields, f.type.Portable) (apart : Apart fields)
    (unread : Unread (fields.map ofField) record) (bounded : d.Bounded) (admits : d.Admits 0)
    (composes : Composes d.depth d.maxDepth fields parts added) (ahead : d.rest = content parts) :
    ∃ after, (readSequence container (fields.map ofField) record).run d = .ok after (d.skip (content parts).length) ∧
      after.Same (record ++ added) := by
  induction fields generalizing record d parts added with
  | nil =>
    cases composes
    exact ⟨record, rfl, by rw [List.append_nil]; rfl⟩
  | cons f rest ih =>
    have later := fun g behind => portable g (List.mem_cons_of_mem f behind)
    have free := unread.free
    rw [List.map_cons]
    cases composes with
    | absent optional others =>
      have foreign := others.foreign later apart optional
      rw [content_none] at ahead ⊢
      rw [← ahead] at foreign
      obtain ⟨after, run, grown⟩ := ih later apart.tail unread.default bounded admits others ahead
      refine ⟨after, ?_, grown.skip⟩
      rw [run_readSequence_of_foreign optional foreign bounded admits, elim_default (ofField f).presence free]
      exact run
    | @present _ _ octets v parts added parses differs others =>
      obtain ⟨t, frames, accepted⟩ := (portable f List.mem_cons_self).frames parses
      rw [content_some] at ahead ⊢
      obtain ⟨u, read, same⟩ :=
        run_read_of_parses (portable f List.mem_cons_self) bounded ahead parses (ofField_differs.mpr differs)
      have takes := Decoder.takes_of_ahead ahead
      obtain ⟨after, run, grown⟩ := ih later apart.tail (unread.assign u) (takes.bounded bounded) admits others
        (Decoder.rest_skip_of_ahead ahead)
      refine ⟨after, ?_, grown.read free same⟩
      rw [run_readSequence_of_leads (ahead ▸ frames.leads.append (content parts)) accepted bounded admits,
        EStateM.run_bind, read, List.length_append, ← Decoder.skip_skip]
      exact run

section

variable {passed members : List Member} {t : Tag}

theorem run_readSet_of_nil (bounded : d.Bounded) (ahead : d.rest = []) :
    (readSet container passed members record).run d =
      (members.foldlM (fun (r : Record) (m : Member) => m.skip container .incomplete r) record).run d := by
  have looked : peekTag.run d = .ok none d := by rw [run_peekTag bounded, ahead]
  cases members with
  | nil => rw [readSet, EStateM.run_bind, looked]
  | cons m rest => rw [readSet, EStateM.run_bind, looked]

/-- A component of a field that has been passed comes again. -/
theorem run_readSet_of_passed (container : String) (members : List Member) (record : Record) (bounded : d.Bounded)
    (leads : t.Leads d.rest) (again : passed.find? (fun m => m.codec.accepts t) = some m) :
    (readSet container passed members record).run d = .error (d.fault (.disorderedComponent container m.name)) d := by
  have looked := run_peekTag_of_leads bounded leads
  cases members with
  | nil =>
    rw [readSet, EStateM.run_bind, looked]
    simp only [again]
    rfl
  | cons m' rest =>
    rw [readSet, EStateM.run_bind, looked]
    simp only [again]
    rfl

/-- The component of the next field comes next. -/
theorem run_readSet_of_leads (bounded : d.Bounded) (leads : t.Leads d.rest)
    (fresh : passed.find? (fun m => m.codec.accepts t) = none) (accepted : m.codec.accepts t = true) :
    (readSet container passed (m :: members) record).run d =
      (m.read >>= fun v => readSet container (passed ++ [m]) members (record.assign m.name v)).run d := by
  rw [readSet, EStateM.run_bind, run_peekTag_of_leads bounded leads]
  simp only [fresh, if_pos accepted]

/-- The component of a later field comes next. -/
theorem run_readSet_of_later (bounded : d.Bounded) (leads : t.Leads d.rest)
    (fresh : passed.find? (fun m => m.codec.accepts t) = none) (foreign : m.codec.accepts t = false)
    (later : ∃ u ∈ members, u.codec.accepts t = true) :
    (readSet container passed (m :: members) record).run d =
      (m.skip container .unexpectedTag record >>= readSet container (passed ++ [m]) members).run d := by
  have later : (members.any fun u => u.codec.accepts t) = true := List.any_eq_true.mpr later
  rw [readSet, EStateM.run_bind, run_peekTag_of_leads bounded leads]
  simp only [fresh, if_neg (Bool.eq_false_iff.mp foreign), if_pos later]

end

/-- When all that is left may be absent, it is composed of nothing. -/
theorem grows_of_skipAll (unread : Unread (fields.map ofField) record)
    (run : ((fields.map ofField).foldlM (fun (r : Record) (m : Member) => m.skip container missing r) record).run d =
      .ok after d') : Grows fields d d' record after := by
  induction fields generalizing record with
  | nil =>
    cases run
    exact grows_nil _ _
  | cons f rest ih =>
    have free := unread.free
    rw [List.map_cons, List.foldlM_cons] at run
    obtain ⟨skipped, e, skip, run⟩ := bind_eq_ok run
    obtain ⟨rfl, _, rfl⟩ := skip_eq_ok free skip
    exact .skip free skip (ih unread.default run)

/-- What is read for a set is composed of its members. -/
theorem grows_of_readSet {passed : List Member} (portable : ∀ f ∈ fields, f.type.Portable)
    (unread : Unread (fields.map ofField) record) (bounded : d.Bounded)
    (run : (readSet container passed (fields.map ofField) record).run d = .ok after d') :
    Grows fields d d' record after := by
  induction fields generalizing passed record d with
  | nil =>
    rw [List.map_nil, readSet] at run
    obtain ⟨ahead, e, looked, run⟩ := bind_eq_ok run
    obtain ⟨_, none, rfl⟩ := reads_peekTag bounded looked
    obtain rfl : e = d := none.state
    cases ahead with
    | none =>
      cases run
      exact grows_nil _ _
    | some t =>
      dsimp only at run
      cases again : passed.find? (fun m => m.codec.accepts t) <;> rw [again] at run <;> cases run
  | cons f rest ih =>
    have later := fun g behind => portable g (List.mem_cons_of_mem f behind)
    have free := unread.free
    rw [List.map_cons, readSet] at run
    obtain ⟨ahead, e, looked, run⟩ := bind_eq_ok run
    obtain ⟨_, none, rfl⟩ := reads_peekTag bounded looked
    obtain rfl : e = d := none.state
    cases ahead with
    | none => exact grows_of_skipAll unread run
    | some t =>
      dsimp only at run
      cases again : passed.find? (fun m => m.codec.accepts t) with
      | some m => rw [again] at run; cases run
      | none =>
        rw [again] at run
        dsimp only at run
        by_cases accepted : (ofField f).codec.accepts t = true
        · rw [if_pos accepted] at run
          obtain ⟨v, e, read, run⟩ := bind_eq_ok run
          obtain ⟨octets, w, takes, _⟩ := read_eq_ok (portable f List.mem_cons_self) bounded read
          exact .read (portable f List.mem_cons_self) bounded free read
            (ih later (unread.assign v) (takes.bounded bounded) run)
        · rw [if_neg accepted] at run
          split at run
          · obtain ⟨skipped, e, skip, run⟩ := bind_eq_ok run
            obtain ⟨rfl, _, rfl⟩ := skip_eq_ok free skip
            exact .skip free skip (ih later unread.default bounded run)
          · cases run

/-- What is composed of nothing is skipped. -/
theorem run_skipAll_of_composes (unread : Unread (fields.map ofField) record)
    (composes : Composes d.depth d.maxDepth fields parts added) (portable : ∀ f ∈ fields, f.type.Portable)
    (none : content parts = []) :
    ((fields.map ofField).foldlM (fun (r : Record) (m : Member) => m.skip container missing r) record).run d =
      .ok (record ++ added) d := by
  induction fields generalizing record parts added with
  | nil =>
    cases composes
    rw [List.append_nil]
    rfl
  | cons f rest ih =>
    have free := unread.free
    cases composes with
    | absent optional others =>
      have more := ih unread.default others (fun g behind => portable g (List.mem_cons_of_mem f behind)) none
      rw [List.append_assoc] at more
      rw [List.map_cons, List.foldlM_cons, EStateM.run_bind, run_skip (m := ofField f) optional,
        elim_default (ofField f).presence free]
      exact more
    | present parses differs others =>
      obtain ⟨t, frames, _⟩ := (portable f List.mem_cons_self).frames parses
      exact absurd (List.append_eq_nil_iff.mp none).1 frames.ne_nil

section

variable {passed todo : List (Field Codec)} (exclusive : Exclusive (passed ++ f :: rest))

include exclusive

theorem find?_of_exclusive {g : Field Codec} (within : g ∈ f :: rest) {t : Tag} (accepted : g.type.accepts t = true) :
    (passed.map ofField).find? (fun m => m.codec.accepts t) = none := by
  rw [List.find?_eq_none]
  intro m member
  obtain ⟨h, before, rfl⟩ := List.mem_map.mp member
  have refused := (List.pairwise_append.mp exclusive).2.2 h before g within t accepted
  exact Bool.eq_false_iff.mp refused

theorem exclusive_next : Exclusive (passed ++ [f] ++ rest) := by
  rwa [List.append_assoc, List.singleton_append]

/-- A field is passed over when the component of a later one comes next. -/
theorem run_readSet_absent (container : String) (record : Record) (bounded : d.Bounded)
    (optional : f.presence.mayBeAbsent = true) {t : Tag} (leads : t.Leads d.rest)
    (later : ∃ g ∈ rest, g.type.accepts t = true) :
    (readSet container (passed.map ofField) ((f :: rest).map ofField) record).run d =
      (readSet container ((passed ++ [f]).map ofField) (rest.map ofField)
        (f.presence.default?.elim record fun v => record.assign f.name v)).run d := by
  obtain ⟨g, within, accepted⟩ := later
  have behind := List.pairwise_cons.mp (List.pairwise_append.mp exclusive).2.1
  have foreign : (ofField f).codec.accepts t = false := behind.1 g within t accepted
  have past := find?_of_exclusive exclusive (List.mem_cons_of_mem f within) accepted
  rw [List.map_cons, run_readSet_of_later bounded leads past foreign ⟨ofField g, List.mem_map_of_mem within, accepted⟩,
    EStateM.run_bind, run_skip (m := ofField f) optional, List.map_append]
  rfl

/-- The component of the next field is read. -/
theorem run_readSet_present (container : String) (record : Record) (bounded : d.Bounded) (portable : f.type.Portable)
    (ahead : d.rest = octets ++ more) (parses : f.type.Parses d.depth d.maxDepth octets w)
    (differs : ∀ u, f.presence.default? = some u → f.type.toOctets u ≠ .ok octets) :
    ∃ v, v.Same w ∧ (readSet container (passed.map ofField) ((f :: rest).map ofField) record).run d =
      (readSet container ((passed ++ [f]).map ofField) (rest.map ofField) (record.assign f.name v)).run
        (d.skip octets.length) := by
  obtain ⟨t, frames, accepted⟩ := portable.frames parses
  obtain ⟨v, read, same⟩ :=
    run_read_of_parses (m := ofField f) portable bounded ahead parses (ofField_differs.mpr differs)
  have past := find?_of_exclusive exclusive List.mem_cons_self accepted
  refine ⟨v, same, ?_⟩
  rw [List.map_cons, run_readSet_of_leads bounded (ahead ▸ frames.leads.append more) past accepted,
    EStateM.run_bind, read, List.map_append]
  rfl

end

/-- What is composed of the members of a set is read. -/
theorem run_readSet_of_composes {passed : List (Field Codec)} (portable : ∀ f ∈ fields, f.type.Portable)
    (exclusive : Exclusive (passed ++ fields)) (unread : Unread (fields.map ofField) record) (bounded : d.Bounded)
    (composes : Composes d.depth d.maxDepth fields parts added) (ahead : d.rest = content parts) :
    ∃ after, (readSet container (passed.map ofField) (fields.map ofField) record).run d =
      .ok after (d.skip (content parts).length) ∧ after.Same (record ++ added) := by
  induction fields generalizing record d parts added passed with
  | nil =>
    cases composes
    rw [run_readSet_of_nil bounded ahead]
    exact ⟨record, rfl, by rw [List.append_nil]; rfl⟩
  | cons f rest ih =>
    have later := fun g behind => portable g (List.mem_cons_of_mem f behind)
    have free : record.Free f.name := unread.free
    by_cases none : content parts = []
    · rw [none] at ahead
      rw [run_readSet_of_nil bounded ahead, run_skipAll_of_composes unread composes portable none, none]
      exact ⟨_, rfl, rfl⟩
    cases composes with
    | absent optional others =>
      obtain ⟨t, leads, g, reached, accepted⟩ := (others.begins later).resolve_left none
      rw [run_readSet_absent exclusive container record bounded optional (ahead ▸ leads)
        ⟨g, Presence.mem_of_reach reached, accepted⟩, elim_default f.presence free]
      obtain ⟨after, run, grown⟩ := ih later (exclusive_next exclusive) unread.default bounded others ahead
      exact ⟨after, run, grown.skip⟩
    | @present _ _ octets v parts added parses differs others =>
      rw [content_some] at ahead ⊢
      obtain ⟨u, same, goes⟩ := run_readSet_present exclusive container record bounded
        (portable f List.mem_cons_self) ahead parses differs
      obtain ⟨after, run, grown⟩ := ih later (exclusive_next exclusive) (unread.assign u)
        ((Decoder.takes_of_ahead ahead).bounded bounded) others (Decoder.rest_skip_of_ahead ahead)
      refine ⟨after, goes.trans ?_, grown.read free same⟩
      rw [List.length_append, ← Decoder.skip_skip]
      exact run

/-- In front of a component of a field that is still to come, the reader has passed the fields before. -/
theorem run_readSet_append (container : String) (record : Record) (passed : List (Field Codec))
    {todo : List (Field Codec)} (portable : ∀ f ∈ fields, f.type.Portable)
    (exclusive : Exclusive (passed ++ (fields ++ todo))) (bounded : d.Bounded)
    (composes : Composes d.depth d.maxDepth fields parts added)
    (ahead : d.rest = content parts ++ more) {t : Tag} (leads : t.Leads more)
    (next : ∃ g ∈ todo, g.type.accepts t = true) :
    ∃ after, (readSet container (passed.map ofField) ((fields ++ todo).map ofField) record).run d =
      (readSet container ((passed ++ fields).map ofField) (todo.map ofField) after).run
        (d.skip (content parts).length) := by
  induction fields generalizing record d parts added passed with
  | nil =>
    cases composes
    exact ⟨record, by rw [List.append_nil, List.nil_append]; rfl⟩
  | cons f rest ih =>
    have later := fun g behind => portable g (List.mem_cons_of_mem f behind)
    rw [List.cons_append] at exclusive ⊢
    rw [show passed ++ f :: rest = passed ++ [f] ++ rest by rw [List.append_assoc, List.singleton_append]]
    cases composes with
    | @absent _ _ parts added optional others =>
      rw [content_none] at ahead ⊢
      have comes : ∃ s : Tag, s.Leads d.rest ∧ ∃ g ∈ rest ++ todo, g.type.accepts s = true := by
        rw [ahead]
        rcases others.begins later with none | ⟨s, leads', g, reached, accepted⟩
        · obtain ⟨g, within, accepted⟩ := next
          rw [none, List.nil_append]
          exact ⟨t, leads, g, List.mem_append_right rest within, accepted⟩
        · exact ⟨s, leads'.append more, g, List.mem_append_left todo (Presence.mem_of_reach reached), accepted⟩
      obtain ⟨s, leads', within⟩ := comes
      rw [run_readSet_absent exclusive container record bounded optional leads' within]
      exact ih _ (passed ++ [f]) later (exclusive_next exclusive) bounded others ahead
    | @present _ _ octets v parts added parses differs others =>
      rw [content_some, List.append_assoc] at ahead
      obtain ⟨u, same, goes⟩ := run_readSet_present exclusive container record bounded
        (portable f List.mem_cons_self) ahead parses differs
      obtain ⟨after, run⟩ := ih _ (passed ++ [f]) later (exclusive_next exclusive)
        ((Decoder.takes_of_ahead ahead).bounded bounded) others (Decoder.rest_skip_of_ahead ahead)
      refine ⟨after, goes.trans ?_⟩
      rw [content_some, List.length_append, ← Decoder.skip_skip]
      exact run

theorem find?_eq_some (exclusive : Exclusive fields) (within : f ∈ fields) {t : Tag} (accepted : f.type.accepts t = true) :
    (fields.map ofField).find? (fun m => m.codec.accepts t) = some (ofField f) := by
  induction fields with
  | nil => cases within
  | cons g rest ih =>
    obtain ⟨behind, exclusive⟩ := List.pairwise_cons.mp exclusive
    rw [List.map_cons]
    rcases List.mem_cons.mp within with rfl | later
    · exact List.find?_cons_of_pos accepted
    · have refused : ¬ (ofField g).codec.accepts t = true := Bool.eq_false_iff.mp (behind f later t accepted)
      rw [List.find?_cons_of_neg (p := fun m : Member => m.codec.accepts t) refused]
      exact ih exclusive later

/-- Behind the member of the last field that has been passed, a component of one of these fields is refused where it
stands. -/
theorem run_readSet_of_disordered (container : String) (record : Record) {passed todo : List (Field Codec)}
    (portable : ∀ f ∈ passed, f.type.Portable) (exclusive : Exclusive (passed ++ todo)) (bounded : d.Bounded)
    (composes : Composes d.depth d.maxDepth passed (parts ++ [some octets]) added)
    (ahead : d.rest = content (parts ++ [some octets]) ++ more) {t : Tag} (leads : t.Leads more) (within : f ∈ passed)
    (accepted : f.type.accepts t = true) :
    ∃ e, (readSet container [] ((passed ++ todo).map ofField) record).run d =
      .error (.coding (.disorderedComponent container f.name)
        (d.position + (content (parts ++ [some octets])).length : Nat)) e := by
  obtain ⟨fields, last, before, w, rfl, composes, parses, differs⟩ := composes.of_concat
  have own := portable last (List.mem_append_right fields List.mem_cons_self)
  obtain ⟨s, frames, known⟩ := own.frames parses
  rw [content_append, content_some, content_nil, List.append_nil] at ahead ⊢
  rw [List.append_assoc] at ahead
  rw [List.append_assoc, List.singleton_append]
  have again : Exclusive (fields ++ [last]) := (List.pairwise_append.mp exclusive).1
  rw [List.append_assoc, List.singleton_append] at exclusive
  have inside := (Decoder.takes_of_ahead ahead).bounded bounded
  have left := Decoder.rest_skip_of_ahead ahead
  have inside' := (Decoder.takes_of_ahead left).bounded inside
  have left' := Decoder.rest_skip_of_ahead left
  -- The reader passes the fields, then it reads the member of the last one, and then it meets a tag that it has passed.
  obtain ⟨after, passes⟩ := run_readSet_append container record []
    (fun g before => portable g (List.mem_append_left [last] before)) exclusive bounded composes ahead
    (frames.leads.append more) ⟨last, List.mem_cons_self, known⟩
  obtain ⟨v, _, reads⟩ := run_readSet_present exclusive container after inside own left parses differs
  have refuses := run_readSet_of_passed container (todo.map ofField) (after.assign last.name v) inside'
    (left'.symm ▸ leads) (find?_eq_some again within accepted)
  have place : ((d.skip (content parts).length).skip octets.length).position =
      d.position + (content parts ++ octets).length := by
    rw [List.length_append, Decoder.skip_skip]
    rfl
  rw [Decoder.fault, place] at refuses
  exact ⟨_, passes.trans (reads.trans refuses)⟩

/-- In a scope of its own, a body is done when the content of the scope is composed of the members, if such contents are
all that it reads. -/
theorem nested_iff_composes {body : Decoding Record} {content : Octets} (bounded : d.Bounded)
    (ahead : d.rest = content ++ more) (shallow : d.maxDepth.less (d.depth + 1 : Nat) = false)
    (reads : ∀ {e after}, body.run (d.scope content.length) = .ok after e →
      Grows fields (d.scope content.length) e [] after)
    (finds : ∀ {parts added}, Composes (d.depth + 1) d.maxDepth fields parts added → Field.content parts = content →
      ∃ after, body.run (d.scope content.length) = .ok after ((d.scope content.length).skip content.length) ∧
        after.Same added) (w : Value) :
    (∃ v d', (nested content.length (do return Value.record (← body))).run d = .ok v d' ∧ v.Same w) ↔
      ∃ parts added, Composes (d.depth + 1) d.maxDepth fields parts added ∧ Field.content parts = content ∧
        w.Same (.record added) := by
  obtain ⟨inside, inner⟩ := bounded.scope_of_ahead ahead
  constructor
  · rintro ⟨v, d', run, same⟩
    obtain ⟨_, e, whole, done⟩ := (nested_iff bounded ahead shallow).mp run
    obtain ⟨after, rfl, read⟩ := map_eq_ok.mp whole
    obtain ⟨parts, added, composes, takes, grown⟩ := reads read
    have none : e.rest = [] := (takes.bounded inside).position_eq_stop_iff.mp done
    refine ⟨parts, added, composes, ?_, same.symm.trans ?_⟩
    · rw [← inner, takes.ahead, none, List.append_nil]
    · rw [Value.shown_record, Value.shown_record, grown, List.nil_append]
  · rintro ⟨parts, added, composes, rfl, same⟩
    obtain ⟨after, read, grown⟩ := finds composes rfl
    refine ⟨.record after, _, (nested_iff bounded ahead shallow).mpr ⟨rfl, _, map_eq_ok.mpr ⟨after, rfl, read⟩, rfl⟩, ?_⟩
    rw [Value.Same, same, Value.shown_record, Value.shown_record, grown]

end Member

/-- In front of the content, the codec reads it just when it is composed of members of the fields, in their order, and the
value is their record. -/
structure TaggedCodec.ReadsMembers (c : TaggedCodec) (fields : List (Field Codec)) (layers : Nat) (d : Decoder)
    (content : Octets) : Prop where
  reads_iff : ∀ w, (∃ v d', (c.readContent content.length).run d = .ok v d' ∧ v.Same w) ↔
    ∃ parts record, Field.Composes (d.depth + 1) d.maxDepth fields parts record ∧ Field.content parts = content ∧
      w.Same (.record record)
  /-- The decoder then stands behind the content. -/
  ends : ∀ v d', (c.readContent content.length).run d = .ok v d' → d' = d.skip content.length
  /-- The content tells which members are present, and where each of them ends. -/
  unique : ∀ parts parts' record record', Field.Composes (d.depth + 1) d.maxDepth fields parts record →
    Field.Composes (d.depth + 1) d.maxDepth fields parts' record' → Field.content parts = content →
    Field.content parts' = content → parts = parts' ∧ record = record'
  /-- Where there is room for the layers, the members are documents of their types, for every limit that admits the
  layers. -/
  documents : ∀ limit : Number, d.Admits (layers + 1) → ¬ limit.less layers = true → ∀ parts record,
    Field.Composes (d.depth + 1) d.maxDepth fields parts record ↔ Field.Composes 0 limit fields parts record

/-- Behind members in the order of the fields, the last of which is present, a component of one of their fields is refused
where it stands. -/
def TaggedCodec.RefusesDisorder (c : TaggedCodec) (fields : List (Field Codec)) (d : Decoder) (content : Octets) : Prop :=
  ∀ passed todo parts record octets tail, fields = passed ++ todo →
    Field.Composes (d.depth + 1) d.maxDepth passed (parts ++ [some octets]) record →
    content = Field.content (parts ++ [some octets]) ++ tail → ∀ (t : Tag) (f : Field Codec), t.Leads tail → f ∈ passed →
    f.type.accepts t = true → ∃ fault : Fault, (c.readContent content.length).run d = .error fault d ∧
      fault.kind? = some .nonCanonical ∧ fault = .coding (.disorderedComponent c.name f.name)
        (d.position + (Field.content (parts ++ [some octets])).length : Nat)

end Der
