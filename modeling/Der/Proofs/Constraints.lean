import Der.Proofs.TwoPass

namespace Der

namespace Schema

/-- The value meets what the type itself asks of it: a refinement its condition, a repeated type its bounds. -/
def Meets : Schema → Value → Prop
  | refine _ condition, v => condition v = none
  | sequenceOf name _ bounds _, v | setOf name _ bounds _, v =>
    ∃ places, Collection.places name v = .ok places ∧ bounds.Admits places.length
  | _, _ => True

/-- Every component of the value meets what its type asks of it. -/
def Satisfied (T : Schema) (v : Value) : Prop :=
  ∀ S u, T.Component v S u → S.Meets u

/-- Every entry of the record that a field declares satisfies the type of the field. -/
def EntriesSatisfied (fields : List (Field Schema)) (entries : Record) : Prop :=
  ∀ f ∈ fields, ∀ u, entries.own? f.name = some u → f.type.Satisfied u

variable {name : String} {tag : Tag} {bounds : SizeBounds} {item inner : Schema} {fields : List (Field Schema)}
  {v : Value}

theorem satisfied_primitive (p : Primitive) (v : Value) : (primitive p).Satisfied v := by
  intro S u part
  cases part
  exact trivial

theorem satisfied_time (v : Value) : time.Satisfied v := by
  intro S u part
  cases part
  exact trivial

theorem satisfied_any (v : Value) : any.Satisfied v := by
  intro S u part
  cases part
  exact trivial

theorem satisfied_sequence (each : ∀ entries, v.toRecord name = .ok entries → EntriesSatisfied fields entries) :
    (sequence name tag fields).Satisfied v := by
  intro S u part
  cases part with
  | self => exact trivial
  | sequence members field entry within => exact each _ members _ field _ entry S u within

theorem satisfied_set (each : ∀ entries, v.toRecord name = .ok entries → EntriesSatisfied fields entries) :
    (set name tag fields).Satisfied v := by
  intro S u part
  cases part with
  | self => exact trivial
  | set members field entry within => exact each _ members _ field _ entry S u within

theorem satisfied_sequenceOf {places : List (Option Value)} (are : Collection.places name v = .ok places)
    (admitted : bounds.Admits places.length) (each : ∀ u, some u ∈ places → item.Satisfied u) :
    (sequenceOf name tag bounds item).Satisfied v := by
  intro S u part
  cases part with
  | self => exact ⟨places, are, admitted⟩
  | sequenceOf elements element within =>
    cases are.symm.trans elements
    exact each _ element S u within

theorem satisfied_setOf {places : List (Option Value)} (are : Collection.places name v = .ok places)
    (admitted : bounds.Admits places.length) (each : ∀ u, some u ∈ places → item.Satisfied u) :
    (setOf name tag bounds item).Satisfied v := by
  intro S u part
  cases part with
  | self => exact ⟨places, are, admitted⟩
  | setOf elements element within =>
    cases are.symm.trans elements
    exact each _ element S u within

theorem Satisfied.explicit (satisfied : inner.Satisfied v) : (explicit name tag inner).Satisfied v := by
  intro S u part
  cases part with
  | self => exact trivial
  | explicit within => exact satisfied S u within

theorem Satisfied.implicit {tagClass number : Number} (satisfied : inner.Satisfied v) :
    (implicit name tagClass number inner).Satisfied v := by
  intro S u part
  cases part with
  | self => exact trivial
  | implicit within => exact satisfied S u within

theorem Satisfied.refine {condition : Condition} (satisfied : inner.Satisfied v) (accepted : condition v = none) :
    (refine inner condition).Satisfied v := by
  intro S u part
  cases part with
  | self => exact accepted
  | refine within => exact satisfied S u within

end Schema

/-- What can be measured is good. -/
def TaggedCodec.Checks (good : Value → Prop) (c : TaggedCodec) : Prop :=
  ∀ v n, c.contentLength v = .ok n → good v

/-- What can be measured is good. -/
def Codec.Checks (good : Value → Prop) : Codec → Prop
  | tagged c => c.Checks good
  | untagged c => ∀ v n, c.encodedLength v = .ok n → good v

section

variable {good : Value → Prop} {v : Value}

theorem Codec.Checks.encodedLength {c : Codec} (checks : c.Checks good) {n : Nat}
    (measured : c.encodedLength v = .ok n) : good v := by
  cases c with
  | tagged c =>
    obtain ⟨length, measured, _⟩ := Except.bind_eq_ok.mp measured
    exact checks v length measured
  | untagged c => exact checks v n measured

theorem Codec.Checks.toOctets {c : Codec} (checks : c.Checks good) {octets : Octets}
    (written : c.toOctets v = .ok octets) : good v := by
  obtain ⟨n, measured, _⟩ := Except.bind_eq_ok.mp written
  exact checks.encodedLength measured

/-- What is measured as a refinement meets the condition. -/
theorem TaggedCodec.refine_contentLength_eq_ok {inner : TaggedCodec} {condition : Condition} {n : Nat} :
    (inner.refine condition).contentLength v = .ok n ↔ condition v = none ∧ inner.contentLength v = .ok n := by
  rw [refine_contentLength]
  cases condition v with
  | some problem => exact iff_of_false nofun nofun
  | none => exact (and_iff_right rfl).symm

theorem TaggedCodec.Checks.refine {inner : TaggedCodec} (checks : inner.Checks good) (condition : Condition) :
    (inner.refine condition).Checks fun v => good v ∧ condition v = none := by
  intro v n measured
  obtain ⟨accepted, measured⟩ := refine_contentLength_eq_ok.mp measured
  exact ⟨checks v n measured, accepted⟩

end

namespace Collection

/-- A list that can be measured has an admitted number of elements, each of which can be measured. -/
theorem checks_content {name : String} {bounds : SizeBounds} {item : Codec} {good : Value → Prop}
    (checks : item.Checks good) {v : Value} {n : Nat} (measured : contentLength name bounds item v = .ok n) :
    ∃ places, Collection.places name v = .ok places ∧ bounds.Admits places.length ∧
      ∀ u, some u ∈ places → good u := by
  obtain ⟨places, are, admitted, summed⟩ := contentLength_eq_ok measured
  refine ⟨places, are, admitted, fun u member => ?_⟩
  obtain ⟨length, own⟩ := Codec.measured_of_sumLengths summed u (List.mem_filterMap.mpr ⟨some u, member, rfl⟩)
  exact checks.encodedLength own

end Collection

namespace Member

variable {container : String} {m : Member} {members passed : List Member} {record : Record}

/-- What is equal to the default has been measured, too. -/
theorem measured_of_isDefault {v : Value} (equal : m.isDefault v = .ok true) :
    ∃ n, m.codec.encodedLength v = .ok n := by
  unfold isDefault at equal
  cases known : m.defaultOctets with
  | none =>
    rw [known] at equal
    cases equal
  | some octets =>
    rw [known] at equal
    obtain ⟨own, written, _⟩ := Except.bind_eq_ok.mp equal
    obtain ⟨n, measured, _⟩ := Except.bind_eq_ok.mp written
    exact ⟨n, measured⟩

/-- Every member that is present can be measured when the selected ones can be, whether it is left out or not. -/
theorem measured_of_select {chosen : List (Codec × Value)} (selected : select container record members = .ok chosen)
    (each : ∀ part ∈ chosen, ∃ n, part.1.encodedLength part.2 = .ok n) :
    ∀ m ∈ members, ∀ v, record.member? m.name = some v → ∃ n, m.codec.encodedLength v = .ok n := by
  induction members generalizing chosen with
  | nil =>
    intro m member
    cases member
  | cons first rest ih =>
    intro m member v entry
    rcases select_cons_eq_ok selected with ⟨others, omitted⟩ | ⟨u, more, present, _, others, rfl⟩
    · rcases List.mem_cons.mp member with rfl | later
      · rcases omitted with ⟨absent, _⟩ | ⟨u, present, equal⟩
        · rw [absent] at entry
          cases entry
        · cases present.symm.trans entry
          exact measured_of_isDefault equal
      · exact ih others each m later v entry
    · rcases List.mem_cons.mp member with rfl | later
      · cases present.symm.trans entry
        exact each _ List.mem_cons_self
      · exact ih others (fun part within => each part (List.mem_cons_of_mem _ within)) m later v entry

theorem measured_of_contentLength {v : Value} {entries : Record} (are : v.toRecord container = .ok entries) {n : Nat}
    (measured : contentLength container members v = .ok n) :
    ∀ m ∈ members, ∀ u, entries.member? m.name = some u → ∃ n, m.codec.encodedLength u = .ok n := by
  obtain ⟨record, is, measured⟩ := Except.bind_eq_ok.mp measured
  cases are.symm.trans is
  obtain ⟨chosen, selected, summed⟩ := Except.bind_eq_ok.mp measured
  exact measured_of_select selected fun part => Codec.measured_of_sumLengths summed part

end Member

/-- The member of a field is among those of the fields. -/
theorem Member.ofField_mem {fields : List (Field Schema)} {f : Field Schema} (field : f ∈ fields) :
    ofField (f.map Schema.codec) ∈ (Schema.fieldCodecs fields).map ofField := by
  rw [Schema.fieldCodecs_eq_map, List.map_map]
  exact List.mem_map_of_mem field

theorem Member.ofField_mem_canonical {fields : List (Field Schema)} {f : Field Schema} (field : f ∈ fields) :
    ofField (f.map Schema.codec) ∈ canonical ((Schema.fieldCodecs fields).map ofField) :=
  (canonical_perm _).mem_iff.mpr (ofField_mem field)

namespace Schema

/-- Records that can be measured satisfy their fields. -/
theorem entriesSatisfied_of_measured {fields : List (Field Schema)} {members : List Member} {container : String}
    (each : ∀ f ∈ fields, f.type.codec.Checks f.type.Satisfied)
    (made : ∀ f ∈ fields, Member.ofField (f.map codec) ∈ members) {v : Value} {entries : Record}
    (are : v.toRecord container = .ok entries) {n : Nat}
    (measured : Member.contentLength container members v = .ok n) : EntriesSatisfied fields entries := by
  intro f field u entry
  have found := Record.member?_of_own? entry
  obtain ⟨n, own⟩ := Member.measured_of_contentLength are measured _ (made f field) u found
  exact (each f field).encodedLength own

/-- What can be measured satisfies all constraints of its type. -/
theorem Declared.checks {T : Schema} (declared : T.Declared) : T.codec.Checks T.Satisfied := by
  induction declared using Declared.induct with
  | primitive p => exact fun v n _ => satisfied_primitive p v
  | time => exact fun v n _ => satisfied_time v
  | any => exact fun v n _ => satisfied_any v
  | sequence name tag types declared clear defaults ih =>
    intro v n measured
    apply satisfied_sequence
    exact fun entries are => entriesSatisfied_of_measured ih (fun f => Member.ofField_mem) are measured
  | set name tag types declared defaults fixed distinct ih =>
    intro v n measured
    apply satisfied_set
    exact fun entries are => entriesSatisfied_of_measured ih (fun f => Member.ofField_mem_canonical) are measured
  | sequenceOf name tag bounds type declared ih =>
    intro v n measured
    obtain ⟨places, are, admitted, each⟩ := Collection.checks_content ih measured
    exact satisfied_sequenceOf are admitted each
  | setOf name tag bounds type declared ih =>
    intro v n measured
    obtain ⟨places, are, admitted, each⟩ := Collection.checks_content ih measured
    exact satisfied_setOf are admitted each
  | explicit name tag type declared ih => exact fun v n measured => (ih.encodedLength measured).explicit
  | implicit name tagClass number type declared fixed ih =>
    rw [fixed] at ih
    rw [codec, fixed]
    exact fun v n measured => (ih v n measured).implicit
  | refine condition type declared fixed ih =>
    rw [fixed] at ih
    rw [codec, fixed]
    intro v n measured
    obtain ⟨satisfied, accepted⟩ := TaggedCodec.Checks.refine ih condition v n measured
    exact satisfied.refine accepted

end Schema

namespace Decoding

variable {α β : Type} {body : Decoding α} {next : α → Decoding β} {good : α → Prop} {wanted : β → Prop}

/-- What the step returns is good. -/
def Returns (body : Decoding α) (good : α → Prop) : Prop :=
  ∀ ⦃d d' : Decoder⦄ ⦃a : α⦄, body.run d = .ok a d' → good a

theorem Returns.bind (first : body.Returns good) (goes : ∀ a, good a → (next a).Returns wanted) :
    (body >>= next).Returns wanted := by
  intro d d' b run
  obtain ⟨a, e, begun, ended⟩ := bind_eq_ok run
  exact goes a (first begun) ended

/-- Whatever the first step returns, the second one returns what is good. -/
theorem returns_after (goes : ∀ a, (next a).Returns wanted) : (body >>= next).Returns wanted := by
  intro d d' b run
  obtain ⟨a, e, _, ended⟩ := bind_eq_ok run
  exact goes a ended

theorem returns_pure {a : α} (holds : good a) : (pure a : Decoding α).Returns good := by
  intro d d' a' run
  cases run
  exact holds

theorem returns_throw (fault : Fault) : (throw fault : Decoding α).Returns good := by
  intro d d' a run
  cases run

theorem returns_fail (cause : Fault.Cause) : (fail cause : Decoding α).Returns good := by
  intro d d' a run
  cases run

theorem Returns.complete (returns : body.Returns good) : (complete body).Returns good :=
  returns.bind fun _ holds => returns_after fun _ => returns_pure holds

theorem Returns.outcome (returns : body.Returns good) {d : Decoder} {a : α} (done : body.outcome d = .ok a) :
    good a := by
  unfold Decoding.outcome at done
  cases run : body.run d with
  | error fault e => rw [run] at done; cases done
  | ok a' e =>
    rw [run] at done
    cases done
    exact returns run

theorem returns_liftM {x : Except Fault α} (holds : ∀ a, x = .ok a → good a) : (liftM x : Decoding α).Returns good := by
  cases x with
  | error fault => exact returns_throw fault
  | ok a => exact returns_pure (holds a rfl)

theorem returns_content {rule : Slice → Except Fault α} (reads : ∀ window a, rule window = .ok a → good a)
    (count : Number) : (content count rule).Returns good := by
  refine returns_after fun start => returns_after fun window => ?_
  cases read : rule window with
  | ok a => exact returns_pure (reads window a read)
  | error fault => exact returns_throw _

theorem Returns.nested (returns : body.Returns good) (count : Number) : (nested count body).Returns good := by
  refine returns_after fun n => returns_after fun d => ?_
  by_cases deep : d.maxDepth.less (d.depth + 1 : Nat) = true
  · rw [if_pos deep]
    have none : (fail (.tooDeep d.maxDepth) : Decoding Unit).Returns fun _ => False := returns_fail _
    exact none.bind fun _ => False.elim
  · rw [if_neg deep]
    have inner : (liftM ((Decoding.complete body).outcome (d.scope n)) : Decoding α).Returns good :=
      returns_liftM fun a => returns.complete.outcome
    exact inner.bind fun a holds => returns_after fun _ => returns_pure holds

end Decoding

open Decoding

/-- Whatever content is read, the value is good. -/
def TaggedCodec.Grants (good : Value → Prop) (c : TaggedCodec) : Prop :=
  ∀ count, (c.readContent count).Returns good

/-- Whatever is read, the value is good. -/
def Codec.Grants (good : Value → Prop) : Codec → Prop
  | tagged c => c.Grants good
  | untagged c => c.decode.Returns good

section

variable {good : Value → Prop}

theorem Codec.Grants.decode {c : Codec} (grants : c.Grants good) : c.decode.Returns good := by
  cases c with
  | tagged c => exact returns_after fun h => grants h.length
  | untagged c => exact grants

theorem Codec.Grants.mono {c : Codec} {weaker : Value → Prop} (grants : c.Grants good)
    (implies : ∀ v, good v → weaker v) : c.Grants weaker := by
  cases c with
  | tagged c => exact fun count d d' v run => implies v (grants count run)
  | untagged c => exact fun d d' v run => implies v (grants run)

theorem Codec.grants_of_all {c : Codec} (all : ∀ v, good v) : c.Grants good := by
  cases c with
  | tagged c => exact fun _ _ _ v _ => all v
  | untagged c => exact fun _ _ v _ => all v

theorem Codec.grants_forall {ι : Sort*} {c : Codec} {good : ι → Value → Prop} (each : ∀ i, c.Grants (good i)) :
    c.Grants fun v => ∀ i, good i v := by
  cases c with
  | tagged c => exact fun count _ _ _ run i => each i count run
  | untagged c => exact fun _ _ _ run i => each i run

theorem TaggedCodec.Grants.refine {inner : TaggedCodec} (grants : inner.Grants good) (condition : Condition) :
    (inner.refine condition).Grants fun v => good v ∧ condition v = none := by
  intro count
  refine returns_after fun start => (grants count).bind ?_
  intro v holds
  cases met : condition v with
  | some problem =>
    have none : (throw (.coding (inner.refusal problem) start) : Decoding Unit).Returns fun _ => False :=
      returns_throw _
    exact none.bind fun _ => False.elim
  | none => exact returns_pure ⟨holds, met⟩

namespace Collection

variable {name : String} {item : Codec}

theorem returns_inOrder (grants : item.Grants good) (fuel : Nat) :
    (readInOrder name item fuel).Returns fun items => ∀ u ∈ items, good u := by
  induction fuel with
  | zero => exact returns_fail _
  | succ fuel ih =>
    refine returns_after fun d => ?_
    by_cases finished : d.isFinished = true
    · rw [if_pos finished]
      exact returns_pure nofun
    · rw [if_neg finished]
      refine grants.decode.bind fun v holds => ih.bind fun items each => returns_pure ?_
      exact List.forall_mem_cons.mpr ⟨holds, each⟩

theorem returns_element (grants : item.Grants good) : (readElement item).Returns fun read => good read.1 :=
  returns_after fun _ => grants.decode.bind fun _ holds => returns_after fun _ => returns_pure holds

theorem returns_sorted (grants : item.Grants good) (fuel : Nat) (previous : Octets) :
    (readSorted name item fuel previous).Returns fun items => ∀ u ∈ items, good u := by
  induction fuel generalizing previous with
  | zero => exact returns_fail _
  | succ fuel ih =>
    refine returns_after fun d => ?_
    by_cases finished : d.isFinished = true
    · rw [if_pos finished]
      exact returns_pure nofun
    · rw [if_neg finished]
      refine (returns_element grants).bind ?_
      intro read holds
      have others : (readSorted name item fuel read.2 >>= fun items => pure (read.1 :: items) : Decoding _).Returns
          fun items => ∀ u ∈ items, good u :=
        (ih read.2).bind fun items each => returns_pure (List.forall_mem_cons.mpr ⟨holds, each⟩)
      by_cases less : 0 < Octets.compare previous read.2
      · simp only [if_pos less]
        exact returns_after fun _ => others
      · simp only [if_neg less]
        exact others

/-- A list that is read has an admitted number of elements. -/
theorem returns_content {bounds : SizeBounds} {elements : Nat → Decoding (List Value)}
    (each : ∀ fuel, (elements fuel).Returns fun items => ∀ u ∈ items, good u) (count : Number) :
    (readContent name bounds elements count).Returns fun v =>
      ∃ items, v = .list items ∧ bounds.Admits items.length ∧ ∀ u ∈ items, good u := by
  refine returns_after fun start => Returns.nested (returns_after fun d => ?_) count
  refine (each _).bind ?_
  intro items holds
  by_cases admitted : bounds.Admits items.length
  · rw [if_neg fun wrong => wrong admitted]
    exact returns_pure ⟨items, rfl, admitted, holds⟩
  · rw [if_pos admitted]
    have none : (throw (.coding (bounds.cause name items.length) start) : Decoding Unit).Returns fun _ => False :=
      returns_throw _
    exact none.bind fun _ => False.elim

end Collection

end

namespace Member

variable {container : String} {m : Member} {members passed : List Member} {record : Record}
  {good : Member → Value → Prop}

/-- From one record to the other, members have been read or filled in: other names are as before, and what stands under
the name of a member is good for it. -/
structure Kept (good : Member → Value → Prop) (members : List Member) (before after : Record) : Prop where
  others : ∀ name, (∀ m ∈ members, m.name ≠ name) → after.get? name = before.get? name
  entries : ∀ m ∈ members, ∀ v, after.get? m.name = some v → good m v

theorem kept_nil (record : Record) : Kept good [] record record :=
  ⟨fun _ _ => rfl, fun _ member => absurd member List.not_mem_nil⟩

/-- One more member has been dealt with before the others. -/
theorem Kept.cons {middle after : Record} (kept : Kept good members middle after)
    (others : ∀ name, name ≠ m.name → middle.get? name = record.get? name)
    (own : ∀ v, middle.get? m.name = some v → good m v) (named : ∀ other ∈ members, other.name ≠ m.name) :
    Kept good (m :: members) record after where
  others := by
    intro name apart
    rw [kept.others name fun other member => apart other (List.mem_cons_of_mem _ member)]
    exact others name (apart m List.mem_cons_self).symm
  entries := by
    intro other member v entry
    rcases List.mem_cons.mp member with rfl | later
    · rw [kept.others other.name named] at entry
      exact own v entry
    · exact kept.entries other later v entry

/-- Members of which none is in the record yet, which are read as good values and have good defaults. -/
structure Trusted (good : Member → Value → Prop) (members : List Member) (record : Record) : Prop
    extends Untouched members record where
  grants : ∀ m ∈ members, m.codec.Grants (good m)
  defaults : ∀ m ∈ members, ∀ v, m.presence.default? = some v → good m v

theorem Trusted.perm {others : List Member} (trusted : Trusted good members record) (same : others.Perm members) :
    Trusted good others record where
  toUntouched := trusted.toUntouched.perm same
  grants m member := trusted.grants m (same.mem_iff.mp member)
  defaults m member := trusted.defaults m (same.mem_iff.mp member)

namespace Trusted

variable (trusted : Trusted good (m :: members) record)

include trusted

theorem tail {after : Record} (others : ∀ name, name ≠ m.name → after.get? name = record.get? name) :
    Trusted good members after where
  toUntouched := trusted.toUntouched.tail others
  grants other member := trusted.grants other (List.mem_cons_of_mem _ member)
  defaults other member := trusted.defaults other (List.mem_cons_of_mem _ member)

theorem returns_read : m.read.Returns (good m) := by
  refine returns_after fun start => (trusted.grants m List.mem_cons_self).decode.bind ?_
  intro v holds
  refine returns_after fun d => ?_
  by_cases equal : m.defaultOctets = some (d.source.between start d.position)
  · rw [if_pos equal]
    exact returns_after fun _ => returns_pure holds
  · rw [if_neg equal]
    exact returns_pure holds

/-- The member is read, and then the others. -/
theorem read_then {next : Value → Decoding Record}
    (goes : ∀ v, Trusted good members (record.assign m.name v) →
      (next v).Returns (Kept good members (record.assign m.name v))) :
    (m.read >>= next).Returns (Kept good (m :: members) record) := by
  refine trusted.returns_read.bind ?_
  intro v holds d d' after run
  have others : ∀ name, name ≠ m.name → (record.assign m.name v).get? name = record.get? name :=
    fun _ => Record.get?_assign_of_ne
  refine (goes v (trusted.tail others) run).cons others ?_ trusted.apart
  intro u entry
  rcases Record.get?_assign_self entry with rfl | before
  · exact holds
  · cases (trusted.fresh m List.mem_cons_self).symm.trans before

/-- The member is passed over, and then the others are read. -/
theorem skip_then (missing : Fault.Kind) {next : Record → Decoding Record}
    (goes : ∀ skipped, Trusted good members skipped → (next skipped).Returns (Kept good members skipped)) :
    (m.skip container missing record >>= next).Returns (Kept good (m :: members) record) := by
  have skips : (m.skip container missing record).Returns fun skipped =>
      (∀ name, name ≠ m.name → skipped.get? name = record.get? name) ∧
        ∀ v, skipped.get? m.name = some v → good m v := by
    unfold skip
    cases presence : m.presence with
    | required => exact returns_fail _
    | optional =>
      refine returns_pure ⟨fun _ _ => rfl, ?_⟩
      intro v entry
      rw [trusted.fresh m List.mem_cons_self] at entry
      cases entry
    | default v =>
      refine returns_pure ⟨fun _ => Record.get?_assign_of_ne, ?_⟩
      intro u entry
      rcases Record.get?_assign_self entry with rfl | before
      · exact trusted.defaults m List.mem_cons_self u (by rw [presence]; rfl)
      · cases (trusted.fresh m List.mem_cons_self).symm.trans before
  refine skips.bind ?_
  intro skipped parts d d' after run
  exact (goes skipped (trusted.tail parts.1) run).cons parts.1 parts.2 trusted.apart

end Trusted

theorem returns_sequence (trusted : Trusted good members record) :
    (readSequence container members record).Returns (Kept good members record) := by
  induction members generalizing record with
  | nil => exact returns_pure (kept_nil record)
  | cons m rest ih =>
    rw [readSequence_cons]
    refine returns_after fun present => ?_
    cases present with
    | true => exact trusted.read_then fun v others => ih others
    | false => exact trusted.skip_then _ fun skipped others => ih others

theorem returns_skipAll {missing : Fault.Kind} (trusted : Trusted good members record) :
    (members.foldlM (fun (record : Record) (m : Member) => m.skip container missing record) record).Returns
      (Kept good members record) := by
  induction members generalizing record with
  | nil => exact returns_pure (kept_nil record)
  | cons m rest ih =>
    rw [List.foldlM_cons]
    exact trusted.skip_then _ fun skipped others => ih others

theorem returns_set (trusted : Trusted good members record) :
    (readSet container passed members record).Returns (Kept good members record) := by
  induction members generalizing passed record with
  | nil =>
    rw [readSet]
    refine returns_after fun tag => ?_
    cases tag with
    | none => exact returns_skipAll trusted
    | some tag =>
      dsimp only
      cases passed.find? (·.codec.accepts tag) <;> exact returns_fail _
  | cons m rest ih =>
    rw [readSet]
    refine returns_after fun tag => ?_
    cases tag with
    | none => exact returns_skipAll trusted
    | some tag =>
      dsimp only
      cases passed.find? (·.codec.accepts tag) with
      | some m' => exact returns_fail _
      | none =>
        by_cases accepted : m.codec.accepts tag = true
        · rw [if_pos accepted]
          exact trusted.read_then fun v others => ih others
        · rw [if_neg accepted]
          by_cases later : rest.any (·.codec.accepts tag) = true
          · rw [if_pos later]
            exact trusted.skip_then _ fun skipped others => ih others
          · rw [if_neg later]
            exact returns_fail _

end Member

namespace Schema

/-- What a member of the fields has to satisfy: the type of its field. -/
def MemberSatisfied (fields : List (Field Schema)) (m : Member) (v : Value) : Prop :=
  ∀ f ∈ fields, m = Member.ofField (f.map codec) → f.type.Satisfied v

/-- Defaults have been checked when the type was declared. -/
theorem trusted_of_fields {fields : List (Field Schema)} (types : ∀ f ∈ fields, f.type.Declared)
    (grants : ∀ f ∈ fields, f.type.codec.Grants f.type.Satisfied)
    (defaults : Field.checkDefaults (fieldCodecs fields) = .ok ()) (named : (fields.map Field.name).Nodup) :
    Member.Trusted (MemberSatisfied fields) ((fieldCodecs fields).map Member.ofField) [] where
  grants m member :=
    Codec.grants_forall fun f => Codec.grants_forall fun field => Codec.grants_forall fun same => by
      rw [same]
      exact grants f field
  defaults m member v default f field same := by
    subst same
    have within : f.map codec ∈ fieldCodecs fields := by
      rw [fieldCodecs_eq_map]
      exact List.mem_map_of_mem field
    -- Each default has been encoded once at the declaration, and nothing is encoded without being measured.
    obtain ⟨octets, written⟩ := toOctets_of_checkDefaults defaults _ within v default
    exact (types f field).checks.toOctets written
  named := by
    rw [fieldCodecs_eq_map, List.map_map, List.map_map]
    exact named
  fresh _ _ := rfl

theorem entriesSatisfied_of_kept {fields : List (Field Schema)} {members : List Member} {entries : Record}
    (kept : Member.Kept (MemberSatisfied fields) members [] entries)
    (made : ∀ f ∈ fields, Member.ofField (f.map codec) ∈ members) : EntriesSatisfied fields entries :=
  fun f field u entry => kept.entries _ (made f field) u (Record.get?_of_own? entry) f field rfl

/-- What is read satisfies all constraints of its type. -/
theorem Declared.grants {T : Schema} (declared : T.Declared) (named : T.Named) : T.codec.Grants T.Satisfied := by
  induction declared using Declared.induct with
  | primitive p => exact Codec.grants_of_all (satisfied_primitive p)
  | time => exact Codec.grants_of_all satisfied_time
  | any => exact Codec.grants_of_all satisfied_any
  | sequence name tag types declared clear defaults ih =>
    intro count
    have each := fun f field => ih f field (named.child (List.mem_map_of_mem field))
    have trusted := trusted_of_fields types each defaults (named _ (.self _))
    refine Returns.nested ((Member.returns_sequence trusted).bind fun record kept => returns_pure ?_) count
    apply satisfied_sequence
    rintro entries ⟨⟩
    exact entriesSatisfied_of_kept kept fun f => Member.ofField_mem
  | set name tag types declared defaults fixed distinct ih =>
    intro count
    have each := fun f field => ih f field (named.child (List.mem_map_of_mem field))
    have trusted := trusted_of_fields types each defaults (named _ (.self _))
    -- The members are read in the order of their tags.
    have sorted := trusted.perm (Member.canonical_perm _)
    refine Returns.nested ((Member.returns_set sorted).bind fun record kept => returns_pure ?_) count
    apply satisfied_set
    rintro entries ⟨⟩
    exact entriesSatisfied_of_kept kept fun f => Member.ofField_mem_canonical
  | sequenceOf name tag bounds type declared ih =>
    intro count d d' v run
    have grants := ih (named.child List.mem_cons_self)
    obtain ⟨items, rfl, admitted, each⟩ := Collection.returns_content (Collection.returns_inOrder grants) count run
    refine satisfied_sequenceOf rfl (by rwa [List.length_map]) fun u member => each u ?_
    exact (List.mem_map_of_injective (Option.some_injective Value)).mp member
  | setOf name tag bounds type declared ih =>
    intro count d d' v run
    have grants := ih (named.child List.mem_cons_self)
    obtain ⟨items, rfl, admitted, each⟩ :=
      Collection.returns_content (fun fuel => Collection.returns_sorted grants fuel []) count run
    refine satisfied_setOf rfl (by rwa [List.length_map]) fun u member => each u ?_
    exact (List.mem_map_of_injective (Option.some_injective Value)).mp member
  | explicit name tag type declared ih =>
    intro count d d' v run
    exact ((ih (named.child List.mem_cons_self)).decode.nested count run).explicit
  | implicit name tagClass number type declared fixed ih =>
    have grants := ih (named.child List.mem_cons_self)
    rw [fixed] at grants
    rw [codec, fixed]
    exact fun count d d' v run => (grants count run).implicit
  | refine condition type declared fixed ih =>
    have grants := ih (named.child List.mem_cons_self)
    rw [fixed] at grants
    rw [codec, fixed]
    intro count d d' v run
    obtain ⟨satisfied, accepted⟩ := TaggedCodec.Grants.refine grants condition count run
    exact satisfied.refine accepted

/-- No constraint of a type can be bypassed. Values that have been read satisfy all conditions and bounds at every
component, and so do the values for which a document, or an element, has been built in any way. -/
theorem Declared.constraints_hold {T : Schema} (declared : T.Declared) (named : T.Named) (v : Value) :
    ((∃ maxDepth document, Document.parse T.codec maxDepth document = .ok v) → T.Satisfied v) ∧
      ((∃ document, Document.build T.codec v = .ok document) ∨
          (∃ buffer document, (Document.buildInto T.codec v buffer).1 = .ok document) ∨
          (∃ a, Any.ofValue T.codec v = .ok a) → T.Satisfied v) := by
  refine ⟨?_, ?_⟩
  · rintro ⟨maxDepth, document, parsed⟩
    exact (declared.grants named).decode.complete.outcome parsed
  · rintro (⟨document, built⟩ | ⟨buffer, document, built⟩ | ⟨a, captured⟩)
    · obtain ⟨n, measured, _⟩ := Except.bind_eq_ok.mp built
      exact declared.checks.encodedLength measured
    · unfold Document.buildInto at built
      cases measured : T.codec.encodedLength v with
      | error fault => rw [measured] at built; cases built
      | ok n => exact declared.checks.encodedLength measured
    · obtain ⟨octets, written, _⟩ := Except.bind_eq_ok.mp captured
      exact declared.checks.toOctets written

/-- The condition on integers that they have at most one digit. -/
def oneDigit : Condition
  | .integer n => if n < 10 then none else some "too large"
  | _ => some "no integer"

/-- One or two levels. -/
def levels : Schema :=
  sequenceOf "Levels" ⟨0, true, 16⟩ ⟨some 1, some 2⟩ (refine (.primitive .integer) oneDigit)

/-- Limits for levels, which are a single one by default. -/
def limits : Schema :=
  sequence "Limits" ⟨0, true, 16⟩ [⟨"levels", .default (.list [.integer 1]), levels⟩]

/-- A default that is filled in satisfies its bounds and the condition on its elements, and so do two levels that are
written. A list without elements is neither read nor written. -/
theorem constraints_hold_default :
    limits.Declared ∧ limits.Named ∧
      Document.parse limits.codec 100 [0x30, 0] = .ok (.record [("levels", .list [.integer 1])]) ∧
      limits.Satisfied (.record [("levels", .list [.integer 1])]) ∧
      Document.build limits.codec (.record [("levels", .list [.integer 7, .integer 8])]) =
        .ok [0x30, 8, 0x30, 6, 2, 1, 7, 2, 1, 8] ∧
      limits.Satisfied (.record [("levels", .list [.integer 7, .integer 8])]) ∧
      Document.parse limits.codec 100 [0x30, 2, 0x30, 0] =
        .error (.coding (.wrongSize "Levels" 0 (some 1) (some 2)) (4 : Nat)) ∧
      Document.build limits.codec (.record [("levels", .list [])]) =
        .error (.ofCause (.wrongSize "Levels" 0 (some 1) (some 2))) := by
  have accepted : declareSequence "Limits" none none [⟨"levels", .default (.list [.integer 1]), levels⟩] =
      .ok limits := rfl
  have declared : limits.Declared := by
    refine .sequence ?_ accepted
    intro f member
    rw [List.mem_singleton.mp member]
    exact .sequenceOf "Levels" none none ⟨some 1, some 2⟩ (.refine oneDigit (.primitive .integer) rfl)
  have named : limits.Named := by
    intro S part
    rcases part.eq_or_child with rfl | ⟨U, direct, inner⟩
    · decide
    rw [List.mem_singleton.mp direct] at inner
    rcases inner.eq_or_child with rfl | ⟨U', direct', inner'⟩
    · exact List.nodup_nil
    rw [List.mem_singleton.mp direct'] at inner'
    rcases inner'.eq_or_child with rfl | ⟨U'', direct'', inner''⟩
    · exact List.nodup_nil
    rw [List.mem_singleton.mp direct''] at inner''
    rw [inner''.eq_of_primitive]
    exact List.nodup_nil
  have parsed : Document.parse limits.codec 100 [0x30, 0] = .ok (.record [("levels", .list [.integer 1])]) := rfl
  have built : Document.build limits.codec (.record [("levels", .list [.integer 7, .integer 8])]) =
      .ok [0x30, 8, 0x30, 6, 2, 1, 7, 2, 1, 8] := rfl
  exact ⟨declared, named, parsed, (declared.constraints_hold named _).1 ⟨100, _, parsed⟩, built,
    (declared.constraints_hold named _).2 (Or.inl ⟨_, built⟩), rfl, rfl⟩

end Schema

end Der
