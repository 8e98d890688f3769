import Der.Codec.Structure
import Der.Proofs.Reading
import Der.Proofs.Results
import Der.Proofs.Values

namespace Der.Member

open Decoding

variable {container : String} {m : Member} {members rest : List Member} {record : Record} {chosen : List (Codec × Value)}

/-- The first member is left out, or it is selected before the others. -/
theorem select_cons_eq_ok (selected : select container record (m :: members) = .ok chosen) :
    (select container record members = .ok chosen ∧ (record.member? m.name = none ∧ m.presence.mayBeAbsent = true ∨
        ∃ v, record.member? m.name = some v ∧ m.isDefault v = .ok true)) ∨
      ∃ v more, record.member? m.name = some v ∧ m.isDefault v = .ok false ∧
        select container record members = .ok more ∧ chosen = (m.codec, v) :: more := by
  rw [select] at selected
  cases entry : record.member? m.name with
  | none =>
    simp only [entry] at selected
    by_cases absent : m.presence.mayBeAbsent = true
    · rw [if_pos absent] at selected
      exact Or.inl ⟨selected, Or.inl ⟨rfl, absent⟩⟩
    · rw [if_neg absent] at selected
      cases selected
  | some v =>
    simp only [entry] at selected
    obtain ⟨omitted, same, selected⟩ := Except.bind_eq_ok.mp selected
    cases omitted with
    | true => exact Or.inl ⟨selected, Or.inr ⟨v, rfl, same⟩⟩
    | false =>
      obtain ⟨more, others, whole⟩ := Except.bind_eq_ok.mp selected
      cases whole
      exact Or.inr ⟨v, more, rfl, same, others, rfl⟩

/-- Members with names of their own, none of which is in the record yet. -/
structure Untouched (members : List Member) (record : Record) : Prop where
  named : (members.map Member.name).Nodup
  fresh : ∀ m ∈ members, record.get? m.name = none

/-- The same members in another order. -/
theorem Untouched.perm {others : List Member} (untouched : Untouched members record) (same : others.Perm members) :
    Untouched others record where
  named := (same.map Member.name).nodup_iff.mpr untouched.named
  fresh m member := untouched.fresh m (same.mem_iff.mp member)

theorem Untouched.apart (untouched : Untouched (m :: members) record) : ∀ other ∈ members, other.name ≠ m.name := by
  intro other member same
  have first := (List.nodup_cons.mp untouched.named).1
  exact first (same ▸ List.mem_map_of_mem member)

theorem Untouched.tail (untouched : Untouched (m :: members) record) {after : Record}
    (others : ∀ name, name ≠ m.name → after.get? name = record.get? name) : Untouched members after where
  named := (List.nodup_cons.mp untouched.named).2
  fresh := by
    intro other member
    rw [others other.name (untouched.apart other member)]
    exact untouched.fresh other (List.mem_cons_of_mem _ member)

/-- Members under whose names values can be assigned. -/
structure Unread (members : List Member) (record : Record) : Prop extends Untouched members record where
  usual : ∀ m ∈ members, m.name ≠ "__proto__"

/-- The same members in another order. -/
theorem Unread.perm {others : List Member} (unread : Unread members record) (same : others.Perm members) :
    Unread others record where
  toUntouched := unread.toUntouched.perm same
  usual m member := unread.usual m (same.mem_iff.mp member)

theorem Unread.tail (unread : Unread (m :: members) record) {after : Record}
    (others : ∀ name, name ≠ m.name → after.get? name = record.get? name) : Unread members after where
  toUntouched := unread.toUntouched.tail others
  usual other member := unread.usual other (List.mem_cons_of_mem _ member)

theorem Unread.free (unread : Unread (m :: members) record) : record.Free m.name :=
  ⟨unread.usual m List.mem_cons_self, unread.fresh m List.mem_cons_self⟩

theorem Unread.assign (unread : Unread (m :: members) record) (v : Value) :
    Unread members (record.assign m.name v) :=
  unread.tail fun _ => Record.get?_assign_of_ne

/-- The first member has been left out. -/
theorem Unread.default (unread : Unread (m :: members) record) :
    Unread members (record ++ (m.presence.default?.map (m.name, ·)).toList) := by
  cases m.presence.default? with
  | none =>
    refine unread.tail ?_
    intro name differs
    rw [Option.map_none, Option.toList_none, List.append_nil]
  | some u =>
    rw [Option.map_some, Option.toList_some, ← unread.free.assign_eq]
    exact unread.assign u

/-- Whether the member comes next. A member that may not be absent is taken for the next one. -/
def comes (m : Member) : Decoding Bool := do
  if m.presence.mayBeAbsent then
    match ← peekTag with
    | some tag => return m.codec.accepts tag
    | none => return false
  else return !(← get).isFinished

theorem readSequence_cons : readSequence container (m :: rest) record =
    m.comes >>= fun present =>
      if present then m.read >>= fun v => readSequence container rest (record.assign m.name v)
      else m.skip container .incomplete record >>= readSequence container rest := by
  rw [readSequence, comes]
  cases m.presence.mayBeAbsent with
  | false => rfl
  | true =>
    simp only [if_true, bind_assoc]
    congr 1
    funext tag
    cases tag <;> rfl

theorem reads_comes (m : Member) : m.comes.Reads fun _ octets => octets = [] := by
  unfold comes
  cases m.presence.mayBeAbsent with
  | true =>
    refine reads_peekTag.bind ?_
    intro tag _ same
    subst same
    cases tag <;> exact reads_pure rfl
  | false => exact Reads.after_get fun d => reads_pure rfl

end Der.Member
