import Der.Decoder
import Der.Proofs.Header

namespace Der

namespace Tag

theorem eq_of_equals {a b : Tag} (equal : a.equals b = true) : a = b := by
  simp only [equals, Number.same, Bool.and_eq_true, decide_eq_true_eq, beq_iff_eq] at equal
  exact ext_parts equal.1.1.1 equal.2 equal.1.2.1

theorem WellFormed.equals_self {t : Tag} (valid : t.WellFormed) : t.equals t = true := by
  obtain ⟨c, n, _, _, classes, numbers⟩ := valid
  simp [equals, Number.same, classes, numbers]

end Tag

namespace Decoder

/-- The position lies inside the scope, and the scope inside the document. -/
structure Bounded (d : Decoder) : Prop where
  position_le : d.position ≤ d.stop
  stop_le : d.stop ≤ d.source.length

/-- The octets left in the scope. -/
def rest (d : Decoder) : Octets :=
  d.source.between d.position d.stop

/-- The decoder with the position moved forward. -/
def skip (d : Decoder) (count : Nat) : Decoder :=
  { d with position := d.position + count }

theorem bounded_ofOctets (source : Octets) (maxDepth : Number) : (ofOctets source maxDepth).Bounded :=
  ⟨Nat.zero_le _, Nat.le_refl _⟩

@[simp] theorem rest_ofOctets (source : Octets) (maxDepth : Number) : (ofOctets source maxDepth).rest = source := by
  simp [rest, ofOctets, Octets.between]

@[simp] theorem skip_zero (d : Decoder) : d.skip 0 = d := rfl

theorem skip_skip (d : Decoder) (first second : Nat) : (d.skip first).skip second = d.skip (first + second) := by
  simp only [skip, Nat.add_assoc]

@[simp] theorem rest_skip (d : Decoder) (count : Nat) : (d.skip count).rest = d.rest.drop count := by
  simp [rest, skip, Octets.between, List.drop_drop]

namespace Bounded

variable {d : Decoder} (bounded : d.Bounded)

include bounded

theorem length_rest : d.rest.length = d.stop - d.position := by
  have inside := bounded.stop_le
  rw [rest, Octets.length_between]
  omega

theorem ahead_eq : d.ahead = ⟨d.rest, 0⟩ := by
  have before := bounded.position_le
  have inside := bounded.stop_le
  have gap : d.stop - max d.position d.source.length = 0 := by omega
  rw [ahead, Octets.ahead, gap]
  rfl

theorem remaining_eq : d.remaining = d.rest.length := by
  have before := bounded.position_le
  rw [bounded.length_rest, remaining]
  omega

theorem isFinished_iff : d.isFinished = true ↔ d.rest = [] := by
  have length := bounded.length_rest
  have before := bounded.position_le
  rw [isFinished, decide_eq_true_eq, ← List.length_eq_zero_iff]
  omega

theorem skip {count : Nat} (room : count ≤ d.rest.length) : (d.skip count).Bounded := by
  have before := bounded.position_le
  rw [bounded.length_rest] at room
  exact ⟨by simp only [Decoder.skip]; omega, bounded.stop_le⟩

theorem scope {count : Nat} (room : count ≤ d.rest.length) : (d.scope count).Bounded := by
  have before := bounded.position_le
  have inside := bounded.stop_le
  rw [bounded.length_rest] at room
  exact ⟨by simp only [Decoder.scope]; omega, by simp only [Decoder.scope]; omega⟩

theorem rest_scope {count : Nat} (room : count ≤ d.rest.length) : (d.scope count).rest = d.rest.take count := by
  have before := bounded.position_le
  rw [bounded.length_rest] at room
  simp only [rest, Decoder.scope, Octets.between]
  rw [List.take_drop, List.take_take]
  congr 2
  omega

/-- What a step has read that has moved the position. -/
theorem between_skip {count : Nat} (room : count ≤ d.rest.length) :
    d.source.between d.position (d.position + count) = d.rest.take count :=
  bounded.rest_scope room

theorem position_eq_stop_iff : d.position = d.stop ↔ d.rest = [] := by
  have length := bounded.length_rest
  have before := bounded.position_le
  rw [← List.length_eq_zero_iff]
  omega

end Bounded

end Decoder

namespace Decoding

open Decoder

variable {d : Decoder}

/-- What succeeds in two steps has succeeded in each of them. -/
theorem bind_eq_ok {α β : Type} {body : Decoding α} {next : α → Decoding β} {b : β} {d' : Decoder}
    (run : (body >>= next).run d = .ok b d') :
    ∃ a e, body.run d = .ok a e ∧ (next a).run e = .ok b d' := by
  rw [EStateM.run_bind] at run
  cases first : body.run d with
  | error fault e => rw [first] at run; cases run
  | ok a e => exact ⟨a, e, rfl, by rwa [first] at run⟩

@[simp] theorem run_offset (d : Decoder) : offset.run d = .ok d.position d := rfl

@[simp] theorem run_advance (count : Nat) (d : Decoder) : (advance count).run d = .ok () (d.skip count) := rfl

theorem run_peekTag (bounded : d.Bounded) :
    peekTag.run d =
      match d.rest with
      | [] => .ok none d
      | _ => match Tag.decode d.position d.rest with
        | .ok (tag, _) => .ok (some tag) d
        | .error fault => .error fault d := by
  have read : peekTag.run d = (liftM d.peekTag : Decoding (Option Tag)).run d := rfl
  rw [read, Fault.run_liftM, Decoder.peekTag]
  cases octets : d.rest with
  | nil => rw [if_pos (bounded.isFinished_iff.mpr octets)]
  | cons first tail =>
    have unfinished : ¬ d.isFinished = true := fun finished => by
      rw [bounded.isFinished_iff.mp finished] at octets
      cases octets
    rw [if_neg unfinished, bounded.ahead_eq, Overhang.tag_of_complete, octets]
    cases Tag.decode d.position (first :: tail) <;> rfl

theorem run_header (bounded : d.Bounded) :
    header.run d =
      match Header.decode d.position d.rest with
      | .ok (header, content) => .ok header (d.skip (d.rest.length - content.length))
      | .error fault => .error fault d := by
  unfold header
  rw [EStateM.run_bind, EStateM.run_get]
  simp only [EStateM.run_bind, Fault.run_liftM, bounded.ahead_eq, Overhang.header_of_complete]
  cases Header.decode d.position d.rest with
  | error fault => rfl
  | ok read => simp [Except.map, Overhang.size]

/-- A header that is read is what is written for it, and the content that it declares lies ahead. -/
theorem header_eq_ok (bounded : d.Bounded) {h : Header} {d' : Decoder} (read : header.run d = .ok h d') :
    ∃ (length : Nat) (written : Octets), h.length = length ∧ h.tag.WellFormed ∧
      Header.encode h.tag length = .ok written ∧ d' = d.skip written.length ∧
      d.rest = written ++ d'.rest ∧ length ≤ d'.rest.length := by
  rw [run_header bounded] at read
  cases decoded : Header.decode d.position d.rest with
  | error fault => rw [decoded] at read; cases read
  | ok result =>
    obtain ⟨h', content⟩ := result
    rw [decoded] at read
    injection read with same state
    subst same
    obtain ⟨length, written, isLength, fits, valid, wrote, whole⟩ := Header.eq_encode_of_decode decoded
    have used : d.rest.length - content.length = written.length := by
      rw [whole, List.length_append]
      omega
    rw [used] at state
    have left : (d.skip written.length).rest = content := by
      rw [rest_skip, whole, List.drop_left]
    refine ⟨length, written, isLength, valid, wrote, state.symm, ?_, ?_⟩
    · rw [← state, left, whole]
    · rw [← state, left]
      exact fits

/-- A header of the expected tag that is read is what is written for that tag. -/
theorem expect_eq_ok (bounded : d.Bounded) {tag : Tag} {name : String} {h : Header} {d' : Decoder}
    (read : (expect tag name).run d = .ok h d') :
    ∃ (length : Nat) (written : Octets), h.length = length ∧ tag.WellFormed ∧
      Header.encode tag length = .ok written ∧ d' = d.skip written.length ∧
      d.rest = written ++ d'.rest ∧ length ≤ d'.rest.length := by
  obtain ⟨_, _, begun, read⟩ := bind_eq_ok read
  cases begun
  obtain ⟨h', e, decoded, read⟩ := bind_eq_ok read
  by_cases expected : h'.tag.equals tag = true
  · rw [if_pos expected] at read
    cases read
    rw [← Tag.eq_of_equals expected]
    exact header_eq_ok bounded decoded
  · rw [if_neg expected] at read
    cases read

/-- A header is read from what is written for it when the content that it declares follows. -/
theorem run_header_of_encode (bounded : d.Bounded) {tag : Tag} {length : Nat} {written content : Octets}
    (valid : tag.WellFormed) (wrote : Header.encode tag length = .ok written)
    (ahead : d.rest = written ++ content) (fits : length ≤ content.length) :
    header.run d = .ok ⟨tag, length⟩ (d.skip written.length) := by
  rw [run_header bounded, ahead, Header.decode_encode valid wrote fits]
  simp

theorem run_expect_of_encode (bounded : d.Bounded) {tag : Tag} {length : Nat} {written content : Octets}
    (name : String) (valid : tag.WellFormed) (wrote : Header.encode tag length = .ok written)
    (ahead : d.rest = written ++ content) (fits : length ≤ content.length) :
    (expect tag name).run d = .ok ⟨tag, length⟩ (d.skip written.length) := by
  simp [expect, run_header_of_encode bounded valid wrote ahead fits, valid.equals_self]

theorem run_need (bounded : d.Bounded) {count : Nat} (room : count ≤ d.rest.length) :
    (need count).run d = .ok count d := by
  have enough : (count : Int) ≤ d.remaining := by
    rw [bounded.remaining_eq]
    exact Int.ofNat_le.mpr room
  simp [need, enough]

theorem need_eq_ok (bounded : d.Bounded) {count : Number} {n : Nat} {d' : Decoder}
    (enough : (need count).run d = .ok n d') : count = n ∧ n ≤ d.rest.length ∧ d' = d := by
  simp only [need, EStateM.run_bind, EStateM.run_get] at enough
  cases isNat : count.toNat? with
  | none => simp only [isNat] at enough; cases enough
  | some k =>
    simp only [isNat] at enough
    by_cases room : (k : Int) ≤ d.remaining
    · simp only [room, if_true, EStateM.run_pure] at enough
      injection enough with same state
      subst same
      rw [bounded.remaining_eq] at room
      exact ⟨Number.eq_natCast_of_toNat? isNat, Int.ofNat_le.mp room, state.symm⟩
    · simp only [room, if_false] at enough
      cases enough

/-- Asking for more octets than are left, or for no count of octets at all, fails at the position. -/
theorem run_need_of_scarce (bounded : d.Bounded) {count : Number}
    (scarce : ¬ ∃ n : Nat, count = n ∧ n ≤ d.rest.length) :
    (need count).run d = .error (d.fault (.missingOctets count d.rest.length)) d := by
  simp only [need, EStateM.run_bind, EStateM.run_get]
  cases isNat : count.toNat? with
  | none =>
    rw [← bounded.remaining_eq]
    rfl
  | some k =>
    have short : ¬ (k : Int) ≤ d.remaining := by
      rw [bounded.remaining_eq]
      intro room
      exact scarce ⟨k, Number.eq_natCast_of_toNat? isNat, Int.ofNat_le.mp room⟩
    simp only [if_neg short]
    rw [← bounded.remaining_eq]
    rfl

/-- The window on the next octets. -/
def windowAt (d : Decoder) (count : Nat) : Slice :=
  ⟨d.source, d.position, count, .document⟩

theorem octets_windowAt (bounded : d.Bounded) {count : Nat} (room : count ≤ d.rest.length) :
    (windowAt d count).octets = .ok (d.rest.take count) := by
  have length := bounded.length_rest
  have inside := bounded.stop_le
  have before := bounded.position_le
  have backed : (windowAt d count).Backed := by
    change d.position + count ≤ d.source.length
    omega
  rw [Slice.octets, if_pos backed, ← bounded.between_skip room, Octets.between, List.take_drop]
  congr 2

theorem run_slice (bounded : d.Bounded) {count : Nat} (room : count ≤ d.rest.length) :
    (slice count).run d = .ok (windowAt d count) (d.skip count) := by
  have length := bounded.length_rest
  have inside := bounded.stop_le
  have before := bounded.position_le
  have fits : d.position + count ≤ d.source.length := by omega
  simp only [slice, EStateM.run_bind, run_need bounded room, EStateM.run_get, Fault.run_liftM, Slice.within,
    if_pos fits, run_advance]
  rfl

theorem run_content (bounded : d.Bounded) {α : Type} {count : Nat} (room : count ≤ d.rest.length)
    (rule : Slice → Except Fault α) :
    (content count rule).run d =
      match rule (windowAt d count) with
      | .ok a => .ok a (d.skip count)
      | .error fault => .error (fault.located d.position) (d.skip count) := by
  simp only [content, EStateM.run_bind, run_offset, run_slice bounded room]
  cases rule (windowAt d count) <;> rfl

theorem content_eq_ok (bounded : d.Bounded) {α : Type} {count : Number} {rule : Slice → Except Fault α} {a : α}
    {d' : Decoder} (read : (content count rule).run d = .ok a d') :
    ∃ n : Nat, count = n ∧ n ≤ d.rest.length ∧ d' = d.skip n ∧ rule (windowAt d n) = .ok a := by
  obtain ⟨_, _, begun, taken⟩ := bind_eq_ok read
  cases begun
  obtain ⟨_, _, taken, _⟩ := bind_eq_ok taken
  obtain ⟨n, e, enough, _⟩ := bind_eq_ok taken
  obtain ⟨rfl, room, rfl⟩ := need_eq_ok bounded enough
  rw [run_content bounded room] at read
  cases result : rule (windowAt e n) with
  | error fault => rw [result] at read; cases read
  | ok a' =>
    rw [result] at read
    cases read
    exact ⟨n, rfl, room, rfl, result⟩

theorem run_finish (bounded : d.Bounded) :
    finish.run d = if d.rest = [] then .ok () d else .error (d.fault (.trailingOctets d.remaining)) d := by
  simp only [finish, EStateM.run_bind, EStateM.run_get]
  by_cases done : d.rest = []
  · rw [if_pos (bounded.position_eq_stop_iff.mpr done), if_pos done]
    rfl
  · rw [if_neg fun same => done (bounded.position_eq_stop_iff.mp same), if_neg done]
    rfl

/-- A scope of the next octets runs its body on them, at one more level. -/
theorem run_nested (bounded : d.Bounded) {α : Type} {count : Nat} (room : count ≤ d.rest.length)
    (body : Decoding α) :
    (nested count body).run d =
      if d.maxDepth.less (d.depth + 1 : Nat) then .error (d.fault (.tooDeep d.maxDepth)) d
      else match (complete body).run (d.scope count) with
        | .ok a _ => .ok a (d.skip count)
        | .error fault _ => .error fault d := by
  simp only [nested, EStateM.run_bind, run_need bounded room, EStateM.run_get]
  by_cases deep : d.maxDepth.less (d.depth + 1 : Nat) = true
  · simp only [if_pos deep]
    rfl
  · simp only [if_neg deep, outcome]
    cases (complete body).run (d.scope count) <;> rfl

theorem nested_eq_ok (bounded : d.Bounded) {α : Type} {count : Number} {body : Decoding α} {a : α} {d' : Decoder}
    (read : (nested count body).run d = .ok a d') :
    ∃ n : Nat, count = n ∧ n ≤ d.rest.length ∧ d' = d.skip n ∧
      d.maxDepth.less (d.depth + 1 : Nat) = false ∧ ∃ e, (complete body).run (d.scope n) = .ok a e := by
  obtain ⟨n, e, enough, _⟩ := bind_eq_ok read
  obtain ⟨rfl, room, rfl⟩ := need_eq_ok bounded enough
  rw [run_nested bounded room] at read
  by_cases deep : e.maxDepth.less (e.depth + 1 : Nat) = true
  · rw [if_pos deep] at read
    cases read
  · rw [if_neg deep] at read
    cases result : (complete body).run (e.scope n) with
    | error fault s => rw [result] at read; cases read
    | ok a' s =>
      rw [result] at read
      cases read
      exact ⟨n, rfl, room, rfl, by simpa using deep, s, result⟩

end Decoding

/-- The octets stand next in the scope, and the second decoder stands behind them. -/
structure Decoder.Takes (d : Decoder) (octets : Octets) (d' : Decoder) : Prop where
  state : d' = d.skip octets.length
  ahead : d.rest = octets ++ d'.rest

namespace Decoder

variable {d e d' : Decoder} {octets more : Octets}

theorem takes_nil (d : Decoder) : d.Takes [] d := ⟨rfl, rfl⟩

theorem takes_take {count : Nat} (room : count ≤ d.rest.length) : d.Takes (d.rest.take count) (d.skip count) where
  state := by rw [List.length_take_of_le room]
  ahead := by rw [rest_skip, List.take_append_drop]

theorem rest_skip_of_ahead (ahead : d.rest = octets ++ more) : (d.skip octets.length).rest = more := by
  rw [rest_skip, ahead, List.drop_left]

theorem takes_of_ahead (ahead : d.rest = octets ++ more) : d.Takes octets (d.skip octets.length) where
  state := rfl
  ahead := by rw [rest_skip_of_ahead ahead, ahead]

theorem Takes.trans (first : d.Takes octets e) (second : e.Takes more d') : d.Takes (octets ++ more) d' where
  state := by rw [second.state, first.state, skip_skip, List.length_append]
  ahead := by rw [first.ahead, second.ahead, List.append_assoc]

theorem Takes.length_le (takes : d.Takes octets d') : octets.length ≤ d.rest.length := by
  rw [takes.ahead, List.length_append]
  exact Nat.le_add_right _ _

/-- In the scope of octets that stand ahead, just these stand ahead. -/
theorem Bounded.scope_of_ahead (bounded : d.Bounded) (ahead : d.rest = octets ++ more) :
    (d.scope octets.length).Bounded ∧ (d.scope octets.length).rest = octets := by
  have room := (takes_of_ahead ahead).length_le
  refine ⟨bounded.scope room, ?_⟩
  rw [bounded.rest_scope room, ahead, List.take_left]

theorem Takes.bounded (takes : d.Takes octets d') (bounded : d.Bounded) : d'.Bounded := by
  rw [takes.state]
  exact bounded.skip takes.length_le

theorem Takes.between (takes : d.Takes octets d') (bounded : d.Bounded) :
    d'.source.between d.position d'.position = octets := by
  have same := bounded.between_skip takes.length_le
  rw [takes.ahead, List.take_left] at same
  rw [takes.state]
  exact same

end Decoder

namespace Decoding

variable {α β : Type} {body : Decoding α} {next : α → Decoding β} {right right' : α → Octets → Prop}
  {wanted : β → Octets → Prop}

/-- Wherever the step succeeds, it has read octets that are right for its result. -/
def Reads (body : Decoding α) (right : α → Octets → Prop) : Prop :=
  ∀ ⦃d d' : Decoder⦄ ⦃a : α⦄, d.Bounded → body.run d = .ok a d' → ∃ octets, d.Takes octets d' ∧ right a octets

theorem Reads.mono (reads : body.Reads right) (weaker : ∀ a octets, right a octets → right' a octets) :
    body.Reads right' := by
  intro d d' a bounded run
  obtain ⟨octets, takes, holds⟩ := reads bounded run
  exact ⟨octets, takes, weaker a octets holds⟩

theorem reads_pure {a : α} (holds : right a []) : (pure a : Decoding α).Reads right := by
  intro d d' a' bounded run
  cases run
  exact ⟨[], Decoder.takes_nil d, holds⟩

theorem reads_throw (fault : Fault) : (throw fault : Decoding α).Reads right := by
  intro d d' a bounded run
  cases run

theorem reads_fail (cause : Fault.Cause) : (fail cause : Decoding α).Reads right := by
  intro d d' a bounded run
  cases run

theorem Reads.bind (begins : body.Reads right)
    (goes : ∀ a octets, right a octets → (next a).Reads fun b more => wanted b (octets ++ more)) :
    (body >>= next).Reads wanted := by
  intro d d' b bounded run
  obtain ⟨a, e, first, second⟩ := bind_eq_ok run
  obtain ⟨octets, takes, holds⟩ := begins bounded first
  obtain ⟨more, takes', holds'⟩ := goes a octets holds (takes.bounded bounded) second
  exact ⟨octets ++ more, takes.trans takes', holds'⟩

/-- A step that reads nothing before another one. -/
theorem Reads.before (looks : body.Reads fun _ octets => octets = []) (goes : ∀ a, (next a).Reads wanted) :
    (body >>= next).Reads wanted := by
  refine looks.bind ?_
  intro a octets none
  rw [none]
  exact goes a

/-- A step that only looks at the decoder reads nothing. -/
theorem Reads.after_get {next : Decoder → Decoding β} (goes : ∀ d, (next d).Reads wanted) :
    (get >>= next : Decoding β).Reads wanted :=
  fun d _ _ bounded run => goes d bounded run

theorem reads_offset : offset.Reads fun _ octets => octets = [] := by
  intro d d' a bounded run
  cases run
  exact ⟨[], Decoder.takes_nil d, rfl⟩

theorem reads_peekTag : peekTag.Reads fun _ octets => octets = [] := by
  intro d d' a bounded run
  rw [run_peekTag bounded] at run
  split at run
  · cases run
    exact ⟨[], Decoder.takes_nil d, rfl⟩
  · split at run
    · cases run
      exact ⟨[], Decoder.takes_nil d, rfl⟩
    · cases run

theorem reads_expect (tag : Tag) (name : String) :
    (expect tag name).Reads fun h octets => ∃ length : Nat, h.length = length ∧ Header.encode tag length = .ok octets := by
  intro d d' h bounded run
  obtain ⟨length, written, isLength, _, wrote, state, ahead, _⟩ := expect_eq_ok bounded run
  exact ⟨written, ⟨state, ahead⟩, length, isLength, wrote⟩

theorem reads_content {count : Number} {rule : Slice → Except Fault α}
    (reads : ∀ {window octets a}, window.octets = .ok octets → rule window = .ok a → right a octets) :
    (content count rule).Reads fun a octets => count = octets.length ∧ right a octets := by
  intro d d' a bounded run
  obtain ⟨n, isCount, room, state, read⟩ := content_eq_ok bounded run
  have length : (d.rest.take n).length = n := List.length_take_of_le room
  refine ⟨d.rest.take n, ?_, by rw [length, isCount], reads (octets_windowAt bounded room) read⟩
  rw [state]
  exact Decoder.takes_take room

/-- A body that exhausts its scope has read all of it. -/
theorem Reads.complete (reads : body.Reads right) {d d' : Decoder} {a : α} (bounded : d.Bounded)
    (run : (complete body).run d = .ok a d') : right a d.rest := by
  obtain ⟨a', e, done, ended⟩ := bind_eq_ok run
  obtain ⟨⟨⟩, s, finished, last⟩ := bind_eq_ok ended
  cases last
  obtain ⟨octets, takes, holds⟩ := reads bounded done
  rw [run_finish (takes.bounded bounded)] at finished
  by_cases none : e.rest = []
  · rwa [takes.ahead, none, List.append_nil]
  · rw [if_neg none] at finished
    cases finished

/-- A scope reads what its body reads, which is all of it. -/
theorem Reads.nested (reads : body.Reads right) (count : Number) :
    (nested count body).Reads fun a octets => count = octets.length ∧ right a octets := by
  intro d d' a bounded run
  obtain ⟨n, isCount, room, state, _, e, inside⟩ := nested_eq_ok bounded run
  have holds := reads.complete (bounded.scope room) inside
  rw [bounded.rest_scope room] at holds
  refine ⟨d.rest.take n, ?_, by rw [isCount, List.length_take_of_le room], holds⟩
  rw [state]
  exact Decoder.takes_take room

end Decoding

end Der
