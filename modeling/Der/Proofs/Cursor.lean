import Der.Proofs.Codec.Restores

namespace Der

/-- The second decoder stands in the same scope, at the position of the first one or behind it. -/
def Decoder.Reaches (d e : Decoder) : Prop :=
  ∃ count ≤ d.rest.length, e = d.skip count

namespace Decoder

variable {d e d' : Decoder}

theorem Reaches.refl (d : Decoder) : d.Reaches d :=
  ⟨0, Nat.zero_le _, rfl⟩

theorem Reaches.trans (first : d.Reaches e) (second : e.Reaches d') : d.Reaches d' := by
  obtain ⟨count, room, rfl⟩ := first
  obtain ⟨more, room', rfl⟩ := second
  rw [rest_skip, List.length_drop] at room'
  exact ⟨count + more, by omega, skip_skip d count more⟩

theorem Reaches.bounded (reaches : d.Reaches e) (bounded : d.Bounded) : e.Bounded := by
  obtain ⟨count, room, rfl⟩ := reaches
  exact bounded.skip room

theorem Reaches.position_le (reaches : d.Reaches e) : d.position ≤ e.position := by
  obtain ⟨count, room, rfl⟩ := reaches
  exact Nat.le_add_right _ _

theorem Reaches.position_le_stop (reaches : d.Reaches e) (bounded : d.Bounded) : e.position ≤ d.stop := by
  have before := (reaches.bounded bounded).position_le
  obtain ⟨count, room, rfl⟩ := reaches
  exact before

theorem Reaches.source_eq (reaches : d.Reaches e) : e.source = d.source := by
  obtain ⟨count, room, rfl⟩ := reaches
  rfl

theorem Reaches.eq (reaches : d.Reaches e) : e = { d with position := e.position } := by
  obtain ⟨count, room, rfl⟩ := reaches
  rfl

end Decoder

namespace Decoding

variable {α β : Type} {body : Decoding α} {next : α → Decoding β} {d : Decoder}

/-- The decoder as a step leaves it, with success or not. -/
def left (body : Decoding α) (d : Decoder) : Decoder :=
  match body.run d with
  | .ok _ e => e
  | .error _ e => e

theorem left_of_ok {a : α} {e : Decoder} (run : body.run d = .ok a e) : body.left d = e := by
  rw [left, run]

theorem left_of_error {fault : Fault} {e : Decoder} (run : body.run d = .error fault e) : body.left d = e := by
  rw [left, run]

/-- However the step ends, it has moved the position forward inside the scope and has changed nothing else. -/
def Forward (body : Decoding α) : Prop :=
  ∀ ⦃d : Decoder⦄, d.Bounded → d.Reaches (body.left d)

/-- The step reads what it reads with success. When it fails it has read nothing. -/
def AtOnce (body : Decoding α) : Prop :=
  ∀ ⦃d : Decoder⦄, d.Bounded →
    (∃ a, ∃ count ≤ d.rest.length, body.run d = .ok a (d.skip count)) ∨ ∃ fault, body.run d = .error fault d

/-- The step reads nothing. -/
def Still (body : Decoding α) : Prop :=
  ∀ ⦃d : Decoder⦄, d.Bounded → body.left d = d

theorem AtOnce.forward (atOnce : body.AtOnce) : body.Forward := by
  intro d bounded
  rcases atOnce bounded with ⟨a, count, room, run⟩ | ⟨fault, run⟩
  · rw [left_of_ok run]
    exact ⟨count, room, rfl⟩
  · rw [Decoding.left_of_error run]
    exact .refl d

theorem AtOnce.eq_of_error (atOnce : body.AtOnce) (bounded : d.Bounded) {fault : Fault} {e : Decoder}
    (run : body.run d = .error fault e) : e = d := by
  rcases atOnce bounded with ⟨a, count, room, run'⟩ | ⟨fault', run'⟩
  · cases run.symm.trans run'
  · cases run.symm.trans run'
    rfl

theorem Still.forward (still : body.Still) : body.Forward := by
  intro d bounded
  rw [still bounded]
  exact .refl d

theorem Forward.reaches_of_ok (forward : body.Forward) (bounded : d.Bounded) {a : α} {e : Decoder}
    (run : body.run d = .ok a e) : d.Reaches e := by
  have reaches := forward bounded
  rwa [left_of_ok run] at reaches

theorem Forward.bind (first : body.Forward) (goes : ∀ a, (next a).Forward) : (body >>= next).Forward := by
  intro d bounded
  rw [left, EStateM.run_bind]
  cases run : body.run d with
  | error fault e =>
    have reaches := first bounded
    rwa [left_of_error run] at reaches
  | ok a e =>
    have reaches := first.reaches_of_ok bounded run
    exact reaches.trans (goes a (reaches.bounded bounded))

theorem AtOnce.map (atOnce : body.AtOnce) (f : α → β) : (do return f (← body)).AtOnce := by
  intro d bounded
  rcases atOnce bounded with ⟨a, count, room, run⟩ | ⟨fault, run⟩
  · exact Or.inl ⟨f a, count, room, by rw [EStateM.run_bind, run]; rfl⟩
  · exact Or.inr ⟨fault, by rw [EStateM.run_bind, run]⟩

theorem Still.map (still : body.Still) (f : α → β) : (do return f (← body)).Still := by
  intro d bounded
  have after := still bounded
  rw [left] at after ⊢
  rw [EStateM.run_bind]
  cases run : body.run d with
  | error fault e => rwa [run] at after
  | ok a e => rwa [run] at after

theorem still_pure (a : α) : (pure a : Decoding α).Still :=
  fun _ _ => rfl

theorem still_throw (fault : Fault) : (throw fault : Decoding α).Still :=
  fun _ _ => rfl

theorem still_get : (get : Decoding Decoder).Still :=
  fun _ _ => rfl

theorem still_offset : offset.Still :=
  fun _ _ => rfl

theorem still_liftM (x : Except Fault α) : (liftM x : Decoding α).Still := by
  intro d bounded
  rw [left, Fault.run_liftM]
  cases x <;> rfl

/-- A step that only looks at the decoder reads nothing. -/
theorem still_look (look : Decoder → Except Fault α) : (get >>= fun d => liftM (look d) : Decoding α).Still :=
  fun d bounded => still_liftM (look d) bounded

theorem still_peekTag : peekTag.Still :=
  still_look Decoder.peekTag

theorem still_peekHeader : peekHeader.Still :=
  still_look Decoder.peekHeader

theorem still_sliceFrom (start : Number) : (sliceFrom start).Still :=
  fun d bounded =>
    still_liftM (Slice.window d.source start (some (Number.sub d.position start)) .document) bounded

theorem still_finish : finish.Still := by
  intro d bounded
  rw [left, run_finish bounded]
  by_cases done : d.rest = []
  · rw [if_pos done]
  · rw [if_neg done]

theorem atOnce_header : header.AtOnce := by
  intro d bounded
  rw [run_header bounded]
  cases decoded : Header.decode d.position d.rest with
  | error fault => exact Or.inr ⟨fault, rfl⟩
  | ok read =>
    obtain ⟨h, content⟩ := read
    exact Or.inl ⟨h, d.rest.length - content.length, Nat.sub_le _ _, rfl⟩

/-- What needs so many octets fails at the position unless there are so many. -/
theorem atOnce_need {count : Number} {goes : Nat → Decoding β}
    (enough : ∀ ⦃d : Decoder⦄, d.Bounded → ∀ n ≤ d.rest.length,
      (∃ b, (goes n).run d = .ok b (d.skip n)) ∨ ∃ fault, (goes n).run d = .error fault d) :
    (need count >>= goes).AtOnce := by
  intro d bounded
  rw [EStateM.run_bind]
  by_cases room : ∃ n : Nat, count = n ∧ n ≤ d.rest.length
  · obtain ⟨n, rfl, room⟩ := room
    rw [run_need bounded room]
    rcases enough bounded n room with ⟨b, run⟩ | failed
    · exact Or.inl ⟨b, n, room, run⟩
    · exact Or.inr failed
  · rw [run_need_of_scarce bounded room]
    exact Or.inr ⟨_, rfl⟩

theorem atOnce_slice (count : Number) : (slice count).AtOnce := by
  refine atOnce_need ?_
  intro d bounded n room
  have run := run_slice bounded room
  rw [slice, EStateM.run_bind, run_need bounded room] at run
  exact Or.inl ⟨_, run⟩

theorem atOnce_octets (count : Number) : (octets count).AtOnce :=
  atOnce_need fun d _ n _ => Or.inl ⟨d.source.between d.position (d.position + n), rfl⟩

theorem atOnce_octet : octet.AtOnce :=
  (atOnce_octets 1).map List.head?

/-- A scope is read at once, whatever its body does. -/
theorem atOnce_nested (count : Number) (body : Decoding α) : (nested count body).AtOnce := by
  refine atOnce_need ?_
  intro d bounded n room
  have run := run_nested bounded room body
  rw [nested, EStateM.run_bind, run_need bounded room] at run
  dsimp only at run
  rw [run]
  by_cases deep : d.maxDepth.less (d.depth + 1 : Nat) = true
  · rw [if_pos deep]
    exact Or.inr ⟨_, rfl⟩
  · rw [if_neg deep]
    cases (complete body).run (d.scope n) with
    | ok a e => exact Or.inl ⟨a, rfl⟩
    | error fault e => exact Or.inr ⟨fault, rfl⟩

theorem forward_expect (tag : Tag) (name : String) : (expect tag name).Forward := by
  refine still_offset.forward.bind ?_
  intro start
  refine atOnce_header.forward.bind ?_
  intro h
  by_cases expected : h.tag.equals tag = true
  · rw [if_pos expected]
    exact (still_pure h).forward
  · rw [if_neg expected]
    exact (still_throw _).forward

theorem forward_content (count : Number) (rule : Slice → Except Fault α) : (content count rule).Forward := by
  refine still_offset.forward.bind ?_
  intro start
  refine (atOnce_slice count).forward.bind ?_
  intro window
  cases rule window with
  | ok a => exact (still_pure a).forward
  | error fault => exact (still_throw _).forward

/-- A header is seen ahead when it can be read, and there is something to read. -/
theorem peekHeader_eq_ok (bounded : d.Bounded) {h : Header} {e : Decoder} :
    peekHeader.run d = .ok (some h) e ↔ e = d ∧ ¬ d.isFinished = true ∧ ∃ e', header.run d = .ok h e' := by
  have look : peekHeader.run d = (liftM d.peekHeader : Decoding (Option Header)).run d := rfl
  rw [look, Fault.run_liftM, Decoder.peekHeader, run_header bounded]
  by_cases finished : d.isFinished = true
  · simp [finished]
  · simp only [if_neg finished, bounded.ahead_eq, Overhang.header_of_complete]
    cases Header.decode d.position d.rest with
    | error fault => simp [Except.map, bind, Except.bind]
    | ok read =>
      simp only [Except.map, bind, Except.bind, pure, Except.pure, finished]
      constructor
      · intro same
        cases same
        exact ⟨rfl, nofun, _, rfl⟩
      · rintro ⟨rfl, _, e', same⟩
        cases same
        rfl

end Decoding

open Decoding

/-- However reading content ends, the position has moved forward. -/
def TaggedCodec.Forward (c : TaggedCodec) : Prop :=
  ∀ count, (c.readContent count).Forward

/-- However reading a value ends, the position has moved forward. -/
def Codec.Forward : Codec → Prop
  | tagged c => c.Forward
  | untagged c => c.decode.Forward

theorem TaggedCodec.Forward.decode {c : TaggedCodec} (forward : c.Forward) : c.decode.Forward :=
  (forward_expect c.tag c.name).bind fun h => forward h.length

theorem Codec.Forward.decode {c : Codec} (forward : c.Forward) : c.decode.Forward := by
  cases c with
  | tagged c => exact TaggedCodec.Forward.decode forward
  | untagged c => exact forward

theorem Codec.Forward.decodeOptional {c : Codec} (forward : c.Forward) : c.decodeOptional.Forward := by
  refine still_peekTag.forward.bind ?_
  intro ahead
  cases ahead with
  | none => exact (still_pure none).forward
  | some tag =>
    by_cases accepted : c.accepts tag = true
    · dsimp only
      rw [if_pos accepted]
      exact forward.decode.bind fun v => (still_pure (some v)).forward
    · dsimp only
      rw [if_neg accepted]
      exact (still_pure none).forward

/-- A value that is absent has not been read. -/
theorem Codec.decodeOptional_eq_none {c : Codec} {d e : Decoder} (bounded : d.Bounded)
    (run : c.decodeOptional.run d = .ok none e) : e = d := by
  obtain ⟨ahead, e', peeked, rest⟩ := bind_eq_ok run
  have still := still_peekTag bounded
  rw [left_of_ok peeked] at still
  subst still
  cases ahead with
  | none =>
    cases rest
    rfl
  | some tag =>
    dsimp only at rest
    by_cases accepted : c.accepts tag = true
    · rw [if_pos accepted] at rest
      obtain ⟨v, d', _, last⟩ := bind_eq_ok rest
      cases last
    · rw [if_neg accepted] at rest
      cases rest
      rfl

theorem Primitive.forward (p : Primitive) : p.codec.Forward :=
  fun count => forward_content count p.rule.read

theorem UntaggedCodec.time_forward : time.decode.Forward := by
  refine still_peekTag.forward.bind ?_
  intro ahead
  cases ahead with
  | none => exact (Primitive.forward .utcTime).decode
  | some tag =>
    dsimp only
    split
    · exact (Primitive.forward .generalizedTime).decode
    · exact (Primitive.forward .utcTime).decode

theorem UntaggedCodec.any_forward : any.decode.Forward := by
  have captures : Any.read.Forward := by
    refine still_offset.forward.bind ?_
    intro start
    refine atOnce_header.forward.bind ?_
    intro h
    refine (atOnce_slice h.length).forward.bind ?_
    intro value
    refine still_get.forward.bind ?_
    intro d
    exact (still_pure _).forward
  exact captures.bind fun a => (still_pure (Value.any a)).forward

theorem TaggedCodec.Forward.refine {inner : TaggedCodec} (forward : inner.Forward) (condition : Condition) :
    (inner.refine condition).Forward := by
  intro count
  refine still_offset.forward.bind ?_
  intro start
  refine (forward count).bind ?_
  intro v
  cases condition v with
  | some problem => exact (still_throw _).forward.bind fun _ => (still_pure v).forward
  | none => exact (still_pure v).forward

theorem TaggedCodec.sequenceOf_forward (name : String) (tag : Tag) (bounds : SizeBounds) (item : Codec) :
    (sequenceOf name tag bounds item).Forward :=
  fun count => still_offset.forward.bind fun _ => (atOnce_nested count _).forward

theorem TaggedCodec.setOf_forward (name : String) (tag : Tag) (bounds : SizeBounds) (item : Codec) :
    (setOf name tag bounds item).Forward :=
  fun count => still_offset.forward.bind fun _ => (atOnce_nested count _).forward

/-- Constructed types read their content at once. The types that they are built from do not matter. -/
theorem Schema.Declared.forward {T : Schema} (declared : T.Declared) : T.codec.Forward := by
  induction declared using Declared.induct with
  | primitive p => exact p.forward
  | time => exact UntaggedCodec.time_forward
  | any => exact UntaggedCodec.any_forward
  | sequence name tag types declared clear defaults ih => exact fun count => (atOnce_nested count _).forward
  | set name tag types declared defaults fixed distinct ih => exact fun count => (atOnce_nested count _).forward
  | sequenceOf name tag bounds type declared ih => exact TaggedCodec.sequenceOf_forward name tag bounds _
  | setOf name tag bounds type declared ih => exact TaggedCodec.setOf_forward name tag bounds _
  | explicit name tag type declared ih => exact fun count => (atOnce_nested count _).forward
  | implicit name tagClass number type declared fixed ih =>
    rw [fixed] at ih
    rw [codec, fixed]
    exact ih
  | refine condition type declared fixed ih =>
    rw [fixed] at ih
    rw [codec, fixed]
    exact TaggedCodec.Forward.refine ih condition

/-- What can be done with a decoder. The steps in a scope act on the decoder of the scope. Each of them may fail and be
followed by the next one all the same, until the body ends with success or with a fault. -/
inductive Operation where
  | peekTag
  | peekHeader
  | header
  | expect (tag : Tag) (name : String)
  | octet
  | octets (count : Number)
  | slice (count : Number)
  | sliceFrom (start : Number)
  | content (count : Number) (rule : Slice → Except Fault Value)
  | nested (count : Number) (steps : List Operation) (ending : Except Fault Value)
  | decode {T : Schema} (declared : T.Declared)
  | decodeOptional {T : Schema} (declared : T.Declared)
  | decodeValue {T : Schema} {c : TaggedCodec} (declared : T.Declared) (fixed : T.codec = .tagged c) (count : Number)
  | finish

/-- What an operation returns. -/
inductive Answer where
  | tag (found : Option Tag)
  | header (found : Option Header)
  | octet (found : Option UInt8)
  | octets (found : Octets)
  | window (found : Slice)
  | value (found : Option Value)
  | nothing

namespace Operation

mutual

/-- The step of an operation. -/
def perform : Operation → Decoding Answer
  | peekTag => do return .tag (← Decoding.peekTag)
  | peekHeader => do return .header (← Decoding.peekHeader)
  | header => do return .header (some (← Decoding.header))
  | expect tag name => do return .header (some (← Decoding.expect tag name))
  | octet => do return .octet (← Decoding.octet)
  | octets count => do return .octets (← Decoding.octets count)
  | slice count => do return .window (← Decoding.slice count)
  | sliceFrom start => do return .window (← Decoding.sliceFrom start)
  | content count rule => do return .value (some (← Decoding.content count rule))
  | nested count steps ending => Decoding.nested count do
    modify (performAll steps)
    return .value (some (← ending))
  | @decode T _ => do return .value (some (← T.codec.decode))
  | @decodeOptional T _ => do return .value (← T.codec.decodeOptional)
  | @decodeValue _ c _ _ count => do return .value (some (← c.readContent count))
  | finish => do
    Decoding.finish
    return .nothing

/-- The decoder after operations, each of which may have failed. -/
def performAll : List Operation → Decoder → Decoder
  | [], d => d
  | o :: rest, d => performAll rest (o.perform.left d)

end

/-- Every operation leaves the decoder in its scope. -/
theorem forward (o : Operation) : o.perform.Forward := by
  cases o with
  | peekTag => exact (still_peekTag.map Answer.tag).forward
  | peekHeader => exact (still_peekHeader.map Answer.header).forward
  | header => exact (atOnce_header.map _).forward
  | expect tag name => exact (forward_expect tag name).bind fun _ => (still_pure _).forward
  | octet => exact (atOnce_octet.map Answer.octet).forward
  | octets count => exact ((atOnce_octets count).map Answer.octets).forward
  | slice count => exact ((atOnce_slice count).map Answer.window).forward
  | sliceFrom start => exact ((still_sliceFrom start).map Answer.window).forward
  | content count rule => exact (forward_content count rule).bind fun _ => (still_pure _).forward
  | nested count steps ending => exact (atOnce_nested count _).forward
  | decode declared => exact declared.forward.decode.bind fun _ => (still_pure _).forward
  | decodeOptional declared => exact declared.forward.decodeOptional.bind fun _ => (still_pure _).forward
  | decodeValue declared fixed count =>
    have forward := declared.forward
    rw [fixed] at forward
    exact (forward count).bind fun _ => (still_pure _).forward
  | finish => exact (still_finish.map fun _ => Answer.nothing).forward

theorem reaches_performAll (operations : List Operation) {d : Decoder} (bounded : d.Bounded) :
    d.Reaches (performAll operations d) := by
  induction operations generalizing d with
  | nil => exact .refl d
  | cons o rest ih =>
    have reaches := o.forward bounded
    exact reaches.trans (ih (reaches.bounded bounded))

theorem performAll_append (first second : List Operation) (d : Decoder) :
    performAll (first ++ second) d = performAll second (performAll first d) := by
  induction first generalizing d with
  | nil => rfl
  | cons o rest ih => exact ih _

/-- The operations that only look at the decoder. -/
def Looks : Operation → Prop
  | peekTag | peekHeader | sliceFrom _ | finish => True
  | _ => False

/-- The operations that read nothing when they fail. -/
def FailsWhole : Operation → Prop
  | header | octet | octets _ | slice _ | nested _ _ _ => True
  | _ => False

theorem Looks.still {o : Operation} (looks : o.Looks) : o.perform.Still := by
  cases o with
  | peekTag => exact still_peekTag.map Answer.tag
  | peekHeader => exact still_peekHeader.map Answer.header
  | sliceFrom start => exact (still_sliceFrom start).map Answer.window
  | finish => exact still_finish.map fun _ => Answer.nothing
  | header | expect | octet | octets | slice | content | nested | decode | decodeOptional | decodeValue => cases looks

theorem FailsWhole.atOnce {o : Operation} (whole : o.FailsWhole) : o.perform.AtOnce := by
  cases o with
  | header => exact atOnce_header.map _
  | octet => exact atOnce_octet.map Answer.octet
  | octets count => exact (atOnce_octets count).map Answer.octets
  | slice count => exact (atOnce_slice count).map Answer.window
  | nested count steps ending => exact atOnce_nested count _
  | peekTag | peekHeader | expect | sliceFrom | content | decode | decodeOptional | decodeValue | finish => cases whole

end Operation

/-- An operation in a run, on a decoder that was made for a document or for a scope. -/
structure Moment where
  made : Decoder
  before : Decoder
  operation : Operation

namespace Moment

/-- How the operation ends. -/
def result (m : Moment) : EStateM.Result Fault Decoder Answer :=
  m.operation.perform.run m.before

/-- The decoder after the operation. -/
def after (m : Moment) : Decoder :=
  m.operation.perform.left m.before

/-- The operation acts on a decoder whose scope lies in that of the given one. It finds the position inside the scope
and leaves it there, not before where it was, and changes nothing else. -/
structure Confined (m : Moment) (d : Decoder) : Prop where
  made : d.position ≤ m.made.position ∧ m.made.stop ≤ d.stop ∧ m.made.source = d.source
  since : m.made.position ≤ m.before.position
  forward : m.before.position ≤ m.after.position
  inside : m.after.position ≤ m.made.stop
  kept : m.before = { m.made with position := m.before.position } ∧
    m.after = { m.made with position := m.after.position }

/-- How far the operation moves the position, where that is known from its kind and from how it ends. -/
structure Exact (m : Moment) : Prop where
  looks : m.operation.Looks → m.after = m.before
  fails : m.operation.FailsWhole → ∀ fault d, m.result = .error fault d → d = m.before
  absent : ∀ {T : Schema} (declared : T.Declared) d, m.operation = .decodeOptional declared →
    m.result = .ok (.value none) d → d = m.before
  nests : ∀ count steps ending answer d, m.operation = .nested count steps ending → m.result = .ok answer d →
    ∃ n : Nat, count = n ∧ d = m.before.skip n
  previews : m.operation = .peekHeader → ∀ h : Header,
    (∃ d, m.result = .ok (.header (some h)) d) ↔
      ¬ m.before.isFinished = true ∧ ∃ d, Decoding.header.run m.before = .ok h d

theorem exact {m : Moment} (bounded : m.before.Bounded) : m.Exact where
  looks looks := looks.still bounded
  fails whole fault d failed := whole.atOnce.eq_of_error bounded failed
  absent declared d same done := by
    rw [result, same] at done
    obtain ⟨v, e, read, last⟩ := bind_eq_ok done
    cases last
    exact Codec.decodeOptional_eq_none bounded read
  nests count steps ending answer d same done := by
    rw [result, same] at done
    obtain ⟨n, isCount, _, after, _⟩ := nested_eq_ok bounded done
    exact ⟨n, isCount, after⟩
  previews same h := by
    rw [result, same]
    constructor
    · intro seen
      obtain ⟨d, seen⟩ := seen
      obtain ⟨ahead, e, peeked, last⟩ := bind_eq_ok seen
      cases last
      exact ((peekHeader_eq_ok bounded).mp peeked).2
    · intro readable
      refine ⟨m.before, ?_⟩
      rw [Operation.perform, EStateM.run_bind, (peekHeader_eq_ok bounded).mpr ⟨rfl, readable⟩]
      rfl

theorem confined {made before : Decoder} (bounded : made.Bounded) (reached : made.Reaches before) (o : Operation) :
    (Moment.mk made before o).Confined made := by
  have moved := o.forward (reached.bounded bounded)
  have reaches := reached.trans moved
  exact ⟨⟨Nat.le_refl _, Nat.le_refl _, rfl⟩, reached.position_le, moved.position_le, reaches.position_le_stop bounded,
    reached.eq, reaches.eq⟩

/-- A scope that is opened lies in the scope around it. -/
theorem Confined.of_scope {m : Moment} {made d : Decoder} {n : Nat} (bounded : made.Bounded) (reached : made.Reaches d)
    (room : n ≤ d.rest.length) (confined : m.Confined (d.scope n)) : m.Confined made := by
  have opened : made.Reaches (d.skip n) := reached.trans ⟨n, room, rfl⟩
  obtain ⟨begins, ends, same⟩ := confined.made
  exact ⟨⟨reached.position_le.trans begins, ends.trans (opened.position_le_stop bounded), same.trans reached.source_eq⟩,
    confined.since, confined.forward, confined.inside, confined.kept⟩

end Moment

namespace Operation

mutual

/-- The operations in the scope that an operation opens, if it opens one. -/
def inside : Operation → Decoder → List Moment
  | nested count steps _, d =>
    match (need count).run d with
    | .ok n _ => if d.maxDepth.less (d.depth + 1 : Nat) then [] else history steps (d.scope n) (d.scope n)
    | .error _ _ => []
  | _, _ => []

/-- The operations of a run in their order, those in opened scopes included. -/
def history : List Operation → Decoder → Decoder → List Moment
  | [], _, _ => []
  | o :: rest, made, d => inside o d ++ ⟨made, d, o⟩ :: history rest made (o.perform.left d)

end

/-- Scopes are opened for octets that are there. -/
theorem mem_inside {m : Moment} {o : Operation} {d : Decoder} (bounded : d.Bounded) (within : m ∈ inside o d) :
    ∃ count steps ending, o = .nested count steps ending ∧
      ∃ n ≤ d.rest.length, m ∈ history steps (d.scope n) (d.scope n) := by
  cases o with
  | nested count steps ending =>
    refine ⟨count, steps, ending, rfl, ?_⟩
    rw [inside] at within
    cases enough : (need count).run d with
    | error fault e =>
      rw [enough] at within
      cases within
    | ok n e =>
      rw [enough] at within
      dsimp only at within
      by_cases deep : d.maxDepth.less (d.depth + 1 : Nat) = true
      · rw [if_pos deep] at within
        cases within
      · rw [if_neg deep] at within
        exact ⟨n, (need_eq_ok bounded enough).2.1, within⟩
  | _ => cases within

theorem mem_history_cons {m : Moment} {o : Operation} {rest : List Operation} {made d : Decoder} :
    m ∈ history (o :: rest) made d ↔
      m ∈ inside o d ∨ m = ⟨made, d, o⟩ ∨ m ∈ history rest made (o.perform.left d) := by
  rw [history, List.mem_append, List.mem_cons]

/-- The steps of a run, wherever they are nested, keep to their scopes. -/
theorem confined_of_mem_history {m : Moment} : ∀ {operations : List Operation} {made d : Decoder}, made.Bounded →
    made.Reaches d → m ∈ history operations made d → m.Confined made ∧ m.Exact
  | o :: rest, made, d, bounded, reached, step => by
    have bounded' := reached.bounded bounded
    -- The step is in the scope that the first operation opens, or is that operation, or comes after it.
    rcases mem_history_cons.mp step with within | rfl | later
    · obtain ⟨count, steps, ending, rfl, n, room, inner⟩ := mem_inside bounded' within
      obtain ⟨confined, exact⟩ := confined_of_mem_history (bounded'.scope room) (.refl _) inner
      exact ⟨confined.of_scope bounded reached room, exact⟩
    · exact ⟨Moment.confined bounded reached o, Moment.exact bounded'⟩
    · exact confined_of_mem_history bounded (reached.trans (o.forward bounded')) later

/-- Whatever is done with a decoder that stands in a scope inside its document, and whatever is done in the scopes that
are opened for it, every step keeps the position between the start and the end of the scope of its decoder and does not
move it back. Steps that look, that fail whole, that find nothing or that read a scope move it just as far as they
say. -/
theorem history_confined {d : Decoder} (bounded : d.Bounded) (operations : List Operation) :
    (∀ m ∈ history operations d d, m.Confined d ∧ m.Exact) ∧
      ∀ first second, operations = first ++ second →
        d.position ≤ (performAll first d).position ∧
          (performAll first d).position ≤ (performAll operations d).position ∧
          (performAll operations d).position ≤ d.stop := by
  refine ⟨fun m step => confined_of_mem_history bounded (.refl d) step, ?_⟩
  intro first second split
  have earlier := reaches_performAll first bounded
  have later := reaches_performAll second (earlier.bounded bounded)
  rw [split, performAll_append]
  exact ⟨earlier.position_le, later.position_le, (earlier.trans later).position_le_stop bounded⟩

/-- In a scope inside a document of eight octets, a count that is no number reads nothing, a scope is not read while its
body leaves octets and is read when it leaves none, and the half of a header behind it is not read. -/
theorem history_confined_scope :
    let d : Decoder := ⟨[0, 48, 3, 2, 1, 5, 0, 0], 1, 7, 0, 100⟩
    let operations : List Operation := [.octets .nan, .nested 5 [.header, .octet, .octets 7] (.ok .null),
      .nested 5 [.header, .decode (.primitive .integer)] (.ok .null), .header, .finish]
    d.Bounded ∧ (∀ m ∈ history operations d d, m.Confined d ∧ m.Exact) ∧
      (history operations d d).map (fun m => (m.made.position, m.after.position)) =
        [(1, 1), (1, 3), (1, 4), (1, 4), (1, 1), (1, 3), (1, 6), (1, 6), (1, 6), (1, 6)] :=
  ⟨⟨by decide, by decide⟩, (history_confined ⟨by decide, by decide⟩ _).1, by decide⟩

end Operation

end Der
