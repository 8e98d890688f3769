import Der.Proofs.Codec.ContentRule
import Der.Proofs.Codec.Structure
import Der.Proofs.TwoPass

namespace Der

/-- The same result, or the same fault at an offset that is greater by the shift. -/
inductive Fault.Moved {α : Type} (shift : Nat) : Except Fault α → Except Fault α → Prop
  | ok (a : α) : Moved shift (.ok a) (.ok a)
  | error (cause : Fault.Cause) (offset : Nat) :
      Moved shift (.error (.coding cause (offset + shift : Nat))) (.error (.coding cause offset))

namespace Fault

variable {α β : Type} {shift : Nat}

theorem Moved.ok_or_error {x y : Except Fault α} (moved : Moved shift x y) :
    (∃ a, x = .ok a ∧ y = .ok a) ∨ ∃ cause offset,
      x = .error (.coding cause (offset + shift : Nat)) ∧ y = .error (.coding cause (offset : Nat)) := by
  cases moved with
  | ok a => exact Or.inl ⟨a, rfl, rfl⟩
  | error cause offset => exact Or.inr ⟨cause, offset, rfl, rfl⟩

theorem Moved.bind {x y : Except Fault α} {f g : α → Except Fault β} (first : Moved shift x y)
    (next : ∀ a, Moved shift (f a) (g a)) : Moved shift (x >>= f) (y >>= g) := by
  cases first with
  | ok a => exact next a
  | error cause offset => exact .error cause offset

theorem Moved.ite {condition : Prop} [Decidable condition] {x y x' y' : Except Fault α} (first : Moved shift x y)
    (second : Moved shift x' y') : Moved shift (if condition then x else x') (if condition then y else y') := by
  by_cases holds : condition
  · rwa [if_pos holds, if_pos holds]
  · rwa [if_neg holds, if_neg holds]

end Fault

theorem Tag.moved_decode (shift offset : Nat) (octets : Octets) :
    Fault.Moved shift (decode (offset + shift) octets) (decode offset octets) := by
  cases octets with
  | nil => exact .error _ offset
  | cons first rest =>
    simp only [decode]
    refine Fault.Moved.ite (.ok _) ?_
    cases Base128.decode maxNumber rest with
    | error flaw =>
      cases flaw with
      | padded =>
        simp only [Nat.add_right_comm offset shift 1]
        exact .error _ (offset + 1)
      | unterminated => exact .error _ offset
      | oversized => exact .error _ offset
    | ok read => exact Fault.Moved.ite (.error _ offset) (.ok _)

theorem Length.moved_decode (shift offset : Nat) (octets : Octets) :
    Fault.Moved shift (decode (offset + shift) octets) (decode offset octets) := by
  cases octets with
  | nil => exact .error _ offset
  | cons first rest =>
    simp only [decode]
    refine Fault.Moved.ite (.ok _) ?_
    refine Fault.Moved.ite (.error _ offset) ?_
    refine Fault.Moved.ite (.error _ offset) ?_
    refine Fault.Moved.ite (.error _ offset) ?_
    refine Fault.Moved.ite (.error _ offset) ?_
    refine Fault.Moved.ite (.error _ offset) ?_
    exact Fault.Moved.ite (.error _ offset) (.ok _)

theorem Header.moved_decode (shift offset : Nat) (octets : Octets) :
    Fault.Moved shift (decode (offset + shift) octets) (decode offset octets) := by
  refine (Tag.moved_decode shift offset octets).bind ?_
  intro parts
  obtain ⟨tag, afterTag⟩ := parts
  dsimp only
  rw [Nat.add_right_comm offset shift]
  refine (Length.moved_decode shift _ afterTag).bind ?_
  intro parts
  obtain ⟨length, content⟩ := parts
  exact Fault.Moved.ite (.error _ offset) (.ok _)

/-- The first decoder stands in its document where the second stands in its own, shifted by so much, and the
documents agree as far as the scope of the second reaches. -/
structure Decoder.Shifted (shift : Nat) (d e : Decoder) : Prop where
  bounded : e.Bounded
  inside : d.stop ≤ d.source.length
  octets : (d.source.drop shift).take e.stop = e.source.take e.stop
  position : d.position = e.position + shift
  stop : d.stop = e.stop + shift
  depth : d.depth = e.depth
  maxDepth : d.maxDepth = e.maxDepth

namespace Decoder.Shifted

variable {shift : Nat} {d e : Decoder} (shifted : d.Shifted shift e)

include shifted

theorem bounded_left : d.Bounded where
  position_le := by
    rw [shifted.position, shifted.stop]
    exact Nat.add_le_add_right shifted.bounded.position_le shift
  stop_le := shifted.inside

theorem take_eq {last : Nat} (within : last ≤ e.stop) : (d.source.drop shift).take last = e.source.take last := by
  have both := congrArg (List.take last) shifted.octets
  rwa [List.take_take, List.take_take, Nat.min_eq_left within] at both

theorem between_eq {first last : Nat} (within : last ≤ e.stop) :
    d.source.between (first + shift) (last + shift) = e.source.between first last := by
  rw [Octets.between, Octets.between, ← shifted.take_eq within, List.drop_take, List.drop_take, List.drop_drop,
    Nat.add_sub_add_right, Nat.add_comm first]

theorem rest_eq : d.rest = e.rest := by
  rw [rest, rest, shifted.position, shifted.stop]
  exact shifted.between_eq (Nat.le_refl _)

theorem isFinished_eq : d.isFinished = e.isFinished := by
  have one := shifted.bounded_left.isFinished_iff
  rw [shifted.rest_eq, ← shifted.bounded.isFinished_iff] at one
  exact Bool.eq_iff_iff.mpr one

theorem skip {count : Nat} (room : count ≤ e.rest.length) : (d.skip count).Shifted shift (e.skip count) where
  bounded := shifted.bounded.skip room
  inside := shifted.inside
  octets := shifted.octets
  position := by
    simp only [Decoder.skip, shifted.position]
    omega
  stop := shifted.stop
  depth := shifted.depth
  maxDepth := shifted.maxDepth

theorem scope {count : Nat} (room : count ≤ e.rest.length) : (d.scope count).Shifted shift (e.scope count) where
  bounded := shifted.bounded.scope room
  inside := (shifted.bounded_left.scope (by rwa [shifted.rest_eq])).stop_le
  octets := by
    have length := shifted.bounded.length_rest
    have before := shifted.bounded.position_le
    exact shifted.take_eq (by simp only [Decoder.scope]; omega)
  position := shifted.position
  stop := by
    simp only [Decoder.scope, shifted.position]
    omega
  depth := by simp only [Decoder.scope, shifted.depth]
  maxDepth := shifted.maxDepth

end Decoder.Shifted

namespace Decoding

variable {α β γ δ : Type} {shift : Nat} {d e : Decoder} {same : α → β → Prop} {same' : γ → δ → Prop}

/-- Both steps succeed with corresponding values, or both fail with the same fault at offsets that differ by the
shift. The decoders that they leave are related, too. -/
inductive Agree (shift : Nat) (left : Decoder → Decoder → Prop) (same : α → β → Prop) :
    EStateM.Result Fault Decoder α → EStateM.Result Fault Decoder β → Prop
  | ok {a : α} {b : β} {d e : Decoder} (values : same a b) (decoders : left d e) :
      Agree shift left same (.ok a d) (.ok b e)
  | error (cause : Fault.Cause) (offset : Nat) {d e : Decoder} (decoders : left d e) :
      Agree shift left same (.error (.coding cause (offset + shift : Nat)) d) (.error (.coding cause offset) e)

/-- What a step may leave of two shifted decoders. The position does not move back. -/
structure Later (shift start : Nat) (d e : Decoder) : Prop where
  shifted : d.Shifted shift e
  forward : start ≤ e.position

/-- From shifted decoders, the steps agree up to the shift. -/
def Tracks (shift : Nat) (same : α → β → Prop) (body : Decoding α) (body' : Decoding β) : Prop :=
  ∀ ⦃d e : Decoder⦄, d.Shifted shift e → Agree shift (Later shift e.position) same (body.run d) (body'.run e)

theorem Agree.mono {left left' : Decoder → Decoder → Prop} {same same' : α → β → Prop}
    {one : EStateM.Result Fault Decoder α} {other : EStateM.Result Fault Decoder β}
    (agree : Agree shift left same one other) (decoders : ∀ d e, left d e → left' d e)
    (values : ∀ a b, same a b → same' a b) : Agree shift left' same' one other := by
  cases agree with
  | ok equal related => exact .ok (values _ _ equal) (decoders _ _ related)
  | error cause offset related => exact .error cause offset (decoders _ _ related)

theorem Agree.bind {start : Nat} {body : Decoding α} {body' : Decoding β} {next : α → Decoding γ}
    {next' : β → Decoding δ} (first : Agree shift (Later shift start) same (body.run d) (body'.run e))
    (goes : ∀ a b d' e', same a b → Later shift start d' e' →
      Agree shift (Later shift start) same' ((next a).run d') ((next' b).run e')) :
    Agree shift (Later shift start) same' ((body >>= next).run d) ((body' >>= next').run e) := by
  rw [EStateM.run_bind, EStateM.run_bind]
  cases run : body.run d with
  | error fault d' =>
    cases run' : body'.run e with
    | ok b e' => rw [run, run'] at first; cases first
    | error fault' e' =>
      rw [run, run'] at first
      cases first with
      | error cause offset decoders => exact .error cause offset decoders
  | ok a d' =>
    cases run' : body'.run e with
    | error fault e' => rw [run, run'] at first; cases first
    | ok b e' =>
      rw [run, run'] at first
      cases first with
      | ok values decoders => exact goes a b d' e' values decoders

theorem Tracks.after {body : Decoding α} {body' : Decoding β} (tracks : Tracks shift same body body') {start : Nat}
    (later : Later shift start d e) : Agree shift (Later shift start) same (body.run d) (body'.run e) :=
  (tracks later.shifted).mono (fun _ _ further => ⟨further.shifted, later.forward.trans further.forward⟩) fun _ _ => id

theorem Tracks.bind {body : Decoding α} {body' : Decoding β} {next : α → Decoding γ} {next' : β → Decoding δ}
    (first : Tracks shift same body body') (goes : ∀ a b, same a b → Tracks shift same' (next a) (next' b)) :
    Tracks shift same' (body >>= next) (body' >>= next') := by
  intro d e shifted
  refine (first shifted).bind ?_
  intro a b d' e' values later
  exact (goes a b values).after later

theorem tracks_pure {a : α} {b : β} (values : same a b) : Tracks shift same (pure a) (pure b) :=
  fun _ _ shifted => .ok values ⟨shifted, Nat.le_refl _⟩

theorem tracks_throw (cause : Fault.Cause) {place start : Nat} (moved : place = start + shift) :
    Tracks shift same (throw (.coding cause place)) (throw (.coding cause start)) := by
  intro d e shifted
  subst moved
  exact .error cause start ⟨shifted, Nat.le_refl _⟩

/-- Steps that begin with a look at the decoder. -/
theorem tracks_get {next : Decoder → Decoding α} {next' : Decoder → Decoding β}
    (goes : ∀ d e, d.Shifted shift e → Tracks shift same (next d) (next' e)) :
    Tracks shift same (get >>= next) (get >>= next') :=
  fun d e shifted => goes d e shifted shifted

theorem tracks_fail (cause : Fault.Cause) : Tracks shift same (fail cause) (fail cause) :=
  tracks_get fun _ _ shifted => tracks_throw cause shifted.position

theorem tracks_offset : Tracks shift (fun place start => place = start + shift) offset offset :=
  tracks_get fun _ _ shifted => tracks_pure shifted.position

theorem tracks_peekTag : Tracks shift Eq peekTag peekTag := by
  intro d e shifted
  rw [run_peekTag shifted.bounded_left, run_peekTag shifted.bounded, shifted.rest_eq, shifted.position]
  cases e.rest with
  | nil => exact .ok rfl ⟨shifted, Nat.le_refl _⟩
  | cons first tail =>
    rcases (Tag.moved_decode shift e.position (first :: tail)).ok_or_error with
      ⟨read, one, other⟩ | ⟨cause, offset, one, other⟩
    · simp only [one, other]
      exact .ok rfl ⟨shifted, Nat.le_refl _⟩
    · simp only [one, other]
      exact .error cause offset ⟨shifted, Nat.le_refl _⟩

theorem Later.skip (shifted : d.Shifted shift e) {count : Nat} (room : count ≤ e.rest.length) :
    Later shift e.position (d.skip count) (e.skip count) :=
  ⟨shifted.skip room, Nat.le_add_right _ _⟩

theorem tracks_header : Tracks shift Eq header header := by
  intro d e shifted
  rw [run_header shifted.bounded_left, run_header shifted.bounded, shifted.rest_eq, shifted.position]
  rcases (Header.moved_decode shift e.position e.rest).ok_or_error with ⟨read, one, other⟩ | ⟨cause, offset, one, other⟩
  · simp only [one, other]
    exact .ok rfl (Later.skip shifted (Nat.sub_le _ _))
  · simp only [one, other]
    exact .error cause offset ⟨shifted, Nat.le_refl _⟩

theorem tracks_expect (tag : Tag) (name : String) : Tracks shift Eq (expect tag name) (expect tag name) := by
  refine tracks_offset.bind ?_
  intro _ start equal
  subst equal
  refine tracks_header.bind ?_
  intro h _ equal
  subst equal
  by_cases expected : h.tag.equals tag = true
  · rw [if_pos expected, if_pos expected]
    exact tracks_pure rfl
  · rw [if_neg expected, if_neg expected]
    exact tracks_throw _ rfl

/-- Windows that are backed and show the same octets. -/
def SameWindow (w w' : Slice) : Prop :=
  ∃ octets, w.octets = .ok octets ∧ w'.octets = .ok octets

/-- Steps that first need so many octets fail alike when there are not as many. -/
theorem tracks_need (count : Number) {next : Nat → Decoding α} {next' : Nat → Decoding β}
    (goes : ∀ {n : Nat} {d e : Decoder}, count = n → n ≤ e.rest.length → d.Shifted shift e →
      Agree shift (Later shift e.position) same ((need count >>= next).run d) ((need count >>= next').run e)) :
    Tracks shift same (need count >>= next) (need count >>= next') := by
  intro d e shifted
  by_cases enough : ∃ n : Nat, count = n ∧ n ≤ e.rest.length
  · obtain ⟨n, isCount, room⟩ := enough
    exact goes isCount room shifted
  · have scarce := enough
    rw [← shifted.rest_eq] at scarce
    rw [EStateM.run_bind, EStateM.run_bind, run_need_of_scarce shifted.bounded enough,
      run_need_of_scarce shifted.bounded_left scarce, shifted.rest_eq, Decoder.fault, shifted.position]
    exact .error _ e.position ⟨shifted, Nat.le_refl _⟩

theorem tracks_slice (count : Number) : Tracks shift SameWindow (slice count) (slice count) := by
  apply tracks_need
  intro n d e same room shifted
  subst same
  have room' := room
  rw [← shifted.rest_eq] at room'
  have shows := octets_windowAt shifted.bounded_left room'
  rw [shifted.rest_eq] at shows
  have one := run_slice shifted.bounded_left room'
  have other := run_slice shifted.bounded room
  rw [slice] at one other
  rw [one, other]
  exact .ok ⟨_, shows, octets_windowAt shifted.bounded room⟩ (Later.skip shifted room)

theorem tracks_content {rule rule' : Slice → Except Fault Value}
    (alike : ∀ {one other : Slice} {octets}, one.octets = .ok octets → other.octets = .ok octets →
      Alike (rule one) (rule' other)) (count : Number) :
    Tracks shift (fun v w => v.shown = w.shown) (content count rule) (content count rule') := by
  refine tracks_offset.bind ?_
  intro _ start equal
  subst equal
  refine (tracks_slice count).bind ?_
  intro window window' parts
  obtain ⟨octets, shows, shows'⟩ := parts
  have results := alike shows shows'
  revert results
  generalize rule window = one
  generalize rule' window' = other
  intro results
  cases results with
  | ok same => exact tracks_pure same
  | error cause => exact tracks_throw cause rfl

theorem tracks_finish : Tracks shift Eq finish finish := by
  intro d e shifted
  rw [run_finish shifted.bounded_left, run_finish shifted.bounded, shifted.bounded_left.remaining_eq,
    shifted.bounded.remaining_eq, shifted.rest_eq]
  by_cases done : e.rest = []
  · rw [if_pos done, if_pos done]
    exact .ok rfl ⟨shifted, Nat.le_refl _⟩
  · rw [if_neg done, if_neg done, Decoder.fault, shifted.position]
    exact .error _ e.position ⟨shifted, Nat.le_refl _⟩

theorem Tracks.complete {body : Decoding α} {body' : Decoding β} (tracks : Tracks shift same body body') :
    Tracks shift same (complete body) (complete body') := by
  refine tracks.bind ?_
  intro a b values
  refine tracks_finish.bind ?_
  intro done _ _
  exact tracks_pure values

theorem Tracks.nested {body : Decoding α} {body' : Decoding β} (tracks : Tracks shift same body body') (count : Number) :
    Tracks shift same (nested count body) (nested count body') := by
  apply tracks_need
  intro n d e equal room shifted
  subst equal
  have room' := room
  rw [← shifted.rest_eq] at room'
  have one := run_nested shifted.bounded_left room' body
  have other := run_nested shifted.bounded room body'
  rw [Decoding.nested] at one other
  rw [one, other, shifted.maxDepth, shifted.depth]
  by_cases deep : e.maxDepth.less (e.depth + 1 : Nat) = true
  · rw [if_pos deep, if_pos deep, Decoder.fault, shifted.position]
    exact .error _ e.position ⟨shifted, Nat.le_refl _⟩
  · rw [if_neg deep, if_neg deep]
    have inner := tracks.complete (shifted.scope room)
    revert inner
    generalize (Decoding.complete body).run (d.scope n) = left
    generalize (Decoding.complete body').run (e.scope n) = right
    intro inner
    cases inner with
    | ok values decoders => exact .ok values (Later.skip shifted room)
    | error cause offset decoders => exact .error cause offset ⟨shifted, Nat.le_refl _⟩

/-- Steps that remember where they begin. -/
theorem tracks_from {next : Nat → Decoding α} {next' : Nat → Decoding β}
    (goes : ∀ {d e : Decoder}, d.Shifted shift e →
      Agree shift (Later shift e.position) same ((next (e.position + shift)).run d) ((next' e.position).run e)) :
    Tracks shift same (offset >>= next) (offset >>= next') := by
  intro d e shifted
  rw [EStateM.run_bind, EStateM.run_bind, run_offset, run_offset, shifted.position]
  exact goes shifted

/-- What has been read since a start. -/
theorem Later.between_eq {start : Nat} (later : Later shift start d e) :
    d.source.between (start + shift) d.position = e.source.between start e.position := by
  rw [later.shifted.position]
  exact later.shifted.between_eq later.shifted.bounded.position_le

/-- The windows on what has been read since a start. -/
theorem Later.sameWindow {start : Nat} (later : Later shift start d e) :
    SameWindow ⟨d.source, start + shift, d.position - (start + shift), .document⟩
      ⟨e.source, start, e.position - start, .document⟩ := by
  have inside := later.shifted.bounded_left.stop_le
  have before := later.shifted.bounded_left.position_le
  have inside' := later.shifted.bounded.stop_le
  have before' := later.shifted.bounded.position_le
  have forward := later.forward
  have position := later.shifted.position
  have backed : (⟨d.source, start + shift, d.position - (start + shift), .document⟩ : Slice).Backed := by
    simp only [Slice.Backed]
    omega
  have backed' : (⟨e.source, start, e.position - start, .document⟩ : Slice).Backed := by
    simp only [Slice.Backed]
    omega
  have same := later.between_eq
  rw [Octets.between, Octets.between, List.drop_take, List.drop_take] at same
  exact ⟨_, by rw [backed.octets_eq, same], backed'.octets_eq⟩

theorem SameWindow.shown_eq {w w' : Slice} (same : SameWindow w w') : w.shown = w'.shown := by
  obtain ⟨octets, shows, shows'⟩ := same
  rw [Slice.shown_eq shows, Slice.shown_eq shows']

end Decoding

open Decoding

/-- The same value by content. -/
def Value.Same (v w : Value) : Prop :=
  v.shown = w.shown

/-- Content is read alike from shifted decoders. -/
def TaggedCodec.Local (c : TaggedCodec) : Prop :=
  ∀ shift count, Tracks shift Value.Same (c.readContent count) (c.readContent count)

/-- Elements are read alike from shifted decoders. -/
def UntaggedCodec.Local (c : UntaggedCodec) : Prop :=
  ∀ shift, Tracks shift Value.Same c.decode c.decode

/-- Elements are read alike from shifted decoders. -/
def Codec.Local : Codec → Prop
  | tagged c => c.Local
  | untagged c => c.Local

theorem TaggedCodec.Local.tracks {c : TaggedCodec} (isLocal : c.Local) (shift : Nat) :
    Tracks shift Value.Same c.decode c.decode := by
  refine (tracks_expect c.tag c.name).bind ?_
  intro h _ same
  subst same
  exact isLocal shift h.length

theorem Codec.Local.tracks {c : Codec} (isLocal : c.Local) (shift : Nat) : Tracks shift Value.Same c.decode c.decode := by
  cases c with
  | tagged c => exact TaggedCodec.Local.tracks isLocal shift
  | untagged c => exact isLocal shift

theorem Primitive.isLocal (p : Primitive) : p.codec.Local :=
  fun _ count => tracks_content p.rule_lawful.alike count

theorem TaggedCodec.explicit_local (name : String) (tag : Tag) {inner : Codec} (isLocal : inner.Local) :
    (explicit name tag inner).Local :=
  fun shift count => (isLocal.tracks shift).nested count

theorem TaggedCodec.Local.implicit {inner : TaggedCodec} (isLocal : inner.Local) (name : String)
    (tagClass number : Number) : (inner.implicit name tagClass number).Local :=
  isLocal

theorem TaggedCodec.Local.refine {inner : TaggedCodec} (isLocal : inner.Local) {condition : Condition}
    (blind : condition.ByContent) : (inner.refine condition).Local := by
  intro shift count
  refine tracks_offset.bind ?_
  intro _ start equal
  subst equal
  refine (isLocal shift count).bind ?_
  intro v w same
  have alike : condition v = condition w := by rw [← blind v, ← blind w, show v.shown = w.shown from same]
  rw [alike]
  cases condition w with
  | some problem => exact (tracks_throw _ rfl).bind fun _ _ => False.elim
  | none => exact tracks_pure same

theorem UntaggedCodec.any_local : any.Local := by
  intro shift
  have read : Tracks shift (fun a b : Any => a.tag = b.tag ∧ SameWindow a.value b.value ∧ SameWindow a.encoded b.encoded)
      Any.read Any.read := by
    refine tracks_from ?_
    intro d e shifted
    refine (tracks_header shifted).bind ?_
    intro h _ d' e' equal later
    subst equal
    refine ((tracks_slice h.length).after later).bind ?_
    intro value value' d'' e'' same later
    exact .ok ⟨rfl, same, later.sameWindow⟩ later
  refine read.bind ?_
  intro parts both facts
  obtain ⟨tag, value, encoded⟩ := parts
  obtain ⟨_, value', encoded'⟩ := both
  obtain ⟨rfl, same, same'⟩ := facts
  refine tracks_pure ?_
  rw [Value.Same, Value.shown_any, Value.shown_any, same.shown_eq, same'.shown_eq]

theorem UntaggedCodec.time_local : time.Local := by
  intro shift
  refine tracks_peekTag.bind ?_
  intro tag _ same
  subst same
  have utc := (TaggedCodec.Local.tracks Primitive.utcTime.isLocal shift)
  have generalized := (TaggedCodec.Local.tracks Primitive.generalizedTime.isLocal shift)
  cases tag with
  | none => exact utc
  | some tag =>
    by_cases is : Primitive.generalizedTime.codec.accepts tag = true
    · simp only [if_pos is]
      exact generalized
    · simp only [if_neg is]
      exact utc

namespace Collection

variable {name : String} {item : Codec} (isLocal : item.Local) (shift : Nat)

/-- The same elements by content. -/
def SameItems (items items' : List Value) : Prop :=
  items.map Value.shown = items'.map Value.shown

theorem SameItems.cons {v w : Value} {items items' : List Value} (first : v.Same w) (others : SameItems items items') :
    SameItems (v :: items) (w :: items') := by
  rw [SameItems, List.map_cons, List.map_cons, others, show v.shown = w.shown from first]

include isLocal

theorem tracks_inOrder (fuel : Nat) : Tracks shift SameItems (readInOrder name item fuel) (readInOrder name item fuel) := by
  induction fuel with
  | zero => exact tracks_fail _
  | succ fuel ih =>
    refine tracks_get ?_
    intro d e shifted
    rw [shifted.isFinished_eq]
    by_cases finished : e.isFinished = true
    · rw [if_pos finished]
      exact tracks_pure rfl
    · rw [if_neg finished]
      refine (isLocal.tracks shift).bind ?_
      intro v w same
      refine ih.bind ?_
      intro items items' others
      exact tracks_pure (SameItems.cons same others)

theorem tracks_element : Tracks shift (fun read read' => read.1.Same read'.1 ∧ read.2 = read'.2)
    (readElement item) (readElement item) := by
  refine tracks_from ?_
  intro d e shifted
  refine (isLocal.tracks shift shifted).bind ?_
  intro v w d' e' same later
  exact .ok ⟨same, later.between_eq⟩ later

theorem tracks_sorted (fuel : Nat) (previous : Octets) :
    Tracks shift SameItems (readSorted name item fuel previous) (readSorted name item fuel previous) := by
  induction fuel generalizing previous with
  | zero => exact tracks_fail _
  | succ fuel ih =>
    refine tracks_get ?_
    intro d e shifted
    rw [shifted.isFinished_eq, shifted.position]
    by_cases finished : e.isFinished = true
    · rw [if_pos finished, if_pos finished]
      exact tracks_pure rfl
    · rw [if_neg finished, if_neg finished]
      refine (tracks_element isLocal shift).bind ?_
      intro parts both facts
      obtain ⟨v, octets⟩ := parts
      obtain ⟨w, _⟩ := both
      obtain ⟨same, rfl⟩ := facts
      dsimp only
      by_cases less : 0 < Octets.compare previous octets
      · rw [if_pos less, if_pos less]
        exact (tracks_throw _ rfl).bind fun _ _ => False.elim
      · rw [if_neg less, if_neg less]
        refine (ih octets).bind ?_
        intro items items' others
        exact tracks_pure (SameItems.cons same others)

omit isLocal

theorem tracks_content {bounds : SizeBounds} {elements : Nat → Decoding (List Value)}
    (tracks : ∀ fuel, Tracks shift SameItems (elements fuel) (elements fuel)) (count : Number) :
    Tracks shift Value.Same (readContent name bounds elements count) (readContent name bounds elements count) := by
  refine tracks_offset.bind ?_
  intro _ start equal
  subst equal
  apply Tracks.nested
  refine tracks_get ?_
  intro d e shifted
  rw [shifted.bounded_left.remaining_eq, shifted.bounded.remaining_eq, shifted.rest_eq]
  refine (tracks _).bind ?_
  intro items items' same
  have length : items.length = items'.length := by
    have both := congrArg List.length same
    rwa [List.length_map, List.length_map] at both
  rw [length]
  by_cases admitted : bounds.Admits items'.length
  · rw [if_neg fun wrong => wrong admitted, if_neg fun wrong => wrong admitted]
    refine tracks_pure ?_
    rw [Value.Same, Value.shown_list, Value.shown_list, same]
  · rw [if_pos admitted, if_pos admitted]
    exact (tracks_throw _ rfl).bind fun _ _ => False.elim

end Collection

theorem TaggedCodec.sequenceOf_local (name : String) (tag : Tag) (bounds : SizeBounds) {item : Codec}
    (isLocal : item.Local) : (sequenceOf name tag bounds item).Local :=
  fun shift => Collection.tracks_content shift (Collection.tracks_inOrder isLocal shift)

theorem TaggedCodec.setOf_local (name : String) (tag : Tag) (bounds : SizeBounds) {item : Codec}
    (isLocal : item.Local) : (setOf name tag bounds item).Local := by
  intro shift count
  have tracks : ∀ fuel, Tracks shift Collection.SameItems (Collection.readSorted name item fuel [])
      (Collection.readSorted name item fuel []) := fun fuel => Collection.tracks_sorted isLocal shift fuel []
  exact Collection.tracks_content shift tracks count

/-- The same members by content. -/
def Record.Same (record record' : Record) : Prop :=
  Value.shownEntries record = Value.shownEntries record'

theorem Record.Same.assign {record record' : Record} {v w : Value} (same : record.Same record') (name : String)
    (entry : v.Same w) : Record.Same (record.assign name v) (record'.assign name w) := by
  rw [Record.Same, Value.shownEntries_assign, Value.shownEntries_assign, same, show v.shown = w.shown from entry]

namespace Member

variable {container : String} {m : Member} {members passed : List Member} {record record' : Record} {shift : Nat}

theorem tracks_read (isLocal : m.codec.Local) : Tracks shift Value.Same m.read m.read := by
  refine tracks_from ?_
  intro d e shifted
  refine (isLocal.tracks shift shifted).bind ?_
  intro v w d' e' same later
  simp only [EStateM.run_bind, EStateM.run_get, later.between_eq]
  by_cases equal : m.defaultOctets = some (e'.source.between e.position e'.position)
  · rw [if_pos equal, if_pos equal]
    exact .error _ e.position later
  · rw [if_neg equal, if_neg equal]
    exact .ok same later

theorem tracks_skip (missing : Fault.Kind) (same : record.Same record') :
    Tracks shift Record.Same (m.skip container missing record) (m.skip container missing record') := by
  unfold skip
  cases m.presence with
  | required => exact tracks_fail _
  | optional => exact tracks_pure same
  | default v => exact tracks_pure (same.assign m.name rfl)

theorem tracks_comes : Tracks shift Eq m.comes m.comes := by
  unfold comes
  cases m.presence.mayBeAbsent with
  | true =>
    refine tracks_peekTag.bind ?_
    intro tag _ same
    subst same
    cases tag <;> exact tracks_pure rfl
  | false =>
    refine tracks_get ?_
    intro d e shifted
    rw [shifted.isFinished_eq]
    exact tracks_pure rfl

theorem tracks_sequence (isLocal : ∀ m ∈ members, m.codec.Local) (same : record.Same record') :
    Tracks shift Record.Same (readSequence container members record) (readSequence container members record') := by
  induction members generalizing record record' with
  | nil => exact tracks_pure same
  | cons m rest ih =>
    have others := fun {r r'} => @ih r r' fun m' later => isLocal m' (List.mem_cons_of_mem _ later)
    rw [readSequence_cons, readSequence_cons]
    refine tracks_comes.bind ?_
    intro present _ equal
    subst equal
    cases present with
    | true => exact (tracks_read (isLocal m List.mem_cons_self)).bind fun v w entry => others (same.assign m.name entry)
    | false => exact (tracks_skip _ same).bind fun r r' => others

theorem tracks_skipAll (missing : Fault.Kind) (same : record.Same record') :
    Tracks shift Record.Same (members.foldlM (fun (r : Record) (m : Member) => m.skip container missing r) record)
      (members.foldlM (fun (r : Record) (m : Member) => m.skip container missing r) record') := by
  induction members generalizing record record' with
  | nil => exact tracks_pure same
  | cons m rest ih =>
    rw [List.foldlM_cons, List.foldlM_cons]
    exact (tracks_skip missing same).bind fun r r' => ih

theorem tracks_set (isLocal : ∀ m ∈ members, m.codec.Local) (same : record.Same record') :
    Tracks shift Record.Same (readSet container passed members record) (readSet container passed members record') := by
  induction members generalizing passed record record' with
  | nil =>
    rw [readSet, readSet]
    refine tracks_peekTag.bind ?_
    intro tag _ equal
    subst equal
    cases tag with
    | none => exact tracks_skipAll _ same
    | some tag =>
      dsimp only
      cases passed.find? (·.codec.accepts tag) <;> exact tracks_fail _
  | cons m rest ih =>
    have others := fun {p r r'} => @ih p r r' fun m' later => isLocal m' (List.mem_cons_of_mem _ later)
    rw [readSet, readSet]
    refine tracks_peekTag.bind ?_
    intro tag _ equal
    subst equal
    cases tag with
    | none => exact tracks_skipAll _ same
    | some tag =>
      dsimp only
      cases passed.find? (·.codec.accepts tag) with
      | some m' => exact tracks_fail _
      | none =>
        by_cases accepted : m.codec.accepts tag = true
        · simp only [if_pos accepted]
          exact (tracks_read (isLocal m List.mem_cons_self)).bind fun v w entry => others (same.assign m.name entry)
        · simp only [if_neg accepted]
          by_cases later : rest.any (·.codec.accepts tag) = true
          · simp only [if_pos later]
            exact (tracks_skip _ same).bind fun r r' => others
          · simp only [if_neg later]
            exact tracks_fail _

end Member

theorem TaggedCodec.sequence_local (name : String) (tag : Tag) {fields : List (Field Codec)}
    (isLocal : ∀ m ∈ fields.map Member.ofField, m.codec.Local) : (sequence name tag fields).Local := by
  intro shift count
  apply Tracks.nested
  refine (Member.tracks_sequence isLocal rfl).bind ?_
  intro record record' same
  refine tracks_pure ?_
  rw [Value.Same, Value.shown_record, Value.shown_record, show Value.shownEntries record = _ from same]

theorem TaggedCodec.set_local (name : String) (tag : Tag) {fields : List (Field Codec)}
    (isLocal : ∀ m ∈ Member.canonical (fields.map Member.ofField), m.codec.Local) : (set name tag fields).Local := by
  intro shift count
  apply Tracks.nested
  refine (Member.tracks_set isLocal rfl).bind ?_
  intro record record' same
  refine tracks_pure ?_
  rw [Value.Same, Value.shown_record, Value.shown_record, show Value.shownEntries record = _ from same]

namespace Decoding

/-- Two steps that agree with the same third one agree with each other. -/
theorem Agree.join {shift : Nat} {one other third : EStateM.Result Fault Decoder Value}
    (left : Agree shift (fun d e => d.position = e.position + shift) Value.Same one third)
    (right : Agree shift (fun d e => d.position = e.position + shift) Value.Same other third) :
    Agree 0 (fun d e => d.position = e.position) Value.Same one other := by
  cases left with
  | ok same position =>
    cases right with
    | ok same' position' => exact .ok (same.trans same'.symm) (position.trans position'.symm)
  | error cause offset position =>
    cases right with
    | error cause offset' position' => exact .error cause (offset + shift) (position.trans position'.symm)

end Decoding

namespace Schema

/-- Every declared type is read by the octets of its scope alone, if its conditions go by content. -/
theorem Declared.isLocal {T : Schema} (declared : T.Declared) (blind : T.ByContent) : T.codec.Local := by
  induction declared using Declared.induct with
  | primitive p => exact p.isLocal
  | time => exact UntaggedCodec.time_local
  | any => exact UntaggedCodec.any_local
  | sequence name tag types declared _ _ ih =>
    apply TaggedCodec.sequence_local
    intro m member
    obtain ⟨f, field, rfl⟩ := Member.mem_ofField member
    exact ih f field (blind.child (List.mem_map_of_mem field))
  | set name tag types declared _ _ _ ih =>
    apply TaggedCodec.set_local
    intro m member
    obtain ⟨f, field, rfl⟩ := Member.mem_ofField (Member.mem_canonical member)
    exact ih f field (blind.child (List.mem_map_of_mem field))
  | sequenceOf name tag bounds type declared ih =>
    exact TaggedCodec.sequenceOf_local _ _ _ (ih (blind.child List.mem_cons_self))
  | setOf name tag bounds type declared ih =>
    exact TaggedCodec.setOf_local _ _ _ (ih (blind.child List.mem_cons_self))
  | explicit name tag type declared ih =>
    exact TaggedCodec.explicit_local _ _ (ih (blind.child List.mem_cons_self))
  | implicit name tagClass number type declared fixed ih =>
    have inner := ih (blind.child List.mem_cons_self)
    rw [fixed] at inner
    rw [codec, fixed]
    exact TaggedCodec.Local.implicit inner _ _ _
  | refine condition type declared fixed ih =>
    have inner := ih (blind.child List.mem_cons_self)
    rw [fixed] at inner
    rw [codec, fixed]
    exact TaggedCodec.Local.refine inner (blind _ _ (.self _))

/-- The scope of a document from `start` to `stop` is read as the octets in it are read on their own: with the same
value by content and the position moved by `start`, or with the same fault and its offset moved by `start`. So no
octet outside the scope has any influence. -/
theorem Declared.decode_within_scope {T : Schema} (declared : T.Declared) (blind : T.ByContent) {document : Octets}
    {start stop : Nat} (before : start ≤ stop) (inside : stop ≤ document.length) (depth : Nat) (maxDepth : Number) :
    Decoding.Agree start (fun d e => d.position = e.position + start) Value.Same
      (T.codec.decode.run ⟨document, start, stop, depth, maxDepth⟩)
      (T.codec.decode.run ⟨document.between start stop, 0, stop - start, depth, maxDepth⟩) ∧
    ∀ other : Octets, stop ≤ other.length → other.between start stop = document.between start stop →
      Decoding.Agree 0 (fun d e => d.position = e.position) Value.Same
        (T.codec.decode.run ⟨document, start, stop, depth, maxDepth⟩)
        (T.codec.decode.run ⟨other, start, stop, depth, maxDepth⟩) := by
  have alone : ∀ {source : Octets}, stop ≤ source.length → Decoding.Agree start
      (fun d e => d.position = e.position + start) Value.Same
      (T.codec.decode.run ⟨source, start, stop, depth, maxDepth⟩)
      (T.codec.decode.run ⟨source.between start stop, 0, stop - start, depth, maxDepth⟩) := by
    intro source inside
    have shifted : Decoder.Shifted start ⟨source, start, stop, depth, maxDepth⟩
        ⟨source.between start stop, 0, stop - start, depth, maxDepth⟩ := by
      have length : (source.between start stop).length = stop - start := by
        rw [Octets.length_between, Nat.min_eq_left inside]
      refine ⟨⟨Nat.zero_le _, Nat.le_of_eq length.symm⟩, inside, ?_, (Nat.zero_add start).symm, ?_, rfl, rfl⟩
      · rw [List.take_of_length_le (Nat.le_of_eq length), Octets.between, List.drop_take]
      · exact (Nat.sub_add_cancel before).symm
    exact ((declared.isLocal blind).tracks start shifted).mono (fun _ _ later => later.shifted.position) fun _ _ => id
  refine ⟨alone inside, ?_⟩
  intro other inside' same
  have second := alone inside'
  rw [same] at second
  exact (alone inside).join second

/-- A negative number behind another octet, where the condition asks for one that is not: the offset of the fault
in the document and in the element on its own. -/
theorem decode_refused_within_scope :
    Decoding.Agree 1 (fun d e => d.position = e.position + 1) Value.Same
      (.error (.coding (.refused "INTEGER" "negative") (3 : Nat)) ⟨[9, 2, 1, 0xFF, 9], 4, 4, 0, 100⟩)
      (.error (.coding (.refused "INTEGER" "negative") (2 : Nat)) ⟨[2, 1, 0xFF], 3, 3, 0, 100⟩) := by
  let condition : Condition := fun v =>
    (ContentRule.asInteger v).toOption.bind fun n => if n < 0 then some "negative" else none
  have declared : Declared (refine (.primitive .integer) condition) := .refine _ (.primitive .integer) rfl
  have blind : ByContent (refine (.primitive .integer) condition) := by
    intro inner condition within
    rcases within.eq_or_child with same | ⟨U, direct, inside⟩
    · cases same
      intro v
      cases v <;> rfl
    · rw [List.mem_singleton.mp direct] at inside
      cases inside.eq_of_primitive
  have inside : 4 ≤ ([9, 2, 1, 0xFF, 9] : Octets).length := by decide
  exact (declared.decode_within_scope blind (by omega : 1 ≤ 4) inside 0 100).1

end Schema

end Der
