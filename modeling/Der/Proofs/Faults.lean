import Der.Proofs.Codec.Refusals
import Der.Proofs.Framing

namespace Der

/-- An element stands somewhere in the document whose content the rule of such a primitive type refuses for the cause,
and the offset is that of its first content octet. -/
def Octets.Refutes (source : Octets) (owns : Primitive → Prop) (cause : Fault.Cause) (offset : Nat) : Prop :=
  ∃ (p : Primitive) (tag : Tag) (before header content after : Octets),
    owns p ∧ source = before ++ header ++ content ++ after ∧ offset = (before ++ header).length ∧
      Header.encode tag content.length = .ok header ∧ p.rule.read (.ofOctets content) = .error (.ofCause cause)

/-- The fault has a place in the document. If it is about content, it is about the content that begins there. -/
structure Fault.Explained (source : Octets) (owns : Primitive → Prop) (cause : Fault.Cause) (offset : Nat) : Prop where
  inside : offset ≤ source.length
  reason : cause.ofStructure = true ∨ source.Refutes owns cause offset

theorem Fault.Explained.mono {source : Octets} {owns owns' : Primitive → Prop} {cause : Fault.Cause} {offset : Nat}
    (explained : Fault.Explained source owns cause offset) (more : ∀ p, owns p → owns' p) :
    Fault.Explained source owns' cause offset := by
  refine ⟨explained.inside, explained.reason.imp_right ?_⟩
  intro refutes
  obtain ⟨p, tag, before, header, content, after, owned, found⟩ := refutes
  exact ⟨p, tag, before, header, content, after, more p owned, found⟩

/-- The faults of a result have a structural cause, and a place before the last one. -/
def Fault.Placed {α : Type} (last : Nat) (x : Except Fault α) : Prop :=
  ∀ fault, x = .error fault →
    ∃ (cause : Fault.Cause) (place : Nat), fault = .coding cause place ∧ place ≤ last ∧ cause.ofStructure = true

namespace Fault

variable {α β : Type} {last : Nat}

theorem placed_ok (a : α) : Placed last (.ok a : Except Fault α) := by
  intro fault failed
  cases failed

theorem placed_error {cause : Cause} (structural : cause.ofStructure = true) {place : Nat} (bound : place ≤ last) :
    Placed last (.error (.coding cause place) : Except Fault α) := by
  intro fault failed
  cases failed
  exact ⟨cause, place, rfl, bound, structural⟩

theorem Placed.bind {x : Except Fault α} {f : α → Except Fault β} (first : Placed last x)
    (next : ∀ a, x = .ok a → Placed last (f a)) : Placed last (x >>= f) := by
  intro fault failed
  cases x with
  | error cause => exact first fault (by injection failed with same; rw [same])
  | ok a => exact next a rfl fault failed

theorem Placed.ite {condition : Prop} [Decidable condition] {x y : Except Fault α} (first : Placed last x)
    (second : Placed last y) : Placed last (if condition then x else y) := by
  by_cases holds : condition
  · rwa [if_pos holds]
  · rwa [if_neg holds]

end Fault

open Fault

theorem Tag.placed_decode (offset : Nat) (octets : Octets) : Placed (offset + octets.length) (decode offset octets) := by
  cases octets with
  | nil => exact placed_error rfl (Nat.le_refl _)
  | cons first rest =>
    rw [List.length_cons]
    simp only [decode]
    refine (placed_ok _).ite ?_
    cases Base128.decode maxNumber rest with
    | error flaw =>
      cases flaw with
      | padded => exact placed_error rfl (by omega)
      | unterminated => exact placed_error rfl (by omega)
      | oversized => exact placed_error rfl (by omega)
    | ok read => exact (placed_error rfl (by omega)).ite (placed_ok _)

theorem Length.placed_decode (offset : Nat) (octets : Octets) :
    Placed (offset + octets.length) (decode offset octets) := by
  have place : offset ≤ offset + octets.length := Nat.le_add_right _ _
  cases octets with
  | nil => exact placed_error rfl place
  | cons first rest =>
    simp only [decode]
    refine (placed_ok _).ite ?_
    refine (placed_error rfl place).ite ?_
    refine (placed_error rfl place).ite ?_
    refine (placed_error rfl place).ite ?_
    refine (placed_error rfl place).ite ?_
    refine (placed_error rfl place).ite ?_
    exact (placed_error rfl place).ite (placed_ok _)

theorem Header.placed_decode (offset : Nat) (octets : Octets) :
    Placed (offset + octets.length) (decode offset octets) := by
  refine (Tag.placed_decode offset octets).bind ?_
  intro parts readTag
  obtain ⟨tag, afterTag⟩ := parts
  have shorter := (Tag.suffix_of_decode readTag).length_le
  have place : offset + (octets.length - afterTag.length) + afterTag.length = offset + octets.length := by omega
  refine Placed.bind (place ▸ Length.placed_decode _ afterTag) ?_
  intro parts _
  exact (placed_error rfl (Nat.le_add_right _ _)).ite (placed_ok _)

/-- The decoder reads the document, and its scope lies inside. -/
structure Decoder.Inside (d : Decoder) (source : Octets) : Prop where
  bounded : d.Bounded
  same : d.source = source

/-- The decoder stands behind a header that declares so many octets of content, and they lie ahead. -/
def Decoder.Behind (d : Decoder) (count : Number) : Prop :=
  ∃ (tag : Tag) (n : Nat) (before header : Octets), count = n ∧ n ≤ d.rest.length ∧
    Header.encode tag n = .ok header ∧ d.source.take d.position = before ++ header

namespace Decoder

variable {d e : Decoder} {source octets : Octets}

theorem Inside.position_le (inside : d.Inside source) : d.position ≤ source.length :=
  inside.same ▸ inside.bounded.position_le.trans inside.bounded.stop_le

theorem Inside.skip (inside : d.Inside source) {count : Nat} (room : count ≤ d.rest.length) : (d.skip count).Inside source :=
  ⟨inside.bounded.skip room, inside.same⟩

theorem Inside.scope (inside : d.Inside source) {count : Nat} (room : count ≤ d.rest.length) :
    (d.scope count).Inside source :=
  ⟨inside.bounded.scope room, inside.same⟩

theorem Inside.rest_le (inside : d.Inside source) : d.position + d.rest.length ≤ source.length := by
  have before := inside.bounded.position_le
  have within := inside.bounded.stop_le
  rw [inside.bounded.length_rest, ← inside.same]
  omega

/-- The octets ahead stand between those passed and those behind them. -/
theorem Bounded.source_eq (bounded : d.Bounded) {count : Nat} (room : count ≤ d.rest.length) :
    d.source = d.source.take d.position ++ d.rest.take count ++ d.source.drop (d.position + count) := by
  have next := bounded.between_skip room
  rw [Octets.between, List.drop_take, Nat.add_sub_cancel_left] at next
  rw [← next, List.append_assoc, ← List.drop_drop, List.take_append_drop, List.take_append_drop]

theorem Takes.take_position (takes : d.Takes octets e) (bounded : d.Bounded) :
    ∃ before, e.source.take e.position = before ++ octets := by
  refine ⟨(e.source.take e.position).take d.position, ?_⟩
  have passed := takes.between bounded
  rw [Octets.between] at passed
  rw [← passed, List.take_append_drop]

end Decoder

namespace Decoding

open Decoder

variable {α β : Type} {source : Octets} {owns : Primitive → Prop} {body : Decoding α} {next : α → Decoding β} {d : Decoder}

/-- From the decoder, the step stays in the document when it succeeds, and fails only with faults that the document
explains. -/
structure Answers (source : Octets) (owns : Primitive → Prop) (body : Decoding α) (d : Decoder) : Prop where
  ok : ∀ ⦃a e⦄, body.run d = .ok a e → e.Inside source
  error : ∀ ⦃fault e⦄, body.run d = .error fault e →
    ∃ (cause : Cause) (offset : Nat), fault = .coding cause offset ∧ Explained source owns cause offset

theorem Answers.bind (first : Answers source owns body d)
    (goes : ∀ a e, body.run d = .ok a e → e.Inside source → Answers source owns (next a) e) :
    Answers source owns (body >>= next) d where
  ok := by
    intro b e run
    obtain ⟨a, s, begun, ended⟩ := bind_eq_ok run
    exact (goes a s begun (first.ok begun)).ok ended
  error := by
    intro fault e run
    rw [EStateM.run_bind] at run
    cases begun : body.run d with
    | error fault' s =>
      rw [begun] at run
      cases run
      exact first.error begun
    | ok a s =>
      rw [begun] at run
      exact (goes a s begun (first.ok begun)).error run

theorem answers_pure (inside : d.Inside source) (a : α) : Answers source owns (pure a) d where
  ok _ _ run := by
    cases run
    exact inside
  error _ _ run := by cases run

theorem answers_throw {cause : Cause} (structural : cause.ofStructure = true) {offset : Nat}
    (bound : offset ≤ source.length) : Answers source owns (throw (.coding cause offset) : Decoding α) d where
  ok _ _ run := by cases run
  error _ _ run := by
    cases run
    exact ⟨cause, offset, rfl, bound, Or.inl structural⟩

theorem answers_fail (inside : d.Inside source) {cause : Cause} (structural : cause.ofStructure = true) :
    Answers source owns (fail cause : Decoding α) d where
  ok _ _ run := by cases run
  error _ _ run := by
    cases run
    exact ⟨cause, d.position, rfl, inside.position_le, Or.inl structural⟩

theorem answers_offset (inside : d.Inside source) : Answers source owns offset d where
  ok _ _ run := by
    cases run
    exact inside
  error _ _ run := by cases run

theorem answers_get {next : Decoder → Decoding β} (goes : Answers source owns (next d) d) :
    Answers source owns (get >>= next) d where
  ok _ _ run := goes.ok run
  error _ _ run := goes.error run

theorem answers_peekTag (inside : d.Inside source) : Answers source owns peekTag d where
  ok := by
    intro tag e run
    obtain ⟨octets, takes, none⟩ := reads_peekTag inside.bounded run
    rw [takes.state, none]
    exact inside
  error := by
    intro fault e run
    rw [run_peekTag inside.bounded] at run
    split at run
    · cases run
    · cases read : Tag.decode d.position d.rest with
      | ok parts => rw [read] at run; cases run
      | error fault' =>
        rw [read] at run
        cases run
        obtain ⟨cause, place, same, bound, structural⟩ := Tag.placed_decode _ _ _ read
        exact ⟨cause, place, same, bound.trans inside.rest_le, Or.inl structural⟩

theorem answers_header (inside : d.Inside source) : Answers source owns header d where
  ok := by
    intro h e run
    obtain ⟨length, written, _, _, _, state, ahead, _⟩ := header_eq_ok inside.bounded run
    have takes : d.Takes written e := ⟨state, ahead⟩
    rw [state]
    exact inside.skip takes.length_le
  error := by
    intro fault e run
    rw [run_header inside.bounded] at run
    cases read : Header.decode d.position d.rest with
    | ok parts => rw [read] at run; cases run
    | error fault' =>
      rw [read] at run
      cases run
      obtain ⟨cause, place, same, bound, structural⟩ := Header.placed_decode _ _ _ read
      exact ⟨cause, place, same, bound.trans inside.rest_le, Or.inl structural⟩

theorem answers_expect (inside : d.Inside source) (tag : Tag) (name : String) :
    Answers source owns (expect tag name) d := by
  refine (answers_offset inside).bind ?_
  intro _ _ begun _
  cases begun
  refine (answers_header inside).bind ?_
  intro h e _ inside'
  by_cases expected : h.tag.equals tag = true
  · rw [if_pos expected]
    exact answers_pure inside' h
  · rw [if_neg expected]
    exact answers_throw rfl inside.position_le

theorem answers_finish (inside : d.Inside source) : Answers source owns finish d := by
  refine answers_get ?_
  by_cases done : d.position = d.stop
  · rw [if_pos done]
    exact answers_pure inside ()
  · rw [if_neg done]
    exact answers_fail inside rfl

theorem Answers.complete (answers : Answers source owns body d) : Answers source owns (complete body) d := by
  refine answers.bind ?_
  intro a e _ inside
  refine (answers_finish inside).bind ?_
  intro _ e' _ inside'
  exact answers_pure inside' a

/-- A scope answers if its body answers where the octets of the scope are left. -/
theorem answers_nested (inside : d.Inside source) (count : Number)
    (goes : ∀ n : Nat, count = n → n ≤ d.rest.length → Answers source owns body (d.scope n)) :
    Answers source owns (nested count body) d where
  ok := by
    intro a e run
    obtain ⟨n, _, room, rfl, _⟩ := nested_eq_ok inside.bounded run
    exact inside.skip room
  error := by
    intro fault e run
    by_cases enough : ∃ n : Nat, count = n ∧ n ≤ d.rest.length
    · obtain ⟨n, rfl, room⟩ := enough
      rw [run_nested inside.bounded room] at run
      by_cases deep : d.maxDepth.less (d.depth + 1 : Nat) = true
      · rw [if_pos deep] at run
        cases run
        exact ⟨_, _, rfl, inside.position_le, Or.inl rfl⟩
      · rw [if_neg deep] at run
        cases inner : (Decoding.complete body).run (d.scope n) with
        | ok a s => rw [inner] at run; cases run
        | error fault' s =>
          rw [inner] at run
          cases run
          exact (goes n rfl room).complete.error inner
    · rw [nested, EStateM.run_bind, run_need_of_scarce inside.bounded enough] at run
      cases run
      exact ⟨_, _, rfl, inside.position_le, Or.inl rfl⟩

end Decoding

open Decoding

section

variable {owns : Primitive → Prop}

/-- Content that is read behind its header fails only with faults that the document explains. -/
def TaggedCodec.Explains (owns : Primitive → Prop) (c : TaggedCodec) : Prop :=
  ∀ ⦃source : Octets⦄ ⦃d : Decoder⦄ ⦃count : Number⦄, d.Inside source → d.Behind count →
    Answers source owns (c.readContent count) d

/-- Elements are read, or fail with faults that the document explains. -/
def UntaggedCodec.Explains (owns : Primitive → Prop) (c : UntaggedCodec) : Prop :=
  ∀ ⦃source : Octets⦄ ⦃d : Decoder⦄, d.Inside source → Answers source owns c.decode d

/-- What is read fails only with faults that the document explains. -/
def Codec.Explains (owns : Primitive → Prop) : Codec → Prop
  | tagged c => c.Explains owns
  | untagged c => c.Explains owns

theorem TaggedCodec.Explains.decode {c : TaggedCodec} (explains : c.Explains owns) {source : Octets} {d : Decoder}
    (inside : d.Inside source) : Answers source owns c.decode d := by
  refine (answers_expect inside c.tag c.name).bind ?_
  intro h e run inside'
  obtain ⟨length, header, isLength, _, written, state, ahead, fits⟩ := expect_eq_ok inside.bounded run
  have takes : d.Takes header e := ⟨state, ahead⟩
  obtain ⟨before, passed⟩ := takes.take_position inside.bounded
  exact explains inside' ⟨c.tag, length, before, header, isLength, fits, written, passed⟩

theorem Codec.Explains.decode {c : Codec} (explains : c.Explains owns) {source : Octets} {d : Decoder}
    (inside : d.Inside source) : Answers source owns c.decode d := by
  cases c with
  | tagged c => exact TaggedCodec.Explains.decode explains inside
  | untagged c => exact explains inside

/-- Each element that is read leaves fewer octets in the scope. -/
theorem Codec.Framed.rest_lt {c : Codec} (framed : c.Framed) {d e : Decoder} (bounded : d.Bounded) {v : Value}
    (run : c.decode.run d = .ok v e) : e.rest.length < d.rest.length := by
  obtain ⟨octets, takes, t, frames, _⟩ := framed.reads bounded run
  have positive := List.length_pos_of_ne_nil frames.ne_nil
  rw [takes.ahead, List.length_append]
  omega

theorem Decoding.Answers.mono {α : Type} {source : Octets} {owns owns' : Primitive → Prop} {body : Decoding α}
    {d : Decoder} (answers : Answers source owns body d) (more : ∀ p, owns p → owns' p) : Answers source owns' body d where
  ok := answers.ok
  error := by
    intro fault e run
    obtain ⟨cause, offset, same, explained⟩ := answers.error run
    exact ⟨cause, offset, same, explained.mono more⟩

theorem Codec.Explains.mono {c : Codec} {owns owns' : Primitive → Prop} (explains : c.Explains owns)
    (more : ∀ p, owns p → owns' p) : c.Explains owns' := by
  cases c with
  | tagged c => exact fun _ _ _ inside behind => (explains inside behind).mono more
  | untagged c => exact fun _ _ inside => (explains inside).mono more

/-- Content that is refused behind its header is refused in the document. -/
theorem Decoder.Inside.refutes {source : Octets} {d : Decoder} (inside : d.Inside source) {p : Primitive} (owned : owns p)
    {n : Nat} (room : n ≤ d.rest.length) {tag : Tag} {before header : Octets} (written : Header.encode tag n = .ok header)
    (passed : d.source.take d.position = before ++ header) {cause : Cause}
    (refused : p.rule.read (.ofOctets (d.rest.take n)) = .error (.ofCause cause)) :
    source.Refutes owns cause d.position := by
  have split := inside.bounded.source_eq room
  have reached := congrArg List.length passed
  rw [List.length_take, inside.same, Nat.min_eq_left inside.position_le] at reached
  rw [passed, inside.same] at split
  refine ⟨p, tag, before, header, d.rest.take n, _, owned, split, reached, ?_, refused⟩
  rwa [List.length_take_of_le room]

/-- The rule of a primitive type is handed the content octets, and what it refuses is placed at the first of them. -/
theorem Primitive.explains (p : Primitive) : p.codec.Explains (· = p) := by
  intro source d count inside behind
  obtain ⟨tag, n, before, header, rfl, room, written, passed⟩ := behind
  have read := run_content inside.bounded room p.rule.read
  refine ⟨?_, ?_⟩
  · intro v e run
    obtain ⟨_, _, room', rfl, _⟩ := content_eq_ok inside.bounded run
    exact inside.skip room'
  · intro fault e run
    have run : (content n p.rule.read).run d = .error fault e := run
    rw [read] at run
    cases result : p.rule.read (windowAt d n) with
    | ok v => rw [result] at run; cases run
    | error fault' =>
      rw [result] at run
      obtain ⟨cause, rfl, _, alone⟩ := p.read_eq_error (octets_windowAt inside.bounded room) result
      cases run
      refine ⟨cause, d.position, rfl, inside.position_le, Or.inr (inside.refutes ?_ room written passed alone)⟩
      rfl

theorem TaggedCodec.explicit_explains (name : String) (tag : Tag) {inner : Codec} (explains : inner.Explains owns) :
    (explicit name tag inner).Explains owns :=
  fun _ _ count inside _ => answers_nested inside count fun _ _ room => explains.decode (inside.scope room)

theorem TaggedCodec.Explains.refine {inner : TaggedCodec} (explains : inner.Explains owns) (condition : Condition) :
    (inner.refine condition).Explains owns := by
  intro source d count inside behind
  refine (answers_offset inside).bind ?_
  intro _ _ begun _
  cases begun
  refine (explains inside behind).bind ?_
  intro v e _ inside'
  cases condition v with
  | some problem => exact (answers_throw rfl inside.position_le).bind fun _ _ _ inside'' => answers_pure inside'' v
  | none => exact answers_pure inside' v

theorem UntaggedCodec.any_explains : any.Explains owns := by
  intro source d inside
  have captures : Answers source owns Any.read d := by
    refine (answers_offset inside).bind ?_
    intro _ _ begun _
    cases begun
    refine (answers_header inside).bind ?_
    intro h e run inside'
    obtain ⟨length, header, isLength, _, _, state, ahead, fits⟩ := header_eq_ok inside.bounded run
    have slices : Answers source owns (slice h.length) e := by
      rw [isLength]
      refine ⟨?_, ?_⟩
      · intro window s taken
        rw [run_slice inside'.bounded fits] at taken
        cases taken
        exact inside'.skip fits
      · intro fault s taken
        rw [run_slice inside'.bounded fits] at taken
        cases taken
    refine slices.bind ?_
    intro window s _ inside''
    exact answers_get (answers_pure inside'' _)
  exact captures.bind fun a e _ inside' => answers_pure inside' _

theorem UntaggedCodec.time_explains : time.Explains fun p => p = .utcTime ∨ p = .generalizedTime := by
  intro source d inside
  refine (answers_peekTag inside).bind ?_
  intro tag e _ inside'
  have either : ∀ p : Primitive, p = .utcTime ∨ p = .generalizedTime →
      Answers source (fun p => p = .utcTime ∨ p = .generalizedTime) p.codec.decode e := by
    intro p is
    refine (TaggedCodec.Explains.decode p.explains inside').mono ?_
    intro q same
    rw [same]
    exact is
  have utc := either .utcTime (Or.inl rfl)
  have generalized := either .generalizedTime (Or.inr rfl)
  cases tag with
  | none => exact utc
  | some tag =>
    by_cases is : Primitive.generalizedTime.codec.accepts tag = true
    · simp only [if_pos is]
      exact generalized
    · simp only [if_neg is]
      exact utc

namespace Collection

variable {name : String} {item : Codec} {source : Octets} {fuel : Nat} {d : Decoder}
  (explains : item.Explains owns) (framed : item.Framed)

include explains framed

/-- Each element takes some octets, so the fuel outlasts the elements. -/
theorem answers_inOrder (inside : d.Inside source) (enough : d.rest.length < fuel) :
    Answers source owns (readInOrder name item fuel) d := by
  induction fuel generalizing d with
  | zero => exact absurd enough (Nat.not_lt_zero _)
  | succ fuel ih =>
    refine answers_get ?_
    by_cases finished : d.isFinished = true
    · rw [if_pos finished]
      exact answers_pure inside []
    · rw [if_neg finished]
      refine (explains.decode inside).bind ?_
      intro v e run inside'
      have fewer := framed.rest_lt inside.bounded run
      refine (ih inside' (by omega)).bind ?_
      intro items e' _ inside''
      exact answers_pure inside'' _

omit framed in
theorem answers_element (inside : d.Inside source) : Answers source owns (readElement item) d := by
  refine (answers_offset inside).bind ?_
  intro start e _ inside'
  refine (explains.decode inside').bind ?_
  intro v e' _ inside''
  exact answers_get (answers_pure inside'' _)

omit explains in
theorem rest_lt_of_element (bounded : d.Bounded) {read : Value × Octets} {e : Decoder}
    (run : (readElement item).run d = .ok read e) : e.rest.length < d.rest.length := by
  obtain ⟨_, _, begun, run⟩ := bind_eq_ok run
  cases begun
  obtain ⟨v, e', decoded, run⟩ := bind_eq_ok run
  obtain ⟨_, _, looked, last⟩ := bind_eq_ok run
  cases looked
  cases last
  exact framed.rest_lt bounded decoded

theorem answers_sorted (previous : Octets) (inside : d.Inside source) (enough : d.rest.length < fuel) :
    Answers source owns (readSorted name item fuel previous) d := by
  induction fuel generalizing d previous with
  | zero => exact absurd enough (Nat.not_lt_zero _)
  | succ fuel ih =>
    refine answers_get ?_
    by_cases finished : d.isFinished = true
    · rw [if_pos finished]
      exact answers_pure inside []
    · rw [if_neg finished]
      refine (answers_element explains inside).bind ?_
      intro read e run inside'
      have fewer := rest_lt_of_element framed inside.bounded run
      by_cases less : 0 < Octets.compare previous read.2
      · simp only [if_pos less]
        exact (answers_throw rfl inside.position_le).bind fun _ _ threw _ => by cases threw
      · simp only [if_neg less]
        refine (ih read.2 inside' (by omega)).bind ?_
        intro items e' _ inside''
        exact answers_pure inside'' _

omit explains framed

theorem answers_content {bounds : SizeBounds} {elements : Nat → Decoding (List Value)} (inside : d.Inside source)
    (count : Number) (each : ∀ {fuel : Nat} {d : Decoder}, d.Inside source → d.rest.length < fuel →
      Answers source owns (elements fuel) d) :
    Answers source owns (readContent name bounds elements count) d := by
  refine (answers_offset inside).bind ?_
  intro _ _ begun _
  cases begun
  refine answers_nested inside count ?_
  intro n _ room
  have within := inside.scope room
  refine answers_get ?_
  refine (each within ?_).bind ?_
  · rw [within.bounded.remaining_eq, Int.toNat_natCast]
    exact Nat.lt_succ_self _
  · intro items e _ inside'
    by_cases admitted : bounds.Admits items.length
    · rw [if_neg fun wrong => wrong admitted]
      exact answers_pure inside' _
    · rw [if_pos admitted]
      exact (answers_throw rfl inside.position_le).bind fun _ _ threw _ => by cases threw

end Collection

theorem TaggedCodec.sequenceOf_explains (name : String) (tag : Tag) (bounds : SizeBounds) {item : Codec}
    (explains : item.Explains owns) (framed : item.Framed) : (sequenceOf name tag bounds item).Explains owns :=
  fun _ _ count inside _ => Collection.answers_content inside count (Collection.answers_inOrder explains framed)

theorem TaggedCodec.setOf_explains (name : String) (tag : Tag) (bounds : SizeBounds) {item : Codec}
    (explains : item.Explains owns) (framed : item.Framed) : (setOf name tag bounds item).Explains owns := by
  intro source d count inside _
  change Answers source owns (Collection.readContent name bounds (Collection.readSorted name item · []) count) d
  apply Collection.answers_content inside count
  intro fuel d
  exact Collection.answers_sorted explains framed []

namespace Member

variable {container : String} {m : Member} {members passed : List Member} {record : Record} {source : Octets} {d : Decoder}

theorem answers_read (explains : m.codec.Explains owns) (inside : d.Inside source) : Answers source owns m.read d := by
  refine (answers_offset inside).bind ?_
  intro _ _ begun _
  cases begun
  refine (explains.decode inside).bind ?_
  intro v e _ inside'
  refine answers_get ?_
  by_cases equal : m.defaultOctets = some (e.source.between d.position e.position)
  · rw [if_pos equal]
    exact (answers_throw rfl inside.position_le).bind fun _ _ threw _ => by cases threw
  · rw [if_neg equal]
    exact answers_pure inside' v

theorem answers_skip {missing : Fault.Kind} (absent : missing = .incomplete ∨ missing = .unexpectedTag)
    (inside : d.Inside source) : Answers source owns (m.skip container missing record) d := by
  unfold skip
  cases m.presence with
  | required =>
    refine answers_fail inside ?_
    rcases absent with rfl | rfl <;> rfl
  | optional => exact answers_pure inside record
  | default v => exact answers_pure inside _

theorem answers_comes (inside : d.Inside source) : Answers source owns m.comes d := by
  unfold comes
  cases m.presence.mayBeAbsent with
  | true =>
    refine (answers_peekTag inside).bind ?_
    intro tag e _ inside'
    cases tag <;> exact answers_pure inside' _
  | false => exact answers_get (answers_pure inside _)

theorem answers_sequence (explains : ∀ m ∈ members, m.codec.Explains owns) (inside : d.Inside source) :
    Answers source owns (readSequence container members record) d := by
  induction members generalizing record d with
  | nil => exact answers_pure inside record
  | cons m rest ih =>
    have others := fun {r e} => @ih r e fun m' later => explains m' (List.mem_cons_of_mem _ later)
    rw [readSequence_cons]
    refine (answers_comes inside).bind ?_
    intro present e _ inside'
    cases present with
    | true => exact (answers_read (explains m List.mem_cons_self) inside').bind fun v e' _ => others
    | false => exact (answers_skip (Or.inl rfl) inside').bind fun r e' _ => others

theorem answers_skipAll (inside : d.Inside source) : Answers source owns
    (members.foldlM (fun (r : Record) (m : Member) => m.skip container .incomplete r) record) d := by
  induction members generalizing record d with
  | nil => exact answers_pure inside record
  | cons m rest ih =>
    rw [List.foldlM_cons]
    exact (answers_skip (Or.inl rfl) inside).bind fun r e _ => ih

theorem answers_set (explains : ∀ m ∈ members, m.codec.Explains owns) (inside : d.Inside source) :
    Answers source owns (readSet container passed members record) d := by
  induction members generalizing passed record d with
  | nil =>
    rw [readSet]
    refine (answers_peekTag inside).bind ?_
    intro tag e _ inside'
    cases tag with
    | none => exact answers_skipAll inside'
    | some tag =>
      dsimp only
      cases passed.find? (·.codec.accepts tag) <;> exact answers_fail inside' rfl
  | cons m rest ih =>
    have others := fun {p r e} => @ih p r e fun m' later => explains m' (List.mem_cons_of_mem _ later)
    rw [readSet]
    refine (answers_peekTag inside).bind ?_
    intro tag e _ inside'
    cases tag with
    | none => exact answers_skipAll inside'
    | some tag =>
      dsimp only
      cases passed.find? (·.codec.accepts tag) with
      | some m' => exact answers_fail inside' rfl
      | none =>
        by_cases accepted : m.codec.accepts tag = true
        · simp only [if_pos accepted]
          exact (answers_read (explains m List.mem_cons_self) inside').bind fun v e' _ => others
        · simp only [if_neg accepted]
          by_cases later : rest.any (·.codec.accepts tag) = true
          · simp only [if_pos later]
            exact (answers_skip (Or.inr rfl) inside').bind fun r e' _ => others
          · simp only [if_neg later]
            exact answers_fail inside' rfl

end Member

theorem TaggedCodec.sequence_explains (name : String) (tag : Tag) {fields : List (Field Codec)}
    (explains : ∀ m ∈ fields.map Member.ofField, m.codec.Explains owns) : (sequence name tag fields).Explains owns := by
  intro source d count inside _
  refine answers_nested inside count ?_
  intro n _ room
  exact (Member.answers_sequence explains (inside.scope room)).bind fun record e _ inside' => answers_pure inside' _

theorem TaggedCodec.set_explains (name : String) (tag : Tag) {fields : List (Field Codec)}
    (explains : ∀ m ∈ Member.canonical (fields.map Member.ofField), m.codec.Explains owns) :
    (set name tag fields).Explains owns := by
  intro source d count inside _
  refine answers_nested inside count ?_
  intro n _ room
  exact (Member.answers_set explains (inside.scope room)).bind fun record e _ inside' => answers_pure inside' _

end

namespace Schema

/-- The primitive types whose rules may be applied to content when a value of the type is read. -/
def Applies (T : Schema) (p : Primitive) : Prop :=
  T.Contains (.primitive p) ∨ T.Contains .time ∧ (p = .utcTime ∨ p = .generalizedTime)

theorem Applies.child {T S : Schema} {p : Primitive} (direct : S ∈ T.children) (applies : S.Applies p) : T.Applies p :=
  applies.imp (.child direct) fun parts => ⟨.child direct parts.1, parts.2⟩

/-- Every declared type is read, or refused with a fault that the document explains. -/
theorem Declared.explains {T : Schema} (declared : T.Declared) : T.codec.Explains T.Applies := by
  induction declared using Declared.induct with
  | primitive p =>
    refine Codec.Explains.mono (c := .tagged p.codec) p.explains ?_
    intro q same
    rw [same]
    exact Or.inl (.self _)
  | time => exact Codec.Explains.mono (c := .untagged .time) UntaggedCodec.time_explains fun p is => Or.inr ⟨.self _, is⟩
  | any => exact UntaggedCodec.any_explains
  | sequence name tag types declared _ _ ih =>
    apply TaggedCodec.sequence_explains
    intro m member
    obtain ⟨f, field, rfl⟩ := Member.mem_ofField member
    exact (ih f field).mono fun p => Applies.child (List.mem_map_of_mem field)
  | set name tag types declared _ _ _ ih =>
    apply TaggedCodec.set_explains
    intro m member
    obtain ⟨f, field, rfl⟩ := Member.mem_ofField (Member.mem_canonical member)
    exact (ih f field).mono fun p => Applies.child (List.mem_map_of_mem field)
  | sequenceOf name tag bounds type declared ih =>
    exact TaggedCodec.sequenceOf_explains _ _ _ (ih.mono fun p => Applies.child List.mem_cons_self) type.framed
  | setOf name tag bounds type declared ih =>
    exact TaggedCodec.setOf_explains _ _ _ (ih.mono fun p => Applies.child List.mem_cons_self) type.framed
  | explicit name tag type declared ih =>
    exact TaggedCodec.explicit_explains _ _ (ih.mono fun p => Applies.child List.mem_cons_self)
  | implicit name tagClass number type declared fixed ih =>
    have inner := ih.mono fun p => Applies.child (T := Schema.implicit name tagClass number _) List.mem_cons_self
    rw [fixed] at inner
    rw [codec, fixed]
    exact inner
  | refine condition type declared fixed ih =>
    have inner := ih.mono fun p => Applies.child (T := Schema.refine _ condition) List.mem_cons_self
    rw [fixed] at inner
    rw [codec, fixed]
    exact TaggedCodec.Explains.refine inner condition

/-- A document is read as a value, or it is refused with a coding fault at an offset in it. Neither a lack of room nor
a lost source is the cause, and no element is ever read that takes no octets. If the rule of any primitive type refuses
content for this cause, then content of the type stands at the offset that is refused for it. -/
theorem Declared.parse_value_or_fault {T : Schema} (declared : T.Declared) (maxDepth : Number) (document : Octets) :
    (∃ v, Document.parse T.codec maxDepth document = .ok v) ∨
      ∃ (cause : Fault.Cause) (offset : Nat),
        Document.parse T.codec maxDepth document = .error (.coding cause offset) ∧ offset ≤ document.length ∧
        cause.kind ≠ .bufferTooSmall ∧ cause.kind ≠ .detachedSource ∧ (∀ name, cause ≠ .stalled name) ∧
        ((∃ (p : Primitive) (content : Octets), p.rule.read (.ofOctets content) = .error (.ofCause cause)) →
          document.Refutes T.Applies cause offset) := by
  have inside : (Decoder.ofOctets document maxDepth).Inside document := ⟨Decoder.bounded_ofOctets document maxDepth, rfl⟩
  have answers := (declared.explains.decode inside).complete
  unfold Document.parse outcome
  cases run : (complete T.codec.decode).run (.ofOctets document maxDepth) with
  | ok v e => exact Or.inl ⟨v, rfl⟩
  | error fault e =>
    right
    obtain ⟨cause, offset, rfl, explained⟩ := answers.error run
    have read : cause.ofStructure = true ∨ cause.ofContent = true := by
      refine explained.reason.imp_right ?_
      intro refutes
      obtain ⟨p, _, _, _, content, _, _, _, _, _, refused⟩ := refutes
      exact p.ofContent_of_read refused
    obtain ⟨writing, attached⟩ := Fault.Cause.kind_of_read read
    refine ⟨cause, offset, rfl, explained.inside, writing, attached, ?_, ?_⟩
    · rintro name rfl
      rcases read with read | read <;> cases read
    · intro raised
      obtain ⟨p, content, refused⟩ := raised
      refine explained.reason.resolve_left ?_
      intro structural
      have outside := Fault.Cause.ofContent_of_ofStructure structural
      rw [p.ofContent_of_read refused] at outside
      cases outside

/-- An octet that is no BOOLEAN, inside an explicit tag. -/
theorem parse_refused_flag :
    Document.parse (explicit "Flag" ⟨2, true, 0⟩ (.primitive .boolean)).codec 9 [0xA0, 3, 1, 1, 7] =
        .error (.coding (.badBoolean 7) (4 : Nat)) ∧
      Octets.Refutes [0xA0, 3, 1, 1, 7] (explicit "Flag" ⟨2, true, 0⟩ (.primitive .boolean)).Applies (.badBoolean 7) 4 := by
  have accepted : declareTagged "Flag" none none 0 (.primitive .boolean) =
      .ok (explicit "Flag" ⟨2, true, 0⟩ (.primitive .boolean)) := rfl
  have declared : Declared (explicit "Flag" ⟨2, true, 0⟩ (.primitive .boolean)) := .tagged (.primitive .boolean) accepted
  have refused : Document.parse (explicit "Flag" ⟨2, true, 0⟩ (.primitive .boolean)).codec 9 [0xA0, 3, 1, 1, 7] =
      .error (.coding (.badBoolean 7) (4 : Nat)) := rfl
  refine ⟨refused, ?_⟩
  rcases declared.parse_value_or_fault 9 [0xA0, 3, 1, 1, 7] with ⟨v, parsed⟩ | ⟨cause, offset, failed, _, _, _, _, raised⟩
  · cases refused.symm.trans parsed
  · cases refused.symm.trans failed
    exact raised ⟨.boolean, [7], rfl⟩

end Schema

end Der
