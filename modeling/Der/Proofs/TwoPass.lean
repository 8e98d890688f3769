import Der.Codec.Basic
import Der.Proofs.Codec.ContentRule
import Der.Proofs.Codec.Structure
import Der.Proofs.Overhang
import Der.Proofs.Schema.Declared

namespace Der

open Encoding

theorem Tag.blameless_checkNumber (t : Tag) : Fault.Blameless t.checkNumber := by
  unfold checkNumber
  simp only
  split
  · refine (Fault.blameless_error _).ite ?_
    exact (Fault.blameless_error _).ite (Fault.only_ok _)
  · exact Fault.blameless_error _

theorem Length.blameless_check (n : Number) : Fault.Blameless (check n) := by
  unfold check
  split
  · exact (Fault.blameless_error _).ite (Fault.only_ok _)
  · exact Fault.blameless_error _

theorem Header.blameless_encodedLength (tag : Tag) (length : Number) : Fault.Blameless (encodedLength tag length) := by
  have identifier : Fault.Blameless tag.encodedLength :=
    tag.blameless_checkNumber.bind fun n => (Fault.only_ok 1).ite (Fault.only_ok _)
  have size : Fault.Blameless (Length.encodedLength length) :=
    (Length.blameless_check length).bind fun k => (Fault.only_ok 1).ite (Fault.only_ok _)
  exact identifier.bind fun i => size.bind fun s => Fault.only_ok _

/-- Content that has been measured is written as measured, on regular values that stand apart from the buffer, and
then fails only if the value is not sure. -/
structure TaggedCodec.Measures (c : TaggedCodec) (regular sure : Value → Prop) : Prop where
  blameless : ∀ v, Fault.Blameless (c.contentLength v)
  fills : ∀ {v n}, c.contentLength v = .ok n → Fills (c.writeContent v) n (v.Apart ∧ regular v) (sure v)

/-- An element that has been measured is written as measured, on regular values that stand apart from the buffer,
and then fails only if the value is not sure. Where there is no value, something or nothing is written, but no
element without octets. -/
structure UntaggedCodec.Measures (c : UntaggedCodec) (regular sure : Value → Prop) : Prop where
  blameless : ∀ v, Fault.Blameless (c.encodedLength v)
  fills : ∀ {v n}, c.encodedLength v = .ok n → Fills (c.encode v) n (v.Apart ∧ regular v) (sure v)
  solid : Fills (c.encode .undefined) 1 False False

/-- A value that has been measured is written as measured, if it is regular and stands apart from the buffer, and
then fails only if it is not sure. -/
def Codec.Measures : Codec → (Value → Prop) → (Value → Prop) → Prop
  | tagged c => c.Measures
  | untagged c => c.Measures

theorem TaggedCodec.encodedLength_eq_ok {c : TaggedCodec} {v : Value} {n : Nat} (measured : c.encodedLength v = .ok n) :
    ∃ length header, c.contentLength v = .ok length ∧ Header.encode c.tag length = .ok header ∧
      n = header.length + length := by
  obtain ⟨length, content, measured⟩ := Except.bind_eq_ok.mp measured
  obtain ⟨size, sized, same⟩ := Except.bind_eq_ok.mp measured
  cases same
  rw [Header.encodedLength_eq] at sized
  obtain ⟨header, written, rfl⟩ := Except.map_eq_ok.mp sized
  exact ⟨length, header, content, written, rfl⟩

theorem TaggedCodec.encodedLength_of_content {c : TaggedCodec} {v : Value} {length : Nat} {header : Octets}
    (content : c.contentLength v = .ok length) (written : Header.encode c.tag length = .ok header) :
    c.encodedLength v = .ok (header.length + length) := by
  refine Except.bind_eq_ok.mpr ⟨length, content, Except.bind_eq_ok.mpr ⟨header.length, ?_, rfl⟩⟩
  rw [Header.encodedLength_eq, written]
  rfl

/-- What is written for a value is its header, and then what is written for its content. -/
theorem TaggedCodec.emits_of_content {c : TaggedCodec} {v : Value} {lent : Prop} {length : Nat} {header octets : Octets}
    {outcome : Except Fault Unit} (apart : lent → v.Apart) (measured : c.contentLength v = .ok length)
    (written : Header.encode c.tag length = .ok header)
    (emits : Emits lent (c.writeContent v) length octets outcome) :
    Emits lent (c.encode v) (header.length + length) (header ++ octets) outcome := by
  have body : Emits lent (current v >>= c.writeContent) length octets outcome := emits.seen apart
  exact Emits.seen apart ((body.element written (Nat.le_refl _)).after measured)

/-- The element of a value is its content after the header. -/
theorem TaggedCodec.yields_of_content {c : TaggedCodec} {v : Value} {header content : Octets}
    (inside : Yields (c.contentLength v) (c.writeContent v) content)
    (written : Header.encode c.tag content.length = .ok header) :
    Yields (c.encodedLength v) (c.encode v) (header ++ content) := by
  refine ⟨?_, ?_⟩ <;> rw [List.length_append]
  · exact encodedLength_of_content inside.measured written
  · exact emits_of_content False.elim inside.measured written inside.emits

/-- What a value yields is its element. -/
theorem Encoding.Yields.toOctets {c : Codec} {v : Value} {octets : Octets}
    (yields : Yields (c.encodedLength v) (c.encode v) octets) : c.toOctets v = .ok octets := by
  rw [Codec.toOctets, yields.measured]
  exact yields.emits.toOctets (Nat.le_refl _)

/-- An element whose header cannot be encoded is refused when the header is written. -/
theorem Encoding.fills_header_of_error {tag : Tag} {length : Nat} {fault : Fault} {next : Unit → Encoding Unit}
    {room : Nat} (refused : Header.encode tag length = .error fault) :
    Fills (Encoding.header tag length >>= next) room False False := by
  have unsized : Header.encodedLength tag length = .error fault := by
    rw [Header.encodedLength_eq, refused]
    rfl
  rw [Encoding.header, bind_assoc]
  refine fills_bind (Header.blameless_encodedLength tag length) (fun never => never.elim) ?_
  intro size sized
  cases unsized.symm.trans sized

namespace Codec.Measures

variable {c : Codec} {regular sure : Value → Prop} (measures : c.Measures regular sure)

include measures

theorem blameless (v : Value) : Fault.Blameless (c.encodedLength v) := by
  cases c with
  | tagged c =>
    refine (TaggedCodec.Measures.blameless measures v).bind ?_
    intro length
    exact (Header.blameless_encodedLength c.tag length).bind fun size => Fault.only_ok _
  | untagged c => exact UntaggedCodec.Measures.blameless measures v

theorem fills {v : Value} {n : Nat} (measured : c.encodedLength v = .ok n) :
    Fills (c.encode v) n (v.Apart ∧ regular v) (sure v) := by
  cases c with
  | tagged c =>
    obtain ⟨length, header, content, written, rfl⟩ := TaggedCodec.encodedLength_eq_ok measured
    refine Fills.seen And.left (Fills.after content (Fills.element written ?_))
    exact Fills.seen And.left (TaggedCodec.Measures.fills measures content)
  | untagged c => exact UntaggedCodec.Measures.fills measures measured

/-- No element is written without octets. -/
theorem solid : Fills (c.encode .undefined) 1 False False := by
  cases c with
  | tagged c =>
    refine Fills.seen False.elim ?_
    refine fills_bind (TaggedCodec.Measures.blameless measures .undefined) (fun never => never.elim) ?_
    intro length content
    cases written : Header.encode c.tag length with
    | error fault => exact fills_header_of_error written
    | ok header =>
      refine (Fills.element written (Fills.seen False.elim
        ((TaggedCodec.Measures.fills measures content).mono False.elim False.elim))).beyond ?_ id
      obtain ⟨identifier, measure, first, _, rfl⟩ := Header.encode_eq_ok written
      have some : 0 < identifier.length := by
        refine List.length_pos_iff.mpr fun none => ?_
        subst none
        exact Tag.encode_ne_nil c.tag first
      rw [List.length_append]
      omega
  | untagged c => exact UntaggedCodec.Measures.solid measures

theorem toOctets_eq_ok {v : Value} {octets : Octets} :
    c.toOctets v = .ok octets ↔
      c.encodedLength v = .ok octets.length ∧ Emits False (c.encode v) octets.length octets (.ok ()) := by
  constructor
  · intro written
    obtain ⟨n, measured, written⟩ := Except.bind_eq_ok.mp written
    obtain ⟨rfl, emits⟩ := (measures.fills measured).toOctets_eq_ok.mp written
    exact ⟨measured, emits⟩
  · intro parts
    obtain ⟨measured, emits⟩ := parts
    exact Except.bind_eq_ok.mpr ⟨_, measured, (measures.fills measured).toOctets_eq_ok.mpr ⟨rfl, emits⟩⟩

theorem blameless_toOctets (v : Value) : Fault.Blameless (c.toOctets v) := by
  intro fault failed
  cases measured : c.encodedLength v with
  | error fault' =>
    rw [Codec.toOctets, measured] at failed
    cases failed
    exact measures.blameless v _ measured
  | ok n =>
    rw [Codec.toOctets, measured] at failed
    exact (measures.fills measured).blameless_toOctets fault failed

theorem mono {regular' sure' : Value → Prop} (same : ∀ v, regular' v → regular v)
    (stronger : ∀ v, regular' v → sure' v → sure v) : c.Measures regular' sure' := by
  cases c with
  | tagged c =>
    exact ⟨TaggedCodec.Measures.blameless measures, fun measured => (TaggedCodec.Measures.fills measures measured).mono
      (And.imp_right (same _)) fun is => stronger _ is.2⟩
  | untagged c =>
    exact ⟨UntaggedCodec.Measures.blameless measures, fun measured => (UntaggedCodec.Measures.fills measures measured).mono
      (And.imp_right (same _)) fun is => stronger _ is.2, UntaggedCodec.Measures.solid measures⟩

end Codec.Measures

theorem Primitive.measures (p : Primitive) : p.codec.Measures Value.Plain p.Sure :=
  ⟨fun v => (p.rule_lawful.unplaced v).blameless, fun measured =>
    (p.rule_lawful.fills measured).mono (fun is => ⟨is.2, is.1⟩) fun _ => id⟩

theorem TaggedCodec.explicit_measures (name : String) (tag : Tag) {inner : Codec} {regular sure : Value → Prop}
    (measures : inner.Measures regular sure) : (explicit name tag inner).Measures regular sure :=
  ⟨measures.blameless, measures.fills⟩

theorem TaggedCodec.Measures.implicit {inner : TaggedCodec} {regular sure : Value → Prop}
    (measures : inner.Measures regular sure) (name : String) (tagClass number : Number) :
    (inner.implicit name tagClass number).Measures regular sure :=
  ⟨measures.blameless, measures.fills⟩

theorem TaggedCodec.refine_contentLength {inner : TaggedCodec} {condition : Condition} {v : Value} :
    (inner.refine condition).contentLength v =
      match condition v with
      | some problem => .error (.ofCause (inner.refusal problem))
      | none => inner.contentLength v := by
  simp only [refine]
  cases condition v <;> rfl

theorem TaggedCodec.Measures.refine {inner : TaggedCodec} {regular sure : Value → Prop}
    (measures : inner.Measures regular sure) (condition : Condition) :
    (inner.refine condition).Measures regular sure where
  blameless := by
    intro v
    rw [refine_contentLength]
    split
    · exact Fault.blameless_error _
    · exact measures.blameless v
  fills := by
    intro v n measured
    rw [refine_contentLength] at measured
    split at measured
    · cases measured
    · exact measures.fills measured

/-- Parts that have been measured together fill their room one after the other. -/
theorem Codec.fills_forM {α : Type} {measure : α → Except Fault Nat} {write : α → Encoding Unit} {parts : List α}
    {n : Nat} {regular sure : Prop} (fills : ∀ part ∈ parts, ∀ n, measure part = .ok n → Fills (write part) n regular sure)
    (measured : sumLengths measure parts = .ok n) : Fills (parts.forM write) n regular sure := by
  induction parts generalizing n with
  | nil =>
    cases measured
    exact fills_pure
  | cons part rest ih =>
    obtain ⟨length, first, measured⟩ := Except.bind_eq_ok.mp measured
    obtain ⟨more, others, same⟩ := Except.bind_eq_ok.mp measured
    cases same
    refine (fills part List.mem_cons_self length first).bind ?_
    exact ih (fun part later => fills part (List.mem_cons_of_mem _ later)) others

theorem Codec.measured_of_sumLengths {α : Type} {measure : α → Except Fault Nat} {parts : List α} {n : Nat}
    (measured : sumLengths measure parts = .ok n) : ∀ part ∈ parts, ∃ k, measure part = .ok k := by
  induction parts generalizing n with
  | nil =>
    intro part member
    cases member
  | cons part rest ih =>
    obtain ⟨length, first, measured⟩ := Except.bind_eq_ok.mp measured
    obtain ⟨more, others, _⟩ := Except.bind_eq_ok.mp measured
    intro part' member
    rcases List.mem_cons.mp member with rfl | later
    · exact ⟨length, first⟩
    · exact ih others part' later

theorem Codec.blameless_sumLengths {α : Type} {measure : α → Except Fault Nat} {parts : List α}
    (blameless : ∀ part ∈ parts, Fault.Blameless (measure part)) : Fault.Blameless (sumLengths measure parts) := by
  induction parts with
  | nil => exact Fault.only_ok 0
  | cons part rest ih =>
    refine (blameless part List.mem_cons_self).bind ?_
    intro length
    refine (ih fun part later => blameless part (List.mem_cons_of_mem _ later)).bind ?_
    intro more
    exact Fault.only_ok _

namespace Collection

variable {name : String} {item : Codec} {v : Value} {places : List (Option Value)}

/-- A value with places for elements is a list without holes, or one that has a hole. -/
theorem places_eq_ok (are : Collection.places name v = .ok places) :
    (∃ items, v = .list items ∧ places = items.map some) ∨ (¬ v.Plain ∧ 0 < places.countP Option.isNone) := by
  cases v with
  | list items =>
    cases are
    exact Or.inl ⟨items, rfl, rfl⟩
  | sparse before after =>
    cases are
    refine Or.inr ⟨id, List.countP_pos_iff.mpr ⟨none, List.mem_append_right _ List.mem_cons_self, rfl⟩⟩
  | _ => cases are

theorem count?_of_places (are : Collection.places name v = .ok places) : count? v = some places.length := by
  cases v with
  | list items =>
    cases are
    rw [count?, List.length_map]
  | sparse before after =>
    cases are
    rw [count?, List.length_append, List.length_cons, List.length_map, List.length_map]
  | _ => cases are

theorem blameless_places (name : String) (v : Value) : Fault.Blameless (Collection.places name v) := by
  cases v with
  | list items => exact Fault.only_ok _
  | sparse before after => exact Fault.only_ok _
  | _ => exact Fault.blameless_error _

theorem filterMap_map_some (items : List Value) : (items.map some).filterMap id = items := by
  rw [List.filterMap_map]
  exact List.filterMap_some

theorem getD_map_some (items : List Value) : (items.map some).map (·.getD .undefined) = items := by
  rw [List.map_map]
  exact List.map_id items

theorem contentLength_eq_ok {bounds : SizeBounds} {n : Nat} (measured : contentLength name bounds item v = .ok n) :
    ∃ places, Collection.places name v = .ok places ∧ bounds.Admits places.length ∧
      Codec.sumLengths item.encodedLength (places.filterMap id) = .ok n := by
  cases are : Collection.places name v with
  | error fault =>
    simp only [contentLength, are, bind, Except.bind] at measured
    split at measured
    · split at measured <;> cases measured
    · cases measured
  | ok places =>
    simp only [contentLength, count?_of_places are] at measured
    by_cases admitted : bounds.Admits places.length
    · rw [if_neg fun wrong => wrong admitted, are] at measured
      exact ⟨places, rfl, admitted, measured⟩
    · rw [if_pos admitted] at measured
      cases measured

/-- A list without holes is measured by its items. -/
theorem contentLength_list (name : String) (bounds : SizeBounds) (item : Codec) (items : List Value) :
    contentLength name bounds item (.list items) =
      if bounds.Admits items.length then Codec.sumLengths item.encodedLength items
      else .error (.ofCause (bounds.cause name items.length)) := by
  rw [contentLength]
  simp only [count?, Collection.places]
  by_cases admitted : bounds.Admits items.length
  · rw [if_neg fun wrong => wrong admitted, if_pos admitted]
    simp only [bind, Except.bind, filterMap_map_some]
  · rw [if_pos admitted, if_neg admitted]
    rfl

theorem contentLength_of_admits {bounds : SizeBounds} {items : List Value} (admitted : bounds.Admits items.length) :
    contentLength name bounds item (.list items) = Codec.sumLengths item.encodedLength items := by
  rw [contentLength_list, if_pos admitted]

theorem contentLength_list_eq_ok {bounds : SizeBounds} {items : List Value} {n : Nat}
    (measured : contentLength name bounds item (.list items) = .ok n) :
    bounds.Admits items.length ∧ Codec.sumLengths item.encodedLength items = .ok n := by
  rw [contentLength_list] at measured
  by_cases admitted : bounds.Admits items.length
  · rw [if_pos admitted] at measured
    exact ⟨admitted, measured⟩
  · rw [if_neg admitted] at measured
    cases measured

theorem writeInOrder_list (name : String) (item : Codec) (items : List Value) :
    writeInOrder name item (.list items) = items.forM item.encode := by
  have writes : writeInOrder name item (.list items) = ((items.map some).map (·.getD .undefined)).forM item.encode := rfl
  rw [writes, getD_map_some]

theorem blameless_contentLength {bounds : SizeBounds} (blameless : ∀ v, Fault.Blameless (item.encodedLength v))
    (v : Value) : Fault.Blameless (contentLength name bounds item v) := by
  have sized : Fault.Blameless (do
      let places ← Collection.places name v
      Codec.sumLengths item.encodedLength (places.filterMap id)) :=
    (blameless_places name v).bind fun places => Codec.blameless_sumLengths fun v _ => blameless v
  rw [contentLength]
  cases count? v with
  | none => exact sized
  | some count => exact Fault.Only.ite (Fault.blameless_error _) sized

theorem emits_forM_octets (strings : List Octets) :
    Emits False (strings.forM Encoding.octets) strings.flatten.length strings.flatten (.ok ()) := by
  induction strings with
  | nil => exact emits_pure ()
  | cons string rest ih =>
    rw [List.flatten_cons, List.length_append]
    exact (emits_octets string).bind ih

theorem fills_forM_octets (strings : List Octets) {regular sure : Prop} :
    Fills (strings.forM Encoding.octets) strings.flatten.length regular sure := by
  induction strings with
  | nil => exact fills_pure
  | cons string rest ih =>
    rw [List.flatten_cons, List.length_append]
    exact (fills_octets string).bind ih

theorem length_flatten_sort (strings : List Octets) : (Octets.sort strings).flatten.length = strings.flatten.length :=
  (List.mergeSort_perm strings _).flatten.length_eq

section

variable {regular sure : Value → Prop} (measures : item.Measures regular sure)

include measures

/-- Elements that can be written are as long together as has been measured. -/
theorem length_flatten_of_mapM {items : List Value} {encoded : List Octets} {n : Nat}
    (measured : Codec.sumLengths item.encodedLength items = .ok n)
    (written : items.mapM item.toOctets = .ok encoded) : encoded.flatten.length = n := by
  rw [Except.mapM_eq_ok] at written
  induction written generalizing n with
  | nil =>
    cases measured
    rfl
  | cons first _ ih =>
    obtain ⟨length, head, measured⟩ := Except.bind_eq_ok.mp measured
    obtain ⟨more, others, same⟩ := Except.bind_eq_ok.mp measured
    cases same
    have same := (measures.toOctets_eq_ok.mp first).1
    rw [head] at same
    cases same
    rw [List.flatten_cons, List.length_append, ih others]

/-- Every place of a list is written. What is written for a hole has not been measured. -/
theorem fills_places {n : Nat} {plain safe : Prop}
    (measured : Codec.sumLengths item.encodedLength (places.filterMap id) = .ok n)
    (whole : plain → places.countP Option.isNone = 0) (apart : plain → ∀ u, some u ∈ places → u.Apart ∧ regular u)
    (sures : plain → safe → ∀ u, some u ∈ places → sure u) :
    Fills ((places.map (·.getD .undefined)).forM item.encode) (n + places.countP Option.isNone) plain safe := by
  induction places generalizing n with
  | nil =>
    cases measured
    exact fills_pure
  | cons place rest ih =>
    cases place with
    | none =>
      have never : ¬ plain := fun is => by
        have none := whole is
        rw [List.countP_cons_of_pos rfl] at none
        exact Nat.succ_ne_zero _ none
      have others := ih measured (fun is => absurd is never) (fun is => absurd is never) fun is => absurd is never
      rw [List.countP_cons_of_pos rfl, ← Nat.add_assoc, Nat.add_comm _ 1]
      exact (measures.solid.mono never fun is => absurd is never).bind others
    | some u =>
      have listed : (some u :: rest).filterMap id = u :: rest.filterMap id := rfl
      rw [listed] at measured
      obtain ⟨length, first, measured⟩ := Except.bind_eq_ok.mp measured
      obtain ⟨more, others, same⟩ := Except.bind_eq_ok.mp measured
      cases same
      have still : (some u :: rest).countP Option.isNone = rest.countP Option.isNone :=
        List.countP_cons_of_neg Bool.false_ne_true
      rw [still, Nat.add_assoc]
      refine ((measures.fills first).mono (fun is => apart is u List.mem_cons_self) fun is holds =>
        sures is holds u List.mem_cons_self).bind ?_
      exact ih others (fun is => still ▸ whole is) (fun is u later => apart is u (List.mem_cons_of_mem _ later))
        fun is holds u later => sures is holds u (List.mem_cons_of_mem _ later)

/-- A list with a hole takes more octets than have been measured. -/
theorem list_of_yields_inOrder {bounds : SizeBounds} {octets : Octets}
    (yields : Yields (contentLength name bounds item v) (writeInOrder name item v) octets) : ∃ items, v = .list items := by
  obtain ⟨places, are, _, measured⟩ := contentLength_eq_ok yields.measured
  rcases places_eq_ok are with ⟨items, rfl, _⟩ | ⟨_, holes⟩
  · exact ⟨items, rfl⟩
  · have fills : Fills (writeInOrder name item v) (octets.length + places.countP Option.isNone) False False :=
      Fills.after are (fills_places measures measured False.elim False.elim False.elim)
    have run := yields.emits.run (.ofSize octets.length) nofun (by rw [Encoder.remaining_ofSize])
    obtain ⟨octets', least, fits, _⟩ := fills.reaches rfl run
    rw [Encoder.remaining_ofSize] at fits
    omega

end

theorem writeSorted_list (name : String) (item : Codec) (items : List Value) :
    writeSorted name item (.list items) =
      (liftM (items.mapM item.toOctets) >>= fun encoded => (Octets.sort encoded).forM Encoding.octets : Encoding Unit) := by
  have none : (items.map some).any (·.isNone) = false := by simp
  have alone : ∀ strings : List Octets,
      (strings.forM Encoding.octets >>= fun _ => pure () : Encoding Unit) = strings.forM Encoding.octets :=
    fun strings => bind_pure _
  rw [writeSorted]
  refine Eq.trans (b := (liftM ((items.map some).filterMap id |>.mapM item.toOctets) >>= fun encoded =>
    (Octets.sort encoded).forM Encoding.octets >>= fun _ =>
      if (items.map some).any (·.isNone) then throw (.ofCause (.unsuitable name)) else pure () : Encoding Unit)) rfl ?_
  simp only [filterMap_map_some, none, Bool.false_eq_true, if_false, alone]

/-- There is nothing to write for a hole among sorted elements. -/
theorem list_of_emits_sorted {room : Nat} {octets : Octets}
    (emits : Emits False (writeSorted name item v) room octets (.ok ())) : ∃ items, v = .list items := by
  obtain ⟨places, are, emits⟩ := emits.of_after
  obtain ⟨encoded, _, emits⟩ := emits.of_after
  rcases places_eq_ok are with ⟨items, rfl, _⟩ | ⟨_, holes⟩
  · exact ⟨items, rfl⟩
  · have hole : places.any (·.isNone) = true := by
      obtain ⟨place, within, is⟩ := List.countP_pos_iff.mp holes
      exact List.any_eq_true.mpr ⟨place, within, is⟩
    rw [if_pos hole] at emits
    obtain ⟨_, wrong⟩ := emits.unique ((emits_forM_octets (Octets.sort encoded)).bind (emits_throw _))
    cases wrong

end Collection

theorem TaggedCodec.sequenceOf_measures (name : String) (tag : Tag) (bounds : SizeBounds) {item : Codec}
    {regular sure : Value → Prop} (measures : item.Measures regular sure) :
    (sequenceOf name tag bounds item).Measures (fun v => v.Plain ∧ ∀ items, v = .list items → ∀ u ∈ items, regular u)
      fun v => ∀ items, v = .list items → ∀ u ∈ items, sure u where
  blameless := Collection.blameless_contentLength measures.blameless
  fills := by
    intro v n measured
    obtain ⟨places, are, _, measured⟩ := Collection.contentLength_eq_ok measured
    refine Fills.after are ?_
    rcases Collection.places_eq_ok are with ⟨items, rfl, rfl⟩ | ⟨exotic, holes⟩
    · have none : (items.map some).countP Option.isNone = 0 := by
        rw [List.countP_eq_zero]
        intro place within is
        obtain ⟨u, _, rfl⟩ := List.mem_map.mp within
        cases is
      have member : ∀ {u}, some u ∈ items.map some → u ∈ items :=
        (List.mem_map_of_injective (Option.some_injective Value)).mp
      rw [← Nat.add_zero n, ← none]
      refine Collection.fills_places measures measured (fun _ => none) ?_ ?_
      · exact fun is u within => ⟨is.1.item rfl u (member within), is.2.2 items rfl u (member within)⟩
      · exact fun _ all u within => all items rfl u (member within)
    · exact (Collection.fills_places measures measured False.elim False.elim False.elim).beyond
        (Nat.le_add_right _ _) fun is => exotic is.2.1

theorem TaggedCodec.setOf_measures (name : String) (tag : Tag) (bounds : SizeBounds) {item : Codec}
    {regular sure : Value → Prop} (measures : item.Measures regular sure) :
    (setOf name tag bounds item).Measures (fun v => v.Plain ∧ ∀ items, v = .list items → ∀ u ∈ items, regular u)
      fun v => ∀ items, v = .list items → ∀ u ∈ items, sure u where
  blameless := Collection.blameless_contentLength measures.blameless
  fills := by
    intro v n measured
    obtain ⟨places, are, _, measured⟩ := Collection.contentLength_eq_ok measured
    refine Fills.after are ?_
    apply fills_bind (Fault.Only.mapM fun u _ => measures.blameless_toOctets u)
    · intro is all
      refine Except.exists_mapM ?_
      intro u member
      obtain ⟨items, rfl, rfl⟩ | ⟨exotic, _⟩ := Collection.places_eq_ok are
      · rw [Collection.filterMap_map_some] at member measured
        obtain ⟨k, part⟩ := Codec.measured_of_sumLengths measured u member
        obtain ⟨octets, outcome, emits, full, safe⟩ :=
          (measures.fills part).settles ⟨is.1.item rfl u member, is.2.2 items rfl u member⟩
        cases safe (all items rfl u member)
        cases full rfl
        exact ⟨octets, measures.toOctets_eq_ok.mpr ⟨part, emits.own⟩⟩
      · exact absurd is.2.1 exotic
    · intro encoded written
      have length := Collection.length_flatten_of_mapM measures measured written
      rw [← Collection.length_flatten_sort] at length
      rw [← length]
      rw [← Nat.add_zero (Octets.sort encoded).flatten.length]
      refine (Collection.fills_forM_octets (Octets.sort encoded)).bind ?_
      by_cases hole : places.any (·.isNone) = true
      · rw [if_pos hole]
        refine fills_throw _ fun is _ => ?_
        obtain ⟨items, rfl, rfl⟩ | ⟨exotic, _⟩ := Collection.places_eq_ok are
        · simp at hole
        · exact exotic is.2.1
      · rw [if_neg hole]
        exact fills_pure

namespace Member

variable {container : String} {record : Record} {members : List Member} {chosen : List (Codec × Value)}

/-- What is selected for writing are members of the record with the codecs of their fields. -/
theorem mem_of_select (selected : select container record members = .ok chosen) :
    ∀ part ∈ chosen, ∃ m ∈ members, part.1 = m.codec ∧ record.member? m.name = some part.2 := by
  induction members generalizing chosen with
  | nil =>
    cases selected
    intro part member
    cases member
  | cons m rest ih =>
    have later : ∀ {chosen'}, select container record rest = .ok chosen' → ∀ part ∈ chosen',
        ∃ m' ∈ m :: rest, part.1 = m'.codec ∧ record.member? m'.name = some part.2 := by
      intro chosen' selected' part member
      obtain ⟨m', within, same⟩ := ih selected' part member
      exact ⟨m', List.mem_cons_of_mem _ within, same⟩
    rcases select_cons_eq_ok selected with ⟨others, _⟩ | ⟨v, more, entry, _, others, rfl⟩
    · exact later others
    · intro part member
      rcases List.mem_cons.mp member with rfl | member
      · exact ⟨m, List.mem_cons_self, rfl, entry⟩
      · exact later others part member

theorem blameless_select (blameless : ∀ m ∈ members, ∀ v, Fault.Blameless (m.codec.toOctets v)) :
    Fault.Blameless (select container record members) := by
  induction members with
  | nil => exact Fault.only_ok []
  | cons m rest ih =>
    have others := ih fun m' later => blameless m' (List.mem_cons_of_mem _ later)
    rw [select]
    cases record.member? m.name with
    | none => exact others.ite (Fault.blameless_error _)
    | some v =>
      have omitted : Fault.Blameless (m.isDefault v) := by
        unfold isDefault
        split
        · exact Fault.only_ok false
        · exact (blameless m List.mem_cons_self v).bind fun octets => Fault.only_ok _
      refine omitted.bind ?_
      intro equal
      exact others.ite (others.bind fun more => Fault.only_ok _)

theorem blameless_toRecord (v : Value) : Fault.Blameless (v.toRecord container) := by
  cases v with
  | inherited x => cases x <;> first | exact Fault.only_ok _ | exact Fault.blameless_error _
  | _ => first | exact Fault.only_ok _ | exact Fault.blameless_error _

theorem blameless_contentLength {regular sure : Member → Value → Prop}
    (measures : ∀ m ∈ members, m.codec.Measures (regular m) (sure m))
    (v : Value) : Fault.Blameless (contentLength container members v) := by
  refine (blameless_toRecord v).bind fun record => ?_
  intro fault failed
  cases selected : select container record members with
  | error fault' =>
    rw [selected] at failed
    cases failed
    exact blameless_select (fun m member v => (measures m member).blameless_toOctets v) _ selected
  | ok chosen =>
    rw [selected] at failed
    refine Codec.blameless_sumLengths ?_ fault failed
    intro part member
    obtain ⟨m, within, same, _⟩ := mem_of_select selected part member
    rw [same]
    exact (measures m within).blameless part.2

theorem fills_content {regular sure : Member → Value → Prop}
    (measures : ∀ m ∈ members, m.codec.Measures (regular m) (sure m)) {v : Value} {n : Nat}
    (measured : contentLength container members v = .ok n) :
    Fills (writeContent container members v) n
      (v.Apart ∧ ∀ record, v.toRecord container = .ok record → ∀ m ∈ members, ∀ u, record.member? m.name = some u →
        regular m u)
      (∀ record, v.toRecord container = .ok record → ∀ m ∈ members, ∀ u, record.member? m.name = some u →
        sure m u) := by
  obtain ⟨record, is, measured⟩ := Except.bind_eq_ok.mp measured
  obtain ⟨chosen, selected, measured⟩ := Except.bind_eq_ok.mp measured
  refine Fills.after is (Fills.after selected (Codec.fills_forM ?_ measured))
  intro part member length first
  obtain ⟨m, within, same, entry⟩ := mem_of_select selected part member
  rw [same] at first ⊢
  refine ((measures m within).fills first).mono ?_ fun _ all => all record is m within part.2 entry
  exact fun regular => ⟨regular.1.member is entry, regular.2 record is m within part.2 entry⟩

end Member

theorem Member.mem_ofField {fields : List (Field Schema)} {m : Member}
    (member : m ∈ (Schema.fieldCodecs fields).map ofField) :
    ∃ f ∈ fields, m = ofField (f.map Schema.codec) := by
  rw [Schema.fieldCodecs_eq_map, List.map_map] at member
  obtain ⟨f, within, rfl⟩ := List.mem_map.mp member
  exact ⟨f, within, rfl⟩

theorem Member.canonical_perm (members : List Member) : (canonical members).Perm members :=
  List.mergeSort_perm members _

theorem Member.mem_canonical {members : List Member} {m : Member} (member : m ∈ canonical members) : m ∈ members :=
  (canonical_perm members).mem_iff.mp member

theorem UntaggedCodec.asAny_eq_ok {v : Value} {a : Any} (is : asAny v = .ok a) : v = .any a := by
  cases v <;> cases is
  rfl

theorem UntaggedCodec.blameless_asAny (v : Value) : Fault.Blameless (asAny v) := by
  cases v with
  | any a => exact Fault.only_ok a
  | _ => exact Fault.blameless_error _

theorem UntaggedCodec.any_measures : any.Measures Value.Plain Value.Backed where
  blameless v := (blameless_asAny v).bind fun a => Fault.only_ok _
  fills := by
    intro v n measured
    obtain ⟨a, is, same⟩ := Except.bind_eq_ok.mp measured
    cases same
    cases asAny_eq_ok is
    exact Fills.after is (fills_window (fun regular => regular.1.any rfl) fun _ backed => backed)
  solid := fills_error False.elim

theorem UntaggedCodec.timeType_eq_ok {v : Value} {p : Primitive} (type : timeType v = .ok p) :
    p = .utcTime ∨ p = .generalizedTime := by
  obtain ⟨t, _, same⟩ := Except.bind_eq_ok.mp type
  obtain ⟨parts, _, same⟩ := Except.bind_eq_ok.mp same
  split at same <;> cases same
  · exact Or.inl rfl
  · exact Or.inr rfl

theorem UntaggedCodec.blameless_timeType (v : Value) : Fault.Blameless (timeType v) :=
  Fault.Only.bind (ContentRule.unplaced_asTime _ v).blameless fun t =>
    Fault.Only.bind (ContentRule.unplaced_dateTime t).blameless fun _ => Fault.only_ok _

theorem UntaggedCodec.time_measures : time.Measures Value.Plain Value.Backed where
  blameless v := (blameless_timeType v).bind fun p =>
    Codec.Measures.blameless (c := .tagged p.codec) p.measures v
  fills := by
    intro v n measured
    obtain ⟨p, type, measured⟩ := Except.bind_eq_ok.mp measured
    have fills := Codec.Measures.fills (c := .tagged p.codec) p.measures measured
    refine Fills.after type (fills.mono id fun _ backed => ⟨backed, ?_⟩)
    rcases timeType_eq_ok type with rfl | rfl <;> intro wrong <;> cases wrong
  solid := fills_error False.elim

namespace Schema

/-- A value all of whose windows are backed and all of whose bit strings are well formed. -/
structure Writable (T : Schema) (v : Value) : Prop where
  backed : ∀ S u, T.Component v S u → u.Backed
  passes : ∀ b, T.Component v (.primitive .bitString) (.bits b) → b.Passes

theorem Writable.of_component {T S : Schema} {v u : Value} (writable : T.Writable v)
    (within : ∀ R w, S.Component u R w → T.Component v R w) : S.Writable u :=
  ⟨fun R w part => writable.backed R w (within R w part),
    fun b part => writable.passes b (within _ _ part)⟩

/-- A value that the type is for: every component is plain, and no member is found that was not given. -/
structure Suits (T : Schema) (v : Value) : Prop where
  given : T.Given v
  plain : ∀ S u, T.Component v S u → u.Plain

theorem Suits.of_component {T S : Schema} {v u : Value} (suits : T.Suits v)
    (within : ∀ R w, S.Component u R w → T.Component v R w) : S.Suits u :=
  ⟨suits.given.of_component within, fun R w part => suits.plain R w (within R w part)⟩

/-- Constructed types measure what they write if their fields do. -/
theorem measures_of_fields {container : String} {fields : List (Field Schema)} {members : List Member} {T : Schema}
    (each : ∀ f ∈ fields, f.type.codec.Measures f.type.Suits f.type.Writable)
    (made : ∀ m ∈ members, ∃ f ∈ fields, m = Member.ofField (f.map codec))
    (parts : T.fields = fields)
    (within : ∀ {v entries f u R w}, v.toRecord container = .ok entries → f ∈ fields →
      entries.own? f.name = some u → Component f.type u R w → Component T v R w) :
    (∀ v, Fault.Blameless (Member.contentLength container members v)) ∧
      ∀ {v n}, Member.contentLength container members v = .ok n →
        Fills (Member.writeContent container members v) n (v.Apart ∧ T.Suits v) (T.Writable v) := by
  have measures : ∀ m ∈ members, m.codec.Measures
      (fun u => ∀ f ∈ fields, m = Member.ofField (f.map codec) → f.type.Suits u)
      fun u => ∀ f ∈ fields, m = Member.ofField (f.map codec) → f.type.Writable u := by
    intro m member
    obtain ⟨f, field, rfl⟩ := made m member
    exact (each f field).mono (fun u suits => suits f field rfl) fun u _ sure => sure f field rfl
  refine ⟨Member.blameless_contentLength measures, fun {v n} measured => ?_⟩
  refine (Member.fills_content measures measured).mono ?_ ?_
  · intro regular
    refine ⟨regular.1, fun entries is m _ u found f field same => ?_⟩
    subst same
    exact regular.2.of_component fun R w part =>
      within is field (regular.2.given.own? is (parts ▸ field) found) part
  · intro regular writable entries is m _ u found f field same
    subst same
    exact writable.of_component fun R w part =>
      within is field (regular.2.given.own? is (parts ▸ field) found) part

/-- Every declared type measures what it writes. -/
theorem Declared.measures {T : Schema} (declared : T.Declared) : T.codec.Measures T.Suits T.Writable := by
  induction declared using Declared.induct with
  | primitive p =>
    refine Codec.Measures.mono (c := .tagged p.codec) p.measures (fun v suits => suits.plain _ v (.self _ v)) ?_
    intro v _ writable
    refine ⟨writable.backed _ v (.self _ v), ?_⟩
    intro same b equal
    subst same
    subst equal
    exact writable.passes b (.self _ _)
  | time =>
    refine Codec.Measures.mono (c := .untagged .time) UntaggedCodec.time_measures ?_ ?_
    · exact fun v suits => suits.plain _ v (.self _ v)
    · exact fun v _ writable => writable.backed _ v (.self _ v)
  | any =>
    refine Codec.Measures.mono (c := .untagged .any) UntaggedCodec.any_measures ?_ ?_
    · exact fun v suits => suits.plain _ v (.self _ v)
    · exact fun v _ writable => writable.backed _ v (.self _ v)
  | sequence name tag types declared _ _ ih =>
    obtain ⟨blameless, fills⟩ := measures_of_fields ih (fun m => Member.mem_ofField) rfl Component.sequence
    exact ⟨blameless, fills⟩
  | set name tag types declared _ _ _ ih =>
    obtain ⟨blameless, fills⟩ := measures_of_fields ih
      (fun m member => Member.mem_ofField (Member.mem_canonical member)) rfl Component.set
    exact ⟨blameless, fills⟩
  | sequenceOf name tag bounds type declared ih =>
    refine Codec.Measures.mono (c := .tagged _) (TaggedCodec.sequenceOf_measures _ _ _ ih) ?_ ?_
    · intro v suits
      refine ⟨suits.plain _ v (.self _ v), fun items same u member => ?_⟩
      subst same
      exact suits.of_component fun R w part => .sequenceOf rfl (List.mem_map_of_mem member) part
    · intro _ _ writable items same u member
      subst same
      exact writable.of_component fun R w part => .sequenceOf rfl (List.mem_map_of_mem member) part
  | setOf name tag bounds type declared ih =>
    refine Codec.Measures.mono (c := .tagged _) (TaggedCodec.setOf_measures _ _ _ ih) ?_ ?_
    · intro v suits
      refine ⟨suits.plain _ v (.self _ v), fun items same u member => ?_⟩
      subst same
      exact suits.of_component fun R w part => .setOf rfl (List.mem_map_of_mem member) part
    · intro _ _ writable items same u member
      subst same
      exact writable.of_component fun R w part => .setOf rfl (List.mem_map_of_mem member) part
  | explicit name tag type declared ih =>
    refine Codec.Measures.mono (c := .tagged _) (TaggedCodec.explicit_measures _ _ ih) ?_ ?_
    · exact fun v suits => suits.of_component fun R w part => .explicit part
    · exact fun v _ writable => writable.of_component fun R w part => .explicit part
  | implicit name tagClass number type declared fixed ih =>
    rw [codec, fixed]
    rw [fixed] at ih
    refine Codec.Measures.mono (c := .tagged _) (TaggedCodec.Measures.implicit ih _ _ _) ?_ ?_
    · exact fun v suits => suits.of_component fun R w part => .implicit part
    · exact fun v _ writable => writable.of_component fun R w part => .implicit part
  | refine condition type declared fixed ih =>
    rw [codec, fixed]
    rw [fixed] at ih
    refine Codec.Measures.mono (c := .tagged _) (TaggedCodec.Measures.refine ih condition) ?_ ?_
    · exact fun v suits => suits.of_component fun R w part => .refine part
    · exact fun v _ writable => writable.of_component fun R w part => .refine part

end Schema

namespace Codec.Measures

variable {c : Codec} {regular sure : Value → Prop} (measures : c.Measures regular sure)

include measures

/-- A document is the element of its value, in a buffer that is filled. -/
theorem build_eq (v : Value) : Document.build c v = c.toOctets v := by
  cases measured : c.encodedLength v with
  | error fault =>
    rw [Document.build, Codec.toOctets, measured]
    rfl
  | ok n =>
    have whole : Document.build c v = (Document.write c v (.ofSize n) n).1 := by
      rw [Document.build, measured]
      rfl
    have own : c.toOctets v = (c.encode v).toOctets n := by
      rw [Codec.toOctets, measured]
      rfl
    rw [whole, own, Document.write, Encoding.toOctets]
    cases run : (c.encode v).run (.ofSize n) with
    | error fault e => rfl
    | ok done e =>
      obtain ⟨octets, least, fits, emits⟩ := (measures.fills measured).reaches rfl run
      cases run.symm.trans (emits.run (.ofSize n) Bool.false_ne_true fits)
      rw [Encoder.remaining_ofSize] at fits
      have position : ((Encoder.ofSize n).put octets).position = n := by
        rw [← Nat.le_antisymm fits least]
        exact Nat.zero_add _
      simp only [if_pos position]

/-- A lent buffer with room gets what the value gets in a buffer of its own, whatever the buffer is: the document, or so
much of it as is written before a fault. -/
theorem write_eq {v : Value} {n : Nat} (measured : c.encodedLength v = .ok n) (apart : v.Apart) (is : regular v)
    {buffer : Octets} (room : n ≤ buffer.length) :
    ∃ octets, octets.length ≤ n ∧
      Document.write c v (.ofOutput buffer) n = (c.toOctets v, octets ++ buffer.drop octets.length) ∧
      ∀ document, c.toOctets v = .ok document → octets = document ∧ document.length = n := by
  obtain ⟨octets, outcome, emits, full, _⟩ := (measures.fills measured).settles ⟨apart, is⟩
  have own : c.toOctets v = outcome.map fun _ => octets := by
    rw [Codec.toOctets, measured]
    exact emits.toOctets (Nat.le_refl n)
  have output : ((Encoder.ofOutput buffer).put octets).output = octets ++ buffer.drop octets.length := by
    rw [Encoder.put, Octets.overwrite, Encoder.ofOutput, List.take_zero, List.nil_append, Nat.zero_add]
  refine ⟨octets, emits.fits, ?_, ?_⟩
  · rw [own, Document.write, emits.run _ (fun _ => trivial) (by rwa [Encoder.remaining_ofOutput])]
    cases outcome with
    | error fault => exact congrArg _ output
    | ok done =>
      have position : ((Encoder.ofOutput buffer).put octets).position = n := by
        rw [← full rfl]
        exact Nat.zero_add _
      simp only [ending, if_pos position, Encoder.written_put_ofOutput, output]
      rfl
  · intro document written
    rw [own] at written
    cases outcome with
    | error fault => cases written
    | ok done =>
      cases written
      exact ⟨rfl, full rfl⟩

theorem blameless_buildInto {v : Value} (apart : v.Apart) (is : regular v) (buffer : Octets) :
    Fault.Blameless (Document.buildInto c v buffer).1 := by
  unfold Document.buildInto
  cases measured : c.encodedLength v with
  | error fault =>
    obtain ⟨cause, offset, rfl⟩ := measures.blameless v fault measured
    exact Fault.only_error ⟨cause, offset, rfl⟩
  | ok n =>
    by_cases small : buffer.length < n
    · simp only [if_pos small]
      exact Fault.blameless_error _
    · simp only [if_neg small]
      obtain ⟨octets, _, written, _⟩ := measures.write_eq measured apart is (Nat.not_lt.mp small)
      rw [written]
      exact measures.blameless_toOctets v

end Codec.Measures

/-- What cannot be measured, as it is by then, or does not fit, is not written at all. -/
structure Codec.Guarded (c : Codec) (backed : Value → Prop) : Prop where
  refuses : ∀ {v fault} (e : Encoder), c.encodedLength (e.sees v) = .error fault → (c.encode v).run e = .error fault e
  scarce : ∀ {v n} {e : Encoder}, backed (e.sees v) → c.encodedLength (e.sees v) = .ok n → e.remaining < n →
    (c.encode v).run e = .error (.coding (.noRoom n e.remaining) e.position) e

theorem TaggedCodec.run_encode (c : TaggedCodec) (v : Value) (e : Encoder) :
    (c.encode v).run e =
      (liftM (c.contentLength (e.sees v)) >>= fun length => Encoding.header c.tag length >>= fun _ =>
        current v >>= c.writeContent : Encoding Unit).run e := rfl

theorem TaggedCodec.guarded (c : TaggedCodec) : (Codec.tagged c).Guarded fun _ => True where
  refuses := by
    intro v fault e failed
    rw [Codec.encode, c.run_encode, EStateM.run_bind, Fault.run_liftM]
    cases content : c.contentLength (e.sees v) with
    | error fault' =>
      simp only [Codec.encodedLength, encodedLength, content] at failed
      cases failed
      rfl
    | ok length =>
      simp only [Codec.encodedLength, encodedLength, content] at failed
      cases sized : Header.encodedLength c.tag length with
      | error fault' =>
        simp only [bind, Except.bind, sized] at failed
        cases failed
        simp only [EStateM.run_bind, Encoding.header, Fault.run_liftM, sized]
      | ok size =>
        simp only [bind, Except.bind, sized] at failed
        cases failed
  scarce := by
    intro v n e _ measured room
    obtain ⟨length, header, content, written, rfl⟩ := encodedLength_eq_ok measured
    rw [Codec.encode, c.run_encode, EStateM.run_bind, Fault.run_liftM, content]
    simp only []
    rw [EStateM.run_bind, run_header_of_lt written room]

theorem UntaggedCodec.asAny_sees (e : Encoder) (v : Value) :
    asAny (e.sees v) = (asAny v).map fun a => ⟨a.tag, e.refreshed a.value, e.refreshed a.encoded⟩ := by
  cases v <;> rfl

theorem UntaggedCodec.any_guarded : (Codec.untagged any).Guarded Value.Backed where
  refuses := by
    intro v fault e failed
    simp only [Codec.encodedLength, any, asAny_sees] at failed
    cases is : asAny v with
    | error fault' =>
      rw [is] at failed
      cases failed
      simp only [Codec.encode, any, is, EStateM.run_bind, Fault.run_liftM]
    | ok a =>
      rw [is] at failed
      cases failed
  scarce := by
    intro v n e backed measured room
    simp only [Codec.encodedLength, any, asAny_sees] at measured
    cases is : asAny v with
    | error fault =>
      rw [is] at measured
      cases measured
    | ok a =>
      rw [is] at measured
      cases measured
      cases asAny_eq_ok is
      have shows := Slice.Backed.octets_eq (s := e.refreshed a.encoded) backed
      have length := (Slice.length_of_octets shows).2
      simp only [Codec.encode, any, is, EStateM.run_bind, Fault.run_liftM, run_window, shows]
      rw [run_octets_of_lt (by rw [length]; exact room), length]
      rfl

theorem UntaggedCodec.timeType_sees (e : Encoder) (v : Value) : timeType (e.sees v) = timeType v := by
  cases v <;> rfl

theorem UntaggedCodec.time_guarded : (Codec.untagged time).Guarded fun _ => True where
  refuses := by
    intro v fault e failed
    simp only [Codec.encodedLength, time, timeType_sees] at failed
    cases type : timeType v with
    | error fault' =>
      rw [type] at failed
      cases failed
      simp only [Codec.encode, time, type, EStateM.run_bind, Fault.run_liftM]
    | ok p =>
      rw [type] at failed
      have refused := p.codec.guarded.refuses e failed
      simp only [Codec.encode, time, type, EStateM.run_bind, Fault.run_liftM]
      exact refused
  scarce := by
    intro v n e _ measured room
    simp only [Codec.encodedLength, time, timeType_sees] at measured
    obtain ⟨p, type, measured⟩ := Except.bind_eq_ok.mp measured
    have refused := p.codec.guarded.scarce trivial measured room
    simp only [Codec.encode, time, type, EStateM.run_bind, Fault.run_liftM]
    exact refused

namespace Schema

theorem Declared.guarded {T : Schema} (declared : T.Declared) : T.codec.Guarded Value.Backed := by
  cases shape : T.codec with
  | tagged c => exact ⟨c.guarded.refuses, fun _ => c.guarded.scarce trivial⟩
  | untagged c =>
    rcases declared.untagged shape with rfl | rfl
    · cases shape
      exact ⟨UntaggedCodec.time_guarded.refuses, fun _ => UntaggedCodec.time_guarded.scarce trivial⟩
    · cases shape
      exact UntaggedCodec.any_guarded

/-- The contract of the two passes, for any value and any encoder. A value that cannot be measured, or does not
fit, is not written at all. One that fits takes just the octets that it takes in a document of its own, unless
one of its bit strings is ill formed, and in any case nothing changes outside the octets measured: this is so if
the type suits the value, and none of its windows looks into the buffer, where the header would overwrite what
they show. A document never turns out longer or shorter than it was measured, nor is there any other misuse, and
the same holds of a document in a lent buffer under those two conditions. -/
theorem Declared.encode_all_or_nothing {T : Schema} (declared : T.Declared) (v : Value) (e : Encoder)
    (backed : ∀ S u, T.Component (e.sees v) S u → u.Backed) :
    (∀ fault, T.codec.encodedLength (e.sees v) = .error fault → (T.codec.encode v).run e = .error fault e) ∧
    (∀ n, T.codec.encodedLength (e.sees v) = .ok n → e.remaining < n →
      (T.codec.encode v).run e = .error (.coding (.noRoom n e.remaining) e.position) e) ∧
    (∀ mistake, Document.build T.codec v ≠ .error (.misuse mistake)) ∧
    (T.Suits v → v.Apart →
      (∀ n, T.codec.encodedLength v = .ok n → n ≤ e.remaining →
        ((∀ b, T.Component v (.primitive .bitString) (.bits b) → b.Passes) →
          ∃ octets, Document.build T.codec v = .ok octets ∧ octets.length = n ∧
            (T.codec.encode v).run e =
              .ok () { e with output := e.output.overwrite e.position octets, position := e.position + n }) ∧
        ((T.codec.encode v).left e).output.length = e.output.length ∧
        ∀ i, i < e.position ∨ e.position + n ≤ i → ((T.codec.encode v).left e).output[i]? = e.output[i]?) ∧
      ∀ buffer mistake, (Document.buildInto T.codec v buffer).1 ≠ .error (.misuse mistake)) := by
  have measures := declared.measures
  refine ⟨fun fault failed => declared.guarded.refuses e failed, ?_, ?_, ?_⟩
  · exact fun n => declared.guarded.scarce (backed T _ (.self T _))
  · intro mistake wrong
    rw [measures.build_eq] at wrong
    obtain ⟨cause, offset, same⟩ := measures.blameless_toOctets v _ wrong
    cases same
  · intro suits apart
    refine ⟨?_, ?_⟩
    · intro n measured room
      obtain ⟨octets, outcome, emits, full, safe⟩ :=
        (measures.fills measured).settles ⟨apart, suits⟩
      have fits := emits.fits
      refine ⟨?_, ?_⟩
      · intro passes
        rw [apart.sees] at backed
        cases safe ⟨backed, passes⟩
        have length := full rfl
        have built : Document.build T.codec v = .ok octets := by
          rw [measures.build_eq, measures.toOctets_eq_ok, length]
          exact ⟨measured, emits.own⟩
        refine ⟨octets, built, length, ?_⟩
        rw [emits.run e (fun _ => trivial) room, ← length]
        rfl
      · rw [emits.left_eq (fun _ => trivial) room]
        exact ⟨Octets.length_overwrite (fits.trans room), fun i => Encoder.getElem?_put fits room⟩
    · intro buffer mistake wrong
      obtain ⟨cause, offset, same⟩ := measures.blameless_buildInto apart suits buffer _ wrong
      cases same

theorem encode_flags_inside_buffer :
    ((sequence "Flags" ⟨0, true, 16⟩ [.required "bits" (.primitive .bitString)]).codec.encode
        (.record [("bits", .bits ⟨4, .ofOctets [0xF0]⟩)])).run ⟨[9, 9, 9, 9, 9, 9, 9, 9], 1, true⟩ =
      .ok () ⟨[9, 0x30, 4, 3, 2, 4, 0xF0, 9], 7, true⟩ := by
  have declared : Declared (sequence "Flags" ⟨0, true, 16⟩ [.required "bits" (.primitive .bitString)]) := by
    have accepted : declareSequence "Flags" none none [.required "bits" (.primitive .bitString)] =
        .ok (sequence "Flags" ⟨0, true, 16⟩ [.required "bits" (.primitive .bitString)]) := rfl
    refine .sequence ?_ accepted
    intro f member
    rw [List.mem_singleton.mp member]
    exact .primitive .bitString
  have ordinary : Ordinary (sequence "Flags" ⟨0, true, 16⟩ [.required "bits" (.primitive .bitString)]) := by
    intro S within name field
    rcases within.eq_or_child with rfl | ⟨U, direct, inner⟩
    · cases List.mem_singleton.mp field
      rfl
    · cases List.mem_singleton.mp direct
      cases inner.eq_of_primitive
      cases field
  have within : ∀ {S u}, Component (sequence "Flags" ⟨0, true, 16⟩ [.required "bits" (.primitive .bitString)])
      (.record [("bits", .bits ⟨4, .ofOctets [0xF0]⟩)]) S u →
      u = .record [("bits", .bits ⟨4, .ofOctets [0xF0]⟩)] ∨ u = .bits ⟨4, .ofOctets [0xF0]⟩ := by
    intro S u part
    cases part with
    | self => exact Or.inl rfl
    | sequence members field entry inner =>
      cases members
      cases List.mem_singleton.mp field
      cases entry
      cases inner
      exact Or.inr rfl
  have backed : ∀ S u, Component (sequence "Flags" ⟨0, true, 16⟩ [.required "bits" (.primitive .bitString)])
      (.record [("bits", .bits ⟨4, .ofOctets [0xF0]⟩)]) S u → u.Backed := by
    intro S u part
    rcases within part with rfl | rfl
    · trivial
    · exact Nat.le_refl 1
  have plain : ∀ S u, Component (sequence "Flags" ⟨0, true, 16⟩ [.required "bits" (.primitive .bitString)])
      (.record [("bits", .bits ⟨4, .ofOctets [0xF0]⟩)]) S u → u.Plain := by
    intro S u part
    rcases within part with rfl | rfl <;> trivial
  have passes : ∀ b, Component (sequence "Flags" ⟨0, true, 16⟩ [.required "bits" (.primitive .bitString)])
      (.record [("bits", .bits ⟨4, .ofOctets [0xF0]⟩)]) (.primitive .bitString) (.bits b) → b.Passes := by
    intro b part
    rcases within part with same | same
    · cases same
    · cases same
      exact ⟨[0xF0], 4, rfl, rfl⟩
  have contract := declared.encode_all_or_nothing (.record [("bits", .bits ⟨4, .ofOctets [0xF0]⟩)])
    ⟨[9, 9, 9, 9, 9, 9, 9, 9], 1, true⟩ backed
  obtain ⟨octets, built, _, written⟩ := ((contract.2.2.2 ⟨ordinary.given _, plain⟩ fun _ => rfl).1 6 rfl (by decide)).1 passes
  cases built
  exact written

/-- A record without an entry of the name inherits a function under it, and the text of that is written in place of
its arity. -/
theorem inherited_member_mismeasured :
    (sequence "S" ⟨0, true, 16⟩ [.optional "constructor" (.primitive .ia5String)]).codec.encodedLength (.record []) =
        .ok 5 ∧
      (Document.buildInto (sequence "S" ⟨0, true, 16⟩ [.optional "constructor" (.primitive .ia5String)]).codec
        (.record []) (List.replicate 64 0)).1 = .error (.misuse (.mismeasured "S" 39 5)) :=
  ⟨rfl, rfl⟩

/-- What becomes of a lent buffer. One that is shorter than the document is refused and left alone. Any other gets the
document, or so much of it as is written before a fault, at its start and keeps its octets from there on. A value all of
whose bit strings are well formed is refused by no other buffer. -/
theorem Declared.buildInto_lent {T : Schema} (declared : T.Declared) {v : Value} (suits : T.Suits v) (apart : v.Apart)
    {n : Nat} (measured : T.codec.encodedLength v = .ok n) (buffer : Octets) :
    (buffer.length < n → Document.buildInto T.codec v buffer =
      (.error (.ofCause (.smallBuffer T.codec.name n buffer.length)), buffer)) ∧
    (n ≤ buffer.length → ∃ octets, octets.length ≤ n ∧
      Document.buildInto T.codec v buffer = (Document.build T.codec v, octets ++ buffer.drop octets.length) ∧
      ∀ document, Document.build T.codec v = .ok document → octets = document ∧ document.length = n) ∧
    (T.Writable v → ((∃ document, (Document.buildInto T.codec v buffer).1 = .ok document) ↔ n ≤ buffer.length)) := by
  have measures := declared.measures
  have refused : buffer.length < n → Document.buildInto T.codec v buffer =
      (.error (.ofCause (.smallBuffer T.codec.name n buffer.length)), buffer) := by
    intro small
    simp only [Document.buildInto, measured, if_pos small]
  have entered : n ≤ buffer.length → ∃ octets, octets.length ≤ n ∧
      Document.buildInto T.codec v buffer = (Document.build T.codec v, octets ++ buffer.drop octets.length) ∧
      ∀ document, Document.build T.codec v = .ok document → octets = document ∧ document.length = n := by
    intro room
    simp only [Document.buildInto, measured, if_neg (Nat.not_lt.mpr room), measures.build_eq]
    exact measures.write_eq measured apart suits room
  refine ⟨refused, entered, ?_⟩
  intro writable
  constructor
  · rintro ⟨document, written⟩
    refine Nat.not_lt.mp fun small => ?_
    rw [refused small] at written
    cases written
  · intro room
    obtain ⟨octets, _, written, _⟩ := entered room
    obtain ⟨document, outcome, emits, full, safe⟩ := (measures.fills measured).settles ⟨apart, suits⟩
    cases safe writable
    refine ⟨document, ?_⟩
    rw [written, measures.build_eq, measures.toOctets_eq_ok, full rfl]
    exact ⟨measured, emits.own⟩

example : Document.buildInto (primitive .boolean).codec (.boolean true) [9, 9, 9, 9] =
    (.ok [1, 1, 0xFF], [1, 1, 0xFF, 9]) := rfl

end Schema

end Der
