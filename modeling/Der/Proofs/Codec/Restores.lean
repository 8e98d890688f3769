import Der.Proofs.ByContent
import Der.Proofs.Codec.Open
import Der.Proofs.Codec.Structure
import Der.Proofs.Schema.Normal

namespace Der

open Encoding Decoding

section

variable {α : Type} {measure : α → Except Fault Nat} {write : α → Encoding Unit} {part : α} {parts : List α}
  {octets : Octets} {regular sure : Prop}

/-- The first of several parts has octets of its own. -/
theorem Codec.split_cons
    (fills : ∀ other ∈ part :: parts, ∀ n, measure other = .ok n → Fills (write other) n regular sure)
    (yields : Yields (sumLengths measure (part :: parts)) ((part :: parts).forM write) octets) :
    ∃ first more, octets = first ++ more ∧ Yields (measure part) (write part) first ∧
      Yields (sumLengths measure parts) (parts.forM write) more := by
  obtain ⟨measured, emits⟩ := yields
  obtain ⟨length, own, measured⟩ := Except.bind_eq_ok.mp measured
  obtain ⟨left, others, same⟩ := Except.bind_eq_ok.mp measured
  have total : length + left = octets.length := Except.ok.inj same
  have run := emits.run (.ofSize octets.length) nofun (by rw [Encoder.remaining_ofSize])
  obtain ⟨first, more, least, leastMore, fits, emitsFirst, emitsMore⟩ :=
    (fills part List.mem_cons_self length own).parts_of_run
      (fills_forM (fun other member => fills other (List.mem_cons_of_mem part member)) others) rfl run
  rw [Encoder.remaining_ofSize] at fits
  obtain ⟨rfl, _⟩ := emits.unique (emitsFirst.bind emitsMore)
  have full : first.length = length := by omega
  have fullMore : more.length = left := by omega
  exact ⟨first, more, rfl, ⟨full ▸ own, emitsFirst⟩, fullMore ▸ others, emitsMore⟩

/-- Parts that have been measured together and written one after the other have octets of their own. -/
theorem Codec.split_forM (fills : ∀ part ∈ parts, ∀ n, measure part = .ok n → Fills (write part) n regular sure)
    (yields : Yields (sumLengths measure parts) (parts.forM write) octets) :
    ∃ strings : List Octets, octets = strings.flatten ∧
      List.Forall₂ (fun part string => Yields (measure part) (write part) string) parts strings := by
  induction parts generalizing octets with
  | nil =>
    obtain ⟨same, _⟩ := yields.emits.unique (emits_pure ())
    exact ⟨[], same, .nil⟩
  | cons part rest ih =>
    obtain ⟨first, more, rfl, yieldsFirst, yieldsMore⟩ := split_cons fills yields
    obtain ⟨strings, rfl, each⟩ := ih (fun other member => fills other (List.mem_cons_of_mem part member)) yieldsMore
    exact ⟨first :: strings, rfl, .cons yieldsFirst each⟩

end

/-- An element consists of its header and its content. -/
theorem TaggedCodec.Measures.split {c : TaggedCodec} {regular sure : Value → Prop} (measures : c.Measures regular sure)
    {v : Value} {octets : Octets} (yields : Yields (c.encodedLength v) (c.encode v) octets) :
    ∃ header content, Header.encode c.tag content.length = .ok header ∧ octets = header ++ content ∧
      Yields (c.contentLength v) (c.writeContent v) content := by
  obtain ⟨length, header, measured, written, total⟩ := encodedLength_eq_ok yields.measured
  have run := yields.emits.run (.ofSize octets.length) nofun (by rw [Encoder.remaining_ofSize])
  rw [c.run_encode, EStateM.run_bind, Fault.run_liftM, Encoder.sees_of_own rfl, measured] at run
  obtain ⟨content, least, fits, emits⟩ :=
    Fills.content_of_run written (Fills.seen And.left (measures.fills measured)) rfl run
  rw [Encoder.remaining_ofSize] at fits
  obtain rfl : content.length = length := by omega
  have inside : Yields (c.contentLength v) (c.writeContent v) content := ⟨measured, emits.of_seen⟩
  obtain ⟨rfl, _⟩ := yields.emits.unique (yields_of_content inside written).emits
  exact ⟨header, content, written, rfl, inside⟩

/-- Content that has been written for a value is read as its normal form. -/
structure TaggedCodec.Restores (c : TaggedCodec) (normal : Value → Value) (good : Value → Prop) (layers : Nat) :
    Prop where
  valid : c.tag.WellFormed
  finds : ∀ {v octets}, good v → Yields (c.contentLength v) (c.writeContent v) octets → ∀ rest,
    Finds layers octets rest (c.readContent octets.length) fun w => w.shown = (normal v).shown

/-- An element that has been written for a value has a tag of the type, and is read as the normal form. -/
structure UntaggedCodec.Restores (c : UntaggedCodec) (normal : Value → Value) (good : Value → Prop) (layers : Nat) :
    Prop where
  leads : ∀ {v octets}, good v → Yields (c.encodedLength v) (c.encode v) octets →
    ∃ t : Tag, t.Leads octets ∧ c.accepts t = true
  finds : ∀ {v octets}, good v → Yields (c.encodedLength v) (c.encode v) octets → ∀ rest,
    Finds layers octets rest c.decode fun w => w.shown = (normal v).shown

/-- What has been written for a good value is read as its normal form, with at most so many nested scopes. -/
def Codec.Restores : Codec → (Value → Value) → (Value → Prop) → Nat → Prop
  | tagged c => c.Restores
  | untagged c => c.Restores

namespace TaggedCodec.Restores

variable {c : TaggedCodec} {normal : Value → Value} {good regular sure : Value → Prop} {layers : Nat} {v : Value}
  {octets : Octets} (restores : c.Restores normal good layers) (measures : c.Measures regular sure)
  (yields : Yields (c.encodedLength v) (c.encode v) octets)

include restores measures yields

theorem leads : c.tag.Leads octets ∧ c.accepts c.tag = true := by
  obtain ⟨header, content, written, rfl, _⟩ := measures.split yields
  exact ⟨restores.valid.leads written content, restores.valid.equals_self⟩

theorem decode (isGood : good v) (rest : Octets) :
    Finds layers octets rest c.decode fun w => w.shown = (normal v).shown := by
  obtain ⟨header, content, written, rfl, inner⟩ := measures.split yields
  refine (finds_expect c.name restores.valid written).bind ?_
  intro h same
  subst same
  exact restores.finds isGood inner rest

end TaggedCodec.Restores

namespace Codec.Restores

variable {c : Codec} {normal : Value → Value} {good regular sure : Value → Prop} {layers : Nat} {v : Value}
  {octets : Octets} (restores : c.Restores normal good layers) (measures : c.Measures regular sure) (isGood : good v)
  (yields : Yields (c.encodedLength v) (c.encode v) octets)

include restores measures isGood yields

theorem leads : ∃ t : Tag, t.Leads octets ∧ c.accepts t = true := by
  cases c with
  | tagged c => exact ⟨c.tag, TaggedCodec.Restores.leads restores measures yields⟩
  | untagged c => exact UntaggedCodec.Restores.leads restores isGood yields

theorem decode (rest : Octets) : Finds layers octets rest c.decode fun w => w.shown = (normal v).shown := by
  cases c with
  | tagged c => exact TaggedCodec.Restores.decode restores measures yields isGood rest
  | untagged c => exact UntaggedCodec.Restores.finds restores isGood yields rest

end Codec.Restores

theorem Codec.Restores.mono {c : Codec} {normal : Value → Value} {good good' : Value → Prop} {layers layers' : Nat}
    (restores : c.Restores normal good layers) (stronger : ∀ v, good' v → good v) (more : layers ≤ layers') :
    c.Restores normal good' layers' := by
  cases c with
  | tagged c =>
    exact ⟨TaggedCodec.Restores.valid restores, fun isGood yields rest =>
      (TaggedCodec.Restores.finds restores (stronger _ isGood) yields rest).mono more fun _ => id⟩
  | untagged c =>
    exact ⟨fun isGood => UntaggedCodec.Restores.leads restores (stronger _ isGood), fun isGood yields rest =>
      (UntaggedCodec.Restores.finds restores (stronger _ isGood) yields rest).mono more fun _ => id⟩

theorem Primitive.wellFormed (p : Primitive) : p.codec.tag.WellFormed := by
  refine ⟨0, p.tagNumber, Nat.zero_le _, ?_, rfl, rfl⟩
  cases p <;> decide

theorem Primitive.restores (p : Primitive) : p.codec.Restores p.normal (fun _ => True) 0 where
  valid := p.wellFormed
  finds _ yields _ := finds_content fun _ => p.rule_lawful.complete yields.emits

theorem TaggedCodec.explicit_restores (name : String) {tag : Tag} (valid : tag.WellFormed) {inner : Codec}
    {normal : Value → Value} {good regular sure : Value → Prop} {layers : Nat} (restores : inner.Restores normal good layers)
    (measures : inner.Measures regular sure) : (explicit name tag inner).Restores normal good (layers + 1) where
  valid := valid
  finds isGood yields _ := (restores.decode measures isGood yields []).nested

theorem TaggedCodec.Restores.implicit {inner : TaggedCodec} {normal : Value → Value} {good : Value → Prop}
    {layers : Nat} (restores : inner.Restores normal good layers) (name : String) {tagClass number : Number}
    (valid : (inner.implicit name tagClass number).tag.WellFormed) :
    (inner.implicit name tagClass number).Restores normal good layers :=
  ⟨valid, restores.finds⟩

theorem TaggedCodec.Restores.refine {inner : TaggedCodec} {normal : Value → Value} {good : Value → Prop}
    {layers : Nat} (restores : inner.Restores normal good layers) {condition : Condition}
    (blind : condition.ByContent) :
    (inner.refine condition).Restores normal (fun v => good v ∧ condition (normal v) = none) layers where
  valid := restores.valid
  finds := by
    intro v octets parts yields rest
    obtain ⟨isGood, accepted⟩ := parts
    have measured := yields.measured
    rw [refine_contentLength] at measured
    have inside : Yields (inner.contentLength v) (inner.writeContent v) octets := by
      cases met : condition v with
      | some problem => rw [met] at measured; cases measured
      | none => rw [met] at measured; exact ⟨measured, yields.emits⟩
    refine finds_offset.before ?_
    intro start _
    refine (restores.finds isGood inside rest).after ?_
    intro w same
    have met : condition w = none := by rw [← blind w, same, blind, accepted]
    rw [met]
    exact finds_pure same

/-- A captured element yields the octets that it shows. -/
theorem UntaggedCodec.shows_of_yields {v : Value} {octets : Octets}
    (captured : ∀ a, v = .any a → ∃ d d', Decoder.Bounded d ∧ Any.read.run d = .ok a d')
    (yields : Yields (any.encodedLength v) (any.encode v) octets) : ∃ a, v = .any a ∧ a.Shows octets := by
  obtain ⟨a, is, emits⟩ := yields.emits.of_after
  obtain ⟨string, shown, rfl⟩ := octets_of_emits_window emits
  cases asAny_eq_ok is
  obtain ⟨d, d', bounded, run⟩ := captured a rfl
  obtain ⟨string, _, shows⟩ := Any.reads_read bounded run
  obtain ⟨_, _, _, _, _, _, shown'⟩ := id shows
  cases Except.ok.inj (shown.symm.trans shown')
  exact ⟨a, rfl, shows⟩

theorem UntaggedCodec.any_restores :
    any.Restores id (fun v => ∀ a, v = .any a → ∃ d d', Decoder.Bounded d ∧ Any.read.run d = .ok a d') 0 := by
  refine ⟨?_, ?_⟩
  · intro v octets captured yields
    obtain ⟨a, rfl, header, content, rfl, valid, written, _⟩ := shows_of_yields captured yields
    exact ⟨a.tag, valid.leads written content, rfl⟩
  · intro v octets captured yields rest
    obtain ⟨a, rfl, shows⟩ := shows_of_yields captured yields
    exact (Any.finds_read shows).after fun b same => finds_pure same

/-- A time of a certificate yields what one of the two types of times yields. -/
theorem UntaggedCodec.yields_time {v : Value} {octets : Octets}
    (yields : Yields (time.encodedLength v) (time.encode v) octets) :
    ∃ p : Primitive, (p = .utcTime ∨ p = .generalizedTime) ∧
      Yields (p.codec.encodedLength v) (p.codec.encode v) octets := by
  obtain ⟨p, type, emits⟩ := yields.emits.of_after
  obtain ⟨p', type', measured⟩ := Except.bind_eq_ok.mp yields.measured
  cases Except.ok.inj (type.symm.trans type')
  exact ⟨p, timeType_eq_ok type, measured, emits⟩

theorem UntaggedCodec.time_restores : time.Restores id (fun _ => True) 0 := by
  refine ⟨?_, ?_⟩
  · intro v octets _ yields
    obtain ⟨p, type, yields⟩ := yields_time yields
    obtain ⟨leads, accepts⟩ := p.restores.leads p.measures yields
    refine ⟨_, leads, ?_⟩
    rcases type with rfl | rfl <;> rfl
  · intro v octets _ yields rest
    obtain ⟨p, type, yields⟩ := yields_time yields
    obtain ⟨leads, _⟩ := p.restores.leads p.measures yields
    have decode := p.restores.decode p.measures yields trivial rest
    refine (finds_peekTag (leads.append rest)).before_eq ?_
    rcases type with rfl | rfl
    · exact decode
    · exact decode

namespace Collection

variable {name : String} {item : Codec} {layers : Nat} {values : List Value} {strings : List Octets} {bounds : SizeBounds}

/-- The octets are some, and an element with the content of the value is read wherever they stand. -/
def Found (layers : Nat) (item : Codec) (v : Value) (octets : Octets) : Prop :=
  octets ≠ [] ∧ ∀ rest, Finds layers octets rest item.decode fun w => w.shown = v.shown

theorem finds_inOrder (found : List.Forall₂ (Found layers item) values strings) {fuel : Nat}
    (enough : values.length < fuel) : Finds layers strings.flatten [] (readInOrder name item fuel) fun items =>
      items.map Value.shown = values.map Value.shown := by
  induction found generalizing fuel with
  | nil =>
    obtain ⟨fuel, rfl⟩ := Nat.exists_eq_succ_of_ne_zero (Nat.ne_of_gt enough)
    refine finds_get.before ?_
    intro d parts
    obtain ⟨bounded, ahead⟩ := parts
    rw [if_pos (bounded.isFinished_iff.mpr ahead)]
    exact finds_pure rfl
  | @cons v octets values strings first _ ih =>
    obtain ⟨fuel, rfl⟩ := Nat.exists_eq_succ_of_ne_zero (Nat.ne_of_gt (Nat.zero_lt_of_lt enough))
    refine finds_get.before ?_
    intro d parts
    obtain ⟨bounded, ahead⟩ := parts
    rw [List.flatten_cons, List.append_assoc] at ahead
    rw [if_neg (bounded.not_isFinished first.1 ahead), List.flatten_cons]
    refine (first.2 _).bind ?_
    intro w same
    refine (ih (Nat.lt_of_succ_lt_succ enough)).after ?_
    intro items others
    refine finds_pure ?_
    rw [List.map_cons, List.map_cons, same, others]

theorem finds_element {v : Value} {octets rest : Octets} (found : Found layers item v octets) :
    Finds layers octets rest (readElement item) fun read => read.1.shown = v.shown ∧ read.2 = octets := by
  intro d bounded ahead admits
  obtain ⟨w, run, same⟩ := found.2 rest bounded ahead admits
  have between := (Decoder.takes_of_ahead ahead).between bounded
  refine ⟨(w, octets), ?_, same, rfl⟩
  simp only [readElement, EStateM.run_bind, run_offset, run, EStateM.run_get, EStateM.run_pure, between]

theorem finds_sorted (found : List.Forall₂ (Found layers item) values strings) {fuel : Nat}
    (enough : values.length < fuel) {previous : Octets}
    (ordered : (previous :: strings).Pairwise fun a b => Octets.compare a b ≤ 0) :
    Finds layers strings.flatten [] (readSorted name item fuel previous) fun items =>
      items.map Value.shown = values.map Value.shown := by
  induction found generalizing fuel previous with
  | nil =>
    obtain ⟨fuel, rfl⟩ := Nat.exists_eq_succ_of_ne_zero (Nat.ne_of_gt enough)
    refine finds_get.before ?_
    intro d parts
    obtain ⟨bounded, ahead⟩ := parts
    rw [if_pos (bounded.isFinished_iff.mpr ahead)]
    exact finds_pure rfl
  | @cons v octets values strings first _ ih =>
    obtain ⟨fuel, rfl⟩ := Nat.exists_eq_succ_of_ne_zero (Nat.ne_of_gt (Nat.zero_lt_of_lt enough))
    obtain ⟨least, others⟩ := List.pairwise_cons.mp ordered
    refine finds_get.before ?_
    intro d parts
    obtain ⟨bounded, ahead⟩ := parts
    rw [List.flatten_cons, List.append_assoc] at ahead
    rw [if_neg (bounded.not_isFinished first.1 ahead), List.flatten_cons]
    refine (finds_element first).bind ?_
    intro parts both
    obtain ⟨w, _⟩ := parts
    obtain ⟨same, rfl⟩ := both
    dsimp only
    rw [if_neg (Int.not_lt.mpr (least _ List.mem_cons_self))]
    refine (ih (Nat.lt_of_succ_lt_succ enough) others).after ?_
    intro items rest
    refine finds_pure ?_
    rw [List.map_cons, List.map_cons, same, rest]

theorem length_le_of_found (found : List.Forall₂ (Found layers item) values strings) :
    values.length ≤ strings.flatten.length := by
  induction found with
  | nil => exact Nat.le_refl 0
  | cons first _ ih =>
    have some := List.length_pos_iff.mpr first.1
    rw [List.length_cons, List.flatten_cons, List.length_append]
    omega

theorem finds_content {elements : Nat → Decoding (List Value)} {octets rest : Octets}
    (admitted : bounds.Admits values.length)
    (finds : Finds layers octets [] (elements (octets.length + 1)) fun items =>
      items.map Value.shown = values.map Value.shown) :
    Finds (layers + 1) octets rest (readContent name bounds elements octets.length) fun w =>
      w.shown = (Value.list values).shown := by
  refine finds_offset.before ?_
  intro start _
  refine Finds.nested ?_
  refine finds_get.before ?_
  intro d parts
  obtain ⟨bounded, ahead⟩ := parts
  rw [List.append_nil] at ahead
  rw [bounded.remaining_eq, ahead, Int.toNat_natCast]
  refine finds.after ?_
  intro items same
  have length : items.length = values.length := by
    have both := congrArg List.length same
    rwa [List.length_map, List.length_map] at both
  rw [← length] at admitted
  rw [if_neg fun wrong => wrong admitted]
  refine finds_pure ?_
  rw [Value.shown_list, Value.shown_list, same]

/-- What has been written for the elements of a set are their octets in order. -/
theorem octets_of_writeSorted {name : String} {items : List Value} {octets : Octets}
    (emits : Emits False (writeSorted name item (.list items)) octets.length octets (.ok ())) :
    ∃ encoded, items.mapM item.toOctets = .ok encoded ∧ octets = (Octets.sort encoded).flatten := by
  rw [writeSorted_list] at emits
  obtain ⟨encoded, written, emits⟩ := emits.of_after
  refine ⟨encoded, written, ?_⟩
  generalize Octets.sort encoded = strings at emits ⊢
  exact (emits.unique (emits_forM_octets strings)).1

end Collection

section

variable {item : Codec} {normal : Value → Value} {good regular sure : Value → Prop} {layers : Nat}
  (restores : item.Restores normal good layers) (measures : item.Measures regular sure)

include restores measures

theorem Collection.found_of_yields {v : Value} {octets : Octets} (isGood : good v)
    (yields : Yields (item.encodedLength v) (item.encode v) octets) : Found layers item (normal v) octets := by
  obtain ⟨t, leads, _⟩ := restores.leads measures isGood yields
  exact ⟨leads.ne_nil, restores.decode measures isGood yields⟩

theorem TaggedCodec.sequenceOf_restores (name : String) {tag : Tag} (valid : tag.WellFormed) (bounds : SizeBounds) :
    (sequenceOf name tag bounds item).Restores (Collection.normalInOrder normal)
      (fun v => ∀ items, v = .list items → ∀ u ∈ items, good u) (layers + 1) where
  valid := valid
  finds := by
    intro v octets isGood yields rest
    obtain ⟨items, rfl⟩ := Collection.list_of_yields_inOrder measures yields
    obtain ⟨admitted, measured⟩ := Collection.contentLength_list_eq_ok yields.measured
    have emits : Emits False (Collection.writeInOrder name item (.list items)) octets.length octets (.ok ()) := yields.emits
    rw [Collection.writeInOrder_list] at emits
    have fills : ∀ u ∈ items, ∀ n, item.encodedLength u = .ok n → Fills (item.encode u) n False False :=
      fun u _ n first => (measures.fills first).mono False.elim False.elim
    obtain ⟨strings, rfl, each⟩ := Codec.split_forM fills ⟨measured, emits⟩
    have found : List.Forall₂ (Collection.Found layers item) (items.map normal) strings := by
      rw [List.forall₂_map_left_iff]
      exact ((List.forall₂_and_left _ _).mpr ⟨isGood items rfl, each⟩).imp fun u string both =>
        Collection.found_of_yields restores measures both.1 both.2
    have count : bounds.Admits (items.map normal).length := by rwa [List.length_map]
    refine Collection.finds_content count ?_
    exact Collection.finds_inOrder found (Nat.lt_succ_of_le (Collection.length_le_of_found found))

/-- The sorted elements have the sorted octets, and are found in them. -/
theorem Collection.found_sorted {items : List Value} {encoded : List Octets} (isGood : ∀ u ∈ items, good u)
    (written : items.mapM item.toOctets = .ok encoded) :
    List.Forall₂ (Found layers item) ((sortedElements item normal items).map Prod.snd) (Octets.sort encoded) := by
  have each : List.Forall₂ (fun u string => item.toOctets u = .ok string) items encoded := Except.mapM_eq_ok.mp written
  obtain ⟨found, fronts⟩ : (∀ pair ∈ items.map (normalElement item normal), Found layers item pair.2 pair.1) ∧
      List.Forall₂ (fun pair string => pair.1 = string) (items.map (normalElement item normal)) encoded := by
    rw [← List.forall₂_and_left, List.forall₂_map_left_iff]
    refine ((List.forall₂_and_left _ _).mpr ⟨isGood, each⟩).imp ?_
    intro u string parts
    obtain ⟨good, own⟩ := parts
    obtain ⟨measured, emits⟩ := measures.toOctets_eq_ok.mp own
    rw [normalElement, own]
    exact ⟨found_of_yields restores measures good ⟨measured, emits⟩, rfl⟩
  have fronts : (items.map (normalElement item normal)).map Prod.fst = encoded := by
    rwa [← List.forall₂_eq_eq_eq, List.forall₂_map_left_iff]
  have order : (sortedElements item normal items).map Prod.fst = Octets.sort encoded := by
    rw [← fronts]
    exact List.map_mergeSort fun _ _ _ _ => rfl
  rw [← order, List.forall₂_map_left_iff, List.forall₂_map_right_iff, List.forall₂_same]
  intro pair member
  exact found pair ((List.mergeSort_perm _ _).mem_iff.mp member)

theorem TaggedCodec.setOf_restores (name : String) {tag : Tag} (valid : tag.WellFormed) (bounds : SizeBounds) :
    (setOf name tag bounds item).Restores (Collection.normalSorted item normal)
      (fun v => ∀ items, v = .list items → ∀ u ∈ items, good u) (layers + 1) where
  valid := valid
  finds := by
    intro v octets isGood yields rest
    obtain ⟨items, rfl⟩ := Collection.list_of_emits_sorted yields.emits
    obtain ⟨admitted, _⟩ := Collection.contentLength_list_eq_ok yields.measured
    obtain ⟨encoded, written, rfl⟩ := Collection.octets_of_writeSorted yields.emits
    have found := Collection.found_sorted restores measures (isGood items rfl) written
    have count : bounds.Admits ((Collection.sortedElements item normal items).map Prod.snd).length := by
      rwa [List.length_map, Collection.sortedElements, List.length_mergeSort, List.length_map]
    have reads : (setOf name tag bounds item).readContent =
        Collection.readContent name bounds (Collection.readSorted name item · []) := rfl
    rw [Collection.normalSorted, reads]
    refine Collection.finds_content count ?_
    refine Collection.finds_sorted found (Nat.lt_succ_of_le (Collection.length_le_of_found found)) ?_
    exact List.pairwise_cons.mpr ⟨fun string _ => Octets.compare_nil_le string, Octets.sort_pairwise encoded⟩

end

end Der
