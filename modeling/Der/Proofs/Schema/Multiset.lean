import Mathlib.Data.List.Perm.Basic
import Der.Proofs.Acceptance
import Der.Proofs.Canonical
import Der.Proofs.Codec.Restores

namespace Der

open Decoding Encoding

/-- No string is less than the one before it. -/
def Octets.NonDescending (strings : List Octets) : Prop :=
  strings.IsChain fun a b => Octets.compare a b ≤ 0

theorem Octets.nonDescending_iff {strings : List Octets} :
    NonDescending strings ↔ strings.Pairwise fun a b => compare a b ≤ 0 := by
  have trans : Trans (fun a b : Octets => compare a b ≤ 0) (fun a b => compare a b ≤ 0) (fun a b => compare a b ≤ 0) :=
    ⟨compare_le_trans⟩
  exact List.isChain_iff_pairwise

theorem Octets.nonDescending_cons_nil {strings : List Octets} : NonDescending ([] :: strings) ↔ NonDescending strings := by
  rw [nonDescending_iff, nonDescending_iff, List.pairwise_cons]
  exact and_iff_right fun string _ => compare_nil_le string

/-- The strings are the documents of the values, one for each of them. -/
def Codec.BuildsEach (c : Codec) (items : List Value) (strings : List Octets) : Prop :=
  List.Forall₂ (fun v octets => Document.build c v = .ok octets) items strings

/-- The strings are read as the values, one by one. -/
def Codec.ParsesEach (c : Codec) (depth : Nat) (maxDepth : Number) (strings : List Octets) (items : List Value) : Prop :=
  List.Forall₂ (c.Parses depth maxDepth) strings items

section

variable {name : String} {tag : Tag} {bounds : SizeBounds} {item : Codec} {regular sure : Value → Prop}
  (measures : item.Measures regular sure) {items others : List Value} {strings : List Octets} {document : Octets}

include measures

theorem Codec.written_iff_buildsEach : Collection.Written item items strings ↔ item.BuildsEach items strings := by
  have same : ∀ v octets, Yields (item.encodedLength v) (item.encode v) octets ↔ Document.build item v = .ok octets := by
    intro v octets
    rw [measures.build_eq, measures.toOctets_eq_ok]
    exact ⟨fun yields => ⟨yields.measured, yields.emits⟩, fun parts => ⟨parts.1, parts.2⟩⟩
  exact ⟨fun each => each.imp fun v octets => (same v octets).mp, fun each => each.imp fun v octets => (same v octets).mpr⟩

/-- A list is written as a set if it has as many values as there may be, all of which can be written, and if they are not
too long together. The content is their elements in order. -/
theorem TaggedCodec.build_setOf_iff : Document.build (.tagged (setOf name tag bounds item)) (.list items) = .ok document ↔
    bounds.Admits items.length ∧ ∃ elements strings header, item.BuildsEach items elements ∧ strings.Perm elements ∧
      Octets.NonDescending strings ∧ Header.encode tag strings.flatten.length = .ok header ∧
      document = header ++ strings.flatten := by
  have whole := setOf_measures name tag bounds measures
  have outer : Codec.Measures (.tagged (setOf name tag bounds item)) _ _ := whole
  rw [outer.build_eq, outer.toOctets_eq_ok]
  constructor
  · rintro ⟨measured, emits⟩
    obtain ⟨header, content, written, rfl, inside⟩ := whole.split ⟨measured, emits⟩
    obtain ⟨admitted, _⟩ := Collection.contentLength_list_eq_ok inside.measured
    obtain ⟨elements, each, rfl⟩ := Collection.octets_of_writeSorted inside.emits
    refine ⟨admitted, elements, _, header, ?_, List.mergeSort_perm elements _, ?_, written, rfl⟩
    · refine (Except.mapM_eq_ok.mp each).imp fun v octets own => ?_
      rw [measures.build_eq]
      exact own
    · exact Octets.nonDescending_iff.mpr (Octets.sort_pairwise elements)
  · rintro ⟨admitted, elements, strings, header, each, same, ascending, written, rfl⟩
    obtain rfl := Octets.eq_sort_of_perm same (Octets.nonDescending_iff.mp ascending)
    have inside := Collection.yields_sorted name admitted ((Codec.written_iff_buildsEach measures).mpr each)
    have yields := yields_of_content (c := setOf name tag bounds item) (v := .list items) inside written
    exact ⟨yields.measured, yields.emits⟩

/-- The order of the list does not matter. -/
theorem TaggedCodec.build_setOf_of_perm (same : others.Perm items)
    (built : Document.build (.tagged (setOf name tag bounds item)) (.list items) = .ok document) :
    Document.build (.tagged (setOf name tag bounds item)) (.list others) = .ok document := by
  obtain ⟨admitted, elements, strings, header, each, order, rest⟩ := (build_setOf_iff measures).mp built
  obtain ⟨elements', each', order'⟩ := List.perm_comp_forall₂ same each
  rw [← same.length_eq] at admitted
  exact (build_setOf_iff measures).mpr ⟨admitted, elements', strings, header, each', order.trans order'.symm, rest⟩

end

namespace Collection

variable {name : String} {bounds : SizeBounds} {item : Codec} (portable : item.Portable) {d d' : Decoder}
  {previous octets more : Octets} {strings : List Octets} {items values : List Value} {fuel : Nat}

include portable

theorem readElement_eq_ok {read : Value × Octets} (bounded : d.Bounded) (run : (readElement item).run d = .ok read d') :
    ∃ w, d.Takes read.2 d' ∧ item.Parses d.depth d.maxDepth read.2 w ∧ read.1.Same w := by
  obtain ⟨_, _, begun, run⟩ := bind_eq_ok run
  cases begun
  obtain ⟨v, e, decoded, run⟩ := bind_eq_ok run
  cases run
  obtain ⟨octets, w, takes, parses, same⟩ := portable.parses_of_run bounded decoded
  rw [show d'.source.between d.position d'.position = octets from takes.between bounded]
  exact ⟨w, takes, parses, same⟩

theorem run_readElement_of_parses {w : Value} (bounded : d.Bounded) (ahead : d.rest = octets ++ more)
    (parses : item.Parses d.depth d.maxDepth octets w) :
    ∃ v, (readElement item).run d = .ok (v, octets) (d.skip octets.length) ∧ v.Same w := by
  obtain ⟨v, decoded, same⟩ := portable.run_of_parses bounded ahead parses
  have between := (Decoder.takes_of_ahead ahead).between bounded
  refine ⟨v, ?_, same⟩
  simp only [readElement, EStateM.run_bind, run_offset, decoded, EStateM.run_get, between]
  rfl

/-- What is read for a set is elements that do not descend, up to the end of the scope. -/
theorem elements_of_readSorted (bounded : d.Bounded) (run : (readSorted name item fuel previous).run d = .ok items d') :
    ∃ strings values, item.ParsesEach d.depth d.maxDepth strings values ∧ d.Takes strings.flatten d' ∧
      Octets.NonDescending (previous :: strings) ∧ SameItems items values := by
  induction fuel generalizing previous d items with
  | zero => cases run
  | succ fuel ih =>
    rw [readSorted, EStateM.run_bind, EStateM.run_get] at run
    by_cases finished : d.isFinished = true
    · simp only [if_pos finished] at run
      cases run
      exact ⟨[], [], .nil, Decoder.takes_nil _, .singleton previous, rfl⟩
    · simp only [if_neg finished] at run
      obtain ⟨read, e, element, run⟩ := bind_eq_ok run
      obtain ⟨w, takes, parses, same⟩ := readElement_eq_ok portable bounded element
      by_cases less : 0 < Octets.compare previous read.2
      · simp only [if_pos less] at run
        cases run
      · simp only [if_neg less] at run
        obtain ⟨rest, e', others, last⟩ := bind_eq_ok run
        cases last
        obtain ⟨strings, values, each, takes', chain, sames⟩ := ih (takes.bounded bounded) others
        rw [takes.state] at each
        exact ⟨read.2 :: strings, w :: values, .cons parses each, takes.trans takes',
          List.isChain_cons_cons.mpr ⟨Int.not_lt.mp less, chain⟩, .cons same sames⟩

/-- Elements that do not descend are read. -/
theorem run_readSorted_of_elements (name : String) (bounded : d.Bounded)
    (each : item.ParsesEach d.depth d.maxDepth strings values) (ahead : d.rest = strings.flatten)
    (chain : Octets.NonDescending (previous :: strings))
    (enough : strings.length < fuel) :
    ∃ items, (readSorted name item fuel previous).run d = .ok items (d.skip strings.flatten.length) ∧
      SameItems items values := by
  induction fuel generalizing previous d strings values with
  | zero => omega
  | succ fuel ih =>
    rw [readSorted, EStateM.run_bind, EStateM.run_get]
    cases each with
    | nil =>
      simp only [if_pos (bounded.isFinished_iff.mpr ahead)]
      exact ⟨[], rfl, rfl⟩
    | @cons octets w strings values parses others =>
      obtain ⟨t, frames, _⟩ := portable.frames parses
      obtain ⟨least, chain⟩ := List.isChain_cons_cons.mp chain
      rw [List.flatten_cons] at ahead
      simp only [if_neg (bounded.not_isFinished frames.ne_nil ahead)]
      obtain ⟨v, read, same⟩ := run_readElement_of_parses portable bounded ahead parses
      obtain ⟨items, run, sames⟩ := ih ((Decoder.takes_of_ahead ahead).bounded bounded) others
        (Decoder.rest_skip_of_ahead ahead) chain (Nat.lt_of_succ_lt_succ enough)
      refine ⟨v :: items, ?_, .cons same sames⟩
      rw [EStateM.run_bind, read]
      simp only [if_neg (Int.not_lt.mpr least)]
      rw [EStateM.run_bind, run, List.flatten_cons, List.length_append, ← Decoder.skip_skip]
      rfl

/-- There are no more elements than octets. -/
theorem length_le_of_parsesEach {depth : Nat} {maxDepth : Number} (each : item.ParsesEach depth maxDepth strings values) :
    strings.length ≤ strings.flatten.length := by
  induction each with
  | nil => exact Nat.le_refl 0
  | cons parses _ ih =>
    obtain ⟨t, frames, _⟩ := portable.frames parses
    have some := List.length_pos_iff.mpr frames.ne_nil
    rw [List.length_cons, List.flatten_cons, List.length_append]
    omega

omit portable in
theorem SameItems.length_eq (same : SameItems items values) : items.length = values.length := by
  rw [← List.length_map Value.shown, same, List.length_map]

omit portable in
/-- Content is read when its elements are read up to its end, and if there are as many as there may be. -/
theorem readContent_eq_ok (name : String) (bounds : SizeBounds) (elements : Nat → Decoding (List Value))
    {content : Octets} {v : Value} (bounded : d.Bounded) (ahead : d.rest = content ++ more)
    (shallow : d.maxDepth.less (d.depth + 1 : Nat) = false) :
    (readContent name bounds elements content.length).run d = .ok v d' ↔ d' = d.skip content.length ∧
      ∃ items e, v = .list items ∧ bounds.Admits items.length ∧
        (elements (content.length + 1)).run (d.scope content.length) = .ok items e ∧ e.position = e.stop := by
  have size : (d.scope content.length).remaining.toNat = content.length := by
    obtain ⟨inside, inner⟩ := bounded.scope_of_ahead ahead
    rw [inside.remaining_eq, inner, Int.toNat_natCast]
  rw [readContent, EStateM.run_bind, run_offset]
  dsimp only
  rw [nested_iff bounded ahead shallow]
  refine and_congr_right fun _ => ?_
  constructor
  · rintro ⟨e, body, done⟩
    rw [EStateM.run_bind, EStateM.run_get] at body
    dsimp only at body
    rw [size] at body
    obtain ⟨items, e', run, last⟩ := bind_eq_ok body
    by_cases admitted : bounds.Admits items.length
    · rw [if_neg fun wrong => wrong admitted] at last
      cases last
      exact ⟨items, e, rfl, admitted, run, done⟩
    · rw [if_pos admitted] at last
      cases last
  · rintro ⟨items, e, rfl, admitted, run, done⟩
    refine ⟨e, ?_, done⟩
    rw [EStateM.run_bind, EStateM.run_get]
    dsimp only
    rw [size, EStateM.run_bind, run]
    dsimp only
    rw [if_neg fun wrong => wrong admitted]
    rfl

end Collection

/-- In front of the content, the codec reads it just when it is elements of the item that do not descend, as many as there
may be, and the value is the list of their values. -/
structure TaggedCodec.ReadsElements (c : TaggedCodec) (bounds : SizeBounds) (item : Codec) (layers : Nat) (d : Decoder)
    (content : Octets) : Prop where
  reads_iff : ∀ w, (∃ v d', (c.readContent content.length).run d = .ok v d' ∧ v.Same w) ↔
    ∃ strings values, item.ParsesEach (d.depth + 1) d.maxDepth strings values ∧ strings.flatten = content ∧
      Octets.NonDescending strings ∧ bounds.Admits strings.length ∧ w.Same (.list values)
  /-- The decoder then stands behind the content. -/
  ends : ∀ v d', (c.readContent content.length).run d = .ok v d' → d' = d.skip content.length
  /-- Where there is room for the layers, the elements are documents of the item, for every limit that admits the layers. -/
  documents : ∀ limit : Number, d.Admits (layers + 1) → ¬ limit.less layers = true → ∀ octets v,
    item.Parses (d.depth + 1) d.maxDepth octets v ↔ Document.parse item limit octets = .ok v

namespace Schema

variable {item : Schema} (declared : item.Declared)

include declared

theorem setOf_readsElements (blind : item.ByContent) (name : String) (tag : Tag) (bounds : SizeBounds) {d : Decoder}
    {content more : Octets} (bounded : d.Bounded) (ahead : d.rest = content ++ more)
    (shallow : d.maxDepth.less (d.depth + 1 : Nat) = false) :
    (TaggedCodec.setOf name tag bounds item.codec).ReadsElements bounds item.codec item.layers d content := by
  have portable := declared.portable blind
  obtain ⟨inside, inner⟩ := bounded.scope_of_ahead ahead
  have content_eq_ok : ∀ v d', EStateM.run ((TaggedCodec.setOf name tag bounds item.codec).readContent content.length) d =
      .ok v d' ↔ d' = d.skip content.length ∧ ∃ items e, v = .list items ∧ bounds.Admits items.length ∧
        (Collection.readSorted name item.codec (content.length + 1) []).run (d.scope content.length) = .ok items e ∧
        e.position = e.stop :=
    fun v d' => Collection.readContent_eq_ok name bounds (Collection.readSorted name item.codec · []) bounded ahead shallow
  refine ⟨?_, fun v d' run => ((content_eq_ok v d').mp run).1, ?_⟩
  · intro w
    constructor
    · rintro ⟨v, d', run, same⟩
      obtain ⟨_, items, e, rfl, admitted, read, done⟩ := (content_eq_ok v d').mp run
      obtain ⟨strings, values, each, takes, chain, sames⟩ := Collection.elements_of_readSorted portable inside read
      have none : e.rest = [] := (takes.bounded inside).position_eq_stop_iff.mp done
      refine ⟨strings, values, each, ?_, Octets.nonDescending_cons_nil.mp chain, ?_, same.symm.trans ?_⟩
      · rw [← inner, takes.ahead, none, List.append_nil]
      · rwa [each.length_eq, ← sames.length_eq]
      · rw [Value.shown_list, Value.shown_list, sames]
    · rintro ⟨strings, values, each, rfl, chain, admitted, same⟩
      have enough := Nat.lt_succ_of_le (Collection.length_le_of_parsesEach portable each)
      obtain ⟨items, read, sames⟩ := Collection.run_readSorted_of_elements portable name inside each inner
        (Octets.nonDescending_cons_nil.mpr chain) enough
      rw [each.length_eq, ← sames.length_eq] at admitted
      refine ⟨.list items, _, (content_eq_ok _ _).mpr ⟨rfl, items, _, rfl, admitted, read, rfl⟩, ?_⟩
      rw [Value.Same, same, Value.shown_list, Value.shown_list, sames]
  · intro limit admits enough octets v
    exact declared.parses_iff_parse (admits.scope content.length) enough

/-- Lists of the same values in another order are built alike: the content is the elements of the values, each as often as
in the list, in ascending order. Content is read just when it is elements in that order, as many as there may be; here
conditions may not see where windows keep their octets. -/
theorem declareSetOf_multiset (name : String) (tagClass? number? : Option Number) (bounds : SizeBounds) :
    (∀ {items others : List Value}, others.Perm items → ∀ document,
      Document.build (declareSetOf name tagClass? number? bounds item).codec (.list others) = .ok document ↔
        Document.build (declareSetOf name tagClass? number? bounds item).codec (.list items) = .ok document) ∧
    (∀ items document, Document.build (declareSetOf name tagClass? number? bounds item).codec (.list items) = .ok document ↔
      bounds.Admits items.length ∧ ∃ elements strings header, item.codec.BuildsEach items elements ∧
        strings.Perm elements ∧ Octets.NonDescending strings ∧
        Header.encode (constructedTag tagClass? number? setNumber) strings.flatten.length = .ok header ∧
        document = header ++ strings.flatten) ∧
    ∃ c, (declareSetOf name tagClass? number? bounds item).codec = .tagged c ∧
      (item.ByContent → ∀ {d : Decoder} {content more : Octets}, d.Bounded → d.rest = content ++ more →
        d.maxDepth.less (d.depth + 1 : Nat) = false → c.ReadsElements bounds item.codec item.layers d content) := by
  have measures := declared.measures
  refine ⟨?_, ?_, _, rfl, ?_⟩
  · intro items others same document
    constructor
    · exact TaggedCodec.build_setOf_of_perm measures same.symm
    · exact TaggedCodec.build_setOf_of_perm measures same
  · intro items document
    exact TaggedCodec.build_setOf_iff measures
  · intro blind d content more bounded ahead shallow
    exact setOf_readsElements declared blind name _ bounds bounded ahead shallow

omit declared in
/-- Three numbers, two of which are equal, are written in the order of their elements, in whatever order they are listed. -/
theorem declareSetOf_of_numbers :
    Document.build (declareSetOf "Numbers" none none ⟨none, none⟩ (primitive .integer)).codec
        (.list [.integer 256, .integer 5, .integer 5]) = .ok [0x31, 10, 2, 1, 5, 2, 1, 5, 2, 2, 1, 0] ∧
      Document.build (declareSetOf "Numbers" none none ⟨none, none⟩ (primitive .integer)).codec
        (.list [.integer 5, .integer 256, .integer 5]) = .ok [0x31, 10, 2, 1, 5, 2, 1, 5, 2, 2, 1, 0] := by
  obtain ⟨alike, built, _⟩ :=
    declareSetOf_multiset (.primitive .integer) "Numbers" none none ⟨none, none⟩
  have first : Document.build (declareSetOf "Numbers" none none ⟨none, none⟩ (primitive .integer)).codec
      (.list [.integer 256, .integer 5, .integer 5]) = .ok [0x31, 10, 2, 1, 5, 2, 1, 5, 2, 2, 1, 0] := by
    refine (built _ _).mpr ⟨by decide, [[2, 2, 1, 0], [2, 1, 5], [2, 1, 5]], [[2, 1, 5], [2, 1, 5], [2, 2, 1, 0]],
      [0x31, 10], ?_, by decide, ?_, rfl, rfl⟩
    · exact .cons rfl (.cons rfl (.cons rfl .nil))
    · exact Octets.nonDescending_iff.mpr (by decide)
  exact ⟨first, (alike (.swap _ _ _) _).mpr first⟩

end Schema

end Der
