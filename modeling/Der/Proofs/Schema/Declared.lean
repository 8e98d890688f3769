import Der.Proofs.Results
import Der.Proofs.Values
import Der.Schema.Declaration

namespace Der.Schema

/-- Types that are built from the types of the library by accepted declarations. -/
inductive Declared : Schema → Prop
  | primitive (p : Primitive) : Declared (.primitive p)
  | time : Declared .time
  | any : Declared .any
  | sequence {name : String} {tagClass? number? : Option Number} {fields : List (Field Schema)} {T : Schema}
      (types : ∀ f ∈ fields, Declared f.type) (accepted : declareSequence name tagClass? number? fields = .ok T) :
      Declared T
  | set {name : String} {tagClass? number? : Option Number} {fields : List (Field Schema)} {T : Schema}
      (types : ∀ f ∈ fields, Declared f.type) (accepted : declareSet name tagClass? number? fields = .ok T) :
      Declared T
  | sequenceOf (name : String) (tagClass? number? : Option Number) (bounds : SizeBounds) {item : Schema}
      (type : Declared item) : Declared (declareSequenceOf name tagClass? number? bounds item)
  | setOf (name : String) (tagClass? number? : Option Number) (bounds : SizeBounds) {item : Schema}
      (type : Declared item) : Declared (declareSetOf name tagClass? number? bounds item)
  | tagged {name : String} {mode? : Option TagMode} {tagClass? : Option Number} {number : Number}
      {inner T : Schema} (type : Declared inner)
      (accepted : declareTagged name mode? tagClass? number inner = .ok T) : Declared T
  | refine {inner : Schema} (condition : Condition) (type : Declared inner)
      (fixed : inner.codec.tag?.isSome = true) : Declared (.refine inner condition)

theorem declareSequence_eq_ok {name : String} {tagClass? number? : Option Number} {fields : List (Field Schema)}
    {T : Schema} (accepted : declareSequence name tagClass? number? fields = .ok T) :
    T = .sequence name (constructedTag tagClass? number? sequenceNumber) fields ∧
      Field.ambiguity? (fieldCodecs fields) = none ∧ Field.checkDefaults (fieldCodecs fields) = .ok () := by
  simp only [declareSequence] at accepted
  cases clear : Field.ambiguity? (fieldCodecs fields) with
  | some clash => rw [clear] at accepted; cases accepted
  | none =>
    rw [clear] at accepted
    simp only [bind, Except.bind, pure] at accepted
    cases defaults : Field.checkDefaults (fieldCodecs fields) with
    | error fault => rw [defaults] at accepted; cases accepted
    | ok done =>
      rw [defaults] at accepted
      cases accepted
      exact ⟨rfl, rfl, rfl⟩

theorem declareSet_eq_ok {name : String} {tagClass? number? : Option Number} {fields : List (Field Schema)}
    {T : Schema} (accepted : declareSet name tagClass? number? fields = .ok T) :
    T = .set name (constructedTag tagClass? number? setNumber) fields ∧
      Field.checkDefaults (fieldCodecs fields) = .ok () ∧ Field.untagged? (fieldCodecs fields) = none ∧
      Field.repeated? (Member.canonical ((fieldCodecs fields).map Member.ofField)) = none := by
  simp only [declareSet, bind, Except.bind, pure] at accepted
  cases defaults : Field.checkDefaults (fieldCodecs fields) with
  | error fault => rw [defaults] at accepted; cases accepted
  | ok done =>
    rw [defaults] at accepted
    simp only at accepted
    cases fixed : Field.untagged? (fieldCodecs fields) with
    | some field => rw [fixed] at accepted; cases accepted
    | none =>
      rw [fixed] at accepted
      simp only at accepted
      cases distinct : Field.repeated? (Member.canonical ((fieldCodecs fields).map Member.ofField)) with
      | some field => rw [distinct] at accepted; cases accepted
      | none =>
        rw [distinct] at accepted
        cases accepted
        exact ⟨rfl, rfl, rfl, rfl⟩

/-- The defaults of accepted fields can be written. -/
theorem toOctets_of_checkDefaults {fields : List (Field Codec)} (accepted : Field.checkDefaults fields = .ok ()) :
    ∀ f ∈ fields, ∀ v, f.presence.default? = some v → ∃ octets, f.type.toOctets v = .ok octets := by
  induction fields with
  | nil =>
    intro f member
    cases member
  | cons field rest ih =>
    intro f member v default
    rw [Field.checkDefaults] at accepted
    cases own : field.presence.default? with
    | none =>
      rw [own] at accepted
      rcases List.mem_cons.mp member with rfl | later
      · rw [own] at default
        cases default
      · exact ih accepted f later v default
    | some u =>
      rw [own] at accepted
      obtain ⟨octets, written, accepted⟩ := Except.bind_eq_ok.mp accepted
      rcases List.mem_cons.mp member with rfl | later
      · rw [own] at default
        cases default
        exact ⟨octets, written⟩
      · exact ih accepted f later v default

theorem declareTagged_eq_ok {name : String} {mode? : Option TagMode} {tagClass? : Option Number} {number : Number}
    {inner T : Schema} (accepted : declareTagged name mode? tagClass? number inner = .ok T) :
    (∃ tag, T = .explicit name tag inner) ∨
      ∃ tagClass, T = .implicit name tagClass number inner ∧ ∃ c, inner.codec = .tagged c := by
  simp only [declareTagged] at accepted
  split at accepted
  · cases accepted
    exact Or.inl ⟨_, rfl⟩
  · by_cases fixed : inner.codec.tag?.isSome = true
    · rw [if_pos fixed] at accepted
      cases accepted
      refine Or.inr ⟨_, rfl, ?_⟩
      cases shape : inner.codec with
      | tagged c => exact ⟨c, rfl⟩
      | untagged c => rw [shape] at fixed; cases fixed
    · rw [if_neg fixed] at accepted
      cases accepted

theorem tagged_of_isSome {T : Schema} (fixed : T.codec.tag?.isSome = true) : ∃ c, T.codec = .tagged c := by
  cases shape : T.codec with
  | tagged c => exact ⟨c, rfl⟩
  | untagged c => rw [shape] at fixed; cases fixed

/-- Induction over the forms of declared types, with what the declarations have checked. -/
@[elab_as_elim]
theorem Declared.induct {motive : ∀ T : Schema, T.Declared → Prop}
    (primitive : ∀ p : Primitive, motive _ (.primitive p)) (time : motive _ .time) (any : motive _ .any)
    (sequence : ∀ (name : String) (tag : Tag) {fields : List (Field Schema)} (types : ∀ f ∈ fields, f.type.Declared)
      (declared : (Schema.sequence name tag fields).Declared), Field.ambiguity? (fieldCodecs fields) = none →
      Field.checkDefaults (fieldCodecs fields) = .ok () → (∀ f (field : f ∈ fields), motive f.type (types f field)) →
      motive _ declared)
    (set : ∀ (name : String) (tag : Tag) {fields : List (Field Schema)} (types : ∀ f ∈ fields, f.type.Declared)
      (declared : (Schema.set name tag fields).Declared), Field.checkDefaults (fieldCodecs fields) = .ok () →
      Field.untagged? (fieldCodecs fields) = none →
      Field.repeated? (Member.canonical ((fieldCodecs fields).map Member.ofField)) = none →
      (∀ f (field : f ∈ fields), motive f.type (types f field)) → motive _ declared)
    (sequenceOf : ∀ (name : String) (tag : Tag) (bounds : SizeBounds) {item : Schema} (type : item.Declared)
      (declared : (Schema.sequenceOf name tag bounds item).Declared), motive item type → motive _ declared)
    (setOf : ∀ (name : String) (tag : Tag) (bounds : SizeBounds) {item : Schema} (type : item.Declared)
      (declared : (Schema.setOf name tag bounds item).Declared), motive item type → motive _ declared)
    (explicit : ∀ (name : String) (tag : Tag) {inner : Schema} (type : inner.Declared)
      (declared : (Schema.explicit name tag inner).Declared), motive inner type → motive _ declared)
    (implicit : ∀ (name : String) (tagClass number : Number) {inner : Schema} {c : TaggedCodec} (type : inner.Declared)
      (declared : (Schema.implicit name tagClass number inner).Declared), inner.codec = .tagged c →
      motive inner type → motive _ declared)
    (refine : ∀ (condition : Condition) {inner : Schema} {c : TaggedCodec} (type : inner.Declared)
      (declared : (Schema.refine inner condition).Declared), inner.codec = .tagged c → motive inner type →
      motive _ declared)
    {T : Schema} (declared : T.Declared) : motive T declared := by
  induction declared with
  | primitive p => exact primitive p
  | time => exact time
  | any => exact any
  | sequence types accepted ih =>
    obtain ⟨rfl, clear, defaults⟩ := declareSequence_eq_ok accepted
    exact sequence _ _ types _ clear defaults ih
  | set types accepted ih =>
    obtain ⟨rfl, defaults, fixed, distinct⟩ := declareSet_eq_ok accepted
    exact set _ _ types _ defaults fixed distinct ih
  | sequenceOf name tagClass? number? bounds type ih => exact sequenceOf _ _ bounds type _ ih
  | setOf name tagClass? number? bounds type ih => exact setOf _ _ bounds type _ ih
  | tagged type accepted ih =>
    rcases declareTagged_eq_ok accepted with ⟨tag, rfl⟩ | ⟨tagClass, rfl, c, fixed⟩
    · exact explicit _ tag type _ ih
    · exact implicit _ tagClass _ type _ fixed ih
  | refine condition type fixed ih =>
    obtain ⟨c, fixed⟩ := tagged_of_isSome fixed
    exact refine condition type _ fixed ih

/-- The types without a fixed tag are the open type and the times of certificates. -/
theorem Declared.untagged {T : Schema} (declared : T.Declared) {c : UntaggedCodec} (open_ : T.codec = .untagged c) :
    T = .time ∨ T = .any := by
  induction declared using Declared.induct with
  | time => exact Or.inl rfl
  | any => exact Or.inr rfl
  | primitive | sequence | set | sequenceOf | setOf | explicit => cases open_
  | implicit name tagClass number type declared fixed =>
    rw [codec, fixed] at open_
    cases open_
  | refine condition type declared fixed =>
    rw [codec, fixed] at open_
    cases open_

/-- The types that a type is directly built from. -/
def children : Schema → List Schema
  | sequence _ _ fields | set _ _ fields => fields.map Field.type
  | sequenceOf _ _ _ item | setOf _ _ _ item => [item]
  | explicit _ _ inner | implicit _ _ _ inner | refine inner _ => [inner]
  | primitive _ | time | any | custom _ _ _ | foreign _ => []

/-- A type contains itself and what the types that it is built from contain. -/
inductive Contains : Schema → Schema → Prop
  | self (T : Schema) : Contains T T
  | child {T S U : Schema} (direct : S ∈ T.children) (within : Contains S U) : Contains T U

theorem Contains.eq_or_child {T S : Schema} (within : T.Contains S) : S = T ∨ ∃ U ∈ T.children, U.Contains S := by
  cases within with
  | self => exact Or.inl rfl
  | child direct inner => exact Or.inr ⟨_, direct, inner⟩

theorem Contains.eq_of_primitive {p : Primitive} {S : Schema} (within : (primitive p).Contains S) : S = primitive p := by
  rcases within.eq_or_child with same | ⟨U, direct, _⟩
  · exact same
  · cases direct

/-- The fields of a constructed type. -/
def fields : Schema → List (Field Schema)
  | sequence _ _ fields | set _ _ fields => fields
  | _ => []

/-- The names of the fields of a constructed type. -/
def fieldNames (T : Schema) : List String :=
  T.fields.map Field.name

/-- Fields of one container have names of their own. -/
def Named (T : Schema) : Prop :=
  ∀ S, T.Contains S → S.fieldNames.Nodup

theorem Named.child {T S : Schema} (named : T.Named) (direct : S ∈ T.children) : S.Named :=
  fun U within => named U (.child direct within)

/-- No field bears the name of the prototype. -/
def Usual (T : Schema) : Prop :=
  ∀ S, T.Contains S → "__proto__" ∉ S.fieldNames

theorem Usual.child {T S : Schema} (usual : T.Usual) (direct : S ∈ T.children) : S.Usual :=
  fun U within => usual U (.child direct within)

/-- What is read into a record is found in it: no field bears the name of the prototype, and none that may be left
out without a default bears a name under which all records inherit a member. -/
structure Traceable (T : Schema) : Prop where
  usual : T.Usual
  absent : ∀ S, T.Contains S → ∀ f ∈ S.fields, f.presence = .optional → Inherited.ofName? f.name = none

theorem Traceable.child {T S : Schema} (traceable : T.Traceable) (direct : S ∈ T.children) : S.Traceable :=
  ⟨traceable.usual.child direct, fun U within => traceable.absent U (.child direct within)⟩

/-- No field bears a name under which all records inherit a member. -/
def Ordinary (T : Schema) : Prop :=
  ∀ S, T.Contains S → ∀ name ∈ S.fieldNames, Inherited.ofName? name = none

/-- No condition in the type sees where windows keep their octets. -/
def ByContent (T : Schema) : Prop :=
  ∀ inner condition, T.Contains (.refine inner condition) → condition.ByContent

theorem primitive_byContent (p : Primitive) : (primitive p).ByContent := by
  intro inner condition within
  cases within.eq_of_primitive

theorem ByContent.child {T S : Schema} (blind : T.ByContent) (direct : S ∈ T.children) : S.ByContent :=
  fun inner condition within => blind inner condition (.child direct within)

/-- A value of the first type has a component of the second type, as it stands in its place in the value. -/
inductive Component : Schema → Value → Schema → Value → Prop
  | self (T : Schema) (v : Value) : Component T v T v
  | sequence {name : String} {tag : Tag} {fields : List (Field Schema)} {v : Value} {entries : Record} {f : Field Schema}
      {u : Value} {S : Schema} {w : Value} (members : v.toRecord name = .ok entries) (field : f ∈ fields)
      (entry : entries.own? f.name = some u) (within : Component f.type u S w) :
      Component (.sequence name tag fields) v S w
  | set {name : String} {tag : Tag} {fields : List (Field Schema)} {v : Value} {entries : Record} {f : Field Schema}
      {u : Value} {S : Schema} {w : Value} (members : v.toRecord name = .ok entries) (field : f ∈ fields)
      (entry : entries.own? f.name = some u) (within : Component f.type u S w) :
      Component (.set name tag fields) v S w
  | sequenceOf {name : String} {tag : Tag} {bounds : SizeBounds} {item : Schema} {v : Value} {places : List (Option Value)}
      {u : Value} {S : Schema} {w : Value} (elements : Collection.places name v = .ok places) (element : some u ∈ places)
      (within : Component item u S w) : Component (.sequenceOf name tag bounds item) v S w
  | setOf {name : String} {tag : Tag} {bounds : SizeBounds} {item : Schema} {v : Value} {places : List (Option Value)}
      {u : Value} {S : Schema} {w : Value} (elements : Collection.places name v = .ok places) (element : some u ∈ places)
      (within : Component item u S w) : Component (.setOf name tag bounds item) v S w
  | explicit {name : String} {tag : Tag} {inner : Schema} {v : Value} {S : Schema} {w : Value}
      (within : Component inner v S w) : Component (.explicit name tag inner) v S w
  | implicit {name : String} {tagClass number : Number} {inner : Schema} {v : Value} {S : Schema} {w : Value}
      (within : Component inner v S w) : Component (.implicit name tagClass number inner) v S w
  | refine {inner : Schema} {condition : Condition} {v : Value} {S : Schema} {w : Value}
      (within : Component inner v S w) : Component (.refine inner condition) v S w

/-- A type contains the types of the components of its values. -/
theorem Component.contains {T S : Schema} {v u : Value} (part : Component T v S u) : T.Contains S := by
  induction part with
  | self T => exact .self T
  | sequence _ field _ _ ih => exact .child (List.mem_map_of_mem field) ih
  | set _ field _ _ ih => exact .child (List.mem_map_of_mem field) ih
  | sequenceOf _ _ _ ih => exact .child List.mem_cons_self ih
  | setOf _ _ _ ih => exact .child List.mem_cons_self ih
  | explicit _ ih => exact .child List.mem_cons_self ih
  | implicit _ ih => exact .child List.mem_cons_self ih
  | refine _ ih => exact .child List.mem_cons_self ih

/-- What is found in the value was given to it: where a record has no entry for a field, it does not inherit a member
under the name either. -/
def Given (T : Schema) (v : Value) : Prop :=
  ∀ S u, T.Component v S u → ∀ container entries, u.toRecord container = .ok entries →
    ∀ f ∈ S.fields, entries.own? f.name = none → Inherited.ofName? f.name = none

theorem Given.of_component {T S : Schema} {v u : Value} (given : T.Given v)
    (within : ∀ R w, S.Component u R w → T.Component v R w) : S.Given u :=
  fun R w part => given R w (within R w part)

theorem Given.own? {T : Schema} {v u : Value} {container : String} {entries : Record} {f : Field Schema}
    (given : T.Given v) (is : v.toRecord container = .ok entries) (field : f ∈ T.fields)
    (found : entries.member? f.name = some u) : entries.own? f.name = some u :=
  (Record.member?_eq_own? (given T v (.self T v) container entries is f field)).symm.trans found

theorem Ordinary.traceable {T : Schema} (ordinary : T.Ordinary) : T.Traceable where
  usual S within field := by cases ordinary S within _ field
  absent S within f field _ := ordinary S within f.name (List.mem_map_of_mem field)

theorem Ordinary.given {T : Schema} (ordinary : T.Ordinary) (v : Value) : T.Given v :=
  fun S _ part _ _ _ f field _ => ordinary S part.contains f.name (List.mem_map_of_mem field)

end Der.Schema
