import Der.Schema.Basic

namespace Der

/-- How a tag is put on a type: around its element, or in place of its tag. -/
inductive TagMode where
  | explicit
  | implicit
  deriving DecidableEq

namespace TagMode

/-- The name of a mode. -/
def text : TagMode → String
  | explicit => "EXPLICIT"
  | implicit => "IMPLICIT"

/-- The mode of a name, which is in upper or in lower case. -/
def ofText (text : String) : Except Fault TagMode :=
  if text = "EXPLICIT" ∨ text = "explicit" then .ok explicit
  else if text = "IMPLICIT" ∨ text = "implicit" then .ok implicit
  else .error (.ofCause (.unknownMode text))

end TagMode

namespace Field

/-- Whether some fixed tag of one of the types is accepted by the other. -/
def clashes (a b : Field Codec) : Bool :=
  a.type.tag?.any b.type.accepts || b.type.tag?.any a.type.accepts

/-- The first of the fields up to the next required one that clashes with a field before them. -/
def clashIn? (field : Field Codec) : List (Field Codec) → Option String
  | [] => none
  | later :: rest =>
    if field.clashes later then some later.name
    else if later.presence.mayBeAbsent then field.clashIn? rest
    else none

/-- The first field that may be absent and clashes with one that can follow it, and the name of that
one. -/
def ambiguity? : List (Field Codec) → Option (String × String)
  | [] => none
  | field :: rest =>
    match if field.presence.mayBeAbsent then field.clashIn? rest else none with
    | some later => some (field.name, later)
    | none => ambiguity? rest

/-- Refuses fields whose default cannot be written. -/
def checkDefaults : List (Field Codec) → Except Fault Unit
  | [] => .ok ()
  | field :: rest => do
    if let some v := field.presence.default? then
      let _ ← field.type.toOctets v
    checkDefaults rest

/-- The first field without a fixed tag. -/
def untagged? (fields : List (Field Codec)) : Option String :=
  (fields.find? fun field => field.type.tag?.isNone).map (·.name)

/-- In members that are in canonical order, the first whose tag is that of the one before it. -/
def repeated? : List Member → Option String
  | a :: b :: rest =>
    match a.codec.tag?, b.codec.tag? with
    | some s, some t => if (s.compare t).same 0 then some b.name else repeated? (b :: rest)
    | _, _ => repeated? (b :: rest)
  | _ => none

end Field

namespace Schema

/-- The universal tag number of SEQUENCE and SEQUENCE OF. -/
def sequenceNumber : Nat := 16

/-- The universal tag number of SET and SET OF. -/
def setNumber : Nat := 17

/-- The tag of a constructed type: universal unless another class is given, with the usual number
unless another is given. -/
def constructedTag (tagClass? number? : Option Number) (usual : Nat) : Tag :=
  ⟨tagClass?.getD TagClass.universal.toNumber, true, number?.getD usual⟩

/-- A SEQUENCE with its usual tag. The fields are taken as they are. -/
def plainSequence (name : String) (fields : List (Field Schema)) : Schema :=
  sequence name (constructedTag none none sequenceNumber) fields

/-- Declares a primitive type with a content rule of the caller's own. -/
def declarePrimitive (name : String) (tag : Tag) (rule : ContentRule) : Except Fault Schema :=
  if tag.constructed then .error (.misuse (.constructedPrimitive name))
  else .ok (custom name tag rule)

/-- Declares a field. It cannot both be optional and have a default. -/
def declareField (name : String) (type : Schema) (optional : Bool) (default? : Option Value) :
    Except Fault (Field Schema) :=
  match optional, default? with
  | true, some _ => .error (.misuse (.contradictoryField name))
  | true, none => .ok ⟨name, .optional, type⟩
  | false, some v => .ok ⟨name, .default v, type⟩
  | false, none => .ok ⟨name, .required, type⟩

/-- Declares a SEQUENCE. -/
def declareSequence (name : String) (tagClass? number? : Option Number)
    (fields : List (Field Schema)) : Except Fault Schema := do
  let codecs := fieldCodecs fields
  if let some (field, later) := Field.ambiguity? codecs then
    throw (.misuse (.ambiguousField name field later))
  Field.checkDefaults codecs
  return sequence name (constructedTag tagClass? number? sequenceNumber) fields

/-- Declares a SET. -/
def declareSet (name : String) (tagClass? number? : Option Number) (fields : List (Field Schema)) :
    Except Fault Schema := do
  let codecs := fieldCodecs fields
  Field.checkDefaults codecs
  if let some field := Field.untagged? codecs then
    throw (.misuse (.untaggedComponent name field))
  if let some field := Field.repeated? (Member.canonical (codecs.map Member.ofField)) then
    throw (.misuse (.sharedTag name field))
  return set name (constructedTag tagClass? number? setNumber) fields

/-- Declares a SEQUENCE OF. -/
def declareSequenceOf (name : String) (tagClass? number? : Option Number) (bounds : SizeBounds)
    (item : Schema) : Schema :=
  sequenceOf name (constructedTag tagClass? number? sequenceNumber) bounds item

/-- Declares a SET OF. -/
def declareSetOf (name : String) (tagClass? number? : Option Number) (bounds : SizeBounds)
    (item : Schema) : Schema :=
  setOf name (constructedTag tagClass? number? setNumber) bounds item

/-- Declares a tagged type. The tag is explicit and of the context-specific class unless the caller
says otherwise. -/
def declareTagged (name : String) (mode? : Option TagMode) (tagClass? : Option Number)
    (number : Number) (inner : Schema) : Except Fault Schema :=
  let tagClass := tagClass?.getD TagClass.contextSpecific.toNumber
  match mode?.getD .explicit with
  | .explicit => .ok (explicit name ⟨tagClass, true, number⟩ inner)
  | .implicit =>
    if inner.codec.tag?.isSome then .ok (implicit name tagClass number inner)
    else .error (.misuse (.untaggedImplicit name))

end Schema

end Der
