import Der.Codec.Basic

namespace Der

/-- Whether the member of a field may be left out, and what it is then. -/
inductive Presence where
  | required
  | optional
  | default (value : Value)

/-- A named field of a constructed type. -/
structure Field (α : Type) where
  name : String
  presence : Presence
  type : α

namespace Presence

/-- Whether the member may be left out. -/
def mayBeAbsent : Presence → Bool
  | required => false
  | optional | default _ => true

/-- The value of a member that is left out. -/
def default? : Presence → Option Value
  | default value => some value
  | required | optional => none

end Presence

/-- A field whose member may not be left out. -/
def Field.required {α : Type} (name : String) (type : α) : Field α :=
  ⟨name, .required, type⟩

/-- A field whose member may be left out. -/
def Field.optional {α : Type} (name : String) (type : α) : Field α :=
  ⟨name, .optional, type⟩

/-- The field with its type replaced. -/
def Field.map {α β : Type} (f : α → β) (field : Field α) : Field β :=
  ⟨field.name, field.presence, f field.type⟩

/-- A field with its codec and with the element of its default. -/
structure Member where
  name : String
  presence : Presence
  codec : Codec
  defaultOctets : Option Octets

namespace Member

/-- The member of a field. A default that cannot be written equals no element. -/
def ofField (field : Field Codec) : Member where
  name := field.name
  presence := field.presence
  codec := field.type
  defaultOctets := field.presence.default?.bind fun v => (field.type.toOctets v).toOption

/-- Whether a value has the same element as the default of the field. -/
def isDefault (m : Member) (v : Value) : Except Fault Bool := do
  match m.defaultOctets with
  | none => return false
  | some octets => return (← m.codec.toOctets v) = octets

/-- The members of a record that are written, with their codecs. Members equal to their default are
left out, and undeclared members are passed over. A record may have inherited a member. -/
def select (container : String) (record : Record) :
    List Member → Except Fault (List (Codec × Value))
  | [] => .ok []
  | m :: rest => do
    match record.member? m.name with
    | none =>
      if m.presence.mayBeAbsent then select container record rest
      else throw (.ofCause (.missingField .invalidValue m.name container))
    | some v =>
      if ← m.isDefault v then select container record rest
      else return (m.codec, v) :: (← select container record rest)

/-- How many octets the members of a record take. -/
def contentLength (container : String) (members : List Member) (v : Value) : Except Fault Nat := do
  let chosen ← select container (← v.toRecord container) members
  Codec.sumLengths (fun part => part.1.encodedLength part.2) chosen

/-- Writes the members of a record. -/
def writeContent (container : String) (members : List Member) (v : Value) : Encoding Unit := do
  let chosen ← select container (← v.toRecord container) members
  chosen.forM fun part => part.1.encode part.2

/-- Reads a member, which must not be equal to its default. -/
def read (m : Member) : Decoding Value := do
  let start ← Decoding.offset
  let v ← m.codec.decode
  let d ← get
  if m.defaultOctets = some (d.source.between start d.position) then
    throw (.coding (.encodedDefault m.name) start)
  return v

/-- The record after a member has been found to be absent. -/
def skip (container : String) (missing : Fault.Kind) (m : Member) (record : Record) :
    Decoding Record := do
  match m.presence with
  | .required => Decoding.fail (.missingField missing m.name container)
  | .optional => return record
  | .default value => return record.assign m.name value

/-- Reads the members of a sequence on top of those read so far. -/
def readSequence (container : String) : List Member → Record → Decoding Record
  | [], record => return record
  | m :: rest, record => do
    let present ← do
      if m.presence.mayBeAbsent then
        match ← Decoding.peekTag with
        | some tag => pure (m.codec.accepts tag)
        | none => pure false
      else pure (!(← get).isFinished)
    if present then
      let v ← m.read
      readSequence container rest (record.assign m.name v)
    else
      let record ← m.skip container .incomplete record
      readSequence container rest record

/-- Reads the members of a set on top of those read so far. Fields that have been passed may not
come again. -/
def readSet (container : String) : List Member → List Member → Record → Decoding Record
  | passed, todo, record => do
    match ← Decoding.peekTag with
    | none => todo.foldlM (fun record m => m.skip container .incomplete record) record
    | some tag =>
      match passed.find? (·.codec.accepts tag) with
      | some m => Decoding.fail (.disorderedComponent container m.name)
      | none =>
        match todo with
        | [] => Decoding.fail (.unknownComponent tag container)
        | m :: rest =>
          if m.codec.accepts tag then
            let v ← m.read
            readSet container (passed ++ [m]) rest (record.assign m.name v)
          else if rest.any (·.codec.accepts tag) then
            let record ← m.skip container .unexpectedTag record
            readSet container (passed ++ [m]) rest record
          else Decoding.fail (.unknownComponent tag container)

/-- The members in the canonical order of their tags. The sort is stable. -/
def canonical (members : List Member) : List Member :=
  members.mergeSort fun a b =>
    match a.codec.tag?, b.codec.tag? with
    | some s, some t => !(Number.less 0 (s.compare t))
    | _, _ => true

end Member

namespace TaggedCodec

/-- The codec of a SEQUENCE. -/
def sequence (name : String) (tag : Tag) (fields : List (Field Codec)) : TaggedCodec :=
  let members := fields.map Member.ofField
  { name, tag
    contentLength := Member.contentLength name members
    writeContent := Member.writeContent name members
    readContent := fun count => Decoding.nested count do
      return .record (← Member.readSequence name members []) }

/-- The codec of a SET. -/
def set (name : String) (tag : Tag) (fields : List (Field Codec)) : TaggedCodec :=
  let members := Member.canonical (fields.map Member.ofField)
  { name, tag
    contentLength := Member.contentLength name members
    writeContent := Member.writeContent name members
    readContent := fun count => Decoding.nested count do
      return .record (← Member.readSet name [] members []) }

end TaggedCodec

end Der
