import Der.Decoder
import Der.Encoder
import Der.Value

namespace Der

/-- The rules of a type with one fixed tag. Those for its content octets stand apart from its header, so
that the tag can be exchanged. -/
structure TaggedCodec where
  name : String
  tag : Tag
  /-- How many content octets a value takes. -/
  contentLength : Value → Except Fault Nat
  writeContent : Value → Encoding Unit
  /-- Reads so many content octets. -/
  readContent : Number → Decoding Value

/-- The rules of a type whose tag depends on the value. -/
structure UntaggedCodec where
  name : String
  accepts : Tag → Bool
  tagOf : Value → Except Fault Tag
  encodedLength : Value → Except Fault Nat
  encode : Value → Encoding Unit
  decode : Decoding Value

/-- The rules of a type. -/
inductive Codec where
  | tagged (c : TaggedCodec)
  | untagged (c : UntaggedCodec)

/-- The value as it is by now: windows into a lent buffer show what has been written there. -/
def Encoder.sees (e : Encoder) (v : Value) : Value :=
  v.mapSlices e.refreshed

/-- The value as it is by now. -/
def Encoding.current (v : Value) : Encoding Value := do
  let e ← get
  return e.sees v

namespace TaggedCodec

/-- Whether an element with the tag belongs to the type. -/
def accepts (c : TaggedCodec) (tag : Tag) : Bool :=
  tag.equals c.tag

/-- How many octets the element of a value takes, header included. -/
def encodedLength (c : TaggedCodec) (v : Value) : Except Fault Nat := do
  let length ← c.contentLength v
  let size ← Header.encodedLength c.tag length
  return size + length

/-- Writes the element of a value. Each pass sees the value as it is by then. -/
def encode (c : TaggedCodec) (v : Value) : Encoding Unit := do
  let length ← c.contentLength (← Encoding.current v)
  Encoding.header c.tag length
  c.writeContent (← Encoding.current v)

/-- Reads an element. -/
def decode (c : TaggedCodec) : Decoding Value := do
  let header ← Decoding.expect c.tag c.name
  c.readContent header.length

end TaggedCodec

namespace Codec

/-- The name of the type in messages. -/
def name : Codec → String
  | tagged c => c.name
  | untagged c => c.name

/-- The fixed tag of the type, if it has one. -/
def tag? : Codec → Option Tag
  | tagged c => some c.tag
  | untagged _ => none

/-- Whether an element with the tag belongs to the type. -/
def accepts : Codec → Tag → Bool
  | tagged c => c.accepts
  | untagged c => c.accepts

/-- The tag under which a value is written. -/
def tagOf : Codec → Value → Except Fault Tag
  | tagged c => fun _ => .ok c.tag
  | untagged c => c.tagOf

/-- How many octets the element of a value takes, header included. -/
def encodedLength : Codec → Value → Except Fault Nat
  | tagged c => c.encodedLength
  | untagged c => c.encodedLength

/-- Writes the element of a value. -/
def encode : Codec → Value → Encoding Unit
  | tagged c => c.encode
  | untagged c => c.encode

/-- Reads an element. -/
def decode : Codec → Decoding Value
  | tagged c => c.decode
  | untagged c => c.decode

/-- Reads an element if the next one belongs to the type. Otherwise nothing is read. -/
def decodeOptional (c : Codec) : Decoding (Option Value) := do
  match ← Decoding.peekTag with
  | some tag => if c.accepts tag then return some (← c.decode) else return none
  | none => return none

/-- The element of a value, written into a buffer of the measured size. -/
def toOctets (c : Codec) (v : Value) : Except Fault Octets := do
  let size ← c.encodedLength v
  (c.encode v).toOctets size

/-- The lengths of several parts added up. The first part that cannot be measured decides. -/
def sumLengths {α : Type} (measure : α → Except Fault Nat) : List α → Except Fault Nat
  | [] => .ok 0
  | part :: rest => do
    let length ← measure part
    let more ← sumLengths measure rest
    return length + more

end Codec

end Der

namespace Der.Document

/-- Reads a document. Windows in the value look into it. -/
def parse (c : Codec) (maxDepth : Number) (document : Octets) : Except Fault Value :=
  (Decoding.complete c.decode).outcome (.ofOctets document maxDepth)

/-- Writes a value with an encoder, which must take just as many octets as were measured. Returns the
octets written, and the buffer as it is afterwards, whatever happened. -/
def write (c : Codec) (v : Value) (e : Encoder) (measured : Nat) : Except Fault Octets × Octets :=
  match (c.encode v).run e with
  | .ok _ e =>
    if e.position = measured then (.ok e.written, e.output)
    else (.error (.misuse (.mismeasured c.name e.position measured)), e.output)
  | .error fault e => (.error fault, e.output)

/-- The document of a value. It is measured first, and then written into a buffer of that size. -/
def build (c : Codec) (v : Value) : Except Fault Octets := do
  let size ← c.encodedLength v
  (write c v (.ofSize size) size).1

/-- Writes the document of a value at the start of a buffer that the caller lends. Returns the document,
and the buffer as it is afterwards, whatever happened. -/
def buildInto (c : Codec) (v : Value) (buffer : Octets) : Except Fault Octets × Octets :=
  match c.encodedLength v with
  | .error fault => (.error fault, buffer)
  | .ok size =>
    if buffer.length < size then
      (.error (.ofCause (.smallBuffer c.name size buffer.length)), buffer)
    else write c v (.ofOutput buffer) size

end Der.Document
