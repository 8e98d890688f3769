import Der.Codec.Primitive
import Der.Element

namespace Der.Any

/-- Captures the next element. Only its header is checked. -/
def read : Decoding Any := do
  let start ← Decoding.offset
  let header ← Decoding.header
  let value ← Decoding.slice header.length
  let d ← get
  return ⟨header.tag, value, ⟨d.source, start, d.position - start, .document⟩⟩

/-- Captures the element at the start of the octets. What follows it is ignored. -/
def ofOctets (octets : Octets) : Except Fault Any :=
  read.outcome (.ofOctets octets Decoder.defaultMaxDepth)

/-- The element with the given tag and content. -/
def ofParts (tag : Tag) (content : Octets) : Except Fault Any := do
  ofOctets (← Element.build tag content)

/-- The element of a value. -/
def ofValue (c : Codec) (v : Value) : Except Fault Any := do
  let octets ← c.toOctets v
  (Decoding.complete read).outcome (.ofOctets octets Decoder.defaultMaxDepth)

/-- How many octets the element takes. -/
def encodedLength (any : Any) : Nat :=
  any.encoded.length

/-- The octets of the element. -/
def toOctets (any : Any) : Except Fault Octets :=
  any.encoded.octets

/-- Whether two elements have the same octets. -/
def equals (a b : Any) : Except Fault Bool :=
  a.encoded.equals b.encoded

/-- Interprets the element, all of it, as a value of a type. -/
def decodeAs (any : Any) (c : Codec) (maxDepth : Number) : Except Fault Value := do
  if !c.accepts any.tag then throw (.ofCause (.unreadable any.tag c.name))
  let octets ← any.encoded.octets
  (Decoding.complete c.decode).outcome (.ofOctets octets maxDepth)

end Der.Any

namespace Der

/-- The captured element of a value that is one. -/
def UntaggedCodec.asAny : Value → Except Fault Any
  | .any a => .ok a
  | _ => .error (.ofCause (.unsuitable "ANY"))

/-- The codec of captured elements. It accepts every tag. -/
def UntaggedCodec.any : UntaggedCodec where
  name := "ANY"
  accepts _ := true
  tagOf v := do return (← asAny v).tag
  encodedLength v := do return (← asAny v).encodedLength
  encode v := do Encoding.window (← asAny v).encoded
  decode := do return .any (← Any.read)

/-- The type that a time of a certificate is written as: UTCTime for the years it covers. -/
def UntaggedCodec.timeType (v : Value) : Except Fault Primitive := do
  let t ← Content.Time.dateTime (← ContentRule.asTime "Time" v)
  return if Content.Time.InUtcRange t then .utcTime else .generalizedTime

/-- The codec of times of certificates. -/
def UntaggedCodec.time : UntaggedCodec where
  name := "Time"
  accepts tag := Primitive.utcTime.codec.accepts tag || Primitive.generalizedTime.codec.accepts tag
  tagOf v := do return (← timeType v).codec.tag
  encodedLength v := do (← timeType v).codec.encodedLength v
  encode v := do (← timeType v).codec.encode v
  decode := do
    match ← Decoding.peekTag with
    | some tag =>
      if Primitive.generalizedTime.codec.accepts tag then Primitive.generalizedTime.codec.decode
      else Primitive.utcTime.codec.decode
    | none => Primitive.utcTime.codec.decode

end Der
