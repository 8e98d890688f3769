import Der.Codec.Basic

namespace Der

/-- A condition on values. It names what is wrong with a value that it refuses. -/
abbrev Condition := Value → Option String

namespace TaggedCodec

/-- The codec of a type whose elements stand inside elements with a tag of their own. -/
def explicit (name : String) (tag : Tag) (inner : Codec) : TaggedCodec where
  name := name
  tag := tag
  contentLength := inner.encodedLength
  writeContent := inner.encode
  readContent count := Decoding.nested count inner.decode

/-- The codec with another name, tag class and tag number. The constructed bit stays. -/
def implicit (name : String) (tagClass number : Number) (inner : TaggedCodec) : TaggedCodec :=
  { inner with name, tag := ⟨tagClass, inner.tag.constructed, number⟩ }

/-- The cause of a fault when a condition refuses a value. -/
def refusal (inner : TaggedCodec) (problem : String) : Fault.Cause :=
  .refused inner.name problem

/-- The codec of the values that meet a condition. It is checked when a value is measured and after it
has been read. -/
def refine (inner : TaggedCodec) (condition : Condition) : TaggedCodec :=
  { inner with
    contentLength := fun v => do
      if let some problem := condition v then throw (.ofCause (inner.refusal problem))
      inner.contentLength v
    readContent := fun count => do
      let start ← Decoding.offset
      let v ← inner.readContent count
      if let some problem := condition v then throw (.coding (inner.refusal problem) start)
      return v }

end TaggedCodec

namespace Codec

/-- An implicit tag on a codec. Without a fixed tag there is nothing to replace, and the codec stays as
it is. -/
def implicit (name : String) (tagClass number : Number) : Codec → Codec
  | tagged inner => .tagged (inner.implicit name tagClass number)
  | untagged inner => .untagged inner

/-- A condition on the values of a codec. A codec without a fixed tag stays as it is. -/
def refine (condition : Condition) : Codec → Codec
  | tagged inner => .tagged (inner.refine condition)
  | untagged inner => .untagged inner

end Codec

end Der
