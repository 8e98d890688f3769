import Der.Decoder
import Der.Encoder

namespace Der

/-- An element at the start of some octets. -/
structure Element where
  tag : Tag
  /-- The length that the header declares. -/
  length : Number
  content : Octets
  /-- The offset of the octets that follow the element. -/
  stop : Nat
  deriving DecidableEq

namespace Element

/-- Reads an element. -/
def read : Decoding Element := do
  let header ← Decoding.header
  let content ← Decoding.octets header.length
  return ⟨header.tag, header.length, content, ← Decoding.offset⟩

/-- Reads the element at the start of the octets. What follows it is left alone. -/
def parse (octets : Octets) : Except Fault Element :=
  read.outcome (.ofOctets octets Decoder.defaultMaxDepth)

/-- The tag of the element at an offset, if the octets reach so far. -/
def peekTag (octets : Octets) (offset : Number) : Except Fault (Option Tag) :=
  if offset.reaches octets.length then .ok none else do
    let (tag, _) ← Overhang.tagAt octets offset octets.length
    return some tag

/-- Writes an element. -/
def write (tag : Tag) (content : Octets) : Encoding Unit := do
  Encoding.header tag content.length
  Encoding.octets content

/-- The octets of the element with the given tag and content. -/
def build (tag : Tag) (content : Octets) : Except Fault Octets := do
  let size ← Header.encodedLength tag content.length
  (write tag content).toOctets (size + content.length)

end Element

end Der
