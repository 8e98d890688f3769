import Der.Codec.Basic

namespace Der

/-- The least and the largest admitted number of elements, as far as there are bounds. A bound may be
any number at all; one that is no number bounds nothing. -/
structure SizeBounds where
  least : Option Number
  most : Option Number
  deriving DecidableEq

namespace SizeBounds

/-- Whether a number of elements is admitted. -/
def Admits (bounds : SizeBounds) (count : Nat) : Prop :=
  (∀ n ∈ bounds.least, ¬ Number.less count n) ∧ ∀ n ∈ bounds.most, ¬ Number.less n count

instance (bounds : SizeBounds) (count : Nat) : Decidable (bounds.Admits count) :=
  inferInstanceAs (Decidable (_ ∧ _))

/-- The cause of a fault when a number of elements is not admitted. -/
def cause (bounds : SizeBounds) (name : String) (count : Nat) : Fault.Cause :=
  .wrongSize name count bounds.least bounds.most

end SizeBounds

namespace Collection

/-- What is found in a list that has holes. There is nothing in a hole. -/
def place : Value → Option Value
  | .undefined => none
  | item => some item

/-- The places of a value that is a list. -/
def places (name : String) : Value → Except Fault (List (Option Value))
  | .list items => .ok (items.map some)
  | .sparse before after =>
    .ok (before.map place ++ none :: after.map place)
  | _ => .error (.ofCause (.unsuitable name))

/-- The number of elements that a value says it has. -/
def count? : Value → Option Nat
  | .list items => some items.length
  | .sparse before after => some (before.length + (after.length + 1))
  | .inherited (.function _ parameters) => some parameters
  | _ => none

/-- How many octets the elements take. Holes count as elements, but are not measured. -/
def contentLength (name : String) (bounds : SizeBounds) (item : Codec) (v : Value) :
    Except Fault Nat := do
  if let some count := count? v then
    if ¬ bounds.Admits count then throw (.ofCause (bounds.cause name count))
  let places ← places name v
  Codec.sumLengths item.encodedLength (places.filterMap id)

/-- Writes elements in the order of the list. Nothing is left out, so a hole is written as the undefined
value. -/
def writeInOrder (name : String) (item : Codec) (v : Value) : Encoding Unit := do
  let places ← places name v
  (places.map (·.getD .undefined)).forM item.encode

/-- Writes elements in the order of their octets. Holes are sorted behind all of them, where there is
nothing to write. -/
def writeSorted (name : String) (item : Codec) (v : Value) : Encoding Unit := do
  let places ← places name v
  let encoded ← ((places.filterMap id).mapM item.toOctets : Except Fault (List Octets))
  (Octets.sort encoded).forM Encoding.octets
  if places.any (·.isNone) then throw (.ofCause (.unsuitable name))

/-- Reads one element and returns it with its octets. -/
def readElement (item : Codec) : Decoding (Value × Octets) := do
  let start ← Decoding.offset
  let v ← item.decode
  let d ← get
  return (v, d.source.between start d.position)

/-- Reads elements up to the end of the scope, at most `fuel` of them. -/
def readInOrder (name : String) (item : Codec) : Nat → Decoding (List Value)
  | 0 => Decoding.fail (.stalled name)
  | fuel + 1 => do
    if (← get).isFinished then return []
    else
      let v ← item.decode
      return v :: (← readInOrder name item fuel)

/-- Reads elements up to the end of the scope, at most `fuel` of them. None may be less than the one
before it. -/
def readSorted (name : String) (item : Codec) : Nat → Octets → Decoding (List Value)
  | 0, _ => Decoding.fail (.stalled name)
  | fuel + 1, previous => do
    let d ← get
    if d.isFinished then return []
    else
      let (v, octets) ← readElement item
      if 0 < Octets.compare previous octets then
        throw (.coding (.disorderedElement name) d.position)
      return v :: (← readSorted name item fuel octets)

/-- Reads so many content octets with a reader that gets one more element than there are octets. -/
def readContent (name : String) (bounds : SizeBounds) (elements : Nat → Decoding (List Value))
    (count : Number) : Decoding Value := do
  let start ← Decoding.offset
  Decoding.nested count do
    let items ← elements ((← get).remaining.toNat + 1)
    if ¬ bounds.Admits items.length then
      throw (.coding (bounds.cause name items.length) start)
    return .list items

end Collection

namespace TaggedCodec

/-- The codec of a SEQUENCE OF. -/
def sequenceOf (name : String) (tag : Tag) (bounds : SizeBounds) (item : Codec) : TaggedCodec where
  name := name
  tag := tag
  contentLength := Collection.contentLength name bounds item
  writeContent := Collection.writeInOrder name item
  readContent := Collection.readContent name bounds (Collection.readInOrder name item)

/-- The codec of a SET OF. -/
def setOf (name : String) (tag : Tag) (bounds : SizeBounds) (item : Codec) : TaggedCodec where
  name := name
  tag := tag
  contentLength := Collection.contentLength name bounds item
  writeContent := Collection.writeSorted name item
  readContent := Collection.readContent name bounds (Collection.readSorted name item · [])

end TaggedCodec

end Der
