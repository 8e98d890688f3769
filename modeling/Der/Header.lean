import Der.Tag.Identifier

namespace Der.Length

/-- The largest length that is read or written. -/
def max : Nat := 4294967295

/-- The least length that does not fit one octet. -/
def leastLong : Nat := 128

/-- The natural number that a length is, if it can be written. -/
def check (n : Number) : Except Fault Nat :=
  match n with
  | .integer (.ofNat k) => if max < k then .error (.ofCause (.oversizedLength n)) else .ok k
  | _ => .error (.ofCause (.badLength n))

/-- How many length octets a length takes. -/
def encodedLength (n : Number) : Except Fault Nat := do
  let k ← check n
  if k < leastLong then return 1 else return 1 + Octets.width k

/-- The length octets of a length. -/
def encode (n : Number) : Except Fault Octets := do
  let k ← check n
  if k < leastLong then return [UInt8.ofNat k]
  else return UInt8.ofNat (128 + Octets.width k) :: Octets.ofNat (Octets.width k) k

/-- Reads a length and returns it with the octets that follow it. The first octet stands at
`offset`. -/
def decode (offset : Nat) : Octets → Except Fault (Nat × Octets)
  | [] => .error (.coding .missingLength offset)
  | first :: rest =>
    let count := first.toNat - 128
    if first.toNat < leastLong then .ok (first.toNat, rest)
    else if count = 0 then .error (.coding .indefiniteLength offset)
    else if count = 127 then .error (.coding .reservedLength offset)
    else if 4 < count then .error (.coding (.wideLength count) offset)
    else if rest.length < count then .error (.coding .truncatedLength offset)
    else if rest.head? = some 0 then .error (.coding .paddedLength offset)
    else
      let n := Octets.toNat (rest.take count)
      if n < leastLong then .error (.coding (.shortLength n) offset) else .ok (n, rest.drop count)

theorem suffix_of_decode {offset n : Nat} {octets rest : Octets}
    (read : decode offset octets = .ok (n, rest)) : rest <:+ octets := by
  cases octets with
  | nil => simp [decode] at read
  | cons first tail =>
    simp only [decode] at read
    split at read
    · injection read with pair
      injection pair with _ same
      exact same ▸ List.suffix_cons first tail
    · iterate 6
        split at read
        · cases read
      injection read with pair
      injection pair with _ same
      exact same ▸ (List.drop_suffix _ tail).trans (List.suffix_cons first tail)

end Der.Length

namespace Der

/-- Tag and length in front of the content octets. The length is a natural number unless some of its
own octets are missing. -/
structure Header where
  tag : Tag
  length : Number

namespace Header

/-- How many octets the header of an element takes. -/
def encodedLength (tag : Tag) (length : Number) : Except Fault Nat := do
  let identifier ← tag.encodedLength
  let size ← Length.encodedLength length
  return identifier + size

/-- Reads a header and returns it with the octets that follow it, among which the content must fit.
The first octet stands at `offset`. -/
def decode (offset : Nat) (octets : Octets) : Except Fault (Header × Octets) := do
  let (tag, afterTag) ← Tag.decode offset octets
  let (length, content) ← Length.decode (offset + (octets.length - afterTag.length)) afterTag
  if content.length < length then
    throw (.coding (.missingContent length content.length) offset)
  return (⟨tag, length⟩, content)

end Header

end Der
