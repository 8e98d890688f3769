import Der.Header
import Der.Slice

namespace Der

/-- A buffer of fixed size and the position up to which it has been written. Windows may look into a
buffer that somebody has lent, and none look into a buffer of the encoder's own. -/
structure Encoder where
  output : Octets
  position : Nat
  lent : Bool

/-- Steps on an encoder. A step that fails leaves what was written before it failed. -/
abbrev Encoding := EStateM Fault Encoder

namespace Encoder

/-- An encoder at the start of a buffer that somebody has lent. -/
def ofOutput (output : Octets) : Encoder :=
  ⟨output, 0, true⟩

/-- An encoder over a buffer of zeros of its own. -/
def ofSize (size : Nat) : Encoder :=
  ⟨List.replicate size 0, 0, false⟩

/-- How many octets are left in the buffer. -/
def remaining (e : Encoder) : Nat :=
  e.output.length - e.position

/-- The octets written so far. -/
def written (e : Encoder) : Octets :=
  e.output.take e.position

/-- The window as it is by now. -/
def refreshed (e : Encoder) (s : Slice) : Slice :=
  if e.lent then s.onOutput e.output else s

end Encoder

namespace Encoding

/-- Fails unless so many octets are left in the buffer. -/
def reserve (count : Nat) : Encoding Unit := do
  let e ← get
  if e.remaining < count then throw (.coding (.noRoom count e.remaining) e.position)

/-- Writes octets. A write that does not fit changes nothing. -/
def octets (octets : Octets) : Encoding Unit := do
  reserve octets.length
  modify fun e =>
    { e with output := e.output.overwrite e.position octets, position := e.position + octets.length }

/-- Writes one octet. -/
def octet (octet : UInt8) : Encoding Unit :=
  octets [octet]

/-- Writes the last eight bits of a number. -/
def lowOctet (n : Number) : Encoding Unit :=
  octet n.lowOctet

/-- Writes the octets that a window shows by now. -/
def window (s : Slice) : Encoding Unit := do
  let e ← get
  octets (← (e.refreshed s).octets)

/-- Writes identifier octets. -/
def tag (tag : Tag) : Encoding Unit := do
  octets (← tag.encode)

/-- Writes length octets. -/
def length (n : Number) : Encoding Unit := do
  octets (← Length.encode n)

/-- Writes a header, if header and content will fit. -/
def header (tag : Tag) (length : Number) : Encoding Unit := do
  let size ← Header.encodedLength tag length
  reserve (size + (length.toNat?).getD 0)
  Encoding.tag tag
  Encoding.length length

/-- The octets that a body writes into a buffer of the given size. -/
def toOctets (size : Nat) (body : Encoding Unit) : Except Fault Octets :=
  match body.run (.ofSize size) with
  | .ok _ e => .ok e.written
  | .error fault _ => .error fault

end Encoding

end Der
