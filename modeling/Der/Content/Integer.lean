import Der.Fault

namespace Der.Content.Integer

/-- How many content octets an integer takes: the fewest whose two's complement range holds it. -/
def width (n : Int) : Nat :=
  let magnitude := if 0 ≤ n then n.toNat else (-n - 1).toNat
  (magnitude.log2 + 1) / 8 + 1

/-- The content octets of an integer. -/
def encode (n : Int) : Octets :=
  Octets.ofNat (width n) (n % (Nat.pow 256 (width n) : Nat)).toNat

/-- Refuses content whose first octet only repeats the sign of the second. -/
def check : Octets → Except Fault Unit
  | [] => .error (.ofCause .emptyInteger)
  | [_] => .ok ()
  | first :: second :: _ =>
    if first = 0 ∧ second.toNat < 128 ∨ first = 255 ∧ 128 ≤ second.toNat then
      .error (.ofCause (.redundantOctet first))
    else .ok ()

/-- Whether the first octet has its sign bit set. -/
def startsHigh (octets : Octets) : Bool :=
  128 ≤ (octets.headD 0).toNat

/-- The integer that octets denote in two's complement. -/
def signedValue (octets : Octets) : Int :=
  if startsHigh octets then (Octets.toNat octets : Int) - Nat.pow 256 octets.length else Octets.toNat octets

/-- Reads content octets. -/
def decode (octets : Octets) : Except Fault Int := do
  check octets
  return signedValue octets

/-- A magnitude without redundant leading zeros. At least one octet stays. -/
def trim : Octets → Octets
  | [] => [0]
  | [octet] => [octet]
  | first :: second :: rest => if first = 0 then trim (second :: rest) else first :: second :: rest

/-- The octet that keeps a magnitude from reading as negative, if it needs one. -/
def signOctets (magnitude : Octets) : Octets :=
  if startsHigh magnitude then [0] else []

/-- How many octets lead the content without belonging to the magnitude. -/
def signWidth (octets : Octets) : Nat :=
  if 1 < octets.length ∧ octets.head? = some 0 then 1 else 0

/-- Refuses content that is not minimal or is negative. -/
def checkUnsigned (octets : Octets) : Except Fault Unit := do
  check octets
  if startsHigh octets then throw (.ofCause .negativeMagnitude)

end Der.Content.Integer
