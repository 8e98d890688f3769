namespace Der

/-- An octet string is a plain list, so that cutting and joining is list algebra. -/
abbrev Octets := List UInt8

namespace Octets

/-- The octets from `start` up to, but not including, `stop`. -/
def between (octets : Octets) (start stop : Nat) : Octets :=
  (octets.take stop).drop start

/-- The octets with those from `position` on replaced by `patch`, as far as it reaches. -/
def overwrite (octets : Octets) (position : Nat) (patch : Octets) : Octets :=
  octets.take position ++ patch ++ octets.drop (position + patch.length)

/-- The two hexadecimal digits of an octet, in lower case. -/
def hexPair (octet : UInt8) : List Char :=
  [Nat.digitChar (octet.toNat / 16), Nat.digitChar (octet.toNat % 16)]

/-- Hexadecimal text, two lower-case digits for each octet. -/
def toHex (octets : Octets) : String :=
  String.ofList (octets.flatMap hexPair)

/-- The signed distance at the first difference: of the octets there, or of the lengths when one
string begins the other. Its sign is the lexicographic order. -/
def compare : Octets → Octets → Int
  | a :: as, b :: bs => if a = b then compare as bs else (a.toNat : Int) - b.toNat
  | as, bs => (as.length : Int) - bs.length

/-- Octet strings in non-descending lexicographic order. The sort is stable. -/
def sort (strings : List Octets) : List Octets :=
  strings.mergeSort fun a b => decide (compare a b ≤ 0)

/-- The natural number that the octets denote, most significant octet first. -/
def toNat (octets : Octets) : Nat :=
  octets.foldl (fun n octet => n * 256 + octet.toNat) 0

/-- The last `count` octets of a natural number, most significant first. -/
def ofNat : Nat → Nat → Octets
  | 0, _ => []
  | count + 1, n => ofNat count (n / 256) ++ [UInt8.ofNat n]

/-- How many octets a natural number takes. Zero takes one. -/
def width (n : Nat) : Nat :=
  n.log2 / 8 + 1

end Octets

end Der
