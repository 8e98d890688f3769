import Der.Fault

namespace Der.Content.Text

/-- The UTF-8 octets of a text. -/
def encodeUtf8 (text : String) : Octets :=
  text.toUTF8.data.toList

/-- The character that a UTF-16 unit stands for without a partner. There is none for half of a pair. -/
def ofUnit (unit : UInt16) : Char :=
  if 0xD800 ≤ unit.toNat ∧ unit.toNat < 0xE000 then Char.ofNat 0xFFFD else Char.ofNat unit.toNat

/-- The characters of UTF-16 units. -/
def scalars : List UInt16 → List Char
  | [] => []
  | [unit] => [ofUnit unit]
  | high :: low :: rest =>
    if 0xD800 ≤ high.toNat ∧ high.toNat < 0xDC00 ∧ 0xDC00 ≤ low.toNat ∧ low.toNat < 0xE000 then
      Char.ofNat (0x10000 + (high.toNat - 0xD800) * 0x400 + (low.toNat - 0xDC00)) :: scalars rest
    else ofUnit high :: scalars (low :: rest)

/-- The text of UTF-16 units. Half of a pair becomes the replacement character. -/
def ofUtf16 (units : List UInt16) : String :=
  String.ofList (scalars units)

/-- Reads UTF-8. Overlong forms, surrogates and truncated characters are refused. -/
def decodeUtf8 (octets : Octets) : Except Fault String :=
  match String.fromUTF8? ⟨octets.toArray⟩ with
  | some text => .ok text
  | none => .error (.ofCause .malformedUtf8)

/-- Reads octets below 128, each a character. -/
def decodeAscii (octets : Octets) : Except Fault String :=
  match octets.find? fun octet => 128 ≤ octet.toNat with
  | some octet => .error (.ofCause (.nonAscii octet))
  | none => .ok (String.ofList (octets.map fun octet => Char.ofNat octet.toNat))

/-- The alphabet of a PrintableString. -/
def isPrintable (c : Char) : Bool :=
  c.isAlphanum || [' ', '\'', '(', ')', '+', ',', '-', '.', '/', ':', '=', '?'].contains c

/-- The alphabet of an IA5String. -/
def isIa5 (c : Char) : Bool :=
  c.toNat < 128

/-- Refuses a text with a character outside the alphabet of the named type. -/
def check (name : String) (alphabet : Char → Bool) (text : String) : Except Fault String :=
  if text.toList.all alphabet then .ok text else .error (.ofCause (.outsideAlphabet name text))

end Der.Content.Text

namespace Der.Hex

/-- Blanks: the horizontal and vertical controls, the space separators of Unicode, the line and
paragraph separators and the byte order mark. -/
def isBlank (c : Char) : Bool :=
  let n := c.toNat
  (9 ≤ n && n ≤ 13) || (0x2000 ≤ n && n ≤ 0x200A) ||
    [0x20, 0xA0, 0x1680, 0x2028, 0x2029, 0x202F, 0x205F, 0x3000, 0xFEFF].contains n

/-- The value of a hexadecimal digit of either case. -/
def digit? (c : Char) : Option Nat :=
  if c.isDigit then some (c.toNat - '0'.toNat)
  else if 'a' ≤ c ∧ c ≤ 'f' then some (c.toNat - 'a'.toNat + 10)
  else if 'A' ≤ c ∧ c ≤ 'F' then some (c.toNat - 'A'.toNat + 10)
  else none

/-- The octets of pairs of digits. -/
def pairs? : List Char → Option Octets
  | [] => some []
  | [_] => none
  | high :: low :: rest => do
    let high ← digit? high
    let low ← digit? low
    let octets ← pairs? rest
    return UInt8.ofNat (high * 16 + low) :: octets

/-- The octets of a hexadecimal text. -/
def decode (text : String) : Except Fault Octets :=
  match pairs? (text.toList.filter fun c => !isBlank c) with
  | some octets => .ok octets
  | none => .error (.misuse (.badHex text))

end Der.Hex
