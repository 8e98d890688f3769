import Der.Base128
import Der.Fault

namespace Der.Content.ObjectIdentifier

/-- The parts of a text between its dots. -/
def parts : List Char → List (List Char)
  | [] => [[]]
  | c :: rest =>
    if c = '.' then [] :: parts rest
    else match parts rest with
      | [] => [[c]]
      | part :: more => (c :: part) :: more

/-- Decimal digits without a leading zero, or a single zero. -/
def isArc : List Char → Bool
  | [] => false
  | c :: rest => c.isDigit && rest.all Char.isDigit && (c ≠ '0' || rest.isEmpty)

/-- Reads one arc of a text. -/
def arc (text : String) (part : List Char) : Except Fault Nat :=
  if !isArc part then .error (.ofCause (.badArc (String.ofList part) text))
  else if Number.maxSafe < Digits.toNat part then
    .error (.ofCause (.oversizedArc (String.ofList part)))
  else .ok (Digits.toNat part)

/-- The subidentifiers of an object identifier in dotted decimal form. -/
def subidentifiers (text : String) : Except Fault (List Nat) := do
  let parts := parts text.toList
  if parts.length < 2 then throw (.ofCause (.fewArcs text))
  match ← parts.mapM (arc text) with
  | first :: second :: more =>
    if 2 < first then throw (.ofCause (.badFirstArc first))
    if first < 2 ∧ 40 ≤ second then throw (.ofCause (.badSecondArc first second))
    if Number.maxSafe < first * 40 + second then
      throw (.ofCause (.oversizedArc (toString second)))
    return (first * 40 + second) :: more
  | _ => throw (.ofCause (.fewArcs text))

/-- How many content octets an object identifier takes. -/
def width (text : String) : Except Fault Nat := do
  let numbers ← subidentifiers text
  return numbers.foldl (fun total n => total + Base128.width n) 0

/-- The content octets of an object identifier. -/
def encode (text : String) : Except Fault Octets := do
  let numbers ← subidentifiers text
  return numbers.flatMap Base128.encode

/-- Reads subidentifiers up to the end of the content, of which `size` octets there are in all. -/
def readAll (size : Nat) (octets : Octets) : Except Fault (List Nat) :=
  if octets.isEmpty then .ok []
  else match h : Base128.decode Number.maxSafe octets with
    | .error .padded => .error (.ofCause (.paddedSubidentifier (size - octets.length)))
    | .error .unterminated => .error (.ofCause (.truncatedSubidentifier size))
    | .error .oversized => .error (.ofCause .oversizedSubidentifier)
    | .ok (n, rest) =>
      have : rest.length < octets.length := Base128.length_lt_of_decode h
      (readAll size rest).map (n :: ·)
  termination_by octets.length

/-- The first two arcs in a first subidentifier. -/
def splitFirst (n : Nat) : Nat × Nat :=
  if n < 40 then (0, n) else if n < 80 then (1, n - 40) else (2, n - 80)

/-- Reads content octets as dotted decimal text. -/
def decode (octets : Octets) : Except Fault String := do
  match ← readAll octets.length octets with
  | [] => throw (.ofCause .emptyIdentifier)
  | head :: more =>
    let (first, second) := splitFirst head
    return ".".intercalate ((first :: second :: more).map toString)

end Der.Content.ObjectIdentifier
