import Der.Base128
import Der.Fault

namespace Der.Tag

/-- The least tag number that does not fit the first octet. -/
def leastHigh : Nat := 31

/-- Refuses tags that identifier octets cannot carry, and returns the number. Of the class only its
range is checked. -/
def checkNumber (t : Tag) : Except Fault Nat :=
  let wrongNumber := .error (.ofCause (.badTagNumber t.number))
  match t.number.toNat? with
  | some n =>
    if maxNumber < n then wrongNumber
    else if t.tagClass = .absent ∨ t.tagClass.less 0 ∨ Number.less 3 t.tagClass then
      .error (.ofCause (.badTagClass t.tagClass))
    else .ok n
  | none => wrongNumber

/-- The class and constructed bits of the first octet. A class that is no integer is cut to one. -/
def leadingBits (t : Tag) : Nat :=
  t.tagClass.truncate.toNat * 64 + if t.constructed then 32 else 0

/-- The identifier octets of a tag. -/
def encode (t : Tag) : Except Fault Octets := do
  let n ← t.checkNumber
  if n < leastHigh then return [UInt8.ofNat (t.leadingBits + n)]
  else return UInt8.ofNat (t.leadingBits + leastHigh) :: Base128.encode n

/-- How many identifier octets a tag takes. -/
def encodedLength (t : Tag) : Except Fault Nat := do
  let n ← t.checkNumber
  if n < leastHigh then return 1 else return 1 + Base128.width n

/-- Reads a tag and returns it with the octets that follow it. The first octet stands at `offset`. -/
def decode (offset : Nat) : Octets → Except Fault (Tag × Octets)
  | [] => .error (.coding .missingTag offset)
  | first :: rest =>
    let tag (n : Nat) : Tag := ⟨(first.toNat / 64 : Nat), first.toNat / 32 % 2 = 1, n⟩
    if first.toNat % 32 < leastHigh then .ok (tag (first.toNat % 32), rest)
    else match Base128.decode maxNumber rest with
      | .error .padded => .error (.coding .paddedTagNumber (offset + 1 : Nat))
      | .error .unterminated => .error (.coding .unterminatedTagNumber offset)
      | .error .oversized => .error (.coding .oversizedTagNumber offset)
      | .ok (n, rest) =>
        if n < leastHigh then .error (.coding (.shortTagNumber n) offset) else .ok (tag n, rest)

theorem suffix_of_decode {offset : Nat} {octets rest : Octets} {t : Tag}
    (read : decode offset octets = .ok (t, rest)) : rest <:+ octets := by
  cases octets with
  | nil => simp [decode] at read
  | cons first tail =>
    simp only [decode] at read
    split at read
    · injection read with pair
      injection pair with _ same
      exact same ▸ List.suffix_cons first tail
    · split at read <;> try contradiction
      next number =>
        split at read
        · contradiction
        · injection read with pair
          injection pair with _ same
          exact same ▸ (Base128.suffix_of_decode number).trans (List.suffix_cons first tail)

end Der.Tag
