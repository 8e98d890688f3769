import Der.Number.Text

namespace Der

/-- The tag of an element. -/
structure Tag where
  tagClass : Number
  constructed : Bool
  number : Number
  deriving DecidableEq

/-- The four tag classes, in their canonical order. -/
inductive TagClass where
  | universal
  | application
  | contextSpecific
  | privateUse
  deriving DecidableEq

namespace TagClass

/-- The two bits of a class in the identifier octet. -/
def toNat : TagClass → Nat
  | universal => 0
  | application => 1
  | contextSpecific => 2
  | privateUse => 3

/-- The class as a number. -/
def toNumber (c : TagClass) : Number :=
  c.toNat

/-- The name of a class number in messages. There are names for four classes only. -/
def nameOf (n : Number) : String :=
  match n.toNat? with
  | some 0 => "UNIVERSAL"
  | some 1 => "APPLICATION"
  | some 2 => "CONTEXT"
  | some 3 => "PRIVATE"
  | _ => "undefined"

end TagClass

namespace Tag

/-- The largest tag number that is read or written. -/
def maxNumber : Nat := 4294967295

/-- Tags with a class from 0 to 3 and a natural number of at most 32 bits. -/
def WellFormed (t : Tag) : Prop :=
  ∃ c n : Nat, c ≤ 3 ∧ n ≤ maxNumber ∧ t.tagClass = c ∧ t.number = n

/-- A tag of the given class. -/
def ofClass (c : TagClass) (number : Number) (constructed : Bool) : Tag :=
  ⟨c.toNumber, constructed, number⟩

/-- The tag of a primitive universal type. -/
def universal (number : Number) : Tag :=
  ofClass .universal number false

/-- Equality of class, number and constructed bit. A class or number that is no number is unequal to
itself. -/
def equals (a b : Tag) : Bool :=
  a.tagClass.same b.tagClass && a.number.same b.number && a.constructed == b.constructed

/-- The canonical order: by class, then by number. The result is the signed distance. -/
def compare (a b : Tag) : Number :=
  if a.tagClass.same b.tagClass then a.number.sub b.number else a.tagClass.sub b.tagClass

/-- The tag in messages. -/
def text (t : Tag) : String :=
  let form := if t.constructed then "constructed" else "primitive"
  s!"[{TagClass.nameOf t.tagClass} {t.number.text}] {form}"

end Tag

end Der
