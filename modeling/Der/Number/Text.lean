import Der.Number.Double

namespace Der

/-- The decimal `digits * 10 ^ exponent`. -/
structure Decimal where
  digits : Nat
  exponent : Int

namespace Decimal

/-- The decimal as a quotient. -/
def toRatio (d : Decimal) : Ratio :=
  .scaled d.digits 10 d.exponent

/-- Whether the decimal lies among the reals that round to the double. The ends of that interval are
halfway to the neighbours and belong to it when the significand is even. Below a power of two the
neighbour is twice as near. -/
def readsBack (d : Decimal) (x : Double) : Bool :=
  let narrow := x.significand = Double.leastFull ∧ x.exponent > Double.leastExponent
  let low := Ratio.scaled (4 * x.significand - if narrow then 1 else 2) 2 (x.exponent - 2)
  let high := Ratio.scaled (4 * x.significand + 2) 2 (x.exponent - 2)
  let even := x.significand % 2 = 0
  let fromLow := d.toRatio.compare low
  let toHigh := d.toRatio.compare high
  (fromLow = .gt || even && fromLow = .eq) && (toHigh = .lt || even && toHigh = .eq)

/-- How many digits stand before the decimal point; for a value below one, minus the number of zeros
that follow the point. -/
def magnitude (r : Ratio) : Int :=
  if r.den ≤ r.num then (Nat.toDigits 10 r.floor).length
  else -Int.ofNat (((List.range 400).find? fun k => r.den ≤ r.num * Nat.pow 10 (k + 1)).getD 0)

/-- Of the two neighbours of the value on the grid of `10 ^ exponent`, the one that reads back, and
the nearer of the two if both do. -/
def onGrid? (x : Double) (r : Ratio) (exponent : Int) : Option Decimal :=
  let steps := r.divide (.scaled 1 10 exponent)
  let below : Decimal := ⟨steps.floor, exponent⟩
  let above : Decimal := ⟨steps.floor + 1, exponent⟩
  match below.readsBack x, above.readsBack x with
  | true, true => some ⟨steps.round, exponent⟩
  | true, false => some below
  | false, true => some above
  | false, false => none

/-- Trailing zeros of the digits moved into the exponent, `fuel` of them at most. -/
def strip : Nat → Decimal → Decimal
  | 0, d => d
  | fuel + 1, d =>
    if d.digits ≠ 0 ∧ d.digits % 10 = 0 then strip fuel ⟨d.digits / 10, d.exponent + 1⟩ else d

/-- The decimal with the fewest digits that reads back to the double nearest to a positive value.
Seventeen digits always do. -/
def shortest (r : Ratio) : Decimal :=
  let x := Double.nearest r
  let value := Ratio.scaled x.significand 2 x.exponent
  let lead := magnitude value
  let hit := (List.range 17).findSome? fun (k : Nat) => onGrid? x value (lead - (k + 1))
  strip 17 (hit.getD ⟨(value.divide (.scaled 1 10 (lead - 17))).floor, lead - 17⟩)

/-- Positional text when the first digit stands at most 21 places before the point or at most six
behind it; else the digits with a point after the first, and an exponent with its sign. -/
def text (d : Decimal) : String :=
  let digits := Nat.toDigits 10 d.digits
  let count : Int := digits.length
  let point := count + d.exponent
  if count ≤ point ∧ point ≤ 21 then
    String.ofList (digits ++ List.replicate (point - count).toNat '0')
  else if 0 < point ∧ point ≤ 21 then
    String.ofList (digits.take point.toNat ++ '.' :: digits.drop point.toNat)
  else if -6 < point ∧ point ≤ 0 then
    String.ofList ('0' :: '.' :: List.replicate (-point).toNat '0' ++ digits)
  else
    let sign := if point - 1 < 0 then '-' else '+'
    let fraction := if digits.length = 1 then [] else '.' :: digits.drop 1
    String.ofList (digits.take 1 ++ fraction ++ 'e' :: sign :: Nat.toDigits 10 (point - 1).natAbs)

end Decimal

namespace Number

/-- The text of a number of sign and magnitude. -/
def signedText (negative : Bool) (r : Ratio) : String :=
  (if negative then "-" else "") ++ (Decimal.shortest r).text

/-- The text of a number in messages. An integer that is told apart from its neighbours is written
in full. -/
def text : Number → String
  | .integer n =>
    if n.natAbs ≤ maxSafe + 1 then toString n else signedText (n < 0) ⟨n.natAbs, 1⟩
  | .fraction n k _ => signedText (n < 0) ⟨n.natAbs, Nat.pow 2 k⟩
  | .infinite false => "Infinity"
  | .infinite true => "-Infinity"
  | .nan => "NaN"
  | .absent => "undefined"

end Number

end Der

namespace Der.Digits

/-- The natural number that decimal digits denote. -/
def toNat (digits : List Char) : Nat :=
  digits.foldl (fun n c => n * 10 + (c.toNat - '0'.toNat)) 0

/-- The digits of a natural number, filled up with zeros on the left. -/
def ofNat (width n : Nat) : List Char :=
  let digits := Nat.toDigits 10 n
  List.replicate (width - digits.length) '0' ++ digits

/-- The digits of a natural number as text, filled up with zeros on the left. -/
def text (width n : Nat) : String :=
  String.ofList (ofNat width n)

end Der.Digits
