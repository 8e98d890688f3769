import Der.Number.Basic

namespace Der

/-- A non-negative quotient of natural numbers. -/
structure Ratio where
  num : Nat
  den : Nat

namespace Ratio

/-- The quotient `n * base ^ exponent`. -/
def scaled (n base : Nat) : Int → Ratio
  | .ofNat k => ⟨n * Nat.pow base k, 1⟩
  | .negSucc k => ⟨n, Nat.pow base (k + 1)⟩

/-- How the first quotient compares with the second, by cross-multiplication. -/
def compare (a b : Ratio) : Ordering :=
  Ord.compare (a.num * b.den) (b.num * a.den)

/-- The quotient of two quotients. -/
def divide (a b : Ratio) : Ratio :=
  ⟨a.num * b.den, a.den * b.num⟩

/-- The largest natural number that is at most the quotient. -/
def floor (r : Ratio) : Nat :=
  r.num / r.den

/-- The nearest natural number. A half goes to the even neighbour. -/
def round (r : Ratio) : Nat :=
  match Ord.compare (2 * (r.num % r.den)) r.den with
  | .lt => r.floor
  | .gt => r.floor + 1
  | .eq => r.floor + r.floor % 2

end Ratio

/-- The value `significand * 2 ^ exponent` of double precision. -/
structure Double where
  significand : Nat
  exponent : Int

namespace Double

/-- The significand has 53 bits unless the exponent is the least one. -/
def leastExponent : Int := -1074

/-- A rounded value whose exponent is larger is beyond the largest double. -/
def greatestExponent : Int := 971

/-- The first significand of 53 bits. -/
def leastFull : Nat := Nat.pow 2 52

/-- The exponent at which a positive quotient has a significand of 53 bits. -/
def exponentOf (r : Ratio) : Int :=
  let guess : Int := (r.num.log2 : Int) - r.den.log2 - 52
  let exact := if r.compare (Ratio.scaled leastFull 2 guess) = .lt then guess - 1 else guess
  max exact leastExponent

/-- The double nearest to a positive quotient. -/
def nearest (r : Ratio) : Double :=
  let exponent := exponentOf r
  let significand := (r.divide (Ratio.scaled 1 2 exponent)).round
  if significand = 2 * leastFull then ⟨leastFull, exponent + 1⟩ else ⟨significand, exponent⟩

/-- The double as a number, infinite when it is too large. -/
def toNumber (d : Double) (negative : Bool) : Number :=
  let signed : Int := if negative then -d.significand else d.significand
  if d.exponent > greatestExponent then .infinite negative
  else match d.exponent with
    | .ofNat k => .integer (signed * Nat.pow 2 k)
    | .negSucc k => .binary signed (k + 1)

end Double

namespace Number

/-- The number of double precision nearest to a signed quotient. An integer of at most 53 bits is its
own nearest number. -/
def nearest (num : Int) (den : Nat) : Number :=
  if num = 0 ∨ den = 1 ∧ num.natAbs ≤ maxSafe then .integer num
  else (Double.nearest ⟨num.natAbs, den⟩).toNumber (num < 0)

/-- Numerator and binary logarithm of the denominator of a finite number. -/
def finite? : Number → Option (Int × Nat)
  | .integer n => some (n, 0)
  | .fraction n k _ => some (n, k)
  | .infinite _ | .nan | .absent => none

/-- The sum, rounded to double precision. Opposite infinities have none. -/
def add (a b : Number) : Number :=
  match a.finite?, b.finite? with
  | some (m, j), some (n, k) =>
    nearest (m * Nat.pow 2 k + n * Nat.pow 2 j) (Nat.pow 2 (j + k))
  | some _, none => if b = .absent then .nan else b
  | none, some _ => if a = .absent then .nan else a
  | none, none => if a = b ∧ a ≠ .absent then a else .nan

/-- The number with the opposite sign. -/
def neg : Number → Number
  | .integer n => .integer (-n)
  | .fraction n k h => .fraction (-n) k (by omega)
  | .infinite negative => .infinite (!negative)
  | .nan | .absent => .nan

/-- The difference, rounded to double precision. -/
def sub (a b : Number) : Number :=
  a.add b.neg

end Number

end Der
