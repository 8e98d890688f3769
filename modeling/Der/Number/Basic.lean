namespace Der

/-- A number that need not be a sensible count. -/
inductive Number where
  | integer (n : Int)
  /-- The value `numerator / 2 ^ twos`, in lowest terms and not an integer. -/
  | fraction (numerator : Int) (twos : Nat) (reduced : numerator % 2 = 1 ∧ 0 < twos)
  | infinite (negative : Bool)
  | nan
  /-- Nothing stands where a number should be. -/
  | absent
  deriving DecidableEq

namespace Number

instance (n : Nat) : OfNat Number n := ⟨.integer n⟩

instance : Coe Nat Number := ⟨fun n => .integer n⟩

/-- The number `n / 2 ^ k`. -/
def binary (n : Int) : Nat → Number
  | 0 => .integer n
  | k + 1 => if h : n % 2 = 1 then .fraction n (k + 1) ⟨h, k.succ_pos⟩ else binary (n / 2) k

/-- Numeric equality. The value that is no number is unequal to itself. -/
def same (a b : Number) : Bool :=
  a = b && a ≠ .nan

/-- The order of two numbers, if they have one. -/
def compare? : Number → Number → Option Ordering
  | .nan, _ | _, .nan | .absent, _ | _, .absent => none
  | .infinite a, .infinite b => some (compare b a)
  | .infinite a, _ => some (if a then .lt else .gt)
  | _, .infinite b => some (if b then .gt else .lt)
  | .integer m, .integer n => some (compare m n)
  | .integer m, .fraction n k _ => some (compare (m * Nat.pow 2 k) n)
  | .fraction m j _, .integer n => some (compare m (n * Nat.pow 2 j))
  | .fraction m j _, .fraction n k _ => some (compare (m * Nat.pow 2 k) (n * Nat.pow 2 j))

/-- Strictly less; false when either side is no number. -/
def less (a b : Number) : Bool :=
  compare? a b == some .lt

@[simp] theorem less_integer (m n : Int) : less (.integer m) (.integer n) = decide (m < n) := by
  rw [Bool.eq_iff_iff, decide_eq_true_iff]
  simp [less, compare?, Int.compare_eq_lt]

/-- Equal or greater; false when either side is no number. -/
def reaches (a b : Number) : Bool :=
  compare? a b == some .eq || compare? a b == some .gt

/-- The natural number that this number is, if it is one. -/
def toNat? : Number → Option Nat
  | .integer (.ofNat n) => some n
  | _ => none

/-- The integer part, cut towards zero. What has none counts as zero. -/
def truncate : Number → Int
  | .integer n => n
  | .fraction n k _ => n.tdiv (Nat.pow 2 k)
  | .infinite _ | .nan | .absent => 0

/-- The last eight bits of the integer part, in two's complement. -/
def lowOctet (n : Number) : UInt8 :=
  UInt8.ofNat (n.truncate % 256).toNat

/-- The largest integer below which every integer is told apart from its neighbours. -/
def maxSafe : Nat := 9007199254740991

/-- The integer that this number is, if its magnitude is at most `maxSafe`. -/
def toSafe? : Number → Option Int
  | .integer n => if n.natAbs ≤ maxSafe then some n else none
  | _ => none

end Number

end Der
