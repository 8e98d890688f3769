namespace Der

/-- A point in time, in milliseconds since the start of 1970, at most a hundred million days away. -/
structure Instant where
  millis : Int
  bounded : millis.natAbs ≤ 8640000000000000
  deriving DecidableEq

/-- The instant of a count of milliseconds, if it is near enough. -/
def Instant.ofMillis? (millis : Int) : Option Instant :=
  if h : millis.natAbs ≤ 8640000000000000 then some ⟨millis, h⟩ else none

/-- A date and a time of day. Month and day count from one. -/
structure DateTime where
  year : Int
  month : Nat
  day : Nat
  hour : Nat
  minute : Nat
  second : Nat
  milli : Nat
  deriving DecidableEq

namespace Calendar

/-- Whether a year has 366 days. -/
def isLeap (year : Int) : Bool :=
  year % 4 = 0 && (year % 100 ≠ 0 || year % 400 = 0)

/-- The lengths of the months of a common or of a leap year. -/
def monthLengths (leap : Bool) : List Nat :=
  [31, if leap then 29 else 28, 31, 30, 31, 30, 31, 31, 30, 31, 30, 31]

/-- The length of a month. It is zero if there is no such month. -/
def daysInMonth (year : Int) (month : Nat) : Nat :=
  if month = 0 then 0 else (monthLengths (isLeap year)).getD (month - 1) 0

/-- The days from the start of year zero to the start of a year. -/
def daysBeforeYear (year : Int) : Int :=
  365 * year + (year + 3) / 4 - (year + 99) / 100 + (year + 399) / 400

/-- The days of a year before the start of a month. -/
def daysBeforeMonth (year : Int) (month : Nat) : Nat :=
  ((monthLengths (isLeap year)).take (month - 1)).foldl (· + ·) 0

/-- The days from the start of year zero to the start of 1970. -/
def epoch : Int := 719528

/-- The year in which a day falls, counted from the start of year zero. The first guess is at most
one off. -/
def yearOf (days : Int) : Int :=
  let guess := days * 400 / 146097
  if days < daysBeforeYear guess then guess - 1
  else if daysBeforeYear (guess + 1) ≤ days then guess + 1
  else guess

/-- Month and day of a day of the year, both counted from one, given the lengths of the months. -/
def monthAndDay : List Nat → Nat → Nat × Nat
  | [], days => (1, days + 1)
  | length :: rest, days =>
    if days < length then (1, days + 1)
    else
      let (month, day) := monthAndDay rest (days - length)
      (month + 1, day)

/-- The milliseconds of a day. -/
def dayLength : Int := 86400000

end Calendar

namespace DateTime

open Calendar

/-- Whether there is such a date and time of day. There are no leap seconds. -/
def Valid (t : DateTime) : Prop :=
  1 ≤ t.month ∧ t.month ≤ 12 ∧ 1 ≤ t.day ∧ t.day ≤ daysInMonth t.year t.month ∧ t.hour < 24 ∧
    t.minute < 60 ∧ t.second < 60 ∧ t.milli < 1000

instance (t : DateTime) : Decidable t.Valid :=
  inferInstanceAs (Decidable (_ ∧ _))

/-- The milliseconds since the start of 1970. -/
def toMillis (t : DateTime) : Int :=
  let days := daysBeforeYear t.year + daysBeforeMonth t.year t.month + t.day - 1 - epoch
  days * dayLength + (((t.hour * 60 + t.minute) * 60 + t.second) * 1000 + t.milli : Nat)

/-- Date and time of day from the milliseconds since the start of 1970. -/
def ofMillis (millis : Int) : DateTime :=
  let days := millis / dayLength + epoch
  let rest := (millis % dayLength).toNat
  let year := yearOf days
  let (month, day) := monthAndDay (monthLengths (isLeap year)) (days - daysBeforeYear year).toNat
  ⟨year, month, day, rest / 3600000, rest / 60000 % 60, rest / 1000 % 60, rest % 1000⟩

end DateTime

/-- Date and time of day of an instant. -/
def Instant.dateTime (t : Instant) : DateTime :=
  .ofMillis t.millis

end Der
