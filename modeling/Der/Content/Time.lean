import Der.Calendar
import Der.Fault

namespace Der.Content.Time

/-- Month, day and time of day down to the second, two digits each. -/
def fields (t : DateTime) : List Char :=
  Digits.ofNat 2 t.month ++ Digits.ofNat 2 t.day ++ Digits.ofNat 2 t.hour ++ Digits.ofNat 2 t.minute ++ Digits.ofNat 2 t.second

/-- An instant with a fraction of a second, as messages show it. -/
def messageText (t : DateTime) : String :=
  let date := s!"{t.year}-{Digits.text 2 t.month}-{Digits.text 2 t.day}"
  let time := s!"{Digits.text 2 t.hour}:{Digits.text 2 t.minute}:{Digits.text 2 t.second}"
  s!"{date}T{time}.{Digits.text 3 t.milli}Z"

/-- The date and time of day of an instant that is one. -/
def dateTime (instant : Option Instant) : Except Fault DateTime :=
  match instant with
  | some t => .ok t.dateTime
  | none => .error (.ofCause .invalidInstant)

/-- The years of UTCTime. -/
def InUtcRange (t : DateTime) : Prop :=
  1950 ≤ t.year ∧ t.year ≤ 2049

instance (t : DateTime) : Decidable (InUtcRange t) :=
  inferInstanceAs (Decidable (_ ∧ _))

/-- The UTCTime text of an instant. -/
def utcText (instant : Option Instant) : Except Fault String := do
  let t ← dateTime instant
  if ¬ InUtcRange t then throw (.ofCause (.utcTimeYear t.year))
  if t.milli ≠ 0 then throw (.ofCause (.utcTimeFraction (messageText t)))
  return String.ofList (Digits.ofNat 2 (t.year % 100).toNat ++ fields t ++ ['Z'])

/-- A fraction of a second without trailing zeros, after its point. A whole second has none. -/
def fraction (milli : Nat) : List Char :=
  if milli = 0 then []
  else '.' :: ((Digits.ofNat 3 milli).reverse.dropWhile (· = '0')).reverse

/-- The GeneralizedTime text of an instant. -/
def generalizedText (instant : Option Instant) : Except Fault String := do
  let t ← dateTime instant
  if t.year < 0 ∨ 9999 < t.year then throw (.ofCause (.generalizedTimeYear t.year))
  return String.ofList (Digits.ofNat 4 t.year.toNat ++ fields t ++ fraction t.milli ++ ['Z'])

/-- The numbers in consecutive groups of two digits. -/
def pairs : List Char → List Nat
  | a :: b :: rest => Digits.toNat [a, b] :: pairs rest
  | _ => []

/-- The instant of a date and time of day, which must be valid. -/
def instant (t : DateTime) : Except Fault Instant :=
  let missing := .error (.ofCause
    (.noSuchDate t.year.toNat t.month t.day t.hour t.minute t.second))
  if t.Valid then
    match Instant.ofMillis? t.toMillis with
    | some i => .ok i
    | none => missing
  else missing

/-- The end of a time text: nothing, `Z`, or a signed offset of four digits. -/
def isZone : List Char → Bool
  | [] => true
  | ['Z'] => true
  | sign :: offset =>
    (sign = '+' || sign = '-') && offset.length = 4 && offset.all Char.isDigit

/-- The general form of UTCTime, with seconds and zone optional. -/
def isGeneralUtc (text : List Char) : Bool :=
  let count := (text.takeWhile Char.isDigit).length
  (count = 10 || count = 12) && isZone (text.dropWhile Char.isDigit)

/-- The general form of GeneralizedTime: minutes, seconds, fraction and zone are optional, but none
without those before it. -/
def isGeneralGeneralized (text : List Char) : Bool :=
  let count := (text.takeWhile Char.isDigit).length
  match text.dropWhile Char.isDigit with
  | mark :: rest =>
    if count = 14 ∧ (mark = '.' ∨ mark = ',') then isZone (rest.dropWhile Char.isDigit)
    else (count = 10 || count = 12 || count = 14) && isZone (mark :: rest)
  | [] => count = 10 || count = 12 || count = 14

/-- Reads a UTCTime text. Years from 50 on are of the twentieth century. -/
def ofUtcText (text : String) : Except Fault Instant :=
  let chars := text.toList
  match pairs (chars.takeWhile Char.isDigit), chars.dropWhile Char.isDigit with
  | [year, month, day, hour, minute, second], ['Z'] =>
    if (chars.takeWhile Char.isDigit).length = 12 then
      let century := if 50 ≤ year then 1900 else 2000
      instant ⟨(century + year : Nat), month, day, hour, minute, second, 0⟩
    else .error (.ofCause (.utcTimeForm (isGeneralUtc chars) text))
  | _, _ => .error (.ofCause (.utcTimeForm (isGeneralUtc chars) text))

/-- The digits of the fraction in the end of a GeneralizedTime text, if it is of the strict form. -/
def strictEnd? : List Char → Option (List Char)
  | ['Z'] => some []
  | '.' :: rest =>
    match rest.takeWhile Char.isDigit, rest.dropWhile Char.isDigit with
    | [], _ => none
    | fraction, ['Z'] => some fraction
    | _, _ => none
  | _ => none

/-- Reads a GeneralizedTime text. -/
def ofGeneralizedText (text : String) : Except Fault Instant :=
  let chars := text.toList
  let wrongForm := .error (.ofCause (.generalizedTimeForm (isGeneralGeneralized chars) text))
  match pairs (chars.takeWhile Char.isDigit), strictEnd? (chars.dropWhile Char.isDigit) with
  | [century, year, month, day, hour, minute, second], some fraction =>
    if (chars.takeWhile Char.isDigit).length ≠ 14 then wrongForm
    else if fraction.getLast? = some '0' then .error (.ofCause (.fractionZeros text))
    else if 3 < fraction.length then .error (.ofCause (.fineFraction text))
    else
      let milli := Digits.toNat (fraction ++ List.replicate (3 - fraction.length) '0')
      instant ⟨(century * 100 + year : Nat), month, day, hour, minute, second, milli⟩
  | _, _ => wrongForm

end Der.Content.Time
