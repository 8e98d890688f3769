import Der.Calendar
import Der.Slice

namespace Der

/-- A bit string value. The count of unused bits may be any number until the value is written. -/
structure BitString where
  unused : Number
  data : Slice
  deriving DecidableEq

namespace BitString

/-- A bit string of whole octets. -/
def octetAligned (data : Slice) : BitString :=
  ⟨0, data⟩

/-- The count of unused bits, if it is from zero to seven. -/
def unusedCount (unused : Number) : Except Fault Nat :=
  match unused.toNat? with
  | some n => if n ≤ 7 then .ok n else .error (.ofCause (.badUnusedBits unused))
  | none => .error (.ofCause (.badUnusedBits unused))

/-- Refuses counts of unused bits that do not fit the octets, and unused bits that are set. Returns
the count. -/
def check (unused : Number) (data : Octets) : Except Fault Nat := do
  let count ← unusedCount unused
  match data.getLast? with
  | none => if count = 0 then return count else throw (.ofCause (.unusedBitsOfNothing unused))
  | some last =>
    if last.toNat % Nat.pow 2 count = 0 then return count else throw (.ofCause .nonzeroPadding)

end BitString

/-- An element that has been captured without interpreting it. -/
structure Any where
  tag : Tag
  /-- The content octets. -/
  value : Slice
  /-- The whole element. -/
  encoded : Slice
  deriving DecidableEq

/-- What a record has without having been given it: a function with a name and so many parameters, or the
prototype that all records inherit these functions from. -/
inductive Inherited where
  | function (name : String) (parameters : Fin 3)
  | prototype
  deriving DecidableEq

namespace Inherited

/-- The text of an inherited member where one is wanted. -/
def text : Inherited → String
  | function name _ => "function " ++ name ++ "() \x7b [native code] \x7d"
  | prototype => "[object Object]"

/-- The members that all records inherit, by the names under which they are found. -/
def all : List (String × Inherited) :=
  [("constructor", function "Object" 1), ("hasOwnProperty", function "hasOwnProperty" 1),
    ("isPrototypeOf", function "isPrototypeOf" 1),
    ("propertyIsEnumerable", function "propertyIsEnumerable" 1), ("toString", function "toString" 0),
    ("toLocaleString", function "toLocaleString" 0), ("valueOf", function "valueOf" 0),
    ("__defineGetter__", function "__defineGetter__" 2),
    ("__defineSetter__", function "__defineSetter__" 2),
    ("__lookupGetter__", function "__lookupGetter__" 1),
    ("__lookupSetter__", function "__lookupSetter__" 1), ("__proto__", prototype)]

/-- The member that all records inherit under a name. -/
def ofName? (name : String) : Option Inherited :=
  all.lookup name

end Inherited

/-- A value that can be written or has been read. An instant may be missing from a time, which then
cannot be written. -/
inductive Value where
  | null
  /-- What stands where no value was given. -/
  | undefined
  | boolean (b : Bool)
  | number (n : Number)
  | text (s : String)
  /-- A text as UTF-16 units, among which a surrogate may stand alone. -/
  | utf16 (units : List UInt16)
  | integer (n : Int)
  | octets (s : Slice)
  | bits (b : BitString)
  | time (t : Option Instant)
  | any (a : Any)
  | list (items : List Value)
  /-- A list with a hole between the items before it and those after it. An undefined value among them
  stands for one more hole. -/
  | sparse (before after : List Value)
  | record (entries : List (String × Value))
  | inherited (x : Inherited)

/-- The named members of a record. No name occurs twice in a record that was read. -/
abbrev Record := List (String × Value)

namespace Record

/-- The entry of the given name. -/
def get? (r : Record) (name : String) : Option Value :=
  r.lookup name

/-- The member that the record was given under the name. An undefined one counts as none. -/
def own? (r : Record) (name : String) : Option Value :=
  match r.get? name with
  | some .undefined => none
  | found => found

/-- The member that is found under the name. A record without an entry of the name may inherit one. -/
def member? (r : Record) (name : String) : Option Value :=
  match r.get? name with
  | some .undefined => none
  | some value => some value
  | none => (Inherited.ofName? name).map .inherited

/-- The record with one member set, in its place if it was there and else at the end. -/
def insert (name : String) (value : Value) : Record → Record
  | [] => [(name, value)]
  | entry :: rest =>
    if entry.1 = name then (name, value) :: rest else entry :: insert name value rest

/-- The record after a value has been assigned under a name. What is assigned under the name of the
prototype does not become a member. -/
def assign (r : Record) (name : String) (value : Value) : Record :=
  if name = "__proto__" then r else r.insert name value

/-- The members of a list under the places from the given one on. -/
def ofItems (place : Nat) : List Value → Record
  | [] => []
  | item :: rest => (toString place, item) :: ofItems (place + 1) rest

end Record

namespace Value

mutual

/-- The value with all its windows changed. -/
def mapSlices (change : Slice → Slice) : Value → Value
  | octets s => .octets (change s)
  | bits b => .bits ⟨b.unused, change b.data⟩
  | any a => .any ⟨a.tag, change a.value, change a.encoded⟩
  | list items => .list (mapItems change items)
  | sparse before after => .sparse (mapItems change before) (mapItems change after)
  | record entries => .record (mapEntries change entries)
  | other => other

/-- The values of a list with all their windows changed. -/
def mapItems (change : Slice → Slice) : List Value → List Value
  | [] => []
  | item :: rest => mapSlices change item :: mapItems change rest

/-- The members of a record with all their windows changed. -/
def mapEntries (change : Slice → Slice) : List (String × Value) → List (String × Value)
  | [] => []
  | (name, value) :: rest => (name, mapSlices change value) :: mapEntries change rest

end

/-- The value after the holder of the document it was read from has changed the document. -/
def onDocument (change : Octets → Octets) (v : Value) : Value :=
  v.mapSlices (Slice.onDocument change)

/-- The truth of a value. The null and the undefined value, zero, the number that is none and the empty
text are false, and so is the boolean of that name. -/
def truth : Value → Bool
  | null | undefined => false
  | boolean b => b
  | number n => n ≠ 0 && n ≠ .nan
  | integer n => n ≠ 0
  | text s => s ≠ ""
  | utf16 units => units ≠ []
  | octets _ | bits _ | time _ | any _ | list _ | sparse _ _ | record _ | inherited _ => true

/-- The members of a value where a record is wanted. Simple values and functions are refused under the
name of the constructed type; every other value has the members that its kind is made of, except that
the source of a window and its place there are its own affair. -/
def toRecord (name : String) : Value → Except Fault Record
  | record entries => .ok entries
  | octets s => .ok [("length", .number s.length)]
  | bits b => .ok [("unusedBits", .number b.unused), ("data", .octets b.data)]
  | any a =>
    .ok [("tag", .record [("tagClass", .number a.tag.tagClass),
        ("constructed", .boolean a.tag.constructed), ("tagNumber", .number a.tag.number)]),
      ("value", .octets a.value), ("encoded", .octets a.encoded)]
  | list items => .ok (.ofItems 0 items)
  | sparse before after => .ok (.ofItems 0 before ++ .ofItems (before.length + 1) after)
  | time _ | inherited .prototype => .ok []
  | null => .error (.ofCause (.notRecord name "null"))
  | undefined => .error (.ofCause (.notRecord name "undefined"))
  | boolean _ => .error (.ofCause (.notRecord name "boolean"))
  | number _ => .error (.ofCause (.notRecord name "number"))
  | text _ | utf16 _ => .error (.ofCause (.notRecord name "string"))
  | integer _ => .error (.ofCause (.notRecord name "bigint"))
  | inherited (.function _ _) => .error (.ofCause (.notRecord name "function"))

end Value

end Der
