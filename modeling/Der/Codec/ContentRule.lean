import Der.Codec.Basic
import Der.Content.Integer
import Der.Content.ObjectIdentifier
import Der.Content.Text
import Der.Content.Time

namespace Der

/-- The rules for the content octets of a primitive type. They are meant for values of the kind that the
type is for, and for what a record inherits under the name of a field, or has where a list has a hole. Any
other value is refused in both passes. -/
structure ContentRule where
  length : Value → Except Fault Nat
  write : Value → Encoding Unit
  read : Slice → Except Fault Value

namespace ContentRule

/-- The fault of a value of another kind. -/
def unsuitable (name : String) : Fault :=
  .ofCause (.unsuitable name)

/-- A rule for values whose content octets are computed as a whole. -/
def ofOctets (length : Value → Except Fault Nat) (octets : Value → Except Fault Octets)
    (read : Octets → Except Fault Value) : ContentRule where
  length := length
  write v := do Encoding.octets (← octets v)
  read window := do read (← window.octets)

/-- One octet, all of whose bits are equal. Every value has a truth, so every value can be written. -/
def boolean : ContentRule :=
  .ofOctets (fun _ => .ok 1)
    (fun v => .ok [if v.truth then 255 else 0])
    fun
      | [octet] =>
        if octet = 0 then .ok (.boolean false)
        else if octet = 255 then .ok (.boolean true)
        else .error (.ofCause (.badBoolean octet))
      | octets => .error (.ofCause (.booleanLength octets.length))

/-- The integer of an INTEGER. -/
def asInteger : Value → Except Fault Int
  | .integer n => .ok n
  | _ => .error (unsuitable "INTEGER")

/-- Two's complement of any size. What cannot be compared with an integer is measured as one octet, and
refused when it is written. -/
def integer : ContentRule :=
  .ofOctets
    (fun
      | .undefined | .inherited _ => .ok 1
      | v => do return Content.Integer.width (← asInteger v))
    (fun v => do return Content.Integer.encode (← asInteger v))
    fun octets => do return .integer (← Content.Integer.decode octets)

/-- The integer of an INTEGER that is handled as a number. -/
def asSafeInteger : Value → Except Fault Int
  | .number x =>
    match x.toSafe? with
    | some n => .ok n
    | none => .error (.ofCause (.notSafeInteger x.text))
  | .undefined => .error (.ofCause (.notSafeInteger "undefined"))
  | .inherited x => .error (.ofCause (.notSafeInteger x.text))
  | _ => .error (unsuitable "INTEGER")

/-- Two's complement of safe integers. -/
def safeInteger : ContentRule :=
  .ofOctets (fun v => do return Content.Integer.width (← asSafeInteger v))
    (fun v => do return Content.Integer.encode (← asSafeInteger v))
    fun octets => do
      let n ← Content.Integer.decode octets
      if Number.maxSafe < n.natAbs then throw (.ofCause (.unsafeInteger n))
      return .number (.integer n)

/-- The window of a value that is one. -/
def asSlice (name : String) : Value → Except Fault Slice
  | .octets window => .ok window
  | _ => .error (unsuitable name)

/-- The magnitude of a non-negative INTEGER, without redundant zeros. -/
def magnitude (v : Value) : Except Fault Octets := do
  return Content.Integer.trim (← (← asSlice "INTEGER" v).octets)

/-- The window on the magnitude at the end of a window. An empty window has none, and the zero that it
stands for gets an octet of its own. -/
def onMagnitude (s : Slice) (m : Octets) : Slice :=
  if s.length < m.length then .ofOctets m else s.dropFirst (s.length - m.length)

/-- A non-negative INTEGER as a window on its magnitude. -/
def unsigned : ContentRule where
  length v := do
    let m ← magnitude v
    return m.length + (Content.Integer.signOctets m).length
  write v := do
    let s ← asSlice "INTEGER" v
    let m ← magnitude v
    if Content.Integer.startsHigh m then Encoding.octet 0
    Encoding.window (onMagnitude s m)
  read window := do
    let octets ← window.octets
    Content.Integer.checkUnsigned octets
    return .octets (window.dropFirst (Content.Integer.signWidth octets))

/-- No content. -/
def null : ContentRule where
  length _ := .ok 0
  write _ := return ()
  read window :=
    if window.length = 0 then .ok .null else .error (.ofCause (.nullContent window.length))

/-- Octets as they are. What is measured is the length that a value says it has. -/
def octetString : ContentRule where
  length
    | .inherited (.function _ parameters) => .ok parameters
    | v => do return (← asSlice "OCTET STRING" v).length
  write v := do Encoding.window (← asSlice "OCTET STRING" v)
  read window := .ok (.octets window)

/-- The bit string of a BIT STRING. -/
def asBits : Value → Except Fault BitString
  | .bits b => .ok b
  | _ => .error (unsuitable "BIT STRING")

/-- The count of unused bits in an octet, then the octets. A value is checked when it is written. -/
def bitString : ContentRule where
  length v := do return 1 + (← asBits v).data.length
  write v := do
    let b ← asBits v
    let data ← b.data.octets
    let unused ← BitString.check b.unused data
    Encoding.octet (UInt8.ofNat unused)
    Encoding.window b.data
  read window := do
    match ← window.octets with
    | [] => throw (.ofCause .missingUnusedBits)
    | first :: data =>
      let unused ← BitString.check first.toNat data
      return .bits ⟨unused, window.dropFirst 1⟩

/-- The text of a value that is one. -/
def asText (name : String) : Value → Except Fault String
  | .text s => .ok s
  | .utf16 units => .ok (Content.Text.ofUtf16 units)
  | _ => .error (unsuitable name)

/-- Subidentifiers of dotted decimal text. -/
def objectIdentifier : ContentRule :=
  .ofOctets (fun v => do Content.ObjectIdentifier.width (← asText "OBJECT IDENTIFIER" v))
    (fun v => do Content.ObjectIdentifier.encode (← asText "OBJECT IDENTIFIER" v))
    fun octets => do return .text (← Content.ObjectIdentifier.decode octets)

/-- The text that is made of a value where one is wanted. -/
def toText (name : String) : Value → Except Fault String
  | .undefined => .ok ""
  | .inherited x => .ok x.text
  | v => asText name v

/-- UTF-8 of a text. -/
def utf8 : ContentRule :=
  .ofOctets (fun v => do return (Content.Text.encodeUtf8 (← toText "UTF8String" v)).length)
    (fun v => do return Content.Text.encodeUtf8 (← toText "UTF8String" v))
    fun octets => do return .text (← Content.Text.decodeUtf8 octets)

/-- The text of a value for a type with an alphabet, which all its characters belong to. -/
def checkedText (name : String) (alphabet : Char → Bool) : Value → Except Fault String
  | .inherited x => Content.Text.check name alphabet x.text
  | v => do Content.Text.check name alphabet (← asText name v)

/-- ASCII texts over an alphabet. What is measured is the length that a value says it has, which for a
function is the number of its parameters. -/
def restricted (name : String) (alphabet : Char → Bool) : ContentRule :=
  .ofOctets
    (fun v => do
      let text ← checkedText name alphabet v
      match v with
      | .inherited (.function _ parameters) => return parameters
      | .inherited .prototype => throw (unsuitable name)
      | _ => return text.length)
    (fun v => do return Content.Text.encodeUtf8 (← checkedText name alphabet v))
    fun octets => do
      return .text (← Content.Text.check name alphabet (← Content.Text.decodeAscii octets))

/-- The instant of a time. -/
def asTime (name : String) : Value → Except Fault (Option Instant)
  | .time t => .ok t
  | _ => .error (unsuitable name)

/-- Instants as texts of a format. -/
def time (name : String) (format : Option Instant → Except Fault String)
    (parse : String → Except Fault Instant) : ContentRule :=
  .ofOctets (fun v => do return (← format (← asTime name v)).length)
    (fun v => do return Content.Text.encodeUtf8 (← format (← asTime name v)))
    fun octets => do return .time (some (← parse (← Content.Text.decodeAscii octets)))

/-- Content octets that are not checked at all. -/
def unchecked (name : String) : ContentRule where
  length v := do return (← asSlice name v).length
  write v := do Encoding.window (← asSlice name v)
  read window := .ok (.octets window)

end ContentRule

end Der
