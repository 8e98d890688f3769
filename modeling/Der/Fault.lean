import Der.Octets
import Der.Tag.Basic

namespace Der

/-- The families of coding faults. -/
inductive Fault.Kind where
  /-- The octets end before a declared length is satisfied. -/
  | incomplete
  | invalidTag
  | invalidLength
  /-- The octets can be read, but are not the distinguished encoding of the value. -/
  | nonCanonical
  | unexpectedTag
  | trailingData
  | overflow
  | bufferTooSmall
  | invalidValue
  | depthExceeded
  | detachedSource
  deriving DecidableEq

/-- Why octets or a value are refused. -/
inductive Fault.Cause where
  -- identifier octets
  | missingTag
  | paddedTagNumber
  | unterminatedTagNumber
  | oversizedTagNumber
  | shortTagNumber (n : Nat)
  | badTagNumber (n : Number)
  | badTagClass (n : Number)
  -- length octets
  | missingLength
  | indefiniteLength
  | reservedLength
  | wideLength (octets : Nat)
  | truncatedLength
  | paddedLength
  | shortLength (n : Nat)
  | badLength (n : Number)
  | oversizedLength (n : Number)
  -- reading
  | missingContent (declared : Number) (available : Nat)
  | missingOctets (needed : Number) (remaining : Int)
  | trailingOctets (count : Int)
  | tooDeep (limit : Number)
  | wrongTag (expected : Tag) (name : String) (found : Tag)
  -- windows and secrets
  | outsideSource (start stop : Number) (size : Nat)
  | lostSource
  | wipedSecret
  -- writing
  | noRoom (needed left : Nat)
  | smallBuffer (name : String) (needed size : Nat)
  -- content octets
  | unsuitable (name : String)
  | booleanLength (count : Nat)
  | badBoolean (octet : UInt8)
  | emptyInteger
  | redundantOctet (octet : UInt8)
  | unsafeInteger (n : Int)
  | notSafeInteger (text : String)
  | negativeMagnitude
  | badUnusedBits (n : Number)
  | unusedBitsOfNothing (n : Number)
  | nonzeroPadding
  | missingUnusedBits
  | nullContent (count : Nat)
  | fewArcs (text : String)
  | badArc (arc text : String)
  | oversizedArc (arc : String)
  | badFirstArc (n : Nat)
  | badSecondArc (first second : Nat)
  | emptyIdentifier
  | paddedSubidentifier (index : Nat)
  | truncatedSubidentifier (index : Nat)
  | oversizedSubidentifier
  | malformedUtf8
  | nonAscii (octet : UInt8)
  | outsideAlphabet (name text : String)
  | invalidInstant
  | noSuchDate (year month day hour minute second : Nat)
  | utcTimeYear (year : Int)
  | utcTimeFraction (text : String)
  | utcTimeForm (general : Bool) (text : String)
  | generalizedTimeYear (year : Int)
  | generalizedTimeForm (general : Bool) (text : String)
  | fractionZeros (text : String)
  | fineFraction (text : String)
  -- constructed types
  | notRecord (name found : String)
  | missingField (kind : Fault.Kind) (field container : String)
  | encodedDefault (field : String)
  | unknownComponent (tag : Tag) (container : String)
  | disorderedComponent (container field : String)
  | disorderedElement (container : String)
  | wrongSize (name : String) (count : Nat) (least most : Option Number)
  | refused (name problem : String)
  | stalled (name : String)
  -- open types and keys
  | unreadable (tag : Tag) (name : String)
  | wrongAlgorithm (expected found : String)
  | missingCurve
  | unalignedKey (unused : Number)
  -- named modes, and faults of the caller's own
  | unknownMode (text : String)
  | custom (kind : Fault.Kind) (text : String)
  deriving DecidableEq

/-- Mistakes in declarations and calls. -/
inductive Fault.Misuse where
  | badHex (text : String)
  | contradictoryField (field : String)
  | constructedPrimitive (name : String)
  | untaggedImplicit (name : String)
  | ambiguousField (container field later : String)
  | untaggedComponent (container field : String)
  | sharedTag (container field : String)
  | mismeasured (name : String) (written measured : Nat)
  | other (text : String)
  deriving DecidableEq

/-- A coding fault, perhaps with its offset, or a misuse. -/
inductive Fault where
  | coding (cause : Fault.Cause) (offset : Option Number)
  | misuse (mistake : Fault.Misuse)
  deriving DecidableEq

namespace Fault

/-- The two hexadecimal digits of an octet in messages. -/
def octetText (octet : UInt8) : String :=
  Octets.toHex [octet]

namespace Cause

/-- The family of a cause. -/
def kind : Cause → Kind
  | missingTag | missingLength | truncatedLength | missingContent .. | missingOctets ..
  | outsideSource .. => .incomplete
  | paddedTagNumber | unterminatedTagNumber | oversizedTagNumber | shortTagNumber _
  | badTagNumber _ | badTagClass _ => .invalidTag
  | indefiniteLength | reservedLength | paddedLength | shortLength _ | badLength _ => .invalidLength
  | wideLength _ | oversizedLength _ | unsafeInteger _ | oversizedArc _
  | oversizedSubidentifier => .overflow
  | trailingOctets _ => .trailingData
  | tooDeep _ => .depthExceeded
  | wrongTag .. | unknownComponent .. | unreadable .. => .unexpectedTag
  | lostSource | wipedSecret => .detachedSource
  | noRoom .. | smallBuffer .. => .bufferTooSmall
  | badBoolean _ | redundantOctet _ | unusedBitsOfNothing _ | nonzeroPadding
  | paddedSubidentifier _ | fractionZeros _ | encodedDefault _ | disorderedComponent ..
  | disorderedElement _ => .nonCanonical
  | utcTimeForm general _ | generalizedTimeForm general _ =>
    if general then .nonCanonical else .invalidValue
  | unsuitable _ | booleanLength _ | emptyInteger | notSafeInteger _ | negativeMagnitude
  | badUnusedBits _ | missingUnusedBits | nullContent _ | fewArcs _ | badArc .. | badFirstArc _
  | badSecondArc .. | emptyIdentifier | truncatedSubidentifier _ | malformedUtf8 | nonAscii _
  | outsideAlphabet .. | invalidInstant | noSuchDate .. | utcTimeYear _ | utcTimeFraction _
  | generalizedTimeYear _ | fineFraction _ | notRecord .. | wrongSize .. | refused .. | stalled _
  | wrongAlgorithm .. | missingCurve | unalignedKey _ | unknownMode _ => .invalidValue
  | missingField kind _ _ | custom kind _ => kind

/-- The wording of a cause, without its offset. -/
def text : Cause → String
  | missingTag => "Missing tag octet"
  | paddedTagNumber => "High tag number has a leading zero group"
  | unterminatedTagNumber => "Unterminated high tag number"
  | oversizedTagNumber => s!"Tag number exceeds {Tag.maxNumber}"
  | shortTagNumber n => s!"Tag number {n} must use the single-octet form"
  | badTagNumber n =>
    s!"Invalid tagNumber: {n.text}. Expected integer in range [0, {Tag.maxNumber}]"
  | badTagClass n => s!"Invalid tagClass: {n.text} (expected 0..3)"
  | missingLength => "Missing length octet"
  | indefiniteLength => "Indefinite length encoding is not allowed (DER)"
  | reservedLength => "Length octet 0xFF is reserved"
  | wideLength octets => s!"Length of {octets} octets exceeds 4294967295"
  | truncatedLength => "Truncated length"
  | paddedLength => "Long-form length has a leading zero octet"
  | shortLength n => s!"Length {n} must use the short form"
  | badLength n => s!"Length must be a non-negative integer; got {n.text}"
  | oversizedLength n => s!"Length {n.text} exceeds 4294967295"
  | missingContent declared available =>
    s!"Declared length {declared.text} exceeds the {available} available byte(s)"
  | missingOctets needed remaining => s!"Need {needed.text} byte(s) but only {remaining} remain"
  | trailingOctets count => s!"{count} unexpected trailing byte(s)"
  | tooDeep limit => s!"Maximum parsing depth exceeded: {limit.text}"
  | wrongTag expected name found =>
    let purpose := if name = "" then "" else s!" for '{name}'"
    s!"Expected {expected.text}{purpose} but found {found.text}"
  | outsideSource start stop size =>
    s!"Slice [{start.text}, {stop.text}) is outside a source of {size} bytes"
  | lostSource => "Borrowed bytes are no longer backed by their source buffer"
  | wipedSecret => "Secret bytes were zeroized"
  | noRoom needed left =>
    s!"Cannot write {needed} byte(s): only {left} left in the output buffer"
  | smallBuffer name needed size =>
    s!"'{name}' needs {needed} byte(s); the output buffer holds {size}"
  | unsuitable name => s!"Value does not suit '{name}'"
  | booleanLength count => s!"BOOLEAN needs exactly 1 content octet; got {count}"
  | badBoolean octet => s!"BOOLEAN content must be 0x00 or 0xFF; got 0x{octetText octet}"
  | emptyInteger => "INTEGER has no content octets"
  | redundantOctet octet => s!"INTEGER has a redundant leading 0x{octetText octet} octet"
  | unsafeInteger n => s!"INTEGER {n} does not fit a safe integer"
  | notSafeInteger text => s!"Not a safe integer: {text}"
  | negativeMagnitude => "Unsigned INTEGER is negative"
  | badUnusedBits n => s!"BIT STRING unused bit count must be 0..7; got {n.text}"
  | unusedBitsOfNothing n => s!"Empty BIT STRING declares {n.text} unused bits"
  | nonzeroPadding => "BIT STRING padding bits are not zero"
  | missingUnusedBits => "BIT STRING has no unused-bits octet"
  | nullContent count => s!"NULL must have no content octets; got {count}"
  | fewArcs text => s!"OID must have at least two arcs; got '{text}'"
  | badArc arc text => s!"Invalid OID arc: '{arc}' in '{text}'"
  | oversizedArc arc => s!"OID arc {arc} is too large"
  | badFirstArc n => s!"OID first arc must be 0, 1 or 2; got {n}"
  | badSecondArc first second =>
    s!"OID second arc must be below 40 under arc {first}; got {second}"
  | emptyIdentifier => "Empty OID encoding (0 bytes)"
  | paddedSubidentifier index =>
    s!"OID subidentifier at byte index {index} has a redundant leading group"
  | truncatedSubidentifier index => s!"Truncated OID at byte index {index}"
  | oversizedSubidentifier => "OID arc exceeds the safe integer range"
  | malformedUtf8 => "Malformed UTF-8 content"
  | nonAscii octet => s!"Non-ASCII octet 0x{octetText octet}"
  | outsideAlphabet name text => s!"{name} contains a character outside its set: '{text}'"
  | invalidInstant => "Invalid Date"
  | noSuchDate year month day hour minute second =>
    let date := s!"{Digits.text 4 year}-{Digits.text 2 month}-{Digits.text 2 day}"
    s!"Not a calendar date: {date} {Digits.text 2 hour}:{Digits.text 2 minute}:{Digits.text 2 second}"
  | utcTimeYear year => s!"UTCTime covers 1950 to 2049; got year {year}"
  | utcTimeFraction text => s!"UTCTime has whole seconds only; got {text}"
  | utcTimeForm _ text => s!"UTCTime must read YYMMDDHHMMSSZ; got '{text}'"
  | generalizedTimeYear year => s!"GeneralizedTime covers years 0 to 9999; got {year}"
  | generalizedTimeForm _ text =>
    s!"GeneralizedTime must read YYYYMMDDHHMMSS[.fff]Z; got '{text}'"
  | fractionZeros text => s!"GeneralizedTime fraction has trailing zeros: '{text}'"
  | fineFraction text => s!"GeneralizedTime fraction finer than milliseconds: '{text}'"
  | notRecord name found => s!"Constructed '{name}' expects an object; got {found}"
  | missingField _ field container =>
    s!"Missing required property '{field}' in constructed '{container}'"
  | encodedDefault field => s!"Field '{field}' encodes its DEFAULT value"
  | unknownComponent tag container => s!"Unknown child {tag.text} in SET '{container}'"
  | disorderedComponent container field =>
    s!"SET '{container}' component '{field}' is out of canonical order"
  | disorderedElement container => s!"SET OF '{container}' elements are not in canonical order"
  | wrongSize name count least most =>
    let lower := (least.getD 0).text
    let upper := match most with
      | some n => n.text
      | none => "MAX"
    s!"'{name}' has {count} element(s); SIZE({lower}..{upper}) required"
  | refused name problem => s!"{name}: {problem}"
  | stalled name => s!"An element of '{name}' takes no octets"
  | unreadable tag name => s!"Cannot read {tag.text} as '{name}'"
  | wrongAlgorithm expected found => s!"Expected algorithm {expected}; got {found}"
  | missingCurve => "id-ecPublicKey requires curve parameters"
  | unalignedKey unused =>
    s!"RSA subjectPublicKey must be octet aligned; {unused.text} unused bit(s)"
  | unknownMode text => s!"Unknown tag mode '{text}'"
  | custom _ text => text

end Cause

/-- The wording of a misuse. -/
def Misuse.text : Misuse → String
  | badHex text => s!"Invalid hex string: '{text}'"
  | contradictoryField field => s!"Field '{field}' cannot be both OPTIONAL and DEFAULT"
  | constructedPrimitive name => s!"Primitive schema '{name}' cannot use a constructed tag"
  | untaggedImplicit name =>
    s!"IMPLICIT tagging of '{name}' needs an inner type with a fixed tag"
  | ambiguousField container field later =>
    s!"SEQUENCE '{container}' field '{field}' may be absent but shares a tag with '{later}'"
  | untaggedComponent container field =>
    s!"SET '{container}' field '{field}' needs a type with a fixed tag"
  | sharedTag container field => s!"SET '{container}' has two fields with the tag of '{field}'"
  | mismeasured name written measured =>
    s!"'{name}' wrote {written} byte(s) but measured {measured}"
  | other text => text

/-- A coding fault whose place is not known yet. -/
def ofCause (cause : Cause) : Fault :=
  .coding cause none

/-- Places a coding fault, unless it has a place already. -/
def located (fault : Fault) (offset : Number) : Fault :=
  match fault with
  | .coding cause none => .coding cause (some offset)
  | placed => placed

/-- The full message, with the offset of a coding fault that has one. -/
def message : Fault → String
  | .coding cause none => cause.text
  | .coding cause (some offset) => s!"{cause.text} (at offset {offset.text})"
  | .misuse mistake => mistake.text

/-- The family of a coding fault. A misuse has none. -/
def kind? : Fault → Option Kind
  | .coding cause _ => some cause.kind
  | .misuse _ => none

end Fault

/-- A result that may be a fault is a step that leaves the state alone. -/
instance Fault.liftResult {ε σ : Type} : MonadLift (Except ε) (EStateM ε σ) where
  monadLift
    | .ok a => pure a
    | .error fault => throw fault

@[simp] theorem Fault.run_liftM {ε σ α : Type} (x : Except ε α) (s : σ) :
    EStateM.run (liftM x : EStateM ε σ α) s =
      match x with
      | .ok a => .ok a s
      | .error fault => .error fault s := by
  cases x <;> rfl

@[simp] theorem Fault.run_throw {ε σ α : Type} (fault : ε) (s : σ) :
    EStateM.run (throw fault : EStateM ε σ α) s = .error fault s := rfl

end Der
