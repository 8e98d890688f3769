import Der.Overhang
import Der.Slice

namespace Der

/-- A position in the scope that ends at `stop`, inside `depth` enclosing scopes. -/
structure Decoder where
  source : Octets
  position : Nat
  stop : Nat
  depth : Nat
  maxDepth : Number

/-- Steps on a decoder. A step that fails leaves the decoder where the failure found it. -/
abbrev Decoding := EStateM Fault Decoder

namespace Decoder

/-- How deep scopes may be nested unless the caller says otherwise. -/
def defaultMaxDepth : Number := 100

/-- A decoder at the start of a document. -/
def ofOctets (source : Octets) (maxDepth : Number) : Decoder :=
  ⟨source, 0, source.length, 0, maxDepth⟩

/-- What lies between the position and the end of the scope. -/
def ahead (d : Decoder) : Overhang :=
  d.source.ahead d.position d.stop

/-- How many octets are left in the scope. -/
def remaining (d : Decoder) : Int :=
  (d.stop : Int) - d.position

/-- Whether the scope is exhausted. -/
def isFinished (d : Decoder) : Bool :=
  d.stop ≤ d.position

/-- The decoder of the scope of the next octets. -/
def scope (d : Decoder) (count : Nat) : Decoder :=
  { d with stop := d.position + count, depth := d.depth + 1 }

/-- A fault at the position. -/
def fault (d : Decoder) (cause : Fault.Cause) : Fault :=
  .coding cause d.position

/-- The next tag, if the scope is not exhausted. -/
def peekTag (d : Decoder) : Except Fault (Option Tag) :=
  if d.isFinished then .ok none else do
    let (tag, _) ← d.ahead.tag d.position
    return some tag

/-- The next header, if the scope is not exhausted. -/
def peekHeader (d : Decoder) : Except Fault (Option Header) :=
  if d.isFinished then .ok none else do
    let (header, _) ← d.ahead.header d.position
    return some header

end Decoder

namespace Decoding

/-- Fails at the position. -/
def fail {α : Type} (cause : Fault.Cause) : Decoding α := do
  throw ((← get).fault cause)

/-- Moves the position forward. -/
def advance (count : Nat) : Decoding Unit :=
  modify fun d => { d with position := d.position + count }

/-- The position. -/
def offset : Decoding Nat := do
  return (← get).position

/-- The next tag, if the scope is not exhausted. -/
def peekTag : Decoding (Option Tag) := do
  (← get).peekTag

/-- The next header, if the scope is not exhausted. -/
def peekHeader : Decoding (Option Header) := do
  (← get).peekHeader

/-- Reads a header, whose content must fit into the scope. -/
def header : Decoding Header := do
  let d ← get
  let (header, content) ← d.ahead.header d.position
  advance (d.ahead.size - content.size)
  return header

/-- Reads a header that must have the given tag. The name says what the tag is for. -/
def expect (tag : Tag) (name : String) : Decoding Header := do
  let start ← offset
  let header ← header
  if header.tag.equals tag then return header
  else throw (.coding (.wrongTag tag name header.tag) start)

/-- The natural number that a count is, if so many octets are left in the scope. -/
def need (count : Number) : Decoding Nat := do
  let d ← get
  match count.toNat? with
  | some n =>
    if (n : Int) ≤ d.remaining then return n
    else fail (.missingOctets count d.remaining)
  | none => fail (.missingOctets count d.remaining)

/-- Reads a window of the given length. -/
def slice (count : Number) : Decoding Slice := do
  let n ← need count
  let d ← get
  let window ← Slice.within d.source d.position n .document
  advance n
  return window

/-- Reads octets, as far as the document reaches. -/
def octets (count : Number) : Decoding Octets := do
  let n ← need count
  let d ← get
  advance n
  return d.source.between d.position (d.position + n)

/-- Reads one octet, if the document reaches so far. -/
def octet : Decoding (Option UInt8) := do
  return (← octets 1).head?

/-- The window from `start` to the position. -/
def sliceFrom (start : Number) : Decoding Slice := do
  let d ← get
  Slice.window d.source start (some (Number.sub d.position start)) .document

/-- Hands the next octets to a content rule. They are read even if the rule refuses them. A fault of
the rule that has no place yet is placed at the first of them. -/
def content {α : Type} (count : Number) (rule : Slice → Except Fault α) : Decoding α := do
  let start ← offset
  let window ← slice count
  match rule window with
  | .ok a => return a
  | .error fault => throw (fault.located start)

/-- Requires the scope to be exhausted. -/
def finish : Decoding Unit := do
  let d ← get
  if d.position = d.stop then return ()
  else fail (.trailingOctets d.remaining)

/-- A body that has to exhaust its scope. -/
def complete {α : Type} (body : Decoding α) : Decoding α := do
  let a ← body
  finish
  return a

/-- What a body makes of a decoder, without the decoder that it leaves. -/
def outcome {α : Type} (body : Decoding α) (d : Decoder) : Except Fault α :=
  match body.run d with
  | .ok a _ => .ok a
  | .error fault _ => .error fault

/-- Runs a body in a scope of exactly the next octets, which it has to exhaust. -/
def nested {α : Type} (count : Number) (body : Decoding α) : Decoding α := do
  let n ← need count
  let d ← get
  if d.maxDepth.less (d.depth + 1 : Nat) then fail (.tooDeep d.maxDepth)
  let a ← (complete body).outcome (d.scope n)
  advance n
  return a

end Decoding

end Der
