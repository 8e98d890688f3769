import Der.Fault

namespace Der

/-- Who else may change the octets that a window looks into: nobody, the holder of a decoded document, or
the encoder that is writing into them. -/
inductive Holder where
  | own
  | document
  | output
  deriving DecidableEq

/-- A window of `length` octets from `start` on. It keeps its whole source and looks the octets up on
every access, so it notices when the source has been taken away. -/
structure Slice where
  source : Octets
  start : Nat
  length : Nat
  holder : Holder
  deriving DecidableEq

namespace Slice

/-- The window that shows exactly the given octets. -/
def ofOctets (octets : Octets) : Slice :=
  ⟨octets, 0, octets.length, .own⟩

/-- The fault of a window that does not lie inside its source. -/
def outside (source : Octets) (start length : Number) : Fault :=
  .ofCause (.outsideSource start (start.add length) source.length)

/-- A window of `length` octets from `start` on, which must lie inside the source. -/
def within (source : Octets) (start length : Nat) (holder : Holder) : Except Fault Slice :=
  if start + length ≤ source.length then .ok ⟨source, start, length, holder⟩
  else .error (outside source start length)

/-- A window from `start` on, of the given length or else up to the end of the source. It must lie
inside the source. -/
def window (source : Octets) (start : Number) (length? : Option Number) (holder : Holder) :
    Except Fault Slice :=
  let length := length?.getD (Number.sub source.length start)
  match start.toNat?, length.toNat? with
  | some first, some count => within source first count holder
  | _, _ => .error (outside source start length)

/-- Whether the source still reaches to the end of the window. -/
def Backed (s : Slice) : Prop :=
  s.start + s.length ≤ s.source.length

instance (s : Slice) : Decidable s.Backed :=
  inferInstanceAs (Decidable (_ ≤ _))

/-- The octets in the window. -/
def octets (s : Slice) : Except Fault Octets :=
  if s.Backed then .ok ((s.source.drop s.start).take s.length) else .error (.ofCause .lostSource)

/-- The window without its first octets. -/
def dropFirst (s : Slice) (count : Nat) : Slice :=
  ⟨s.source, s.start + count, s.length - count, s.holder⟩

/-- Whether two windows show the same octets. -/
def equals (a b : Slice) : Except Fault Bool := do
  let first ← a.octets
  let second ← b.octets
  return first = second

/-- The window after its holder has changed the source of all windows into the document. -/
def onDocument (change : Octets → Octets) (s : Slice) : Slice :=
  if s.holder = .document then { s with source := change s.source } else s

/-- The window after an encoder has changed the buffer that all windows into the output share. -/
def onOutput (output : Octets) (s : Slice) : Slice :=
  if s.holder = .output then { s with source := output } else s

/-- The window in listings. The octets may be secret and are left out. -/
def summary (s : Slice) : String :=
  "ByteSlice \x7b length: " ++ toString s.length ++ " \x7d"

end Slice

end Der
