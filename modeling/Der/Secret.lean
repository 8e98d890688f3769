import Der.Slice

namespace Der

/-- What an array hands out when it is asked for a slice of itself. The arrays of the language copy their
octets. Arrays of a class that slices by reference, as the buffers of the runtime do, hand out a view. -/
inductive Slicing where
  | copies
  | shares
  deriving DecidableEq

/-- Secret octets that can be wiped. All views handed out look into the one buffer, so wiping it wipes
them too, and a wiped secret hands out no more. -/
structure Secret where
  /-- What the array holds that the secret was made from. -/
  source : Octets
  /-- The octets that the secret holds itself, unless its buffer is a view of that array. -/
  own? : Option Octets
  released : Bool
  /-- How many views were handed out. -/
  exposures : Nat

/-- Steps on a secret. A step that fails keeps the changes made before it failed. -/
abbrev WithSecret := EStateM Fault Secret

namespace Secret

/-- A secret made from an array of the octets. Its buffer is the slice that the array hands out. -/
def ofOctets (slicing : Slicing) (octets : Octets) : Secret :=
  let own? := match slicing with
    | .copies => some octets
    | .shares => none
  ⟨octets, own?, false, 0⟩

/-- What the buffer holds. -/
def buffer (s : Secret) : Octets :=
  s.own?.getD s.source

/-- What the views handed out so far show now. -/
def views (s : Secret) : List Octets :=
  List.replicate s.exposures s.buffer

/-- The secret with other octets written into its buffer. -/
def refilled (s : Secret) (octets : Octets) : Secret :=
  match s.own? with
  | some _ => { s with own? := some octets }
  | none => { s with source := octets }

/-- The secret with its buffer overwritten by zeros. -/
def wiped (s : Secret) : Secret :=
  { s.refilled (List.replicate s.buffer.length 0) with released := true }

/-- The secret after the holder of the array that it was made from has changed that array. -/
def onSource (change : Octets → Octets) (s : Secret) : Secret :=
  { s with source := change s.source }

/-- The secret in listings. -/
def summary (s : Secret) : String :=
  "SecretBytes \x7b length: " ++ toString s.buffer.length ++ " \x7d"

end Secret

namespace WithSecret

/-- Hands out a view of a secret that has not been released. -/
def expose : WithSecret Octets := do
  let s ← get
  if s.released then throw (.ofCause .wipedSecret)
  set { s with exposures := s.exposures + 1 }
  return s.buffer

/-- Wipes and releases the secret. -/
def zeroize : WithSecret Unit :=
  modify Secret.wiped

/-- Runs a body on a view of the secret. Afterwards the secret is wiped, however the body ended. -/
def use {α : Type} (body : Octets → WithSecret α) : WithSecret α := fun s =>
  match (expose >>= body).run s with
  | .ok a s => .ok a s.wiped
  | .error fault s => .error fault s.wiped

end WithSecret

/-- A secret made from the octets in a window, whose source slices as given. -/
def Slice.toSecret (s : Slice) (slicing : Slicing) : Except Fault Secret := do
  let octets ← s.octets
  return Secret.ofOctets slicing octets

end Der
