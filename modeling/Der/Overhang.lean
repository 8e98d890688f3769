import Der.Header

namespace Der

/-- The octets ahead of a position, and the number of places behind them that belong to the scope but
hold no octet. -/
structure Overhang where
  octets : Octets
  gap : Nat

/-- What lies ahead of `start` in a scope that ends at `stop`. -/
def Octets.ahead (source : Octets) (start stop : Nat) : Overhang :=
  ⟨source.between start stop, stop - max start source.length⟩

namespace Overhang

/-- How many places there are. -/
def size (o : Overhang) : Nat :=
  o.octets.length + o.gap

/-- What lies behind the first places. -/
def drop (o : Overhang) (count : Nat) : Overhang :=
  ⟨o.octets.drop count, o.gap - (count - o.octets.length)⟩

/-- The octets, and a zero for the first place without an octet. No tag reaches beyond a zero. -/
def filled (o : Overhang) : Octets :=
  o.octets ++ List.replicate (min o.gap 1) 0

/-- Reads a tag and returns it with what lies behind it. The first place is `offset`. -/
def tag (o : Overhang) (offset : Nat) : Except Fault (Tag × Overhang) := do
  let (tag, rest) ← Tag.decode offset o.filled
  return (tag, o.drop (o.filled.length - rest.length))

/-- Reads a length and returns it with what lies behind it. The first place is `offset`. -/
def length (o : Overhang) (offset : Nat) : Except Fault (Number × Overhang) :=
  match o.octets with
  | [] => if o.gap = 0 then .error (.coding .missingLength offset) else .ok (.absent, o.drop 1)
  | first :: rest =>
    let count := first.toNat - 128
    if 4 < count ∨ count ≤ rest.length ∨ rest.length + o.gap < count then do
      let (n, tail) ← Length.decode offset o.octets
      return (n, o.drop (o.octets.length - tail.length))
    else if rest.head? = some 0 then .error (.coding .paddedLength offset)
    else .ok (.nan, o.drop (1 + count))

/-- Reads a header and returns it with what lies behind it, where there must be places enough for the
content. The first place is `offset`. -/
def header (o : Overhang) (offset : Nat) : Except Fault (Header × Overhang) := do
  let (tag, afterTag) ← o.tag offset
  let (length, content) ← afterTag.length (offset + (o.size - afterTag.size))
  if Number.less content.size length then
    throw (.coding (.missingContent length content.size) offset)
  return (⟨tag, length⟩, content)

/-- Reads something at an offset that may be any number, and returns it with the offset behind it. Only
natural numbers are places of octets; at any other offset one octet is missing. -/
def readAt {α : Type} (octets : Octets) (offset : Number) (stop : Nat) (beyond : Fault.Cause)
    (unread : α) (read : Overhang → Nat → Except Fault (α × Overhang)) :
    Except Fault (α × Number) :=
  match offset.toNat? with
  | some start => do
    let ahead := octets.ahead start stop
    let (result, rest) ← read ahead start
    return (result, (start + (ahead.size - rest.size) : Nat))
  | none =>
    if offset.reaches stop then .error (.coding beyond offset) else .ok (unread, offset.add 1)

/-- Reads the tag at an offset of the octets before `stop`. -/
def tagAt (octets : Octets) (offset : Number) (stop : Nat) : Except Fault (Tag × Number) :=
  readAt octets offset stop .missingTag ⟨0, false, 0⟩ tag

/-- Reads the length at an offset of the octets before `stop`. -/
def lengthAt (octets : Octets) (offset : Number) (stop : Nat) : Except Fault (Number × Number) :=
  readAt octets offset stop .missingLength .absent length

/-- What is left after reading complete octets is what the reader of complete octets leaves. -/
theorem drop_of_suffix {octets rest : Octets} (suffix : rest <:+ octets) :
    drop ⟨octets, 0⟩ (octets.length - rest.length) = ⟨rest, 0⟩ := by
  simp [drop, ← List.suffix_iff_eq_drop.mp suffix]

theorem tag_of_complete (octets : Octets) (offset : Nat) :
    tag ⟨octets, 0⟩ offset =
      (Tag.decode offset octets).map fun read => (read.1, ⟨read.2, 0⟩) := by
  cases read : Tag.decode offset octets with
  | error fault => simp [tag, filled, read, bind, Except.bind, Except.map]
  | ok result =>
    obtain ⟨t, rest⟩ := result
    simp [tag, filled, read, bind, Except.bind, Except.map, pure, Except.pure,
      drop_of_suffix (Tag.suffix_of_decode read)]

theorem length_of_complete (octets : Octets) (offset : Nat) :
    length ⟨octets, 0⟩ offset =
      (Length.decode offset octets).map fun read => ((read.1 : Number), (⟨read.2, 0⟩ : Overhang)) := by
  cases octets with
  | nil => simp [length, Length.decode, Except.map]
  | cons first tail =>
    have short : 4 < first.toNat - 128 ∨ first.toNat - 128 ≤ tail.length ∨
        tail.length + 0 < first.toNat - 128 := by omega
    simp only [length, if_pos short]
    cases read : Length.decode offset (first :: tail) with
    | error fault => rfl
    | ok result =>
      obtain ⟨n, rest⟩ := result
      simp only [bind, Except.bind, Except.map, pure, Except.pure,
        drop_of_suffix (Length.suffix_of_decode read)]

theorem header_of_complete (octets : Octets) (offset : Nat) :
    header ⟨octets, 0⟩ offset =
      (Header.decode offset octets).map fun read => (read.1, ⟨read.2, 0⟩) := by
  simp only [header, Header.decode, tag_of_complete]
  cases Tag.decode offset octets with
  | error fault => rfl
  | ok tagged =>
    simp only [Except.map, bind, Except.bind, size, Nat.add_zero]
    rw [length_of_complete]
    cases Length.decode (offset + (octets.length - tagged.2.length)) tagged.2 with
    | error fault => rfl
    | ok measured =>
      by_cases missing : measured.2.length < measured.1 <;>
        simp [missing, Except.map, pure, Except.pure, throw, throwThe, MonadExceptOf.throw]

end Overhang

end Der
