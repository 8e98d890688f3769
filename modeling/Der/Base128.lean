import Der.Octets

namespace Der.Base128

/-- Why octets do not begin with a number in groups of seven bits. -/
inductive Flaw where
  /-- The first group is zero and more follow. -/
  | padded
  | unterminated
  /-- The number exceeds the limit. -/
  | oversized
  deriving DecidableEq

/-- How many groups a natural number takes. Zero takes one. -/
def width (n : Nat) : Nat :=
  n.log2 / 7 + 1

/-- The `count` groups above the last one. -/
def leading : Nat → Nat → Octets
  | 0, _ => []
  | count + 1, n => leading count (n / 128) ++ [UInt8.ofNat (128 + n % 128)]

/-- The groups of a natural number. -/
def encode (n : Nat) : Octets :=
  leading (width n - 1) (n / 128) ++ [UInt8.ofNat (n % 128)]

/-- Reads groups up to and including the first without its high bit, on top of the groups read so
far. -/
def groups (limit : Nat) : Nat → Octets → Except Flaw (Nat × Octets)
  | _, [] => .error .unterminated
  | sofar, octet :: rest =>
    let n := sofar * 128 + octet.toNat % 128
    if limit < n then .error .oversized
    else if octet.toNat < 128 then .ok (n, rest)
    else groups limit n rest

/-- Reads a number of at most `limit` and returns it with the octets that follow it. -/
def decode (limit : Nat) (octets : Octets) : Except Flaw (Nat × Octets) :=
  if octets.head? = some 128 then .error .padded else groups limit 0 octets

theorem length_lt_of_groups {limit sofar n : Nat} {octets rest : Octets}
    (read : groups limit sofar octets = .ok (n, rest)) : rest.length < octets.length := by
  induction octets generalizing sofar with
  | nil => simp [groups] at read
  | cons octet tail ih =>
    rw [groups] at read
    split at read
    · contradiction
    · split at read
      · injection read with pair
        injection pair with _ same
        simp [same]
      · exact Nat.lt_succ_of_lt (ih read)

/-- A number takes at least one octet. -/
theorem length_lt_of_decode {limit n : Nat} {octets rest : Octets}
    (read : decode limit octets = .ok (n, rest)) : rest.length < octets.length := by
  unfold decode at read
  split at read
  · contradiction
  · exact length_lt_of_groups read

theorem suffix_of_groups {limit sofar n : Nat} {octets rest : Octets}
    (read : groups limit sofar octets = .ok (n, rest)) : rest <:+ octets := by
  induction octets generalizing sofar with
  | nil => simp [groups] at read
  | cons octet tail ih =>
    rw [groups] at read
    split at read
    · contradiction
    · split at read
      · injection read with pair
        injection pair with _ same
        exact same ▸ List.suffix_cons octet tail
      · exact (ih read).trans (List.suffix_cons octet tail)

theorem suffix_of_decode {limit n : Nat} {octets rest : Octets}
    (read : decode limit octets = .ok (n, rest)) : rest <:+ octets := by
  unfold decode at read
  split at read
  · contradiction
  · exact suffix_of_groups read

end Der.Base128
