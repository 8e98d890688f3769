import Der.Proofs.Overhang
import Der.Proofs.Writing

namespace Der

theorem Length.natural_of_encode {n : Number} {octets : Octets} (written : encode n = .ok octets) :
    ∃ k : Nat, n = k := by
  by_contra unnatural
  have refused := (refused_of_check (check_of_unnatural fun k same => unnatural ⟨k, same⟩)).1
  cases refused.symm.trans written

namespace Encoder

/-- The encoder has written the octets into a buffer which was the given one before. -/
structure Holds (e : Encoder) (output octets : Octets) : Prop where
  inside : e.position ≤ e.output.length
  size : e.output.length = output.length
  front : e.written = octets
  behind : e.output.drop e.position = output.drop e.position

theorem holds_put {output octets : Octets} (room : octets.length ≤ output.length) :
    ((ofOutput output).put octets).Holds output octets := by
  have place : ((ofOutput output).put octets).position = octets.length := Nat.zero_add _
  have size : ((ofOutput output).put octets).output.length = output.length := Octets.length_overwrite room
  refine ⟨by rwa [place, size], size, written_put_ofOutput output octets, ?_⟩
  rw [place]
  simp only [put, ofOutput, Octets.overwrite, List.take_zero, List.nil_append, Nat.zero_add]
  exact List.drop_left

/-- What can be written to an encoder. -/
inductive Write where
  | octet (n : Number)
  | octets (string : Octets)
  | tag (tag : Tag)
  | length (n : Number)
  | header (tag : Tag) (length : Number)

namespace Write

/-- The step of a write. -/
def perform : Write → Encoding Unit
  | octet n => Encoding.lowOctet n
  | octets string => Encoding.octets string
  | tag t => Encoding.tag t
  | length n => Encoding.length n
  | header t n => Encoding.header t n

/-- The octets of a write, if there are such octets. -/
def encoded : Write → Except Fault Octets
  | octet n => .ok [n.lowOctet]
  | octets string => .ok string
  | tag t => t.encode
  | length n => Length.encode n
  | header t n => do
    let identifier ← t.encode
    let size ← Length.encode n
    return identifier ++ size

/-- How many octets must have room behind those of the write. -/
def declared : Write → Nat
  | header _ n => n.toNat?.getD 0
  | _ => 0

/-- The encoder after writes, each of which may have failed. -/
def performAll : List Write → Encoder → Encoder
  | [], e => e
  | w :: rest, e => performAll rest (w.perform.left e)

/-- The writes that succeed when they are made one after the other. -/
def accepted : List Write → Encoder → List Write
  | [], _ => []
  | w :: rest, e =>
    match w.perform.run e with
    | .ok _ e' => w :: accepted rest e'
    | .error _ e' => accepted rest e'

end Write

end Encoder

namespace Encoding

open Encoder

/-- How a step ends that writes octets at once, if they have room together with those declared. -/
def attempt (encoded : Except Fault Octets) (declared : Nat) (e : Encoder) : EStateM.Result Fault Encoder Unit :=
  match encoded with
  | .error fault => .error fault e
  | .ok octets =>
    if e.remaining < octets.length + declared then
      .error (.coding (.noRoom (octets.length + declared) e.remaining) e.position) e
    else .ok () (e.put octets)

section

variable {x : Except Fault Octets} {octets : Octets} {declared : Nat} {e e' : Encoder}

theorem attempt_of_room (room : octets.length + declared ≤ e.remaining) :
    attempt (.ok octets) declared e = .ok () (e.put octets) :=
  if_neg (Nat.not_lt.mpr room)

theorem attempt_of_scarce (scarce : e.remaining < octets.length + declared) : attempt (.ok octets) declared e =
    .error (.coding (.noRoom (octets.length + declared) e.remaining) e.position) e :=
  if_pos scarce

theorem attempt_eq_ok : attempt x declared e = .ok () e' ↔
    ∃ octets, x = .ok octets ∧ octets.length + declared ≤ e.remaining ∧ e' = e.put octets := by
  constructor
  · intro done
    cases x with
    | error fault => cases done
    | ok octets =>
      by_cases scarce : e.remaining < octets.length + declared
      · cases (attempt_of_scarce scarce).symm.trans done
      · have room := Nat.not_lt.mp scarce
        cases (attempt_of_room room).symm.trans done
        exact ⟨octets, rfl, room, rfl⟩
  · rintro ⟨octets, rfl, room, rfl⟩
    exact attempt_of_room room

theorem eq_of_attempt_eq_error {fault : Fault} (failed : attempt x declared e = .error fault e') : e' = e := by
  cases x with
  | error fault' =>
    cases failed
    rfl
  | ok octets =>
    by_cases scarce : e.remaining < octets.length + declared
    · cases (attempt_of_scarce scarce).symm.trans failed
      rfl
    · cases (attempt_of_room (Nat.not_lt.mp scarce)).symm.trans failed

end

theorem run_octets_eq (octets : Octets) (e : Encoder) : (Encoding.octets octets).run e = attempt (.ok octets) 0 e := by
  by_cases scarce : e.remaining < octets.length
  · rw [attempt_of_scarce scarce, Encoding.octets, EStateM.run_bind, run_reserve, if_pos scarce]
    rfl
  · rw [attempt_of_room (Nat.not_lt.mp scarce), run_octets (Nat.not_lt.mp scarce)]

theorem run_encoded (x : Except Fault Octets) (e : Encoder) :
    (do Encoding.octets (← x) : Encoding Unit).run e = attempt x 0 e := by
  rw [EStateM.run_bind, Fault.run_liftM]
  cases x with
  | error fault => rfl
  | ok octets => exact run_octets_eq octets e

theorem run_header_of_error {t : Tag} {n : Number} {fault : Fault} (refused : Header.encodedLength t n = .error fault)
    (e : Encoder) : (Encoding.header t n).run e = .error fault e := by
  rw [Encoding.header, EStateM.run_bind, Fault.run_liftM, refused]

/-- A header is written at once, or not at all. -/
theorem run_header_eq (t : Tag) (n : Number) (e : Encoder) :
    (Encoding.header t n).run e = attempt (Write.header t n).encoded (Write.header t n).declared e := by
  by_cases natural : ∃ k : Nat, n = k
  · obtain ⟨k, rfl⟩ := natural
    have same : (Write.header t k).encoded = Header.encode t k := rfl
    have size := Header.encodedLength_eq t k
    rw [same]
    cases written : Header.encode t k with
    | error fault =>
      rw [written] at size
      exact run_header_of_error size e
    | ok octets =>
      by_cases scarce : e.remaining < octets.length + k
      · rw [run_header_of_lt written scarce]
        exact (attempt_of_scarce scarce).symm
      · rw [run_header written (Nat.not_lt.mp scarce)]
        exact (attempt_of_room (Nat.not_lt.mp scarce)).symm
  · have unnatural := Length.check_of_unnatural fun k same => natural ⟨k, same⟩
    obtain ⟨refused, unmeasured⟩ := Length.refused_of_check unnatural
    have size := Tag.encodedLength_eq t
    rw [Write.encoded, refused]
    cases written : t.encode with
    | error fault =>
      rw [written] at size
      exact run_header_of_error (by rw [Header.encodedLength, size]; rfl) e
    | ok identifier =>
      rw [written] at size
      exact run_header_of_error (by rw [Header.encodedLength, size, unmeasured]; rfl) e

end Encoding

namespace Encoder

namespace Write

open Encoding

theorem run_perform (w : Write) (e : Encoder) : w.perform.run e = attempt w.encoded w.declared e := by
  cases w with
  | octet n => exact run_octets_eq [n.lowOctet] e
  | octets string => exact run_octets_eq string e
  | tag t => exact run_encoded t.encode e
  | length n => exact run_encoded (Length.encode n) e
  | header t n => exact run_header_eq t n e

variable {w : Write} {e e' : Encoder}

/-- A write succeeds if it has octets and there is room for them and for what is declared behind them. -/
theorem perform_eq_ok : w.perform.run e = .ok () e' ↔
    ∃ octets, w.encoded = .ok octets ∧ octets.length + w.declared ≤ e.remaining ∧ e' = e.put octets := by
  rw [run_perform, attempt_eq_ok]

/-- A write that fails leaves no trace. -/
theorem eq_of_perform_eq_error {fault : Fault} (failed : w.perform.run e = .error fault e') : e' = e := by
  rw [run_perform] at failed
  exact eq_of_attempt_eq_error failed

/-- A header that is written declares a length, and there is room for as much content behind it. -/
theorem room_of_header {t : Tag} {n : Number} (done : (header t n).perform.run e = .ok () e') :
    ∃ k : Nat, n = k ∧ k ≤ e'.remaining := by
  obtain ⟨octets, encodes, room, rfl⟩ := perform_eq_ok.mp done
  obtain ⟨identifier, _, rest⟩ := Except.bind_eq_ok.mp encodes
  obtain ⟨size, second, _⟩ := Except.bind_eq_ok.mp rest
  obtain ⟨k, rfl⟩ := Length.natural_of_encode second
  have declares : (header t k).declared = k := rfl
  rw [declares] at room
  rw [remaining_put (by omega)]
  exact ⟨k, rfl, by omega⟩

/-- A run of writes puts the octets of those that succeed at the position, one behind the other. -/
theorem performAll_eq (writes : List Write) (e : Encoder) :
    ∃ pieces, (accepted writes e).mapM encoded = .ok pieces ∧ pieces.flatten.length ≤ e.remaining ∧
      performAll writes e = e.put pieces.flatten := by
  induction writes generalizing e with
  | nil => exact ⟨[], rfl, Nat.zero_le _, (put_nil e).symm⟩
  | cons w rest ih =>
    rw [accepted, performAll, left]
    cases run : w.perform.run e with
    | error fault e' =>
      obtain rfl := eq_of_perform_eq_error run
      exact ih e'
    | ok done e' =>
      obtain ⟨octets, isOctets, room, rfl⟩ := perform_eq_ok.mp run
      have fits : octets.length ≤ e.remaining := Nat.le_of_add_right_le room
      obtain ⟨pieces, encodes, room', after⟩ := ih (e.put octets)
      rw [remaining_put fits] at room'
      refine ⟨octets :: pieces, ?_, ?_, ?_⟩
      · rw [List.mapM_cons, isOctets, encodes]
        rfl
      · rw [List.flatten_cons, List.length_append]
        omega
      · rw [List.flatten_cons]
        exact after.trans (put_put (by omega))

/-- Whatever has been written into a buffer, with success or not, the position lies inside it, the octets in front of
the position are those of the writes that have succeeded, in their order, and the octets behind it are as they were.
The next write leaves the encoder as it is when it fails, and adds its own octets when it succeeds. It succeeds exactly
if it has octets and there is room for them and, behind a header, for the content that the header declares. -/
theorem performAll_holds (output : Octets) (writes : List Write) :
    let e := performAll writes (.ofOutput output)
    (∃ pieces, (accepted writes (.ofOutput output)).mapM encoded = .ok pieces ∧ e.Holds output pieces.flatten) ∧
    ∀ w : Write,
      (∀ fault e', w.perform.run e = .error fault e' → e' = e) ∧
      (∀ e', w.perform.run e = .ok () e' → ∃ octets, w.encoded = .ok octets ∧ e'.Holds output (e.written ++ octets)) ∧
      (∀ t n e', w = .header t n → w.perform.run e = .ok () e' → ∃ k : Nat, n = k ∧ k ≤ e'.remaining) ∧
      ((∃ e', w.perform.run e = .ok () e') ↔
        ∃ octets, w.encoded = .ok octets ∧ octets.length + w.declared ≤ e.remaining) := by
  obtain ⟨pieces, encodes, room, same⟩ := performAll_eq writes (.ofOutput output)
  rw [remaining_ofOutput] at room
  have holds := holds_put room
  rw [same]
  refine ⟨⟨pieces, encodes, holds⟩, fun w => ⟨fun _ _ => eq_of_perform_eq_error, ?_, ?_, ?_⟩⟩
  · intro e' done
    obtain ⟨octets, isOctets, more, rfl⟩ := perform_eq_ok.mp done
    rw [remaining_put (by rwa [remaining_ofOutput]), remaining_ofOutput] at more
    rw [holds.front, put_put (by rw [remaining_ofOutput]; omega)]
    exact ⟨octets, isOctets, holds_put (by rw [List.length_append]; omega)⟩
  · rintro t n e' rfl done
    exact room_of_header done
  · constructor
    · rintro ⟨e', done⟩
      obtain ⟨octets, isOctets, more, _⟩ := perform_eq_ok.mp done
      exact ⟨octets, isOctets, more⟩
    · rintro ⟨octets, isOctets, more⟩
      exact ⟨_, perform_eq_ok.mpr ⟨octets, isOctets, more, rfl⟩⟩

/-- Of eight writes into six octets four fail: a header whose content would not fit, a tag of no number, octets too many
and a negative length. The last octet of the buffer is left as it was. -/
theorem performAll_holds_six_octets :
    let writes : List Write := [.header (.universal 4) 5, .tag ⟨0, false, .nan⟩, .header (.universal 4) 2, .octet 511,
      .octets [1, 2, 3, 4], .length (.integer (-1)), .octets [], .octets [7, 8]]
    let e := performAll writes (.ofOutput (List.replicate 6 0xEE))
    e.Holds (List.replicate 6 0xEE) [4, 2, 0xFF, 7, 8] ∧
      (accepted writes (.ofOutput (List.replicate 6 0xEE))).length = 4 ∧
      (∀ fault e', (octets [1, 2]).perform.run e = .error fault e' → e' = e) ∧
      ¬∃ e', (octets [1, 2]).perform.run e = .ok () e' := by
  intro writes e
  obtain ⟨⟨pieces, encodes, holds⟩, next⟩ := performAll_holds (List.replicate 6 0xEE) writes
  have known : (accepted writes (.ofOutput (List.replicate 6 0xEE))).mapM encoded =
      .ok [[4, 2], [0xFF], [], [7, 8]] := by decide +kernel
  cases known.symm.trans encodes
  obtain ⟨still, _, _, succeeds⟩ := next (octets [1, 2])
  refine ⟨holds, by decide +kernel, still, ?_⟩
  rw [succeeds]
  rintro ⟨octets, same, room⟩
  cases same
  exact absurd room (by decide +kernel)

end Write

end Encoder

end Der
