import Der.Proofs.Header
import Der.Proofs.Values

namespace Der

namespace Octets

@[simp] theorem overwrite_nil (output : Octets) (position : Nat) : output.overwrite position [] = output := by
  simp [overwrite]

theorem length_overwrite {output patch : Octets} {position : Nat}
    (room : patch.length ≤ output.length - position) :
    (output.overwrite position patch).length = output.length := by
  by_cases none : patch = []
  · subst none
    rw [overwrite_nil]
  · have some : 0 < patch.length := List.length_pos_iff.mpr none
    simp only [overwrite, List.length_append, List.length_take, List.length_drop]
    omega

theorem overwrite_overwrite {output first second : Octets} {position : Nat}
    (room : first.length + second.length ≤ output.length - position) :
    (output.overwrite position first).overwrite (position + first.length) second =
      output.overwrite position (first ++ second) := by
  by_cases beyond : output.length < position
  · have noFirst : first = [] := List.eq_nil_of_length_eq_zero (by omega)
    subst noFirst
    simp
  · have front : (output.take position ++ first).length = position + first.length := by
      simp only [List.length_append, List.length_take]
      omega
    simp only [overwrite, List.append_assoc]
    rw [← List.append_assoc (output.take position) first, List.take_left' front, List.drop_append, front,
      List.drop_eq_nil_of_le (by omega), List.drop_drop]
    simp only [List.length_append, List.append_assoc, List.nil_append]
    congr 4
    omega

theorem getElem?_overwrite_of_lt {output patch : Octets} {position index : Nat}
    (within : position ≤ output.length) (before : index < position) :
    (output.overwrite position patch)[index]? = output[index]? := by
  have front : index < (output.take position).length := by
    rw [List.length_take]
    omega
  rw [overwrite, List.append_assoc, List.getElem?_append_left front, List.getElem?_take_of_lt before]

theorem getElem?_overwrite_of_le {output patch : Octets} {position index : Nat}
    (room : patch.length ≤ output.length - position) (after : position + patch.length ≤ index) :
    (output.overwrite position patch)[index]? = output[index]? := by
  by_cases none : patch = []
  · subst none
    rw [overwrite_nil]
  · have some : 0 < patch.length := List.length_pos_iff.mpr none
    have front : (output.take position ++ patch).length = position + patch.length := by
      simp only [List.length_append, List.length_take]
      omega
    rw [overwrite, List.getElem?_append_right (by omega), front, List.getElem?_drop]
    congr 1
    omega

end Octets

namespace Encoder

/-- The encoder after the octets have been written. -/
def put (e : Encoder) (octets : Octets) : Encoder :=
  { e with output := e.output.overwrite e.position octets, position := e.position + octets.length }

@[simp] theorem lent_put (e : Encoder) (octets : Octets) : (e.put octets).lent = e.lent := rfl

@[simp] theorem put_nil (e : Encoder) : e.put [] = e := by
  cases e
  simp [put]

theorem remaining_put {e : Encoder} {octets : Octets} (room : octets.length ≤ e.remaining) :
    (e.put octets).remaining = e.remaining - octets.length := by
  simp only [remaining, put, Octets.length_overwrite room]
  omega

theorem put_put {e : Encoder} {first second : Octets} (room : first.length + second.length ≤ e.remaining) :
    (e.put first).put second = e.put (first ++ second) := by
  simp only [put, Octets.overwrite_overwrite room, List.length_append, Nat.add_assoc]

theorem written_put_ofOutput (output octets : Octets) : ((ofOutput output).put octets).written = octets := by
  simp only [written, put, ofOutput, Octets.overwrite, List.take_zero, List.nil_append, Nat.zero_add]
  exact List.take_left

theorem written_put_ofSize (octets : Octets) (size : Nat) : ((ofSize size).put octets).written = octets :=
  written_put_ofOutput (List.replicate size 0) octets

theorem remaining_ofOutput (output : Octets) : (ofOutput output).remaining = output.length := Nat.sub_zero _

/-- Octets that are written change nothing outside their place. -/
theorem getElem?_put {e : Encoder} {octets : Octets} {count index : Nat} (fits : octets.length ≤ count)
    (room : count ≤ e.remaining) (outside : index < e.position ∨ e.position + count ≤ index) :
    (e.put octets).output[index]? = e.output[index]? := by
  unfold remaining at room
  rcases outside with before | after
  · by_cases within : e.position ≤ e.output.length
    · exact Octets.getElem?_overwrite_of_lt within before
    · have none : octets = [] := List.eq_nil_of_length_eq_zero (by omega)
      rw [none, put_nil]
  · exact Octets.getElem?_overwrite_of_le (by omega) (by omega)

@[simp] theorem remaining_ofSize (size : Nat) : (ofSize size).remaining = size := by
  simp [remaining, ofSize]

/-- In a buffer of the encoder's own, no window changes. -/
theorem refreshed_of_own {e : Encoder} (own : e.lent = false) (s : Slice) : e.refreshed s = s := by
  rw [refreshed, own, if_neg Bool.false_ne_true]

theorem sees_of_own {e : Encoder} (own : e.lent = false) (v : Value) : e.sees v = v :=
  Value.mapSlices_eq_self (refreshed_of_own own) v

end Encoder

/-- A value that stands apart from the buffer is seen as it is. -/
theorem Value.Apart.sees {v : Value} (apart : v.Apart) (e : Encoder) : e.sees v = v := by
  cases own : e.lent with
  | false => exact Encoder.sees_of_own own v
  | true =>
    have change : e.refreshed = Slice.onOutput e.output := by
      funext s
      rw [Encoder.refreshed, own, if_pos rfl]
    rw [Encoder.sees, change]
    exact apart e.output

namespace Encoding

/-- Where a step ends that has written the octets. -/
def ending {α : Type} (outcome : Except Fault α) (e : Encoder) : EStateM.Result Fault Encoder α :=
  match outcome with
  | .ok a => .ok a e
  | .error fault => .error fault e

/-- The encoder that a step leaves, however it ends. -/
def left {α : Type} (body : Encoding α) (e : Encoder) : Encoder :=
  match body.run e with
  | .ok _ e' => e'
  | .error _ e' => e'

/-- Wherever there is so much room, the step writes the octets and ends as the outcome says. The room may
be more than the octets take: a step that fails half way has asked for all of it. In a lent buffer the step
may write something else, unless lent buffers are meant too. -/
structure Emits {α : Type} (lent : Prop) (body : Encoding α) (room : Nat) (octets : Octets)
    (outcome : Except Fault α) : Prop where
  fits : octets.length ≤ room
  run : ∀ e : Encoder, (e.lent = true → lent) → room ≤ e.remaining → body.run e = ending outcome (e.put octets)

section

variable {lent : Prop} {α β : Type}

theorem emits_liftM (x : Except Fault α) : Emits lent (liftM x) 0 [] x where
  fits := Nat.le_refl 0
  run e _ _ := by
    rw [Encoder.put_nil, Fault.run_liftM]
    cases x <;> rfl

theorem emits_pure (a : α) : Emits lent (pure a) 0 [] (.ok a) :=
  emits_liftM (.ok a)

theorem emits_throw (fault : Fault) : Emits lent (throw fault : Encoding α) 0 [] (.error fault) :=
  emits_liftM (.error fault)

theorem run_reserve (count : Nat) (e : Encoder) :
    (reserve count).run e =
      if e.remaining < count then .error (.coding (.noRoom count e.remaining) e.position) e else .ok () e := by
  by_cases scarce : e.remaining < count
  · simp [reserve, scarce]
  · simp [reserve, scarce]

theorem run_octets {e : Encoder} {octets : Octets} (room : octets.length ≤ e.remaining) :
    (Encoding.octets octets).run e = .ok () (e.put octets) := by
  rw [Encoding.octets, EStateM.run_bind, run_reserve, if_neg (Nat.not_lt.mpr room)]
  rfl

theorem run_octets_of_lt {e : Encoder} {octets : Octets} (scarce : e.remaining < octets.length) :
    (Encoding.octets octets).run e = .error (.coding (.noRoom octets.length e.remaining) e.position) e := by
  rw [Encoding.octets, EStateM.run_bind, run_reserve, if_pos scarce]

theorem run_window (s : Slice) (e : Encoder) :
    (Encoding.window s).run e =
      (liftM (e.refreshed s).octets >>= fun octets => Encoding.octets octets : Encoding Unit).run e := rfl

theorem run_current (v : Value) (e : Encoder) : (current v).run e = .ok (e.sees v) e := rfl

theorem emits_octets (octets : Octets) : Emits lent (Encoding.octets octets) octets.length octets (.ok ()) where
  fits := Nat.le_refl _
  run _ _ room := run_octets room

theorem Emits.mono {body : Encoding α} {room more : Nat} {octets : Octets} {outcome : Except Fault α}
    (emits : Emits lent body room octets outcome) (enough : room ≤ more) : Emits lent body more octets outcome where
  fits := emits.fits.trans enough
  run e place bound := emits.run e place (enough.trans bound)

theorem Emits.bind {body : Encoding α} {next : α → Encoding β} {room more : Nat} {first second : Octets} {a : α}
    {outcome : Except Fault β} (begins : Emits lent body room first (.ok a))
    (goes : Emits lent (next a) more second outcome) :
    Emits lent (body >>= next) (room + more) (first ++ second) outcome where
  fits := by
    rw [List.length_append]
    exact Nat.add_le_add begins.fits goes.fits
  run e place bound := by
    have used := begins.fits
    have fits := goes.fits
    have left : more ≤ (e.put first).remaining := by
      rw [Encoder.remaining_put (by omega)]
      omega
    rw [EStateM.run_bind, begins.run e place (by omega)]
    simp only [ending]
    rw [goes.run (e.put first) place left, Encoder.put_put (by omega)]
    rfl

theorem Emits.bind_error {body : Encoding α} {next : α → Encoding β} {room : Nat} {octets : Octets} {fault : Fault}
    (fails : Emits lent body room octets (.error fault)) :
    Emits lent (body >>= next) room octets (.error fault) where
  fits := fails.fits
  run e place bound := by
    rw [EStateM.run_bind, fails.run e place bound]
    rfl

/-- A step that first computes something that there is. -/
theorem Emits.after {x : Except Fault α} {a : α} {next : α → Encoding β} {room : Nat} {octets : Octets}
    {outcome : Except Fault β} (computed : x = .ok a) (goes : Emits lent (next a) room octets outcome) :
    Emits lent (liftM x >>= next) room octets outcome := by
  subst computed
  simpa only [Nat.zero_add, List.nil_append] using (emits_liftM (.ok a)).bind goes

theorem Emits.left_eq {body : Encoding α} {room : Nat} {octets : Octets} {outcome : Except Fault α}
    (emits : Emits lent body room octets outcome) {e : Encoder} (place : e.lent = true → lent)
    (enough : room ≤ e.remaining) : body.left e = e.put octets := by
  rw [Encoding.left, emits.run e place enough]
  cases outcome <;> rfl

end

section

variable {α β : Type} {lent : Prop}

/-- What is emitted in all buffers is emitted in the encoder's own. -/
theorem Emits.own {body : Encoding α} {room : Nat} {octets : Octets} {outcome : Except Fault α}
    (emits : Emits lent body room octets outcome) : Emits False body room octets outcome where
  fits := emits.fits
  run e place bound := emits.run e (fun is => (place is).elim) bound

theorem Emits.unique {body : Encoding α} {room room' : Nat} {octets octets' : Octets}
    {outcome outcome' : Except Fault α} (one : Emits lent body room octets outcome)
    (other : Emits False body room' octets' outcome') : octets = octets' ∧ outcome = outcome' := by
  have same := (one.run (.ofSize (room + room')) nofun (by rw [Encoder.remaining_ofSize]; omega)).symm.trans
    (other.run (.ofSize (room + room')) nofun (by rw [Encoder.remaining_ofSize]; omega))
  have written := Encoder.written_put_ofSize octets (room + room')
  have written' := Encoder.written_put_ofSize octets' (room + room')
  cases outcome <;> cases outcome' <;> simp only [ending] at same
  · injection same with fault state
    exact ⟨by rw [← written, state, written'], by rw [fault]⟩
  · cases same
  · cases same
  · injection same with value state
    exact ⟨by rw [← written, state, written'], by rw [value]⟩

/-- What is written after something has been computed is written by the step that goes on from it. -/
theorem Emits.of_after {x : Except Fault α} {next : α → Encoding β} {room : Nat} {octets : Octets} {b : β}
    (emits : Emits lent (liftM x >>= next) room octets (.ok b)) :
    ∃ a, x = .ok a ∧ Emits lent (next a) room octets (.ok b) := by
  cases x with
  | error fault =>
    cases (emits.unique (emits_liftM (.error fault)).bind_error).2
  | ok a => exact ⟨a, rfl, emits.fits, emits.run⟩

/-- What a step makes of a buffer of its own with room enough. -/
theorem Emits.toOctets {body : Encoding Unit} {room size : Nat} {octets : Octets} {outcome : Except Fault Unit}
    (emits : Emits lent body room octets outcome) (enough : room ≤ size) :
    body.toOctets size = outcome.map fun _ => octets := by
  have run := emits.run (.ofSize size) nofun (by rwa [Encoder.remaining_ofSize])
  cases outcome with
  | error fault => simp only [Encoding.toOctets, run, ending, Except.map]
  | ok done => simp only [Encoding.toOctets, run, ending, Encoder.written_put_ofSize, Except.map]

/-- A window shows the same octets wherever it is written, unless it looks into the buffer itself. -/
theorem emits_window {s : Slice} {octets : Octets} (shows : s.octets = .ok octets)
    (apart : lent → s.holder ≠ .output) : Emits lent (window s) octets.length octets (.ok ()) where
  fits := Nat.le_refl _
  run e place room := by
    have still : e.refreshed s = s := by
      cases own : e.lent with
      | false => exact Encoder.refreshed_of_own own s
      | true => rw [Encoder.refreshed, own, if_pos rfl, Slice.onOutput, if_neg (apart (place own))]
    rw [run_window, still, shows]
    exact run_octets room

theorem octets_of_emits_window {s : Slice} {room : Nat} {octets : Octets}
    (emits : Emits False (window s) room octets (.ok ())) : ∃ shown, s.octets = .ok shown ∧ octets = shown := by
  cases shows : s.octets with
  | ok shown => exact ⟨shown, rfl, (emits.unique (emits_window shows False.elim)).1⟩
  | error fault =>
    have ends := emits.run (.ofSize room) nofun (by rw [Encoder.remaining_ofSize])
    rw [run_window, Encoder.refreshed_of_own rfl, shows] at ends
    cases ends

/-- A step on a value as it is by then: the value itself, unless some of its windows look into the buffer. -/
theorem Emits.seen {v : Value} {next : Value → Encoding β} {room : Nat} {octets : Octets} {outcome : Except Fault β}
    (apart : lent → v.Apart) (goes : Emits lent (next v) room octets outcome) :
    Emits lent (current v >>= next) room octets outcome where
  fits := goes.fits
  run e place bound := by
    have still : e.sees v = v := by
      cases own : e.lent with
      | false => exact Encoder.sees_of_own own v
      | true => exact (apart (place own)).sees e
    rw [EStateM.run_bind, run_current, still]
    exact goes.run e place bound

theorem Emits.of_seen {v : Value} {next : Value → Encoding β} {room : Nat} {octets : Octets} {outcome : Except Fault β}
    (emits : Emits False (current v >>= next) room octets outcome) : Emits False (next v) room octets outcome where
  fits := emits.fits
  run e place bound := by
    rw [← emits.run e place bound, EStateM.run_bind, run_current, Encoder.sees_of_own (Bool.eq_false_iff.mpr place)]

end

/-- How a step goes that has been measured. Where it succeeds, it has written at least as much as its room, and
writes the same wherever that fits; where it fails, that is no misuse. On regular values, it fills its room or
fails inside it, in the same way everywhere, and does not fail when the last condition holds. -/
structure Fills (body : Encoding Unit) (room : Nat) (regular sure : Prop) : Prop where
  reaches : ∀ {e e' : Encoder}, e.lent = false → body.run e = .ok () e' → ∃ octets, room ≤ octets.length ∧
    octets.length ≤ e.remaining ∧ Emits False body octets.length octets (.ok ())
  blameless : ∀ {e e' : Encoder} {fault}, e.lent = false → body.run e = .error fault e' →
    ∃ cause offset, fault = .coding cause offset
  settles : regular → ∃ octets outcome, Emits True body room octets outcome ∧
    (outcome = .ok () → octets.length = room) ∧ (sure → outcome = .ok ())

section

variable {α : Type} {body next : Encoding Unit} {room more : Nat} {regular regular' sure sure' : Prop}

theorem fills_octets (octets : Octets) : Fills (Encoding.octets octets) octets.length regular sure where
  reaches := by
    intro e e' own run
    refine ⟨octets, Nat.le_refl _, ?_, emits_octets octets⟩
    refine Nat.not_lt.mp fun scarce => ?_
    cases run.symm.trans (run_octets_of_lt scarce)
  blameless := by
    intro e e' fault own run
    by_cases scarce : e.remaining < octets.length
    · cases run.symm.trans (run_octets_of_lt scarce)
      exact ⟨_, _, rfl⟩
    · cases run.symm.trans (run_octets (Nat.not_lt.mp scarce))
  settles _ := ⟨octets, .ok (), emits_octets octets, fun _ => rfl, fun _ => rfl⟩

/-- A step that first computes something that there may not be. -/
theorem fills_bind {x : Except Fault α} {next : α → Encoding Unit} (blameless : Fault.Blameless x)
    (computes : regular → sure → ∃ a, x = .ok a) (goes : ∀ a, x = .ok a → Fills (next a) room regular sure) :
    Fills (liftM x >>= next) room regular sure where
  reaches := by
    intro e e' own run
    rw [EStateM.run_bind, Fault.run_liftM] at run
    cases computed : x with
    | error fault =>
      rw [computed] at run
      cases run
    | ok a =>
      rw [computed] at run
      obtain ⟨octets, least, fits, emits⟩ := (goes a computed).reaches own run
      exact ⟨octets, least, fits, emits.after rfl⟩
  blameless := by
    intro e e' fault own run
    rw [EStateM.run_bind, Fault.run_liftM] at run
    cases computed : x with
    | error fault =>
      rw [computed] at run
      cases run
      exact blameless fault computed
    | ok a =>
      rw [computed] at run
      exact (goes a computed).blameless own run
  settles := by
    intro is
    cases computed : x with
    | error fault =>
      refine ⟨[], .error fault, (emits_liftM (.error fault)).bind_error.mono (Nat.zero_le _), nofun, ?_⟩
      intro holds
      obtain ⟨a, wrong⟩ := computes is holds
      cases computed.symm.trans wrong
    | ok a =>
      obtain ⟨octets, outcome, emits, full, safe⟩ := (goes a computed).settles is
      exact ⟨octets, outcome, emits.after rfl, full, safe⟩

theorem Fills.after {x : Except Fault α} {a : α} {next : α → Encoding Unit} (computed : x = .ok a)
    (goes : Fills (next a) room regular sure) : Fills (liftM x >>= next) room regular sure := by
  subst computed
  exact fills_bind (Fault.only_ok a) (fun _ _ => ⟨a, rfl⟩) fun _ same => Except.ok.inj same ▸ goes

/-- Each of two steps that have succeeded has written at least what was measured for it. -/
theorem Fills.parts_of_run (begins : Fills body room regular sure) (goes : Fills next more regular sure)
    {e e' : Encoder} (own : e.lent = false) (run : (body >>= fun _ => next).run e = .ok () e') :
    ∃ first second, room ≤ first.length ∧ more ≤ second.length ∧ first.length + second.length ≤ e.remaining ∧
      Emits False body first.length first (.ok ()) ∧ Emits False next second.length second (.ok ()) := by
  rw [EStateM.run_bind] at run
  cases begun : body.run e with
  | error fault e₁ =>
    rw [begun] at run
    cases run
  | ok done e₁ =>
    rw [begun] at run
    obtain ⟨first, least, fits, emits⟩ := begins.reaches own begun
    cases begun.symm.trans (emits.run e (fun lent => absurd lent (Bool.eq_false_iff.mp own)) fits)
    obtain ⟨second, least', fits', emits'⟩ := goes.reaches ((e.lent_put first).trans own) run
    rw [Encoder.remaining_put fits] at fits'
    exact ⟨first, second, least, least', by omega, emits, emits'⟩

theorem Fills.bind (begins : Fills body room regular sure) (goes : Fills next more regular sure) :
    Fills (body >>= fun _ => next) (room + more) regular sure where
  reaches := by
    intro e e' own run
    obtain ⟨first, second, least, least', fits, emits, emits'⟩ := begins.parts_of_run goes own run
    refine ⟨first ++ second, ?_, ?_, ?_⟩ <;> rw [List.length_append]
    · exact Nat.add_le_add least least'
    · exact fits
    · exact emits.bind emits'
  blameless := by
    intro e e' fault own run
    rw [EStateM.run_bind] at run
    cases first : body.run e with
    | error fault e₁ =>
      rw [first] at run
      cases run
      exact begins.blameless own first
    | ok done e₁ =>
      rw [first] at run
      obtain ⟨octets, _, fits, emits⟩ := begins.reaches own first
      cases first.symm.trans (emits.run e (fun lent => absurd lent (Bool.eq_false_iff.mp own)) fits)
      exact goes.blameless ((e.lent_put octets).trans own) run
  settles := by
    intro is
    obtain ⟨first, outcome, emits, full, safe⟩ := begins.settles is
    cases outcome with
    | error fault =>
      refine ⟨first, .error fault, emits.bind_error.mono (Nat.le_add_right _ _), nofun, ?_⟩
      intro holds
      cases safe holds
    | ok done =>
      obtain ⟨second, outcome', emits', full', safe'⟩ := goes.settles is
      refine ⟨first ++ second, outcome', emits.bind emits', ?_, safe'⟩
      intro done
      rw [List.length_append, full rfl, full' done]

theorem Fills.mono (fills : Fills body room regular sure) (same : regular' → regular)
    (stronger : regular' → sure' → sure) : Fills body room regular' sure' where
  reaches := fills.reaches
  blameless := fills.blameless
  settles is := by
    obtain ⟨octets, outcome, emits, full, safe⟩ := fills.settles (same is)
    exact ⟨octets, outcome, emits, full, fun holds => safe (stronger is holds)⟩

/-- A step that writes more than has been measured. -/
theorem Fills.beyond (fills : Fills body more False False) (less : room ≤ more) (never : ¬ regular) :
    Fills body room regular sure where
  reaches own run := by
    obtain ⟨octets, least, rest⟩ := fills.reaches own run
    exact ⟨octets, less.trans least, rest⟩
  blameless := fills.blameless
  settles is := absurd is never

theorem fills_pure : Fills (pure ()) 0 regular sure where
  reaches _ _ := ⟨[], Nat.le_refl 0, Nat.zero_le _, emits_pure ()⟩
  blameless _ run := by cases run
  settles _ := ⟨[], .ok (), emits_pure (), fun _ => rfl, fun _ => rfl⟩

/-- A step that is refused at once. -/
theorem fills_error {cause : Fault.Cause} {next : α → Encoding Unit} (never : regular → ¬ sure) :
    Fills (liftM (.error (.ofCause cause) : Except Fault α) >>= next) room regular sure :=
  fills_bind (Fault.blameless_error cause) (fun is holds => absurd holds (never is)) nofun

theorem fills_throw (cause : Fault.Cause) (never : regular → ¬ sure) :
    Fills (throw (.ofCause cause)) 0 regular sure where
  reaches _ run := by cases run
  blameless _ run := by
    cases run
    exact ⟨cause, none, rfl⟩
  settles is := ⟨[], .error (.ofCause cause), emits_throw _, nofun, fun holds => absurd holds (never is)⟩

theorem fills_window {s : Slice} (apart : regular → s.holder ≠ .output) (backed : regular → sure → s.Backed) :
    Fills (window s) s.length regular sure := by
  have own : Fills (liftM s.octets >>= fun octets => Encoding.octets octets) s.length regular sure := by
    refine fills_bind (Slice.unplaced_octets s).blameless (fun is holds => ⟨_, (backed is holds).octets_eq⟩) ?_
    intro octets shows
    rw [← (Slice.length_of_octets shows).2]
    exact fills_octets octets
  have same : ∀ e : Encoder, e.lent = false →
      (window s).run e = (liftM s.octets >>= fun octets => Encoding.octets octets : Encoding Unit).run e := by
    intro e mine
    rw [run_window, Encoder.refreshed_of_own mine]
  refine ⟨?_, ?_, ?_⟩
  · intro e e' mine run
    obtain ⟨octets, least, fits, emits⟩ := own.reaches mine ((same e mine).symm.trans run)
    obtain ⟨shown, shows, emits'⟩ := emits.of_after
    obtain ⟨rfl, _⟩ := emits'.unique (emits_octets shown)
    exact ⟨octets, least, fits, emits_window shows False.elim⟩
  · intro e e' fault mine run
    exact own.blameless mine ((same e mine).symm.trans run)
  · intro is
    cases shows : s.octets with
    | ok octets =>
      refine ⟨octets, .ok (), ?_, fun _ => (Slice.length_of_octets shows).2, fun _ => rfl⟩
      rw [← (Slice.length_of_octets shows).2]
      exact emits_window shows fun _ => apart is
    | error fault =>
      refine ⟨[], .error fault, ⟨Nat.zero_le _, fun e _ _ => ?_⟩, nofun, ?_⟩
      · have still : e.refreshed s = s := by
          rw [Encoder.refreshed, Slice.onOutput, if_neg (apart is), ite_self]
        rw [run_window, still, shows, Encoder.put_nil]
        rfl
      · intro holds
        cases shows.symm.trans (backed is holds).octets_eq

/-- A step on a value as it is by then. -/
theorem Fills.seen {v : Value} {next : Value → Encoding Unit} (apart : regular → v.Apart)
    (goes : Fills (next v) room regular sure) : Fills (current v >>= next) room regular sure := by
  have same : ∀ e : Encoder, e.lent = false → (current v >>= next).run e = (next v).run e := by
    intro e own
    rw [EStateM.run_bind, run_current, Encoder.sees_of_own own]
  refine ⟨?_, ?_, ?_⟩
  · intro e e' own run
    obtain ⟨octets, least, fits, emits⟩ := goes.reaches own ((same e own).symm.trans run)
    exact ⟨octets, least, fits, emits.seen False.elim⟩
  · intro e e' fault own run
    exact goes.blameless own ((same e own).symm.trans run)
  · intro is
    obtain ⟨octets, outcome, emits, full, safe⟩ := goes.settles is
    exact ⟨octets, outcome, emits.seen fun _ => apart is, full, safe⟩

/-- What a step makes of a buffer of just the size of its room. -/
theorem Fills.toOctets_eq_ok {octets : Octets} (fills : Fills body room regular sure) :
    body.toOctets room = .ok octets ↔ octets.length = room ∧ Emits False body room octets (.ok ()) := by
  constructor
  · intro written
    cases run : body.run (.ofSize room) with
    | error fault e => simp only [Encoding.toOctets, run] at written; cases written
    | ok done e =>
      obtain ⟨octets', least, fits, emits⟩ := fills.reaches rfl run
      rw [Encoder.remaining_ofSize] at fits
      have full : octets'.length = room := Nat.le_antisymm fits least
      rw [full] at emits
      rw [emits.toOctets (Nat.le_refl _)] at written
      cases written
      exact ⟨full, emits⟩
  · intro parts
    obtain ⟨_, emits⟩ := parts
    rw [emits.toOctets (Nat.le_refl _)]
    rfl

theorem Fills.blameless_toOctets (fills : Fills body room regular sure) : Fault.Blameless (body.toOctets room) := by
  intro fault failed
  cases run : body.run (.ofSize room) with
  | error fault' e =>
    simp only [Encoding.toOctets, run] at failed
    cases failed
    exact fills.blameless rfl run
  | ok done e => simp only [Encoding.toOctets, run] at failed; cases failed

end

/-- The octets have been measured, and they are written. -/
structure Yields (measured : Except Fault Nat) (body : Encoding Unit) (octets : Octets) : Prop where
  measured : measured = .ok octets.length
  emits : Emits False body octets.length octets (.ok ())

/-- A header is written when it fits together with the content that it declares. -/
theorem run_header {tag : Tag} {length : Nat} {octets : Octets} {e : Encoder}
    (header : Header.encode tag length = .ok octets) (room : octets.length + length ≤ e.remaining) :
    (Encoding.header tag length).run e = .ok () (e.put octets) := by
  have size : Header.encodedLength tag length = .ok octets.length := by
    rw [Header.encodedLength_eq, header]
    rfl
  obtain ⟨identifier, measure, first, second, rfl⟩ := Header.encode_eq_ok header
  rw [List.length_append] at room
  have left : measure.length ≤ (e.put identifier).remaining := by
    rw [Encoder.remaining_put (by omega)]
    omega
  have reserved : (reserve ((identifier ++ measure).length + ((length : Number).toNat?).getD 0)).run e =
      .ok () e := by
    rw [run_reserve, Number.toNat?_natCast, Option.getD_some, List.length_append, if_neg (by omega)]
  rw [Encoding.header, EStateM.run_bind, Fault.run_liftM, size]
  simp only []
  rw [EStateM.run_bind, reserved]
  simp only []
  rw [EStateM.run_bind, Encoding.tag, EStateM.run_bind, Fault.run_liftM, first]
  simp only []
  rw [run_octets (by omega)]
  simp only []
  rw [Encoding.length, EStateM.run_bind, Fault.run_liftM, second]
  simp only []
  rw [run_octets left, Encoder.put_put (by omega)]

/-- A header that does not fit together with the content that it declares is not written at all. -/
theorem run_header_of_lt {tag : Tag} {length : Nat} {octets : Octets} {e : Encoder}
    (header : Header.encode tag length = .ok octets) (scarce : e.remaining < octets.length + length) :
    (Encoding.header tag length).run e =
      .error (.coding (.noRoom (octets.length + length) e.remaining) e.position) e := by
  have size : Header.encodedLength tag length = .ok octets.length := by
    rw [Header.encodedLength_eq, header]
    rfl
  rw [Encoding.header, EStateM.run_bind, Fault.run_liftM, size]
  simp only []
  rw [EStateM.run_bind, run_reserve, Number.toNat?_natCast, Option.getD_some, if_pos scarce]

/-- Content after a header that declares no more of it. -/
theorem Emits.element {lent : Prop} {tag : Tag} {length room : Nat} {header octets : Octets} {body : Encoding Unit}
    {outcome : Except Fault Unit} (written : Header.encode tag length = .ok header) (declared : length ≤ room)
    (emits : Emits lent body room octets outcome) :
    Emits lent (Encoding.header tag length >>= fun _ => body) (header.length + room) (header ++ octets) outcome where
  fits := by
    rw [List.length_append]
    exact Nat.add_le_add_left emits.fits _
  run e place bound := by
    have fits := emits.fits
    have left : room ≤ (e.put header).remaining := by
      rw [Encoder.remaining_put (by omega)]
      omega
    rw [EStateM.run_bind, run_header written (by omega)]
    simp only []
    rw [emits.run (e.put header) place left, Encoder.put_put (by omega)]

/-- Content that has been written after a header is at least what the header declares. -/
theorem Fills.content_of_run {tag : Tag} {length : Nat} {header : Octets} {body : Encoding Unit} {regular sure : Prop}
    (written : Header.encode tag length = .ok header) (fills : Fills body length regular sure) {e e' : Encoder}
    (own : e.lent = false) (run : (Encoding.header tag length >>= fun _ => body).run e = .ok () e') :
    ∃ content, length ≤ content.length ∧ header.length + content.length ≤ e.remaining ∧
      Emits False body content.length content (.ok ()) := by
  by_cases scarce : e.remaining < header.length + length
  · rw [EStateM.run_bind, run_header_of_lt written scarce] at run
    cases run
  · rw [EStateM.run_bind, run_header written (Nat.not_lt.mp scarce)] at run
    obtain ⟨content, least, fits, emits⟩ := fills.reaches ((e.lent_put header).trans own) run
    rw [Encoder.remaining_put (by omega)] at fits
    exact ⟨content, least, by omega, emits⟩

/-- Measured content after the header that declares it. -/
theorem Fills.element {tag : Tag} {length : Nat} {header : Octets} {body : Encoding Unit} {regular sure : Prop}
    (written : Header.encode tag length = .ok header) (fills : Fills body length regular sure) :
    Fills (Encoding.header tag length >>= fun _ => body) (header.length + length) regular sure where
  reaches := by
    intro e e' own run
    obtain ⟨content, least, fits, emits⟩ := fills.content_of_run written own run
    refine ⟨header ++ content, ?_, ?_, ?_⟩ <;> rw [List.length_append]
    · exact Nat.add_le_add_left least _
    · exact fits
    · exact emits.element written least
  blameless := by
    intro e e' fault own run
    by_cases scarce : e.remaining < header.length + length
    · rw [EStateM.run_bind, run_header_of_lt written scarce] at run
      cases run
      exact ⟨_, _, rfl⟩
    · rw [EStateM.run_bind, run_header written (Nat.not_lt.mp scarce)] at run
      exact fills.blameless ((e.lent_put header).trans own) run
  settles is := by
    obtain ⟨octets, outcome, emits, full, safe⟩ := fills.settles is
    refine ⟨header ++ octets, outcome, emits.element written (Nat.le_refl _), ?_, safe⟩
    intro done
    rw [List.length_append, full done]

end Encoding

end Der
