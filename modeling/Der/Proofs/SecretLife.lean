import Der.Proofs.Results
import Der.Secret

namespace Der

namespace Secret

variable {octets : Octets} {s : Secret}

/-- The secret with one more view handed out. -/
def viewed (s : Secret) : Secret :=
  { s with exposures := s.exposures + 1 }

/-- What a buffer of its own holds: the octets, or zeros once it has been released. -/
def contents (octets : Octets) (released : Bool) : Octets :=
  if released then List.replicate octets.length 0 else octets

theorem length_contents (octets : Octets) (released : Bool) : (contents octets released).length = octets.length := by
  cases released
  · rfl
  · exact List.length_replicate

/-- The buffer of the secret is its own, or a view of the array that it was made from. -/
def Keeps (s : Secret) (slicing : Slicing) : Prop :=
  s.own?.isSome = true ↔ slicing = .copies

theorem keeps_ofOctets (slicing : Slicing) (octets : Octets) : (ofOctets slicing octets).Keeps slicing := by
  cases slicing
  · exact iff_of_true rfl rfl
  · exact iff_of_false Bool.false_ne_true nofun

theorem Keeps.of_own? {slicing : Slicing} {t : Secret} (keeps : s.Keeps slicing) (same : t.own?.isSome = s.own?.isSome) :
    t.Keeps slicing := by
  rw [Keeps, same]
  exact keeps

theorem buffer_ofOctets (slicing : Slicing) (octets : Octets) : (ofOctets slicing octets).buffer = octets := by
  cases slicing <;> rfl

theorem isSome_refilled (s : Secret) (octets : Octets) : (s.refilled octets).own?.isSome = s.own?.isSome := by
  obtain ⟨source, own?, released, exposures⟩ := s
  cases own? <;> rfl

theorem buffer_refilled (s : Secret) (octets : Octets) : (s.refilled octets).buffer = octets := by
  obtain ⟨source, own?, released, exposures⟩ := s
  cases own? <;> rfl

theorem exposures_refilled (s : Secret) (octets : Octets) : (s.refilled octets).exposures = s.exposures := by
  obtain ⟨source, own?, released, exposures⟩ := s
  cases own? <;> rfl

theorem buffer_wiped (s : Secret) : s.wiped.buffer = List.replicate s.buffer.length 0 :=
  buffer_refilled s _

/-- A change of the array is seen in the buffer just if the buffer is a view of it. -/
theorem buffer_onSource {slicing : Slicing} (keeps : s.Keeps slicing) (change : Octets → Octets) :
    (s.onSource change).buffer = if slicing = .copies then s.buffer else change s.buffer := by
  rw [← if_congr keeps rfl rfl]
  simp only [onSource, buffer]
  cases s.own? <;> rfl

end Secret

namespace WithSecret

variable {α β : Type}

/-- How a step ends, and the secret that it leaves. -/
def result (x : WithSecret α) (s : Secret) : Except Fault α × Secret :=
  match x.run s with
  | .ok a s => (.ok a, s)
  | .error fault s => (.error fault, s)

/-- A step whose fault is caught. -/
def attempt (x : WithSecret α) : WithSecret (Except Fault α) := fun s =>
  .ok (x.result s).1 (x.result s).2

/-- The fault of a step that a released secret refuses. -/
def detached : Fault :=
  .ofCause .wipedSecret

theorem result_attempt_bind (x : WithSecret α) (next : Except Fault α → WithSecret β) (s : Secret) :
    (attempt x >>= next).result s = (next (x.result s).1).result (x.result s).2 := rfl

theorem result_expose_of_live {s : Secret} (live : s.released = false) : expose.result s = (.ok s.buffer, s.viewed) := by
  obtain ⟨buffer, released, exposures⟩ := s
  cases live
  rfl

theorem result_expose_of_released {s : Secret} (gone : s.released = true) : expose.result s = (.error detached, s) := by
  obtain ⟨buffer, released, exposures⟩ := s
  cases gone
  rfl

/-- A use ends as its body ends, if a view is handed out at all. In any case it leaves a wiped secret. -/
theorem result_use (body : Octets → WithSecret α) (s : Secret) :
    (use body).result s = (((expose >>= body).result s).1, ((expose >>= body).result s).2.wiped) := by
  simp only [result, EStateM.run, use]
  cases (expose >>= body) s <;> rfl

theorem result_use_of_live (body : Octets → WithSecret α) {s : Secret} (live : s.released = false) :
    (use body).result s = (((body s.buffer).result s.viewed).1, ((body s.buffer).result s.viewed).2.wiped) := by
  have first : (expose >>= body).result s = (body s.buffer).result s.viewed := by
    obtain ⟨buffer, released, exposures⟩ := s
    cases live
    rfl
  rw [result_use, first]

/-- A released secret is not used, whatever the body is. -/
theorem result_use_of_released (body : Octets → WithSecret α) {s : Secret} (gone : s.released = true) :
    (use body).result s = (.error detached, s.wiped) := by
  have first : (expose >>= body).result s = (.error detached, s) := by
    obtain ⟨buffer, released, exposures⟩ := s
    cases gone
    rfl
  rw [result_use, first]

/-- What may be done with a secret: steps, with what follows on each of their outcomes. The callback of a use is a script of
its own. Somebody else may change the array that the secret was made from at any time. -/
inductive Script (α : Type) where
  | done (outcome : Except Fault α)
  | expose (next : Except Fault Octets → Script α)
  | zeroize (next : Script α)
  | use (body : Octets → Script α) (next : Except Fault α → Script α)
  | change (change : Octets → Octets) (next : Script α)

/-- What can be observed of a run: the outcomes of exposures, wiping, a callback that is entered with a view and the outcome
of its use, a use that is refused, and changes of the array that the secret was made from. -/
inductive Event (α : Type) where
  | exposed (outcome : Except Fault Octets)
  | zeroized
  | entered (view : Octets)
  | left (outcome : Except Fault α)
  | refused (outcome : Except Fault α)
  | changed (change : Octets → Octets)

/-- An event, and the secret after it. -/
structure Moment (α : Type) where
  event : Event α
  secret : Secret

namespace Script

/-- The steps of a script on a secret. -/
def perform : Script α → WithSecret α
  | done outcome => outcome
  | expose next => do (next (← attempt WithSecret.expose)).perform
  | zeroize next => do
    WithSecret.zeroize
    next.perform
  | use body next => do (next (← attempt (WithSecret.use fun view => (body view).perform))).perform
  | change f next => do
    modify (Secret.onSource f)
    next.perform

/-- What happens in the course of a script. -/
def history : Script α → Secret → List (Moment α)
  | done _, _ => []
  | expose next, s =>
    let (outcome, s) := WithSecret.expose.result s
    ⟨.exposed outcome, s⟩ :: (next outcome).history s
  | zeroize next, s =>
    let (_, s) := WithSecret.zeroize.result s
    ⟨.zeroized, s⟩ :: next.history s
  | use body next, s =>
    let (outcome, after) := (WithSecret.use fun view => (body view).perform).result s
    let during :=
      match WithSecret.expose.result s with
      | (.ok view, inside) => ⟨.entered view, inside⟩ :: (body view).history inside ++ [⟨.left outcome, after⟩]
      | (.error _, _) => [⟨.refused outcome, after⟩]
    during ++ (next outcome).history after
  | change f next, s => ⟨.changed f, s.onSource f⟩ :: next.history (s.onSource f)

end Script

/-- What one event makes of a secret. -/
inductive Step : Secret → Event α → Secret → Prop
  | exposed {s : Secret} : s.released = false → Step s (.exposed (.ok s.buffer)) s.viewed
  | detached {s : Secret} : s.released = true → Step s (.exposed (.error detached)) s
  | zeroized {s : Secret} : Step s .zeroized s.wiped
  | entered {s : Secret} : s.released = false → Step s (.entered s.buffer) s.viewed
  | left {s : Secret} (outcome : Except Fault α) : Step s (.left outcome) s.wiped
  | refused {s : Secret} : s.released = true → Step s (.refused (.error detached)) s.wiped
  | changed {s : Secret} (change : Octets → Octets) : Step s (.changed change) (s.onSource change)

/-- The moments follow one another, from one secret to another. -/
inductive Leads : Secret → List (Moment α) → Secret → Prop
  | nil {s : Secret} : Leads s [] s
  | cons {s t : Secret} {m : Moment α} {rest : List (Moment α)} :
    Step s m.event m.secret → Leads m.secret rest t → Leads s (m :: rest) t

theorem Step.leads {s t : Secret} {event : Event α} (step : Step s event t) : Leads s [⟨event, t⟩] t :=
  .cons step .nil

theorem Leads.append {s t u : Secret} {first second : List (Moment α)} (leads : Leads s first t)
    (goes : Leads t second u) : Leads s (first ++ second) u := by
  induction leads with
  | nil => exact goes
  | cons step _ ih => exact .cons step (ih goes)

/-- The history of a script leads to the secret that the script leaves. -/
theorem Script.leads_history (script : Script α) (s : Secret) :
    Leads s (script.history s) (script.perform.result s).2 := by
  induction script generalizing s with
  | done outcome =>
    cases outcome <;> exact .nil
  | expose next ih =>
    rw [history, perform, result_attempt_bind]
    cases phase : s.released with
    | false =>
      rw [result_expose_of_live phase]
      exact .cons (.exposed phase) (ih _ _)
    | true =>
      rw [result_expose_of_released phase]
      exact .cons (.detached phase) (ih _ _)
  | zeroize next ih => exact .cons .zeroized (ih _)
  | use body next inner ih =>
    rw [history, perform, result_attempt_bind]
    cases phase : s.released with
    | false =>
      rw [result_expose_of_live phase, result_use_of_live _ phase]
      have during := (inner s.buffer s.viewed).append (Step.left ((body s.buffer).perform.result s.viewed).1).leads
      exact Leads.append (.cons (.entered phase) during) (ih _ _)
    | true =>
      rw [result_expose_of_released phase, result_use_of_released _ phase]
      exact .cons (.refused phase) (ih _ _)
  | change f next ih => exact .cons (.changed f) (ih _)

/-- Whether the secret is released from the event on. -/
def Event.releases : Event α → Bool
  | zeroized | left _ | refused _ => true
  | exposed _ | entered _ | changed _ => false

/-- How many views the event hands out. -/
def Event.views : Event α → Nat
  | exposed (.ok _) | entered _ => 1
  | _ => 0

/-- What an event may show of a secret that has been released before, or not, and of what its buffer holds. -/
def Event.Proper (released : Bool) (held : Octets) : Event α → Prop
  | exposed outcome => outcome = if released then .error detached else .ok held
  | entered view => released = false ∧ view = held
  | refused outcome => released = true ∧ outcome = .error detached
  | _ => True

/-- What an event makes of what the buffer holds. -/
def Event.effect (slicing : Slicing) (held : Octets) (event : Event α) : Octets :=
  if event.releases then List.replicate held.length 0
  else match event with
    | changed change => if slicing = .copies then held else change held
    | _ => held

/-- Whether the secret has been released in the course of the moments. -/
def released (moments : List (Moment α)) : Bool :=
  moments.any (·.event.releases)

/-- How many views have been handed out in the course of the moments. -/
def views : List (Moment α) → Nat
  | [] => 0
  | m :: rest => m.event.views + views rest

/-- What the buffer holds after the moments, from the octets on. -/
def held (slicing : Slicing) (octets : Octets) (moments : List (Moment α)) : Octets :=
  moments.foldl (fun octets m => m.event.effect slicing octets) octets

/-- A moment, after others in the history of a secret made from an array of the octets. -/
structure Moment.Lawful (slicing : Slicing) (octets : Octets) (earlier : List (Moment α)) (m : Moment α) : Prop where
  proper : m.event.Proper (released earlier) (held slicing octets earlier)
  released_eq : m.secret.released = released (earlier ++ [m])
  buffer_eq : m.secret.buffer = held slicing octets (earlier ++ [m])
  views_eq : m.secret.views = List.replicate (views (earlier ++ [m])) (held slicing octets (earlier ++ [m]))

/-- What a buffer of its own holds is a matter of the release alone. -/
theorem held_of_copies (octets : Octets) (moments : List (Moment α)) :
    held .copies octets moments = Secret.contents octets (released moments) := by
  have effect : ∀ (event : Event α) (phase : Bool), event.effect .copies (Secret.contents octets phase) =
      Secret.contents octets (phase || event.releases) := by
    intro event phase
    cases event with
    | zeroized | left | refused =>
      simp only [Event.effect, Event.releases, if_true, Secret.length_contents, Bool.or_true]
      rfl
    | exposed | entered | changed => exact (Bool.or_false phase).symm ▸ rfl
  have goes : ∀ phase, held .copies (Secret.contents octets phase) moments =
      Secret.contents octets (phase || released moments) := by
    induction moments with
    | nil => exact fun phase => (Bool.or_false phase).symm ▸ rfl
    | cons m rest ih =>
      intro phase
      rw [held, List.foldl_cons, effect, released, List.any_cons, ← Bool.or_assoc]
      exact ih _
  exact goes false

section

variable {s t : Secret} {octets : Octets} {slicing : Slicing} {event : Event α} {moments : List (Moment α)}

/-- One step shows what the buffer holds before the release and nothing after it. -/
theorem Step.proper (step : Step s event t) : event.Proper s.released s.buffer := by
  cases step with
  | exposed live =>
    rw [live]
    rfl
  | detached gone =>
    rw [gone]
    rfl
  | entered live => exact ⟨live, rfl⟩
  | refused gone => exact ⟨gone, rfl⟩
  | zeroized | left | changed => trivial

theorem Step.released_eq (step : Step s event t) : t.released = (s.released || event.releases) := by
  cases step with
  | zeroized | left | refused => exact (Bool.or_true _).symm
  | exposed | detached | entered | changed => exact (Bool.or_false _).symm

theorem Step.keeps (step : Step s event t) (keeps : s.Keeps slicing) : t.Keeps slicing := by
  cases step with
  | zeroized | left | refused => exact keeps.of_own? (Secret.isSome_refilled s _)
  | exposed | detached | entered | changed => exact keeps

theorem Step.buffer_eq (step : Step s event t) (keeps : s.Keeps slicing) : t.buffer = event.effect slicing s.buffer := by
  cases step with
  | zeroized | left | refused => exact s.buffer_wiped
  | exposed | detached | entered => rfl
  | changed change => exact Secret.buffer_onSource keeps change

theorem Step.exposures (step : Step s event t) : t.exposures = s.exposures + event.views := by
  cases step with
  | zeroized | left | refused => exact Secret.exposures_refilled s _
  | exposed | detached | entered | changed => rfl

theorem Leads.released_eq (leads : Leads s moments t) : t.released = (s.released || released moments) := by
  induction leads with
  | nil => exact (Bool.or_false _).symm
  | cons step _ ih => rw [ih, step.released_eq, released, released, List.any_cons, Bool.or_assoc]

theorem Leads.buffer_eq (leads : Leads s moments t) (keeps : s.Keeps slicing) :
    t.buffer = held slicing s.buffer moments := by
  induction leads with
  | nil => rfl
  | cons step _ ih => rw [ih (step.keeps keeps), step.buffer_eq keeps, held, held, List.foldl_cons]

theorem Leads.exposures (leads : Leads s moments t) : t.exposures = s.exposures + views moments := by
  induction leads with
  | nil => rfl
  | cons step _ ih => rw [ih, step.exposures, views, Nat.add_assoc]

theorem Leads.split {earlier later : List (Moment α)} {m : Moment α} (leads : Leads s (earlier ++ m :: later) t) :
    ∃ u, Leads s earlier u ∧ Step u m.event m.secret := by
  induction earlier generalizing s with
  | nil =>
    cases leads with
    | cons step _ => exact ⟨s, .nil, step⟩
  | cons first rest ih =>
    cases leads with
    | cons step goes =>
      obtain ⟨u, before, here⟩ := ih goes
      exact ⟨u, .cons step before, here⟩

theorem Leads.last (leads : Leads s moments t) : (moments.getLast?.map Moment.secret).getD s = t := by
  induction leads with
  | nil => rfl
  | @cons s t m rest _ goes ih =>
    rw [List.getLast?_cons, Option.map_some, Option.getD_some, ← ih]
    cases rest.getLast? <;> rfl

/-- Every moment of a history of a new secret is lawful after those before it. -/
theorem Leads.lawful {earlier later : List (Moment α)} {m : Moment α}
    (leads : Leads (Secret.ofOctets slicing octets) (earlier ++ m :: later) t) : m.Lawful slicing octets earlier := by
  obtain ⟨u, before, step⟩ := leads.split
  have upToHere := before.append step.leads
  have keeps := Secret.keeps_ofOctets slicing octets
  have first := before.buffer_eq keeps
  have buffer := upToHere.buffer_eq keeps
  rw [Secret.buffer_ofOctets] at first buffer
  refine ⟨?_, upToHere.released_eq, buffer, ?_⟩
  · have shown := step.proper
    rwa [before.released_eq, first] at shown
  · have exposures : m.secret.exposures = 0 + views (earlier ++ [m]) := upToHere.exposures
    rw [Secret.views, exposures, Nat.zero_add, ← buffer]

end

end WithSecret

/-- A secret is made from the octets in a window. In the course of any script, however uses are nested and however they
end, it is handed out as what its buffer holds before it is first released, and never again, and all views show what the
buffer holds. If the source of the window copies its octets when it is sliced, that is the octets before the release and
as many zeros from then on, whatever becomes of the source. A buffer that is a view of the source changes with it. The
script leaves the secret as its last moment shows it. A use ends as its body does on a view, or fails without it, and
leaves the secret wiped. -/
theorem Slice.secret_life {window : Slice} {octets : Octets} (shows : window.octets = .ok octets) (slicing : Slicing) :
    (∃ secret, window.toSecret slicing = .ok secret ∧ secret.released = false ∧ secret.buffer = octets ∧
      (∀ (α : Type) (script : WithSecret.Script α) (earlier later : List (WithSecret.Moment α)) m,
        script.history secret = earlier ++ m :: later → m.Lawful slicing octets earlier) ∧
      ∀ (α : Type) (script : WithSecret.Script α),
        (script.perform.result secret).2 = ((script.history secret).getLast?.map (·.secret)).getD secret) ∧
    (∀ (α : Type) (moments : List (WithSecret.Moment α)),
      WithSecret.held .copies octets moments = Secret.contents octets (WithSecret.released moments) ∧
        (WithSecret.held .copies octets moments).length = octets.length) ∧
    (∀ (α : Type) (body : Octets → WithSecret α) (s : Secret), (WithSecret.use body).result s =
      if s.released then (.error WithSecret.detached, s.wiped)
      else (((body s.buffer).result s.viewed).1, ((body s.buffer).result s.viewed).2.wiped)) ∧
    WithSecret.detached.kind? = some .detachedSource := by
  have made : window.toSecret slicing = .ok (Secret.ofOctets slicing octets) :=
    Except.bind_eq_ok.mpr ⟨octets, shows, rfl⟩
  refine ⟨⟨_, made, rfl, Secret.buffer_ofOctets slicing octets, ?_, ?_⟩, ?_, ?_, rfl⟩
  · intro α script earlier later m parts
    have leads := script.leads_history (Secret.ofOctets slicing octets)
    rw [parts] at leads
    exact leads.lawful
  · intro α script
    exact (script.leads_history _).last.symm
  · intro α moments
    rw [WithSecret.held_of_copies]
    exact ⟨rfl, Secret.length_contents octets _⟩
  · intro α body s
    cases phase : s.released with
    | false => exact WithSecret.result_use_of_live body phase
    | true => exact WithSecret.result_use_of_released body phase

/-- The array is overwritten while a callback uses the secret again, with a callback that throws, and then asks for another
view. So does whoever used it first. -/
def WithSecret.nestedUses : Script Nat :=
  .use (fun _ => .change (fun octets => octets.map fun _ => 9) (.use (fun _ => .done (.error (.misuse (.other "thrown"))))
    fun _ => .expose fun view => .done (view.map List.length))) fun outcome => .expose fun _ => .done outcome

/-- The throwing callback releases the secret inside the use around it, and what it was handed before was the secret as it
was made. -/
theorem Slice.secret_life_nested_uses :
    ∃ secret, Slice.toSecret ⟨[2, 3, 7, 9], 1, 2, .document⟩ .copies = .ok secret ∧
      (WithSecret.nestedUses.history secret).map (·.secret.buffer) = [[3, 7], [3, 7], [3, 7], [0, 0], [0, 0], [0, 0], [0, 0]] ∧
      (WithSecret.nestedUses.history secret).map (·.secret.source) = [[3, 7], [9, 9], [9, 9], [9, 9], [9, 9], [9, 9], [9, 9]] ∧
      ∀ earlier later m, WithSecret.nestedUses.history secret = earlier ++ m :: later → m.Lawful .copies [3, 7] earlier := by
  obtain ⟨⟨secret, made, _, _, lawful, _⟩, _⟩ :=
    Slice.secret_life (show (Slice.mk [2, 3, 7, 9] 1 2 .document).octets = .ok [3, 7] from rfl) .copies
  have copy : Except.ok (Secret.ofOctets .copies [3, 7]) = Except.ok secret := made
  cases copy
  exact ⟨_, made, rfl, rfl, lawful Nat WithSecret.nestedUses⟩

/-- The array that a secret was made from is written into. Where it was sliced by reference, the secret shows the change,
though it has not been released, and wiping the secret wipes the array. -/
theorem Slice.secret_follows_source :
    ∃ secret, Slice.toSecret (.ofOctets [1, 2, 3]) .shares = .ok secret ∧
      ((WithSecret.Script.change (fun octets => octets.set 0 9) (.expose fun view => .done view)).perform.result secret).1 =
        .ok [9, 2, 3] ∧
      secret.wiped.source = [0, 0, 0] :=
  ⟨_, rfl, rfl, rfl⟩

end Der
