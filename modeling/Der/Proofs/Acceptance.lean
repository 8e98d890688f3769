import Der.Proofs.DepthLimit
import Der.Proofs.Extent

namespace Der

namespace Decoder

variable {d e : Decoder} {layers depth : Nat} {maxDepth : Number}

/-- The decoders are inside as many scopes, under one limit. -/
def Level (d e : Decoder) : Prop :=
  e.depth = d.depth ∧ e.maxDepth = d.maxDepth

/-- Of so many scopes, those that have room here have room at another depth under another limit, too. -/
def AdmitsAt (d : Decoder) (layers depth : Nat) (maxDepth : Number) : Prop :=
  ∀ k ≤ layers, d.maxDepth.less (d.depth + k : Nat) = false → maxDepth.less (depth + k : Nat) = false

theorem AdmitsAt.level (room : d.AdmitsAt layers depth maxDepth) (level : d.Level e) : e.AdmitsAt layers depth maxDepth := by
  intro k within shallow
  rw [level.1, level.2] at shallow
  exact room k within shallow

theorem AdmitsAt.scope (room : d.AdmitsAt (layers + 1) depth maxDepth) (count : Nat) :
    (d.scope count).AdmitsAt layers (depth + 1) maxDepth := by
  intro k within shallow
  have shallow : d.maxDepth.less (d.depth + 1 + k : Nat) = false := shallow
  rw [Nat.add_right_comm, Nat.add_assoc] at shallow ⊢
  exact room (k + 1) (Nat.succ_le_succ within) shallow

end Decoder

namespace Decoding

variable {α β : Type} {layers : Nat} {body : Decoding α} {next : α → Decoding β}

/-- What the step reads with success, it reads at every depth where so many scopes have room that have room here. -/
def Sinks (layers : Nat) (body : Decoding α) : Prop :=
  ∀ ⦃d d' : Decoder⦄ ⦃a : α⦄, body.run d = .ok a d' → d.Level d' ∧ ∀ depth maxDepth, d.AdmitsAt layers depth maxDepth →
    body.run (d.inside depth maxDepth) = .ok a (d'.inside depth maxDepth)

theorem Sinks.bind (first : Sinks layers body) (goes : ∀ a, Sinks layers (next a)) : Sinks layers (body >>= next) := by
  intro d d' b run
  obtain ⟨a, e, begun, ended⟩ := bind_eq_ok run
  obtain ⟨level, begins⟩ := first begun
  obtain ⟨level', ends⟩ := goes a ended
  refine ⟨⟨level'.1.trans level.1, level'.2.trans level.2⟩, ?_⟩
  intro depth maxDepth room
  rw [EStateM.run_bind, begins depth maxDepth room]
  exact ends depth maxDepth (room.level level)

theorem sinks_pure (a : α) : Sinks layers (pure a) := by
  intro d d' a' run
  cases run
  exact ⟨⟨rfl, rfl⟩, fun _ _ _ => rfl⟩

theorem sinks_throw (fault : Fault) : Sinks layers (throw fault : Decoding α) := by
  intro d d' a run
  cases run

theorem sinks_liftM (x : Except Fault α) : Sinks layers (liftM x : Decoding α) := by
  cases x with
  | ok a => exact sinks_pure a
  | error fault => exact sinks_throw fault

theorem sinks_advance (count : Nat) : Sinks layers (advance count) := by
  intro d d' a run
  cases run
  exact ⟨⟨rfl, rfl⟩, fun _ _ _ => rfl⟩

/-- A step that looks at the decoder, but not at its depth. -/
theorem sinks_get {next : Decoder → Decoding β} (goes : ∀ d, Sinks layers (next d))
    (blind : ∀ d depth maxDepth, next (d.inside depth maxDepth) = next d) : Sinks layers (get >>= next) := by
  intro d d' b run
  obtain ⟨level, after⟩ := goes d run
  refine ⟨level, ?_⟩
  intro depth maxDepth room
  have after := after depth maxDepth room
  rw [← blind d depth maxDepth] at after
  exact after

theorem sinks_fail (cause : Fault.Cause) : Sinks layers (fail cause : Decoding α) :=
  sinks_get (fun d => sinks_throw (d.fault cause)) fun _ _ _ => rfl

theorem sinks_need (count : Number) : Sinks layers (need count) := by
  refine sinks_get ?_ fun _ _ _ => rfl
  intro d
  cases count.toNat? with
  | none => exact sinks_fail _
  | some n =>
    by_cases room : (n : Int) ≤ d.remaining
    · simp only [if_pos room]
      exact sinks_pure n
    · simp only [if_neg room]
      exact sinks_fail _

theorem sinks_slice (count : Number) : Sinks layers (slice count) := by
  refine (sinks_need count).bind ?_
  intro n
  refine sinks_get ?_ fun _ _ _ => rfl
  intro d
  refine (sinks_liftM _).bind ?_
  intro window
  exact (sinks_advance n).bind fun _ => sinks_pure window

theorem Basic.sinks (basic : Basic body) : Sinks layers body := by
  cases basic with
  | pure a => exact sinks_pure a
  | throw other => exact sinks_throw _
  | peekTag => exact sinks_get (fun d => sinks_liftM d.peekTag) fun _ _ _ => rfl
  | header =>
    refine sinks_get ?_ fun _ _ _ => rfl
    intro d
    refine (sinks_liftM _).bind ?_
    intro parts
    exact (sinks_advance _).bind fun _ => sinks_pure parts.1
  | slice count => exact sinks_slice count
  | content count p =>
    refine (sinks_get (fun d => sinks_pure d.position) fun _ _ _ => rfl).bind ?_
    intro start
    refine (sinks_slice count).bind ?_
    intro window
    cases p.rule.read window with
    | ok v => exact sinks_pure v
    | error fault => exact sinks_throw _

theorem Sinks.complete (sinks : Sinks layers body) : Sinks layers (complete body) := by
  refine sinks.bind ?_
  intro a
  refine (sinks_get ?_ fun _ _ _ => rfl).bind fun _ => sinks_pure a
  intro d
  by_cases done : d.position = d.stop
  · rw [if_pos done]
    exact sinks_pure ()
  · rw [if_neg done]
    exact sinks_fail _

theorem outcome_eq_ok {d : Decoder} {a : α} : body.outcome d = .ok a ↔ ∃ e, body.run d = .ok a e := by
  unfold outcome
  cases body.run d with
  | ok b e =>
    constructor
    · intro same
      cases same
      exact ⟨e, rfl⟩
    · intro ⟨e', same⟩
      cases same
      rfl
  | error fault e => exact iff_of_false nofun nofun

theorem Sinks.outcome (sinks : Sinks layers body) {d : Decoder} {a : α} (done : body.outcome d = .ok a) {depth : Nat}
    {maxDepth : Number} (room : d.AdmitsAt layers depth maxDepth) : body.outcome (d.inside depth maxDepth) = .ok a := by
  obtain ⟨e, run⟩ := outcome_eq_ok.mp done
  exact outcome_eq_ok.mpr ⟨_, (sinks run).2 depth maxDepth room⟩

/-- A scope takes one of the layers. -/
theorem Sinks.nested (sinks : Sinks layers body) (count : Number) : Sinks (layers + 1) (nested count body) := by
  refine (sinks_need count).bind ?_
  intro n d d' a run
  simp only [EStateM.run_bind, EStateM.run_get] at run ⊢
  by_cases deep : d.maxDepth.less (d.depth + 1 : Nat) = true
  · rw [if_pos deep] at run
    cases run
  rw [if_neg deep] at run
  obtain ⟨b, e, inner, moved⟩ := bind_eq_ok run
  rw [Fault.run_liftM] at inner
  cases done : (Decoding.complete body).outcome (d.scope n) with
  | error fault => rw [done] at inner; cases inner
  | ok b' =>
    rw [done] at inner
    cases inner
    cases moved
    refine ⟨⟨rfl, rfl⟩, ?_⟩
    intro depth maxDepth room
    have shallow : maxDepth.less (depth + 1 : Nat) = false := room 1 (Nat.le_add_left _ _) (Bool.eq_false_iff.mpr deep)
    have again : (Decoding.complete body).outcome ((d.inside depth maxDepth).scope n) = .ok a :=
      sinks.complete.outcome done (room.scope n)
    rw [if_neg (by exact Bool.eq_false_iff.mp shallow), EStateM.run_bind, Fault.run_liftM, again]
    rfl

/-- Steps that see the depth only where they open a scope succeed wherever there is room for the scopes. -/
theorem Stepwise.sinks (steps : Stepwise layers body) : Sinks layers body := by
  induction steps with
  | basic basic layers => exact basic.sinks
  | bind first goes ih ihNext => exact ih.bind ihNext
  | look goes blind ih => exact sinks_get ih blind
  | nested inner count ih => exact ih.nested count

variable {d d' e : Decoder} {content rest : Octets} {a : α} {b : β}

theorem map_eq_ok {f : α → β} :
    (do return f (← body)).run d = .ok b e ↔ ∃ a, b = f a ∧ body.run d = .ok a e := by
  constructor
  · intro run
    obtain ⟨a, e, read, last⟩ := bind_eq_ok run
    cases last
    exact ⟨a, rfl, read⟩
  · rintro ⟨a, rfl, read⟩
    rw [EStateM.run_bind, read]
    rfl

theorem run_map_of_error {f : α → β} {fault : Fault} (refused : body.run d = .error fault e) :
    (do return f (← body)).run d = .error fault e := by
  rw [EStateM.run_bind, refused]

theorem complete_eq_ok : (complete body).run d = .ok a e ↔ body.run d = .ok a e ∧ e.position = e.stop := by
  have finishes : ∀ s : Decoder, s.position = s.stop → finish.run s = .ok () s := by
    intro s done
    simp only [finish, EStateM.run_bind, EStateM.run_get, if_pos done]
    rfl
  constructor
  · intro run
    obtain ⟨a, s, read, ended⟩ := bind_eq_ok run
    obtain ⟨⟨⟩, s', finished, last⟩ := bind_eq_ok ended
    cases last
    by_cases done : s.position = s.stop
    · rw [finishes s done] at finished
      cases finished
      exact ⟨read, done⟩
    · simp only [finish, EStateM.run_bind, EStateM.run_get, if_neg done] at finished
      cases finished
  · rintro ⟨read, done⟩
    simp only [complete, EStateM.run_bind, read, finishes e done]
    rfl

/-- Where there is room for one scope, a body in a scope of its own succeeds when it exhausts the scope. -/
theorem nested_iff (bounded : d.Bounded) (ahead : d.rest = content ++ rest)
    (shallow : d.maxDepth.less (d.depth + 1 : Nat) = false) :
    (nested content.length body).run d = .ok a d' ↔ d' = d.skip content.length ∧
      ∃ e, body.run (d.scope content.length) = .ok a e ∧ e.position = e.stop := by
  have room := (Decoder.takes_of_ahead ahead).length_le
  constructor
  · intro run
    obtain ⟨n, isCount, _, rfl, _, e, whole⟩ := nested_eq_ok bounded run
    obtain rfl : content.length = n := Number.natCast_inj isCount
    exact ⟨rfl, e, complete_eq_ok.mp whole⟩
  · rintro ⟨rfl, e, whole⟩
    rw [run_nested bounded room, if_neg (Bool.eq_false_iff.mp shallow), complete_eq_ok.mpr whole]

/-- There, the refusal of a body is the refusal of the scope. -/
theorem run_nested_of_error (bounded : d.Bounded) (ahead : d.rest = content ++ rest)
    (shallow : d.maxDepth.less (d.depth + 1 : Nat) = false) {fault : Fault}
    (refused : body.run (d.scope content.length) = .error fault e) :
    (nested content.length body).run d = .error fault d := by
  have room := (Decoder.takes_of_ahead ahead).length_le
  have whole : (complete body).run (d.scope content.length) = .error fault e := by
    rw [complete, EStateM.run_bind, refused]
  rw [run_nested bounded room, if_neg (Bool.eq_false_iff.mp shallow), whole]

end Decoding

open Decoding

/-- The octets are, on their own but inside so many scopes, one element that is read as the value. -/
def Codec.Parses (c : Codec) (depth : Nat) (maxDepth : Number) (octets : Octets) (v : Value) : Prop :=
  (complete c.decode).outcome ((Decoder.ofOctets octets maxDepth).inside depth maxDepth) = .ok v

/-- Outside all scopes, this is what it is to be a document. -/
theorem Codec.parses_zero {c : Codec} {maxDepth : Number} {octets : Octets} {v : Value} :
    c.Parses 0 maxDepth octets v ↔ Document.parse c maxDepth octets = .ok v :=
  Iff.rfl

theorem Decoder.bounded_inside (octets : Octets) (depth : Nat) (maxDepth : Number) :
    ((ofOctets octets maxDepth).inside depth maxDepth).Bounded :=
  ⟨Nat.zero_le _, Nat.le_refl _⟩

theorem Decoder.rest_inside (octets : Octets) (depth : Nat) (maxDepth : Number) :
    ((ofOctets octets maxDepth).inside depth maxDepth).rest = octets :=
  rest_ofOctets octets maxDepth

/-- Elements are accepted in their places just when their octets are accepted on their own, with the same value. -/
structure Codec.Portable (c : Codec) : Prop where
  parses_of_run : ∀ ⦃d d' : Decoder⦄ ⦃v : Value⦄, d.Bounded → c.decode.run d = .ok v d' →
    ∃ octets w, d.Takes octets d' ∧ c.Parses d.depth d.maxDepth octets w ∧ v.Same w
  run_of_parses : ∀ ⦃d : Decoder⦄ ⦃octets more : Octets⦄ ⦃w : Value⦄, d.Bounded → d.rest = octets ++ more →
    c.Parses d.depth d.maxDepth octets w → ∃ v, c.decode.run d = .ok v (d.skip octets.length) ∧ v.Same w
  frames : ∀ ⦃depth : Nat⦄ ⦃maxDepth : Number⦄ ⦃octets : Octets⦄ ⦃v : Value⦄, c.Parses depth maxDepth octets v →
    ∃ t : Tag, t.Frames octets ∧ c.accepts t = true

/-- The scope that ends behind what is read is like a document of its own. -/
theorem Decoder.Takes.shifted {d d' : Decoder} {octets : Octets} (takes : d.Takes octets d') (bounded : d.Bounded) :
    (d.upTo d'.position).Shifted d.position ((Decoder.ofOctets octets d.maxDepth).inside d.depth d.maxDepth) where
  bounded := ⟨Nat.zero_le _, Nat.le_refl _⟩
  inside := by
    have later := (takes.bounded bounded).position_le
    rw [takes.state] at later ⊢
    exact later.trans bounded.stop_le
  octets := by
    have between := takes.between bounded
    have position := takes.position_eq
    have source : d'.source = d.source := by rw [takes.state]; rfl
    rw [source, position, Octets.between, List.drop_take, Nat.add_sub_cancel_left] at between
    simp only [Decoder.upTo, Decoder.inside, Decoder.ofOctets, List.take_length]
    exact between
  position := (Nat.zero_add _).symm
  stop := by
    have position := takes.position_eq
    simp only [Decoder.upTo, Decoder.inside, Decoder.ofOctets]
    omega
  depth := rfl
  maxDepth := rfl

section

variable {c : Codec} (framed : c.Framed) (elastic : c.Elastic) (isLocal : c.Local) {d d' : Decoder}
  {octets more : Octets} {v w : Value}

include framed elastic isLocal

/-- An element that is read in its place is read in the scope that ends behind it, and so it is read on its own. -/
theorem Codec.parses_of_run (bounded : d.Bounded) (run : c.decode.run d = .ok v d') :
    ∃ octets w, d.Takes octets d' ∧ c.Parses d.depth d.maxDepth octets w ∧ v.Same w := by
  obtain ⟨octets, takes, _⟩ := framed.reads bounded run
  have later := takes.bounded bounded
  have source : d'.source = d.source := by rw [takes.state]; rfl
  have holds : d'.position ≤ d.source.length := source ▸ later.position_le.trans later.stop_le
  have cut := elastic.decode framed bounded run d'.position (Nat.le_refl _) holds
  have agree := isLocal.tracks d.position (takes.shifted bounded)
  rw [cut] at agree
  cases alone : c.decode.run ((Decoder.ofOctets octets d.maxDepth).inside d.depth d.maxDepth) with
  | error fault e => rw [alone] at agree; cases agree
  | ok w e =>
    rw [alone] at agree
    cases agree with
    | ok same left =>
      have none : e.rest = [] := by
        rw [← left.shifted.rest_eq, ← left.shifted.bounded_left.position_eq_stop_iff]
        rfl
      exact ⟨octets, w, takes, outcome_complete alone left.shifted.bounded none, same⟩

/-- An element that is read on its own is read in the scope that ends behind it, and so wherever it stands. -/
theorem Codec.run_of_parses (bounded : d.Bounded) (ahead : d.rest = octets ++ more)
    (parses : c.Parses d.depth d.maxDepth octets w) :
    ∃ v, c.decode.run d = .ok v (d.skip octets.length) ∧ v.Same w := by
  have takes := Decoder.takes_of_ahead ahead
  have shifted := takes.shifted bounded
  have alone := framed.run_of_outcome (Decoder.bounded_inside octets d.depth d.maxDepth) parses
  have agree := isLocal.tracks d.position shifted
  rw [alone] at agree
  cases cut : c.decode.run (d.upTo (d.skip octets.length).position) with
  | error fault d' => rw [cut] at agree; cases agree
  | ok v d' =>
    rw [cut] at agree
    cases agree with
    | ok same left =>
      obtain ⟨octets', takes', _⟩ := framed.reads shifted.bounded_left cut
      have end_ : d'.position = octets.length + d.position := by
        rw [left.shifted.position, Decoder.rest_inside]
        exact congrArg (· + d.position) (Nat.zero_add _)
      have length : octets'.length = octets.length := by
        have position := takes'.position_eq
        have start : (d.upTo (d.skip octets.length).position).position = d.position := rfl
        omega
      have holds : d'.position ≤ d.stop := by
        have later := (takes.bounded bounded).position_le
        have position := takes.position_eq
        have stop : (d.skip octets.length).stop = d.stop := rfl
        omega
      have wide := elastic.decode framed shifted.bounded_left cut d.stop holds bounded.stop_le
      refine ⟨v, ?_, same⟩
      rw [takes'.state, length] at wide
      exact wide

theorem Codec.portable : c.Portable where
  parses_of_run _ _ _ := Codec.parses_of_run framed elastic isLocal
  run_of_parses _ _ _ _ := Codec.run_of_parses framed elastic isLocal
  frames := by
    intro depth maxDepth octets v parses
    have whole := framed.reads.of_outcome (Decoder.bounded_inside octets depth maxDepth) parses
    rwa [Decoder.rest_inside] at whole

end

namespace Schema

/-- Types accept elements in their places as they accept them on their own, if conditions look at content only. -/
theorem Declared.portable {T : Schema} (declared : T.Declared) (blind : T.ByContent) : T.codec.Portable :=
  Codec.portable declared.framed declared.elastic (declared.isLocal blind)

/-- What is accepted at one depth is accepted at any other where the scopes that have room here have room, too. -/
theorem Declared.parses_at {T : Schema} (declared : T.Declared) {depth depth' : Nat} {maxDepth limit : Number}
    (room : ∀ k ≤ T.layers, maxDepth.less (depth + k : Nat) = false → limit.less (depth' + k : Nat) = false)
    {octets : Octets} {v : Value} (parses : T.codec.Parses depth maxDepth octets v) :
    T.codec.Parses depth' limit octets v :=
  (Stepwise.sinks declared.stepwise.decode).complete.outcome parses room

/-- Where there is room for the layers of the type, the depth does not matter. -/
theorem Declared.parses_iff_parse {T : Schema} (declared : T.Declared) {depth : Nat} {maxDepth limit : Number}
    (room : ∀ k ≤ T.layers, maxDepth.less (depth + k : Nat) = false) (enough : ¬ limit.less T.layers = true)
    {octets : Octets} {v : Value} :
    T.codec.Parses depth maxDepth octets v ↔ Document.parse T.codec limit octets = .ok v := by
  rw [← Codec.parses_zero]
  constructor
  · intro parses
    exact declared.parses_at (fun k within _ => Decoder.admits_ofOctets enough octets k within) parses
  · intro parses
    exact declared.parses_at (fun k within _ => room k within) parses

end Schema

end Der
