import Der.Proofs.Codec.Refusals
import Der.Proofs.Codec.Structure
import Der.Proofs.Cursor
import Der.Proofs.Schema.Normal

namespace Der

namespace Fault

variable {α β : Type}

/-- Whether a fault is about depth. -/
def isDeep (fault : Fault) : Bool :=
  fault.kind? = some .depthExceeded

/-- No fault of a result is about depth. -/
def Shallow (x : Except Fault α) : Prop :=
  ∀ fault, x = .error fault → fault.isDeep = false

theorem shallow_ok (a : α) : Shallow (.ok a : Except Fault α) := by
  intro fault failed
  cases failed

theorem shallow_error {fault : Fault} (other : fault.isDeep = false) : Shallow (.error fault : Except Fault α) := by
  intro fault' failed
  cases failed
  exact other

theorem Shallow.bind {x : Except Fault α} {f : α → Except Fault β} (first : Shallow x) (next : ∀ a, Shallow (f a)) :
    Shallow (x >>= f) := by
  intro fault failed
  cases x with
  | error cause => exact first fault (by injection failed with same; rw [same])
  | ok a => exact next a fault failed

theorem Shallow.ite {condition : Prop} [Decidable condition] {x y : Except Fault α} (first : Shallow x)
    (second : Shallow y) : Shallow (if condition then x else y) := by
  by_cases holds : condition
  · rwa [if_pos holds]
  · rwa [if_neg holds]

theorem Cause.isDeep_of_content {cause : Cause} (content : cause.ofContent = true) (place : Option Number) :
    (Fault.coding cause place).isDeep = false := by
  cases cause with
  | utcTimeForm general text => cases general <;> rfl
  | generalizedTimeForm general text => cases general <;> rfl
  | missingField | custom | tooDeep => cases content
  | _ => rfl

end Fault

open Fault

theorem Tag.shallow_decode (offset : Nat) (octets : Octets) : Shallow (decode offset octets) := by
  cases octets with
  | nil => exact shallow_error rfl
  | cons first rest =>
    simp only [decode]
    refine (shallow_ok _).ite ?_
    cases Base128.decode maxNumber rest with
    | error flaw => cases flaw <;> exact shallow_error rfl
    | ok read => exact (shallow_error rfl).ite (shallow_ok _)

theorem Length.shallow_decode (offset : Nat) (octets : Octets) : Shallow (decode offset octets) := by
  cases octets with
  | nil => exact shallow_error rfl
  | cons first rest =>
    simp only [decode]
    refine (shallow_ok _).ite ?_
    refine (shallow_error rfl).ite ?_
    refine (shallow_error rfl).ite ?_
    refine (shallow_error rfl).ite ?_
    refine (shallow_error rfl).ite ?_
    refine (shallow_error rfl).ite ?_
    exact (shallow_error rfl).ite (shallow_ok _)

theorem Header.shallow_decode (offset : Nat) (octets : Octets) : Shallow (decode offset octets) := by
  refine (Tag.shallow_decode offset octets).bind ?_
  intro parts
  refine (Length.shallow_decode _ parts.2).bind ?_
  intro parts
  exact (shallow_error rfl).ite (shallow_ok _)

/-- The decoder with another limit of depth. -/
def Decoder.limited (d : Decoder) (maxDepth : Number) : Decoder :=
  { d with maxDepth }

/-- The decoder inside so many scopes, under a limit of its own. -/
def Decoder.inside (d : Decoder) (depth : Nat) (maxDepth : Number) : Decoder :=
  { d with depth, maxDepth }

theorem Decoder.Bounded.limited {d : Decoder} (bounded : d.Bounded) (maxDepth : Number) :
    (d.limited maxDepth).Bounded :=
  ⟨bounded.position_le, bounded.stop_le⟩

namespace Decoding

variable {α β : Type} {body : Decoding α} {next : α → Decoding β} {d : Decoder} {m m' : Number}

/-- A result with another limit of depth in the decoder that is left. -/
def limitResult (m : Number) : EStateM.Result Fault Decoder α → EStateM.Result Fault Decoder α
  | .ok a e => .ok a (e.limited m)
  | .error fault e => .error fault (e.limited m)

/-- The steps that open no scope. -/
inductive Basic : {α : Type} → Decoding α → Prop
  | pure {α : Type} (a : α) : Basic (pure a)
  | throw {α : Type} {fault : Fault} (other : fault.isDeep = false) : Basic (throw fault : Decoding α)
  | peekTag : Basic peekTag
  | header : Basic header
  | slice (count : Number) : Basic (slice count)
  | content (count : Number) (p : Primitive) : Basic (content count p.rule.read)

/-- The step does not see the limit of depth. -/
structure Blind (body : Decoding α) : Prop where
  forward : body.Forward
  alike : ∀ ⦃d⦄, d.Bounded → ∀ m, body.run (d.limited m) = limitResult m (body.run d)
  shallow : ∀ ⦃d fault e⦄, d.Bounded → body.run d = .error fault e → fault.isDeep = false

theorem blind_peekTag : peekTag.Blind where
  forward := still_peekTag.forward
  alike d bounded m := by
    rw [run_peekTag (bounded.limited m), run_peekTag bounded]
    have same : (d.limited m).rest = d.rest := rfl
    rw [same]
    cases d.rest with
    | nil => rfl
    | cons first tail =>
      have place : (d.limited m).position = d.position := rfl
      rw [place]
      cases Tag.decode d.position (first :: tail) <;> rfl
  shallow d fault e bounded run := by
    rw [run_peekTag bounded] at run
    split at run
    · cases run
    · cases read : Tag.decode d.position d.rest with
      | ok parts => rw [read] at run; cases run
      | error fault' =>
        rw [read] at run
        cases run
        exact Tag.shallow_decode _ _ _ read

theorem blind_header : header.Blind where
  forward := atOnce_header.forward
  alike d bounded m := by
    rw [run_header (bounded.limited m), run_header bounded]
    have place : (d.limited m).position = d.position := rfl
    have same : (d.limited m).rest = d.rest := rfl
    rw [place, same]
    cases Header.decode d.position d.rest <;> rfl
  shallow d fault e bounded run := by
    rw [run_header bounded] at run
    cases read : Header.decode d.position d.rest with
    | ok parts => rw [read] at run; cases run
    | error fault' =>
      rw [read] at run
      cases run
      exact Header.shallow_decode _ _ _ read

theorem blind_slice (count : Number) : (slice count).Blind where
  forward := (atOnce_slice count).forward
  alike d bounded m := by
    by_cases room : ∃ n : Nat, count = n ∧ n ≤ d.rest.length
    · obtain ⟨n, rfl, room⟩ := room
      rw [run_slice (bounded.limited m) room, run_slice bounded room]
      rfl
    · rw [slice, EStateM.run_bind, EStateM.run_bind, run_need_of_scarce bounded room,
        run_need_of_scarce (bounded.limited m) room]
      rfl
  shallow d fault e bounded run := by
    by_cases room : ∃ n : Nat, count = n ∧ n ≤ d.rest.length
    · obtain ⟨n, rfl, room⟩ := room
      rw [run_slice bounded room] at run
      cases run
    · rw [slice, EStateM.run_bind, run_need_of_scarce bounded room] at run
      cases run
      rfl

theorem blind_content (count : Number) (p : Primitive) : (content count p.rule.read).Blind where
  forward := forward_content count p.rule.read
  alike d bounded m := by
    by_cases room : ∃ n : Nat, count = n ∧ n ≤ d.rest.length
    · obtain ⟨n, rfl, room⟩ := room
      rw [run_content (bounded.limited m) room, run_content bounded room]
      have same : windowAt (d.limited m) n = windowAt d n := rfl
      rw [same]
      cases p.rule.read (windowAt d n) <;> rfl
    · rw [content, EStateM.run_bind, EStateM.run_bind, run_offset, run_offset]
      dsimp only
      rw [slice, EStateM.run_bind, EStateM.run_bind, EStateM.run_bind, EStateM.run_bind,
        run_need_of_scarce bounded room, run_need_of_scarce (bounded.limited m) room]
      rfl
  shallow d fault e bounded run := by
    by_cases room : ∃ n : Nat, count = n ∧ n ≤ d.rest.length
    · obtain ⟨n, rfl, room⟩ := room
      rw [run_content bounded room] at run
      cases result : p.rule.read (windowAt d n) with
      | ok v => rw [result] at run; cases run
      | error fault' =>
        obtain ⟨cause, rfl, refused⟩ := p.refuses_read (octets_windowAt bounded room) fault' result
        rw [result] at run
        cases run
        exact Cause.isDeep_of_content refused _
    · rw [content, EStateM.run_bind, run_offset] at run
      dsimp only at run
      rw [slice, EStateM.run_bind, EStateM.run_bind, run_need_of_scarce bounded room] at run
      cases run
      rfl

theorem blind_finish : finish.Blind where
  forward := still_finish.forward
  alike d bounded m := by
    rw [run_finish (bounded.limited m), run_finish bounded]
    have same : (d.limited m).rest = d.rest := rfl
    rw [same]
    by_cases done : d.rest = []
    · rw [if_pos done, if_pos done]
      rfl
    · rw [if_neg done, if_neg done]
      rfl
  shallow d fault e bounded run := by
    rw [run_finish bounded] at run
    by_cases done : d.rest = []
    · rw [if_pos done] at run
      cases run
    · rw [if_neg done] at run
      cases run
      rfl

theorem Basic.blind (basic : Basic body) : body.Blind := by
  cases basic with
  | pure a => exact ⟨(still_pure a).forward, fun _ _ _ => rfl, fun _ _ _ _ run => by cases run⟩
  | throw other =>
    refine ⟨(still_throw _).forward, fun _ _ _ => rfl, ?_⟩
    intro d fault e bounded run
    cases run
    exact other
  | peekTag => exact blind_peekTag
  | header => exact blind_header
  | slice count => exact blind_slice count
  | content count p => exact blind_content count p

/-- Goes to the end of the scope and reports the decoder that the scope was read with. -/
def probe : Decoding Decoder := do
  let d ← get
  set { d with position := d.stop }
  return d

/-- Opens the scope of the next octets for a probe, which reports the child decoder. -/
def enter (count : Number) : Decoding Decoder :=
  nested count probe

/-- The step is made of steps that open no scope and of scopes. It nests at most so many of them, and a run from a
decoder opens these, one after another: those that a probe finds itself in, where it stands for the body of a scope. -/
inductive Layered : {α : Type} → Nat → Decoding α → (Decoder → List Decoder) → Prop
  | basic {α : Type} {body : Decoding α} (basic : Basic body) (layers : Nat) : Layered layers body fun _ => []
  | bind {α β : Type} {layers : Nat} {body : Decoding α} {next : α → Decoding β} {opened : Decoder → List Decoder}
      {further : α → Decoder → List Decoder} (first : Layered layers body opened)
      (goes : ∀ a, Layered layers (next a) (further a)) :
      Layered layers (body >>= next) fun d =>
        opened d ++ match body.run d with
          | .ok a e => further a e
          | .error _ _ => []
  | look {α : Type} {layers : Nat} {next : Decoder → Decoding α} {opened : Decoder → Decoder → List Decoder}
      (alike : ∀ d m, next (d.limited m) = next d) (goes : ∀ d, Layered layers (next d) (opened d)) :
      Layered layers (get >>= next) fun d => opened d d
  | nested {α : Type} {layers : Nat} {body : Decoding α} {opened : Decoder → List Decoder} (count : Number)
      (inner : Layered layers body opened) :
      Layered (layers + 1) (nested count body) fun d =>
        match (enter count).run d with
        | .ok child _ => child :: opened child
        | .error _ _ => []

theorem Layered.forward {layers : Nat} {opened : Decoder → List Decoder} (layered : Layered layers body opened) :
    body.Forward := by
  induction layered with
  | basic basic layers => exact basic.blind.forward
  | bind first goes ih ihNext => exact ih.bind ihNext
  | look alike goes ih => exact fun d bounded => ih d bounded
  | nested count inner ih => exact (atOnce_nested count _).forward

/-- The results under two limits are the same, or the first limit has been exceeded. -/
inductive Cut (m m' : Number) : EStateM.Result Fault Decoder α → EStateM.Result Fault Decoder α → Prop
  | same (result : EStateM.Result Fault Decoder α) : Cut m m' (limitResult m result) (limitResult m' result)
  | deep (offset : Nat) (e : Decoder) (other : EStateM.Result Fault Decoder α) :
      Cut m m' (.error (.coding (.tooDeep m) offset) e) other

/-- From every decoder, the results under the two limits are the same, or the first has been exceeded. -/
def Cuts (m m' : Number) (body : Decoding α) : Prop :=
  ∀ ⦃d : Decoder⦄, d.Bounded → Cut m m' (body.run (d.limited m)) (body.run (d.limited m'))

theorem Blind.cuts (blind : body.Blind) : Cuts m m' body := by
  intro d bounded
  rw [blind.alike bounded m, blind.alike bounded m']
  exact .same _

theorem Cuts.bind (cuts : Cuts m m' body) (forward : body.Forward) (goes : ∀ a, Cuts m m' (next a)) :
    Cuts m m' (body >>= next) := by
  intro d bounded
  have cut := cuts bounded
  have later := (forward (bounded.limited m)).bounded (bounded.limited m)
  rw [left] at later
  rw [EStateM.run_bind, EStateM.run_bind]
  -- Both results become variables, since `Cut` is stated about results of any form.
  generalize body.run (d.limited m) = one at cut later
  generalize body.run (d.limited m') = other at cut
  cases cut with
  | deep offset e other => exact .deep offset e _
  | same result =>
    cases result with
    | error fault e => exact .same (.error fault e)
    | ok a e => exact goes a ⟨later.position_le, later.stop_le⟩

theorem Cuts.outcome (cuts : Cuts m m' body) (bounded : d.Bounded) :
    body.outcome (d.limited m) = body.outcome (d.limited m') ∨
      ∃ offset : Nat, body.outcome (d.limited m) = .error (.coding (.tooDeep m) offset) := by
  have cut := cuts bounded
  unfold Decoding.outcome
  generalize body.run (d.limited m) = one at cut ⊢
  generalize body.run (d.limited m') = other at cut ⊢
  cases cut with
  | deep offset e other => exact Or.inr ⟨offset, rfl⟩
  | same result => cases result <;> exact Or.inl rfl

theorem Cuts.complete (cuts : Cuts m m' body) (forward : body.Forward) : Cuts m m' (complete body) :=
  cuts.bind forward fun a => blind_finish.cuts.bind blind_finish.forward fun _ => (Basic.pure a).blind.cuts

/-- A scope that is refused under the greater limit is refused under the smaller one. -/
theorem Cuts.nested (cuts : Cuts m m' body) (forward : body.Forward)
    (smaller : ∀ k : Nat, m'.less k = true → m.less k = true) (count : Number) : Cuts m m' (nested count body) := by
  intro d bounded
  by_cases room : ∃ n : Nat, count = n ∧ n ≤ d.rest.length
  · obtain ⟨n, rfl, room⟩ := room
    rw [run_nested (bounded.limited m) room, run_nested (bounded.limited m') room]
    -- The same octets are there for both runs, which can only part at the test of the depth.
    by_cases deep : (d.limited m).maxDepth.less ((d.limited m).depth + 1 : Nat) = true
    · rw [if_pos deep]
      exact .deep d.position _ _
    · have shallow : ¬ (d.limited m').maxDepth.less ((d.limited m').depth + 1 : Nat) = true := fun deeper =>
        deep (smaller _ deeper)
      rw [if_neg deep, if_neg shallow]
      have inner : Cut m m' ((Decoding.complete body).run ((d.limited m).scope n))
        ((Decoding.complete body).run ((d.limited m').scope n)) := cuts.complete forward (bounded.scope room)
      generalize (Decoding.complete body).run ((d.limited m).scope n) = one at inner
      generalize (Decoding.complete body).run ((d.limited m').scope n) = other at inner
      cases inner with
      | deep offset e other => exact .deep offset _ _
      | same result =>
        cases result with
        | error fault e => exact .same (.error fault d)
        | ok a e => exact .same (.ok a (d.skip n))
  · rw [Decoding.nested, EStateM.run_bind, EStateM.run_bind, run_need_of_scarce (bounded.limited m) room,
      run_need_of_scarce (bounded.limited m') room]
    exact .same (.error _ d)

/-- Steps that are made of scopes and of steps that see no limit differ under two limits only where the smaller limit
cuts them off. -/
theorem Layered.cuts {layers : Nat} {opened : Decoder → List Decoder} (layered : Layered layers body opened)
    (smaller : ∀ k : Nat, m'.less k = true → m.less k = true) : Cuts m m' body := by
  induction layered with
  | basic basic layers => exact basic.blind.cuts
  | bind first goes ih ihNext => exact ih.bind first.forward ihNext
  | look alike goes ih =>
    intro d bounded
    have one := congrArg (fun body => body.run (d.limited m)) (alike d m)
    have other := congrArg (fun body => body.run (d.limited m')) (alike d m')
    have cut := ih d bounded
    rw [← one, ← other] at cut
    exact cut
  | nested count inner ih => exact ih.nested inner.forward smaller count

/-- Where there is room for so many scopes, no fault is about depth. -/
def Shallow (layers : Nat) (body : Decoding α) : Prop :=
  ∀ ⦃d fault e⦄, d.Bounded → d.Admits layers → body.run d = .error fault e → fault.isDeep = false

theorem Blind.shallow_of (blind : body.Blind) (layers : Nat) : body.Shallow layers :=
  fun _ _ _ bounded _ run => blind.shallow bounded run

theorem Shallow.bind {layers : Nat} (first : body.Shallow layers) (forward : body.Forward)
    (goes : ∀ a, (next a).Shallow layers) : (body >>= next).Shallow layers := by
  intro d fault e bounded admits run
  rw [EStateM.run_bind] at run
  cases begun : body.run d with
  | error fault' e' =>
    rw [begun] at run
    cases run
    exact first bounded admits begun
  | ok a e' =>
    rw [begun] at run
    have reaches := forward.reaches_of_ok bounded begun
    have bounded' := reaches.bounded bounded
    obtain ⟨count, room, rfl⟩ := reaches
    exact goes a bounded' admits run

theorem Shallow.outcome {layers : Nat} (shallow : body.Shallow layers) (bounded : d.Bounded)
    (admits : d.Admits layers) {fault : Fault} (failed : body.outcome d = .error fault) : fault.isDeep = false := by
  unfold Decoding.outcome at failed
  cases run : body.run d with
  | ok a e => rw [run] at failed; cases failed
  | error fault' e =>
    rw [run] at failed
    cases failed
    exact shallow bounded admits run

theorem Shallow.complete {layers : Nat} (shallow : body.Shallow layers) (forward : body.Forward) :
    (complete body).Shallow layers :=
  shallow.bind forward fun a =>
    (blind_finish.shallow_of layers).bind blind_finish.forward fun _ => (Basic.pure a).blind.shallow_of layers

theorem Shallow.nested {layers : Nat} (shallow : body.Shallow layers) (forward : body.Forward) (count : Number) :
    (nested count body).Shallow (layers + 1) := by
  intro d fault e bounded admits run
  by_cases room : ∃ n : Nat, count = n ∧ n ≤ d.rest.length
  · obtain ⟨n, rfl, room⟩ := room
    rw [run_nested bounded room, if_neg (Bool.eq_false_iff.mp (admits 1 (Nat.le_add_left 1 layers)))] at run
    cases inner : (Decoding.complete body).run (d.scope n) with
    | ok a s => rw [inner] at run; cases run
    | error fault' s =>
      rw [inner] at run
      cases run
      exact shallow.complete forward (bounded.scope room) (admits.scope n) inner
  · rw [Decoding.nested, EStateM.run_bind, run_need_of_scarce bounded room] at run
    cases run
    rfl

theorem Layered.shallow {layers : Nat} {opened : Decoder → List Decoder} (layered : Layered layers body opened) :
    body.Shallow layers := by
  induction layered with
  | basic basic layers => exact basic.blind.shallow_of layers
  | bind first goes ih ihNext => exact ih.bind first.forward ihNext
  | look alike goes ih => exact fun d fault e bounded admits run => ih d bounded admits run
  | nested count inner ih => exact ih.nested inner.forward count

/-- The step is made of steps that open no scope, of looks at the decoder that do not see its depth, and of scopes, of
which at most so many are nested. -/
inductive Stepwise : {α : Type} → Nat → Decoding α → Prop
  | basic {α : Type} {body : Decoding α} (basic : Basic body) (layers : Nat) : Stepwise layers body
  | bind {α β : Type} {layers : Nat} {body : Decoding α} {next : α → Decoding β} (first : Stepwise layers body)
      (goes : ∀ a, Stepwise layers (next a)) : Stepwise layers (body >>= next)
  | look {α : Type} {layers : Nat} {next : Decoder → Decoding α} (goes : ∀ d, Stepwise layers (next d))
      (blind : ∀ d depth maxDepth, next (d.inside depth maxDepth) = next d) : Stepwise layers (get >>= next)
  | nested {α : Type} {layers : Nat} {body : Decoding α} (inner : Stepwise layers body) (count : Number) :
      Stepwise (layers + 1) (nested count body)

theorem Stepwise.mono {layers more : Nat} (stepwise : Stepwise layers body) (fewer : layers ≤ more) :
    Stepwise more body := by
  induction stepwise generalizing more with
  | basic basic layers => exact .basic basic more
  | bind first goes ih ihNext => exact .bind (ih fewer) fun a => ihNext a fewer
  | look goes blind ih => exact .look (fun d => ih d fewer) blind
  | nested inner count ih =>
    obtain ⟨more, rfl⟩ := Nat.exists_eq_add_one_of_ne_zero (Nat.ne_zero_of_lt fewer)
    exact .nested (ih (Nat.le_of_succ_le_succ fewer)) count

/-- The step nests at most so many scopes. -/
def Nests (layers : Nat) (body : Decoding α) : Prop :=
  ∃ opened, Layered layers body opened

theorem Nests.bind {layers : Nat} (first : Nests layers body) (goes : ∀ a, Nests layers (next a)) :
    Nests layers (body >>= next) := by
  obtain ⟨opened, layered⟩ := first
  choose further layeredNext using goes
  exact ⟨_, .bind layered layeredNext⟩

theorem Stepwise.nests {layers : Nat} (stepwise : Stepwise layers body) : Nests layers body := by
  induction stepwise with
  | basic basic layers => exact ⟨_, .basic basic layers⟩
  | bind first goes ih ihNext => exact ih.bind ihNext
  | look goes blind ih =>
    choose opened layered using ih
    exact ⟨_, .look (fun d m => blind d d.depth m) layered⟩
  | nested inner count ih =>
    obtain ⟨opened, layered⟩ := ih
    exact ⟨_, .nested count layered⟩

theorem Basic.stepwise (basic : Basic body) (layers : Nat) : Stepwise layers body :=
  .basic basic layers

theorem stepwise_pure (a : α) (layers : Nat) : Stepwise layers (pure a : Decoding α) :=
  (Basic.pure a).stepwise layers

theorem stepwise_throw {fault : Fault} (other : fault.isDeep = false) (layers : Nat) :
    Stepwise layers (throw fault : Decoding α) :=
  (Basic.throw other).stepwise layers

theorem stepwise_offset (layers : Nat) : Stepwise layers offset :=
  .look (fun d => stepwise_pure d.position layers) fun _ _ _ => rfl

theorem stepwise_fail {cause : Cause} (other : ∀ place, (Fault.coding cause place).isDeep = false) (layers : Nat) :
    Stepwise layers (fail cause : Decoding α) :=
  .look (fun d => stepwise_throw (other d.position) layers) fun _ _ _ => rfl

theorem stepwise_expect (tag : Tag) (name : String) (layers : Nat) : Stepwise layers (expect tag name) := by
  refine (stepwise_offset layers).bind ?_
  intro start
  refine (Basic.header.stepwise layers).bind ?_
  intro h
  by_cases expected : h.tag.equals tag = true
  · rw [if_pos expected]
    exact stepwise_pure h layers
  · rw [if_neg expected]
    exact stepwise_throw rfl layers

end Decoding

open Decoding

/-- Reading content nests at most so many scopes. -/
def TaggedCodec.Nests (layers : Nat) (c : TaggedCodec) : Prop :=
  ∀ count, Decoding.Nests layers (c.readContent count)

/-- Reading a value nests at most so many scopes. -/
def Codec.Nests (layers : Nat) : Codec → Prop
  | tagged c => c.Nests layers
  | untagged c => Decoding.Nests layers c.decode

/-- Content is read by steps that do not see the depth, and by at most so many nested scopes. -/
def TaggedCodec.Stepwise (layers : Nat) (c : TaggedCodec) : Prop :=
  ∀ count, Decoding.Stepwise layers (c.readContent count)

/-- A value is read by steps that do not see the depth, and by at most so many nested scopes. -/
def Codec.Stepwise (layers : Nat) : Codec → Prop
  | tagged c => c.Stepwise layers
  | untagged c => Decoding.Stepwise layers c.decode

variable {layers : Nat}

theorem TaggedCodec.Stepwise.decode {c : TaggedCodec} (steps : c.Stepwise layers) : Decoding.Stepwise layers c.decode :=
  (stepwise_expect c.tag c.name layers).bind fun h => steps h.length

theorem Codec.Stepwise.decode {c : Codec} (steps : c.Stepwise layers) : Decoding.Stepwise layers c.decode := by
  cases c with
  | tagged c => exact TaggedCodec.Stepwise.decode steps
  | untagged c => exact steps

theorem Codec.Stepwise.mono {c : Codec} {more : Nat} (steps : c.Stepwise layers) (fewer : layers ≤ more) :
    c.Stepwise more := by
  cases c with
  | tagged c => exact fun count => Decoding.Stepwise.mono (steps count) fewer
  | untagged c => exact Decoding.Stepwise.mono steps fewer

theorem TaggedCodec.Nests.decode {c : TaggedCodec} (nests : c.Nests layers) : Decoding.Nests layers c.decode :=
  (stepwise_expect c.tag c.name layers).nests.bind fun h => nests h.length

theorem Codec.Nests.decode {c : Codec} (nests : c.Nests layers) : Decoding.Nests layers c.decode := by
  cases c with
  | tagged c => exact TaggedCodec.Nests.decode nests
  | untagged c => exact nests

theorem Codec.Stepwise.nests {c : Codec} (steps : c.Stepwise layers) : c.Nests layers := by
  cases c with
  | tagged c => exact fun count => Decoding.Stepwise.nests (steps count)
  | untagged c => exact Decoding.Stepwise.nests steps

theorem Primitive.stepwise (p : Primitive) (layers : Nat) : p.codec.Stepwise layers :=
  fun count => (Basic.content count p).stepwise layers

theorem UntaggedCodec.time_stepwise (layers : Nat) : Decoding.Stepwise layers time.decode := by
  refine (Basic.peekTag.stepwise layers).bind ?_
  intro ahead
  cases ahead with
  | none => exact (Primitive.stepwise .utcTime layers).decode
  | some tag =>
    dsimp only
    split
    · exact (Primitive.stepwise .generalizedTime layers).decode
    · exact (Primitive.stepwise .utcTime layers).decode

theorem UntaggedCodec.any_stepwise (layers : Nat) : Decoding.Stepwise layers any.decode := by
  have captures : Decoding.Stepwise layers Any.read := by
    refine (stepwise_offset layers).bind ?_
    intro start
    refine (Basic.header.stepwise layers).bind ?_
    intro h
    refine ((Basic.slice h.length).stepwise layers).bind ?_
    intro value
    exact .look (fun d => stepwise_pure _ layers) fun _ _ _ => rfl
  exact captures.bind fun a => stepwise_pure (Value.any a) layers

theorem TaggedCodec.Stepwise.refine {inner : TaggedCodec} (steps : inner.Stepwise layers) (condition : Condition) :
    (inner.refine condition).Stepwise layers := by
  intro count
  refine (stepwise_offset layers).bind ?_
  intro start
  refine (steps count).bind ?_
  intro v
  cases condition v with
  | some problem => exact (stepwise_throw rfl layers).bind fun _ => stepwise_pure v layers
  | none => exact stepwise_pure v layers

theorem TaggedCodec.explicit_stepwise (name : String) (tag : Tag) {inner : Codec} (steps : inner.Stepwise layers) :
    (explicit name tag inner).Stepwise (layers + 1) :=
  fun count => steps.decode.nested count

namespace Collection

variable {name : String} {item : Codec}

theorem stepwise_inOrder (steps : item.Stepwise layers) (fuel : Nat) :
    Decoding.Stepwise layers (readInOrder name item fuel) := by
  induction fuel with
  | zero => exact stepwise_fail (fun _ => rfl) layers
  | succ fuel ih =>
    refine .look ?_ fun _ _ _ => rfl
    intro d
    by_cases finished : d.isFinished = true
    · rw [if_pos finished]
      exact stepwise_pure [] layers
    · rw [if_neg finished]
      exact steps.decode.bind fun v => ih.bind fun items => stepwise_pure (v :: items) layers

theorem stepwise_element (steps : item.Stepwise layers) : Decoding.Stepwise layers (readElement item) :=
  (stepwise_offset layers).bind fun start => steps.decode.bind fun v =>
    .look (fun d => stepwise_pure (v, d.source.between start d.position) layers) fun _ _ _ => rfl

theorem stepwise_sorted (steps : item.Stepwise layers) (fuel : Nat) (previous : Octets) :
    Decoding.Stepwise layers (readSorted name item fuel previous) := by
  induction fuel generalizing previous with
  | zero => exact stepwise_fail (fun _ => rfl) layers
  | succ fuel ih =>
    refine .look ?_ fun _ _ _ => rfl
    intro d
    by_cases finished : d.isFinished = true
    · rw [if_pos finished]
      exact stepwise_pure [] layers
    · rw [if_neg finished]
      refine (stepwise_element steps).bind ?_
      intro read
      by_cases less : 0 < Octets.compare previous read.2
      · simp only [if_pos less]
        exact (stepwise_throw rfl layers).bind fun _ => (ih read.2).bind fun items => stepwise_pure _ layers
      · simp only [if_neg less]
        exact (ih read.2).bind fun items => stepwise_pure _ layers

theorem stepwise_content {bounds : SizeBounds} {elements : Nat → Decoding (List Value)}
    (each : ∀ fuel, Decoding.Stepwise layers (elements fuel)) (count : Number) :
    Decoding.Stepwise (layers + 1) (readContent name bounds elements count) := by
  refine (stepwise_offset (layers + 1)).bind ?_
  intro start
  refine Decoding.Stepwise.nested (.look ?_ fun _ _ _ => rfl) count
  intro d
  refine (each _).bind ?_
  intro items
  by_cases admitted : bounds.Admits items.length
  · rw [if_neg fun wrong => wrong admitted]
    exact stepwise_pure _ layers
  · rw [if_pos admitted]
    exact (stepwise_throw rfl layers).bind fun _ => stepwise_pure _ layers

end Collection

theorem TaggedCodec.sequenceOf_stepwise (name : String) (tag : Tag) (bounds : SizeBounds) {item : Codec}
    (steps : item.Stepwise layers) : (sequenceOf name tag bounds item).Stepwise (layers + 1) :=
  fun count => Collection.stepwise_content (Collection.stepwise_inOrder steps) count

theorem TaggedCodec.setOf_stepwise (name : String) (tag : Tag) (bounds : SizeBounds) {item : Codec}
    (steps : item.Stepwise layers) : (setOf name tag bounds item).Stepwise (layers + 1) := by
  intro count
  change Decoding.Stepwise _ (Collection.readContent name bounds (Collection.readSorted name item · []) count)
  exact Collection.stepwise_content (fun fuel => Collection.stepwise_sorted steps fuel []) count

namespace Member

variable {container : String} {m : Member} {members passed : List Member} {record : Record}

theorem stepwise_read (steps : m.codec.Stepwise layers) : Decoding.Stepwise layers m.read := by
  refine (stepwise_offset layers).bind ?_
  intro start
  refine steps.decode.bind ?_
  intro v
  refine .look ?_ fun _ _ _ => rfl
  intro d
  by_cases equal : m.defaultOctets = some (d.source.between start d.position)
  · rw [if_pos equal]
    exact (stepwise_throw rfl layers).bind fun _ => stepwise_pure v layers
  · rw [if_neg equal]
    exact stepwise_pure v layers

theorem stepwise_skip {missing : Fault.Kind} (absent : missing = .incomplete ∨ missing = .unexpectedTag) :
    Decoding.Stepwise layers (m.skip container missing record) := by
  unfold skip
  cases m.presence with
  | required =>
    refine stepwise_fail ?_ layers
    intro place
    rcases absent with rfl | rfl <;> rfl
  | optional => exact stepwise_pure record layers
  | default v => exact stepwise_pure _ layers

theorem stepwise_comes (m : Member) : Decoding.Stepwise layers m.comes := by
  unfold comes
  cases m.presence.mayBeAbsent with
  | true =>
    refine (Basic.peekTag.stepwise layers).bind ?_
    intro tag
    cases tag <;> exact stepwise_pure _ layers
  | false => exact .look (fun d => stepwise_pure _ layers) fun _ _ _ => rfl

theorem stepwise_sequence (steps : ∀ m ∈ members, m.codec.Stepwise layers) :
    Decoding.Stepwise layers (readSequence container members record) := by
  induction members generalizing record with
  | nil => exact stepwise_pure record layers
  | cons m rest ih =>
    have others := fun {r} => @ih r fun m' later => steps m' (List.mem_cons_of_mem _ later)
    rw [readSequence_cons]
    refine (stepwise_comes m).bind ?_
    intro present
    cases present with
    | true => exact (stepwise_read (steps m List.mem_cons_self)).bind fun v => others
    | false => exact (stepwise_skip (Or.inl rfl)).bind fun r => others

theorem stepwise_skipAll : Decoding.Stepwise layers
    (members.foldlM (fun (r : Record) (m : Member) => m.skip container .incomplete r) record) := by
  induction members generalizing record with
  | nil => exact stepwise_pure record layers
  | cons m rest ih =>
    rw [List.foldlM_cons]
    exact (stepwise_skip (Or.inl rfl)).bind fun r => ih

theorem stepwise_set (steps : ∀ m ∈ members, m.codec.Stepwise layers) :
    Decoding.Stepwise layers (readSet container passed members record) := by
  induction members generalizing passed record with
  | nil =>
    rw [readSet]
    refine (Basic.peekTag.stepwise layers).bind ?_
    intro tag
    cases tag with
    | none => exact stepwise_skipAll
    | some tag =>
      dsimp only
      cases passed.find? (·.codec.accepts tag) <;> exact stepwise_fail (fun _ => rfl) layers
  | cons m rest ih =>
    have others := fun {p r} => @ih p r fun m' later => steps m' (List.mem_cons_of_mem _ later)
    rw [readSet]
    refine (Basic.peekTag.stepwise layers).bind ?_
    intro tag
    cases tag with
    | none => exact stepwise_skipAll
    | some tag =>
      dsimp only
      cases passed.find? (·.codec.accepts tag) with
      | some m' => exact stepwise_fail (fun _ => rfl) layers
      | none =>
        by_cases accepted : m.codec.accepts tag = true
        · simp only [if_pos accepted]
          exact (stepwise_read (steps m List.mem_cons_self)).bind fun v => others
        · simp only [if_neg accepted]
          by_cases later : rest.any (·.codec.accepts tag) = true
          · simp only [if_pos later]
            exact (stepwise_skip (Or.inr rfl)).bind fun r => others
          · simp only [if_neg later]
            exact stepwise_fail (fun _ => rfl) layers

end Member

theorem TaggedCodec.sequence_stepwise (name : String) (tag : Tag) {fields : List (Field Codec)}
    (steps : ∀ m ∈ fields.map Member.ofField, m.codec.Stepwise layers) :
    (sequence name tag fields).Stepwise (layers + 1) :=
  fun count => ((Member.stepwise_sequence steps).bind fun _ => stepwise_pure _ layers).nested count

theorem TaggedCodec.set_stepwise (name : String) (tag : Tag) {fields : List (Field Codec)}
    (steps : ∀ m ∈ Member.canonical (fields.map Member.ofField), m.codec.Stepwise layers) :
    (set name tag fields).Stepwise (layers + 1) :=
  fun count => ((Member.stepwise_set steps).bind fun _ => stepwise_pure _ layers).nested count

namespace Schema
/-- Only the scopes of the layers of a type are judged by their depth. -/
theorem Declared.stepwise {T : Schema} (declared : T.Declared) : T.codec.Stepwise T.layers := by
  induction declared using Declared.induct with
  | primitive p => exact p.stepwise 0
  | time => exact UntaggedCodec.time_stepwise 0
  | any => exact UntaggedCodec.any_stepwise 0
  | sequence name tag types declared clear defaults ih =>
    apply TaggedCodec.sequence_stepwise
    intro m member
    obtain ⟨f, field, rfl⟩ := Member.mem_ofField member
    exact (ih f field).mono (layers_le_fieldLayers field)
  | set name tag types declared defaults fixed distinct ih =>
    apply TaggedCodec.set_stepwise
    intro m member
    obtain ⟨f, field, rfl⟩ := Member.mem_ofField (Member.mem_canonical member)
    exact (ih f field).mono (layers_le_fieldLayers field)
  | sequenceOf name tag bounds type declared ih => exact TaggedCodec.sequenceOf_stepwise name tag bounds ih
  | setOf name tag bounds type declared ih => exact TaggedCodec.setOf_stepwise name tag bounds ih
  | explicit name tag type declared ih => exact TaggedCodec.explicit_stepwise name tag ih
  | implicit name tagClass number type declared fixed ih =>
    rw [fixed] at ih
    rw [codec, fixed]
    exact ih
  | refine condition type declared fixed ih =>
    rw [fixed] at ih
    rw [codec, fixed]
    exact TaggedCodec.Stepwise.refine ih condition

/-- Scopes are nested for the layers of a type alone. -/
theorem Declared.nests {T : Schema} (declared : T.Declared) : T.codec.Nests T.layers :=
  declared.stepwise.nests

end Schema

end Der
