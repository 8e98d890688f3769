import Der.Proofs.Progress

namespace Der

open Decoding

/-- What a loop does ahead of an element: it ends with a result, or it reads an element of a type and takes its value up. -/
inductive Turn (σ α : Type) where
  | ends (result : α)
  | reads (type : Codec) (takeUp : Value → Decoding σ)

/-- A loop that reads an element in every turn but the last one, from state to state. -/
abbrev ElementLoop (σ α : Type) :=
  σ → Decoding (Turn σ α)

namespace ElementLoop

variable {σ α : Type}

/-- The course of a loop from a state and a decoder to the end of the loop or to a fault, with the number of elements that
are read with success. -/
inductive Runs (loop : ElementLoop σ α) : σ → Decoder → Nat → EStateM.Result Fault Decoder α → Prop
  | ends {s : σ} {d d' : Decoder} {result : α} (looked : (loop s).run d = .ok (.ends result) d') :
    Runs loop s d 0 (.ok result d')
  | refuses {s : σ} {d d' : Decoder} {fault : Fault} (looked : (loop s).run d = .error fault d') :
    Runs loop s d 0 (.error fault d')
  | unread {s : σ} {d e d' : Decoder} {type : Codec} {takeUp : Value → Decoding σ} {fault : Fault}
    (looked : (loop s).run d = .ok (.reads type takeUp) e) (read : type.decode.run e = .error fault d') :
    Runs loop s d 0 (.error fault d')
  | rejects {s : σ} {d e e' d' : Decoder} {type : Codec} {takeUp : Value → Decoding σ} {v : Value} {fault : Fault}
    (looked : (loop s).run d = .ok (.reads type takeUp) e) (read : type.decode.run e = .ok v e')
    (taken : (takeUp v).run e' = .error fault d') : Runs loop s d 1 (.error fault d')
  | goes {s s' : σ} {d e e' d' : Decoder} {type : Codec} {takeUp : Value → Decoding σ} {v : Value} {count : Nat}
    {result : EStateM.Result Fault Decoder α} (looked : (loop s).run d = .ok (.reads type takeUp) e)
    (read : type.decode.run e = .ok v e') (taken : (takeUp v).run e' = .ok s' d')
    (rest : Runs loop s' d' count result) : Runs loop s d (count + 1) result

/-- In every state of a kind, the loop moves the position only by reading elements, one in each turn, and stays in such
states. -/
structure Steady (loop : ElementLoop σ α) (good : σ → Prop) : Prop where
  looks : ∀ {s d type takeUp e}, good s → (loop s).run d = .ok (.reads type takeUp) e → e = d ∧ type.TakesElement
  takes : ∀ {s d type takeUp e v e' s' d'}, good s → (loop s).run d = .ok (.reads type takeUp) e →
    (takeUp v).run e' = .ok s' d' → d' = e' ∧ good s'

/-- What follows on a turn, when the loop goes on in the given way. -/
def after (again : σ → Decoding α) : Turn σ α → Decoding α
  | .ends result => return result
  | .reads type takeUp => do
    let v ← type.decode
    again (← takeUp v)

/-- The reader takes one turn of the loop, and goes on with one turn less to take. -/
def Follows (reader : Nat → σ → Decoding α) (loop : ElementLoop σ α) : Prop :=
  ∀ fuel s d, (reader (fuel + 1) s).run d = (loop s >>= after (reader fuel)).run d

/-- The loop ends, whatever stands ahead, and reads at most half as many elements as there are octets in the scope. A
reader that may take more turns than there are elements ends in the same way. -/
structure Terminates (loop : ElementLoop σ α) (reader : Nat → Decoding α) (s : σ) (d : Decoder) : Prop where
  ends : ∃ count result, loop.Runs s d count result
  few : ∀ {count result}, loop.Runs s d count result → 2 * count ≤ d.remaining.toNat
  read : ∀ {count result fuel}, loop.Runs s d count result → count ≤ fuel → (reader (fuel + 1)).run d = result

section

variable {loop : ElementLoop σ α} {good : σ → Prop} (steady : loop.Steady good)

include steady

/-- An element that is read in a turn leaves less of the scope, two octets less at least. -/
theorem Steady.shrinks {s : σ} (fine : good s) {d e e' : Decoder} {type : Codec} {takeUp : Value → Decoding σ} {v : Value}
    (looked : (loop s).run d = .ok (.reads type takeUp) e) (read : type.decode.run e = .ok v e') :
    e'.remaining.toNat + 2 ≤ d.remaining.toNat := by
  obtain ⟨rfl, takesElement⟩ := steady.looks fine looked
  obtain ⟨t, passes, _⟩ := takesElement read
  have two := passes.two_le
  have inside := passes.inside
  have same := passes.stop_eq
  simp only [Decoder.remaining]
  omega

theorem Steady.exists_run {s : σ} (fine : good s) (d : Decoder) : ∃ count result, loop.Runs s d count result := by
  -- The measure is what is left of the scope. It shrinks in every turn that is followed by another one.
  induction left : d.remaining.toNat using Nat.strongRecOn generalizing s d with
  | ind n ih =>
    cases looked : (loop s).run d with
    | error fault d' => exact ⟨0, _, .refuses looked⟩
    | ok turn e =>
      cases turn with
      | ends result => exact ⟨0, _, .ends looked⟩
      | reads type takeUp =>
        cases read : type.decode.run e with
        | error fault d' => exact ⟨0, _, .unread looked read⟩
        | ok v e' =>
          have less := steady.shrinks fine looked read
          cases taken : (takeUp v).run e' with
          | error fault d' => exact ⟨1, _, .rejects looked read taken⟩
          | ok s' d' =>
            obtain ⟨rfl, fine'⟩ := steady.takes fine looked taken
            obtain ⟨count, result, rest⟩ := ih _ (by omega) fine' d' rfl
            exact ⟨count + 1, result, .goes looked read taken rest⟩

theorem Steady.twice_le {s : σ} (fine : good s) {d : Decoder} {count : Nat} {result : EStateM.Result Fault Decoder α}
    (runs : loop.Runs s d count result) : 2 * count ≤ d.remaining.toNat := by
  induction runs with
  | ends looked => exact Nat.zero_le _
  | refuses looked => exact Nat.zero_le _
  | unread looked read => exact Nat.zero_le _
  | rejects looked read taken =>
    have less := steady.shrinks fine looked read
    omega
  | goes looked read taken rest ih =>
    have less := steady.shrinks fine looked read
    obtain ⟨rfl, fine'⟩ := steady.takes fine looked taken
    have few := ih fine'
    omega

end

/-- A reader that follows the loop ends as the loop does, if it may take more turns than there are elements. -/
theorem Follows.run_eq {loop : ElementLoop σ α} {reader : Nat → σ → Decoding α} (follows : Follows reader loop) {s : σ}
    {d : Decoder} {count : Nat} {result : EStateM.Result Fault Decoder α} (runs : loop.Runs s d count result) {fuel : Nat}
    (enough : count ≤ fuel) : (reader (fuel + 1) s).run d = result := by
  induction runs generalizing fuel with
  | ends looked =>
    rw [follows, EStateM.run_bind, looked]
    rfl
  | refuses looked => rw [follows, EStateM.run_bind, looked]
  | unread looked read =>
    rw [follows, EStateM.run_bind, looked]
    simp only [after, EStateM.run_bind, read]
  | rejects looked read taken =>
    rw [follows, EStateM.run_bind, looked]
    simp only [after, EStateM.run_bind, read, taken]
  | goes looked read taken rest ih =>
    rw [follows, EStateM.run_bind, looked]
    simp only [after, EStateM.run_bind, read, taken]
    obtain ⟨fuel, rfl⟩ := Nat.exists_eq_add_one_of_ne_zero (Nat.ne_zero_of_lt enough)
    exact ih (Nat.le_of_succ_le_succ enough)

theorem Steady.terminates {loop : ElementLoop σ α} {good : σ → Prop} (steady : loop.Steady good)
    {reader : Nat → σ → Decoding α} (follows : Follows reader loop) (s : σ) (fine : good s) (d : Decoder) :
    loop.Terminates (reader · s) s d where
  ends := steady.exists_run fine d
  few := steady.twice_le fine
  read := fun runs enough => follows.run_eq runs enough

/-- The loop over the elements of one type up to the end of the scope. -/
def ofElements (item : Codec) (result : σ → α) (takeUp : Decoder → σ → Value → Decoding σ) : ElementLoop σ α := fun s => do
  let d ← get
  if d.isFinished then return .ends (result s)
  else return .reads item (takeUp d s)

theorem ofElements_steady {item : Codec} (takes : item.TakesElement) {result : σ → α}
    {takeUp : Decoder → σ → Value → Decoding σ}
    (still : ∀ {d s v e s' d'}, (takeUp d s v).run e = .ok s' d' → d' = e) :
    (ofElements item result takeUp).Steady fun _ => True := by
  have reads : ∀ {s d type read e}, (ofElements item result takeUp s).run d = .ok (.reads type read) e →
      e = d ∧ type = item ∧ read = takeUp d s := by
    intro s d type read e looked
    simp only [ofElements, EStateM.run_bind, EStateM.run_get] at looked
    by_cases finished : d.isFinished = true
    · rw [if_pos finished] at looked
      cases looked
    · rw [if_neg finished] at looked
      cases looked
      exact ⟨rfl, rfl, rfl⟩
  constructor
  · intro s d type read e _ looked
    obtain ⟨rfl, rfl, _⟩ := reads looked
    exact ⟨rfl, takes⟩
  · intro s d type read e v e' s' d' _ looked taken
    obtain ⟨_, _, rfl⟩ := reads looked
    exact ⟨still taken, trivial⟩

end ElementLoop

namespace Collection

variable {name : String} {item : Codec}

/-- The loop over the elements of a SEQUENCE OF. Its states are the elements that have been read. -/
def inOrder (item : Codec) : ElementLoop (List Value) (List Value) :=
  .ofElements item id fun _ items v => return items ++ [v]

/-- The loop over the elements of a SET OF. Its states are the elements that have been read, with the octets of the last
one. -/
def sorted (name : String) (item : Codec) : ElementLoop (List Value × Octets) (List Value) :=
  .ofElements item Prod.fst fun d (items, previous) v => do
    let e ← get
    let octets := e.source.between d.position e.position
    if 0 < Octets.compare previous octets then
      throw (.coding (.disorderedElement name) d.position)
    return (items ++ [v], octets)

theorem inOrder_steady (takes : item.TakesElement) : (inOrder item).Steady fun _ => True := by
  refine ElementLoop.ofElements_steady takes ?_
  rintro d items v e items' d' ⟨⟩
  rfl

theorem sorted_steady (takes : item.TakesElement) : (sorted name item).Steady fun _ => True := by
  refine ElementLoop.ofElements_steady takes ?_
  rintro d ⟨items, previous⟩ v e s' d' taken
  simp only [EStateM.run_bind, EStateM.run_get] at taken
  by_cases disordered : 0 < Octets.compare previous (e.source.between d.position e.position)
  · rw [if_pos disordered] at taken
    cases taken
  · rw [if_neg disordered] at taken
    cases taken
    rfl

/-- Puts elements that have been read before those that a reader reads. -/
def readOn (items : List Value) (reader : Decoding (List Value)) : Decoding (List Value) := do
  return items ++ (← reader)

@[simp] theorem readOn_nil (reader : Decoding (List Value)) : readOn [] reader = reader :=
  bind_pure reader

theorem readInOrder_follows (name : String) (item : Codec) :
    ElementLoop.Follows (fun fuel items => readOn items (readInOrder name item fuel)) (inOrder item) := by
  intro fuel items d
  -- The loop puts an element behind those it has, the reader puts it before those that follow.
  simp only [readOn, readInOrder, inOrder, ElementLoop.ofElements, EStateM.run_bind, EStateM.run_get]
  by_cases finished : d.isFinished = true
  · rw [if_pos finished, if_pos finished]
    exact congrArg (EStateM.Result.ok · d) (List.append_nil items)
  · rw [if_neg finished, if_neg finished]
    simp only [ElementLoop.after, EStateM.run_bind, EStateM.run_pure]
    cases item.decode.run d with
    | error fault e => rfl
    | ok v e =>
      simp only
      cases (readInOrder name item fuel).run e with
      | error fault e' => rfl
      | ok rest e' =>
        simp only [List.append_assoc, List.singleton_append]

theorem readSorted_follows (name : String) (item : Codec) :
    ElementLoop.Follows (fun fuel s => readOn s.1 (readSorted name item fuel s.2)) (sorted name item) := by
  rintro fuel ⟨items, previous⟩ d
  simp only [readOn, readSorted, readElement, sorted, ElementLoop.ofElements, EStateM.run_bind, EStateM.run_get]
  by_cases finished : d.isFinished = true
  · rw [if_pos finished, if_pos finished]
    exact congrArg (EStateM.Result.ok · d) (List.append_nil items)
  · rw [if_neg finished, if_neg finished]
    simp only [ElementLoop.after, EStateM.run_bind, EStateM.run_pure, run_offset]
    cases item.decode.run d with
    | error fault e => rfl
    | ok v e =>
      simp only [EStateM.run_get]
      by_cases disordered : 0 < Octets.compare previous (e.source.between d.position e.position)
      · rw [if_pos disordered, if_pos disordered]
        rfl
      · rw [if_neg disordered, if_neg disordered]
        simp only [EStateM.run_bind, EStateM.run_pure]
        cases (readSorted name item fuel (e.source.between d.position e.position)).run e with
        | error fault e' => rfl
        | ok rest e' =>
          simp only [List.append_assoc, List.singleton_append]

theorem inOrder_terminates (takes : item.TakesElement) (name : String) (d : Decoder) :
    (inOrder item).Terminates (readInOrder name item) [] d := by
  have terminates := (inOrder_steady takes).terminates (readInOrder_follows name item) [] trivial d
  simpa only [readOn_nil] using terminates

theorem sorted_terminates (takes : item.TakesElement) (name : String) (d : Decoder) :
    (sorted name item).Terminates (readSorted name item · []) ([], []) d := by
  have terminates := (sorted_steady takes).terminates (readSorted_follows name item) ([], []) trivial d
  simpa only [readOn_nil] using terminates

end Collection

namespace Member

variable {container : String} {d : Decoder} {tag : Tag}

/-- A state of the loop over the components of a SET: the fields that have been passed, those that may come, and the record
of what has been read. -/
abbrev Progress :=
  List Member × List Member × Record

/-- Looks for the field of the component ahead among the fields that may come. Those before it are absent. -/
def seek (container : String) (tag : Tag) (passed : List Member) : List Member → Record → Decoding (Turn Progress Record)
  | [], _ => Decoding.fail (.unknownComponent tag container)
  | m :: rest, record => do
    if m.codec.accepts tag then
      let start ← Decoding.offset
      return .reads m.codec fun v => do
        let e ← get
        if m.defaultOctets = some (e.source.between start e.position) then
          throw (.coding (.encodedDefault m.name) start)
        return (passed ++ [m], rest, record.assign m.name v)
    else if rest.any (·.codec.accepts tag) then
      seek container tag (passed ++ [m]) rest (← m.skip container .unexpectedTag record)
    else Decoding.fail (.unknownComponent tag container)

/-- The loop over the components of a SET. -/
def components (container : String) : ElementLoop Progress Record := fun (passed, todo, record) => do
  match ← Decoding.peekTag with
  | none => return .ends (← todo.foldlM (fun record m => m.skip container .incomplete record) record)
  | some tag =>
    match passed.find? (·.codec.accepts tag) with
    | some m => Decoding.fail (.disorderedComponent container m.name)
    | none => seek container tag passed todo record

/-- A field that is passed over moves nothing. -/
theorem eq_of_skip {m : Member} {missing : Fault.Kind} {record after : Record} {d' : Decoder}
    (run : (m.skip container missing record).run d = .ok after d') : d' = d := by
  unfold skip at run
  cases presence : m.presence with
  | required =>
    rw [presence] at run
    cases run
  | optional =>
    rw [presence] at run
    cases run
    rfl
  | default v =>
    rw [presence] at run
    cases run
    rfl

/-- What is read for the component ahead is read where it stands, with the type of a field that may come. -/
theorem reads_of_seek {passed todo : List Member} {record : Record} {type : Codec} {takeUp : Value → Decoding Progress}
    {e : Decoder} (sought : (seek container tag passed todo record).run d = .ok (.reads type takeUp) e) :
    e = d ∧ (∃ m ∈ todo, type = m.codec) ∧ ∀ {v e s' d'}, (takeUp v).run e = .ok s' d' →
      d' = e ∧ s'.2.1 ⊆ todo := by
  induction todo generalizing passed record with
  | nil => cases sought
  | cons m rest ih =>
    rw [seek] at sought
    by_cases accepted : m.codec.accepts tag = true
    · rw [if_pos accepted] at sought
      cases sought
      refine ⟨rfl, ⟨m, List.mem_cons_self, rfl⟩, ?_⟩
      intro v e s' d' taken
      simp only [EStateM.run_bind, EStateM.run_get] at taken
      by_cases default : m.defaultOctets = some (e.source.between d.position e.position)
      · rw [if_pos default] at taken
        cases taken
      · rw [if_neg default] at taken
        cases taken
        exact ⟨rfl, List.subset_cons_self m rest⟩
    · rw [if_neg accepted] at sought
      by_cases later : (rest.any fun u => u.codec.accepts tag) = true
      · rw [if_pos later] at sought
        obtain ⟨after, e', skipped, sought⟩ := bind_eq_ok sought
        cases eq_of_skip skipped
        obtain ⟨here, ⟨u, member, is⟩, taken⟩ := ih sought
        refine ⟨here, ⟨u, List.mem_cons_of_mem m member, is⟩, ?_⟩
        intro v e s' d' run
        obtain ⟨same, kept⟩ := taken run
        exact ⟨same, List.Subset.trans kept (List.subset_cons_self m rest)⟩
      · rw [if_neg later] at sought
        cases sought

theorem components_steady : (components container).Steady fun s => ∀ m ∈ s.2.1, m.codec.TakesElement := by
  have sought : ∀ {s d type takeUp e}, (components container s).run d = .ok (.reads type takeUp) e →
      ∃ tag, (seek container tag s.1 s.2.1 s.2.2).run d = .ok (.reads type takeUp) e := by
    rintro ⟨passed, todo, record⟩ d type takeUp e looked
    obtain ⟨tag?, e', peeked, looked⟩ := bind_eq_ok looked
    cases eq_of_peekTag peeked
    cases tag? with
    | none =>
      obtain ⟨record', e', _, looked⟩ := bind_eq_ok looked
      cases looked
    | some tag =>
      simp only at looked
      cases again : passed.find? (fun m => m.codec.accepts tag) with
      | some m =>
        rw [again] at looked
        cases looked
      | none =>
        rw [again] at looked
        exact ⟨tag, looked⟩
  constructor
  · intro s d type takeUp e fine looked
    obtain ⟨tag, found⟩ := sought looked
    obtain ⟨rfl, ⟨m, member, rfl⟩, _⟩ := reads_of_seek found
    exact ⟨rfl, fine m member⟩
  · intro s d type takeUp e v e' s' d' fine looked taken
    obtain ⟨tag, found⟩ := sought looked
    obtain ⟨_, _, takes⟩ := reads_of_seek found
    obtain ⟨rfl, kept⟩ := takes taken
    exact ⟨rfl, fun m member => fine m (kept member)⟩

/-- While the tag ahead belongs to no field that has been passed, the reader looks for its field. -/
theorem readSet_eq_seek (peeked : Decoding.peekTag.run d = .ok (some tag) d) {passed todo : List Member} {record : Record}
    (fresh : passed.find? (fun m => m.codec.accepts tag) = none) :
    (readSet container passed todo record).run d =
      (seek container tag passed todo record >>= ElementLoop.after fun s => readSet container s.1 s.2.1 s.2.2).run d := by
  -- The reader looks at the tag ahead again behind every field that is absent, and finds the same one.
  induction todo generalizing passed record with
  | nil =>
    rw [readSet, EStateM.run_bind, peeked]
    simp only [fresh]
    rfl
  | cons m rest ih =>
    rw [readSet, EStateM.run_bind, peeked]
    simp only [fresh, seek]
    by_cases accepted : m.codec.accepts tag = true
    · simp only [if_pos accepted, read, EStateM.run_bind, run_offset, ElementLoop.after, EStateM.run_pure]
      cases m.codec.decode.run d with
      | error fault e => rfl
      | ok v e =>
        simp only [EStateM.run_get]
        by_cases default : m.defaultOctets = some (e.source.between d.position e.position)
        · rw [if_pos default, if_pos default]
          rfl
        · rw [if_neg default, if_neg default]
          rfl
    · rw [if_neg accepted, if_neg accepted]
      by_cases later : (rest.any fun u => u.codec.accepts tag) = true
      · rw [if_pos later, if_pos later, bind_assoc, EStateM.run_bind, EStateM.run_bind]
        cases skipped : (m.skip container .unexpectedTag record).run d with
        | error fault e => rfl
        | ok after e =>
          cases eq_of_skip skipped
          refine ih ?_
          rw [List.find?_append, fresh, List.find?_singleton, if_neg accepted]
          rfl
      · rw [if_neg later, if_neg later]
        rfl

theorem readSet_follows (container : String) :
    ElementLoop.Follows (fun _ s => readSet container s.1 s.2.1 s.2.2) (components container) := by
  rintro _ ⟨passed, todo, record⟩ d
  simp only [components, bind_assoc]
  rw [EStateM.run_bind]
  cases looked : Decoding.peekTag.run d with
  | error fault e => rw [readSet.eq_def, EStateM.run_bind, looked]
  | ok tag? e =>
    cases eq_of_peekTag looked
    cases tag? with
    | none =>
      rw [readSet.eq_def, EStateM.run_bind, looked]
      simp only [bind_assoc, pure_bind]
      exact congrArg (EStateM.run · d) (bind_pure _).symm
    | some tag =>
      simp only
      cases again : passed.find? (fun m => m.codec.accepts tag) with
      | some m =>
        rw [readSet.eq_def, EStateM.run_bind, looked]
        simp only [again]
        rfl
      | none => exact readSet_eq_seek looked again

theorem components_terminates {members : List Member} (takes : ∀ m ∈ members, m.codec.TakesElement) (container : String)
    (d : Decoder) :
    (components container).Terminates (fun _ => readSet container [] members []) ([], members, []) d :=
  components_steady.terminates (readSet_follows container) ([], members, []) takes d

end Member

namespace Schema

/-- The members of a SET in the order in which they are read. -/
def members (fields : List (Field Schema)) : List Member :=
  Member.canonical ((fieldCodecs fields).map Member.ofField)

theorem members_takesElement {fields : List (Field Schema)} (types : ∀ f ∈ fields, f.type.Declared) :
    ∀ m ∈ members fields, m.codec.TakesElement := by
  intro m member
  obtain ⟨f, field, rfl⟩ := List.mem_map.mp ((List.mergeSort_perm _ _).subset member)
  rw [fieldCodecs_eq_map] at field
  obtain ⟨g, own, rfl⟩ := List.mem_map.mp field
  exact (types g own).takesElement

/-- What is read as a value of a declared type is one element with a tag of the type, wherever the decoder stands, and what
is built for a value is one element with the tag of the value. What is written at an encoder is one if the type suits the
value and no window of the value looks into the buffer, or if the buffer is the encoder's own and as much has been written
as was measured. So the loops over the elements of SEQUENCE OF, SET OF and SET end, after at most half as many elements as
there are octets, and the readers of contents, which may take one turn more than there are octets, end as the loops do. -/
theorem element_per_value {T : Schema} (declared : T.Declared) :
    (∀ (d d' : Decoder) (v : Value), T.codec.decode.run d = .ok v d' →
      ∃ t : Tag, d.Passes t d' ∧ T.codec.accepts t = true) ∧
    ((∀ tag, T.codec.tag? = some tag → tag.WellFormed) → ∀ v : Value,
      (T = .any → ∀ a, v = .any a → ∃ d d', Any.read.run d = .ok a d') →
      (∀ octets, Document.build T.codec v = .ok octets → T.codec.Represents v octets) ∧
      ∀ e e', (T.codec.encode v).run e = .ok () e' →
        T.Suits v ∧ v.Apart ∨ e.lent = false ∧ T.codec.encodedLength v = .ok (e'.position - e.position) →
        ∃ octets, e' = e.put octets ∧ T.codec.Represents v octets) ∧
    (∀ (name : String) (d : Decoder),
      (Collection.inOrder T.codec).Terminates (Collection.readInOrder name T.codec) [] d ∧
      (Collection.sorted name T.codec).Terminates (Collection.readSorted name T.codec · []) ([], []) d) ∧
    ∀ (name : String) (fields : List (Field Schema)), (∀ f ∈ fields, f.type.Declared) → ∀ d : Decoder,
      (Member.components name).Terminates (fun _ => Member.readSet name [] (members fields) []) ([], members fields, []) d := by
  refine ⟨?_, ?_, ?_, ?_⟩
  · intro d d' v read
    exact declared.takesElement read
  · intro valid v captured
    constructor
    · intro octets built
      rw [declared.measures.build_eq] at built
      exact declared.represents_of_toOctets captured valid built
    · rintro e e' run (⟨suits, apart⟩ | ⟨own, whole⟩)
      · obtain ⟨octets, written, rfl⟩ := declared.toOctets_of_encode captured suits apart run
        exact ⟨octets, rfl, declared.represents_of_toOctets captured valid written⟩
      · obtain ⟨octets, written, rfl⟩ := declared.toOctets_of_position own run whole
        exact ⟨octets, rfl, declared.represents_of_toOctets captured valid written⟩
  · intro name d
    exact ⟨Collection.inOrder_terminates declared.takesElement name d,
      Collection.sorted_terminates declared.takesElement name d⟩
  · intro name fields types d
    exact Member.components_terminates (members_takesElement types) name d

/-- The numbers 1 and 2 make one element as a SEQUENCE OF INTEGER. Two elements are read from six octets for it, and for a
SET OF INTEGER as well, and at most three for a SET. -/
theorem element_per_value_numbers :
    (∃ t : Tag, (Decoder.ofOctets [48, 6, 2, 1, 1, 2, 1, 2] 100).Passes t ⟨[48, 6, 2, 1, 1, 2, 1, 2], 8, 8, 0, 100⟩ ∧
      (declareSequenceOf "numbers" none none ⟨none, none⟩ (.primitive .integer)).codec.accepts t = true) ∧
    (declareSequenceOf "numbers" none none ⟨none, none⟩ (.primitive .integer)).codec.Represents
      (.list [.integer 1, .integer 2]) [48, 6, 2, 1, 1, 2, 1, 2] ∧
    (∃ octets, ⟨[48, 6, 2, 1, 1, 2, 1, 2, 0], 8, false⟩ = (Encoder.ofSize 9).put octets ∧
      (declareSequenceOf "numbers" none none ⟨none, none⟩ (.primitive .integer)).codec.Represents
        (.list [.integer 1, .integer 2]) octets) ∧
    (Collection.readInOrder "numbers" (primitive .integer).codec 3).run ⟨[2, 1, 1, 2, 1, 2], 0, 6, 0, 100⟩ =
      .ok [.integer 1, .integer 2] ⟨[2, 1, 1, 2, 1, 2], 6, 6, 0, 100⟩ ∧
    (Collection.readSorted "numbers" (primitive .integer).codec 3 []).run ⟨[2, 1, 1, 2, 1, 2], 0, 6, 0, 100⟩ =
      .ok [.integer 1, .integer 2] ⟨[2, 1, 1, 2, 1, 2], 6, 6, 0, 100⟩ ∧
    ∃ count result, 2 * count ≤ 6 ∧
      (Member.components "numbers").Runs ([], members [.required "number" (.primitive .integer)], [])
        ⟨[2, 1, 1, 2, 1, 2], 0, 6, 0, 100⟩ count result := by
  have declared : (declareSequenceOf "numbers" none none ⟨none, none⟩ (.primitive .integer)).Declared :=
    .sequenceOf _ _ _ _ (.primitive .integer)
  have valid : ∀ tag, (declareSequenceOf "numbers" none none ⟨none, none⟩ (.primitive .integer)).codec.tag? = some tag →
      tag.WellFormed := by
    rintro tag ⟨⟩
    exact ⟨0, 16, by decide, by decide, rfl, rfl⟩
  obtain ⟨inOrder, sorted⟩ :=
    (element_per_value (.primitive .integer)).2.2.1 "numbers" ⟨[2, 1, 1, 2, 1, 2], 0, 6, 0, 100⟩
  have component : ∀ f ∈ [Field.required "number" (primitive .integer)], f.type.Declared := by
    intro f member
    rw [List.mem_singleton.mp member]
    exact .primitive .integer
  have components := (element_per_value declared).2.2.2 "numbers" _ component ⟨[2, 1, 1, 2, 1, 2], 0, 6, 0, 100⟩
  have one : (primitive .integer).codec.decode.run ⟨[2, 1, 1, 2, 1, 2], 0, 6, 0, 100⟩ =
      .ok (.integer 1) ⟨[2, 1, 1, 2, 1, 2], 3, 6, 0, 100⟩ := rfl
  have two : (primitive .integer).codec.decode.run ⟨[2, 1, 1, 2, 1, 2], 3, 6, 0, 100⟩ =
      .ok (.integer 2) ⟨[2, 1, 1, 2, 1, 2], 6, 6, 0, 100⟩ := rfl
  refine ⟨(element_per_value declared).1 _ _ (.list [.integer 1, .integer 2]) rfl,
    ((element_per_value declared).2.1 valid _ nofun).1 _ rfl,
    ((element_per_value declared).2.1 valid _ nofun).2 (.ofSize 9) _ rfl (.inr ⟨rfl, rfl⟩), ?_, ?_, ?_⟩
  · exact inOrder.read (.goes rfl one rfl (.goes rfl two rfl (.ends rfl))) (by decide)
  · exact sorted.read (.goes rfl one rfl (.goes rfl two rfl (.ends rfl))) (by decide)
  · obtain ⟨count, result, runs⟩ := components.ends
    exact ⟨count, result, components.few runs, runs⟩

/-- Where a record inherits a function, the text of the function is written, but only its arity has been declared. -/
theorem inherited_member_exceeds_header :
    (∃ e, ((sequence "S" ⟨0, true, 16⟩ [.optional "constructor" (.primitive .ia5String)]).codec.encode (.record [])).run
        (.ofSize 64) = .ok () e) ∧
      ∀ octets, ((sequence "S" ⟨0, true, 16⟩ [.optional "constructor" (.primitive .ia5String)]).codec.encode
          (.record [])).run (.ofSize 64) = .ok () ((Encoder.ofSize 64).put octets) →
        ¬ (sequence "S" ⟨0, true, 16⟩ [.optional "constructor" (.primitive .ia5String)]).codec.Represents (.record [])
          octets := by
  refine ⟨⟨_, rfl⟩, ?_⟩
  rintro octets run ⟨tag, _, whole, _⟩
  have front : Tag.Frames ⟨0, true, 16⟩ [0x30, 3, 0x16, 1, 0x66] :=
    ⟨⟨0, 16, by decide, by decide, rfl, rfl⟩, [0x30, 3], [0x16, 1, 0x66], rfl, rfl⟩
  have written := Encoder.written_put_ofSize octets 64
  have same : (Encoder.ofSize 64).put octets = _ := (EStateM.Result.ok.inj run).2.symm
  rw [same] at written
  have longer := (front.eq_of_prefix whole (written ▸ ⟨_, rfl⟩)).2
  rw [← longer] at written
  cases congrArg List.length written

end Schema

end Der
