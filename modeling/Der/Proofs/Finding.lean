import Der.Proofs.Reading

namespace Der

/-- What is less than a count is less than any greater count. -/
theorem Number.less_of_le {x : Number} {m n : Nat} (less : x.less m = true) (bound : m ≤ n) : x.less n = true := by
  cases x with
  | integer k =>
    rw [less_integer, decide_eq_true_eq] at less ⊢
    omega
  | fraction k twos reduced =>
    simp only [Number.less, compare?, beq_iff_eq, Option.some.injEq, Int.compare_eq_lt] at less ⊢
    have grown : (m : Int) * (Nat.pow 2 twos : Nat) ≤ (n : Int) * (Nat.pow 2 twos : Nat) :=
      Int.mul_le_mul_of_nonneg_right (Int.ofNat_le.mpr bound) (Int.natCast_nonneg _)
    exact Int.lt_of_lt_of_le less grown
  | infinite negative => exact less
  | nan => cases less
  | absent => cases less

/-- The octets begin with the identifier octets of the tag. -/
def Tag.Leads (t : Tag) (octets : Octets) : Prop :=
  ∃ rest, ∀ offset more, Tag.decode offset (octets ++ more) = .ok (t, rest ++ more)

theorem Tag.Leads.append {t : Tag} {octets : Octets} (leads : t.Leads octets) (more : Octets) : t.Leads (octets ++ more) := by
  obtain ⟨rest, read⟩ := leads
  refine ⟨rest ++ more, ?_⟩
  intro offset further
  rw [List.append_assoc, List.append_assoc]
  exact read offset (more ++ further)

theorem Tag.Leads.ne_nil {t : Tag} {octets : Octets} (leads : t.Leads octets) : octets ≠ [] := by
  intro same
  subst same
  obtain ⟨rest, read⟩ := leads
  cases read 0 []

theorem Tag.WellFormed.leads {t : Tag} (valid : t.WellFormed) {length : Nat} {header : Octets}
    (written : Header.encode t length = .ok header) (content : Octets) : t.Leads (header ++ content) := by
  obtain ⟨identifier, size, first, _, rfl⟩ := Header.encode_eq_ok written
  obtain ⟨identifier', first', read⟩ := valid.decode_encode
  cases Except.ok.inj (first.symm.trans first')
  refine ⟨size ++ content, ?_⟩
  intro offset more
  rw [List.append_assoc, List.append_assoc]
  simpa only [List.append_assoc] using read offset (size ++ (content ++ more))

namespace Decoder

/-- So many more scopes may be nested here. -/
def Admits (d : Decoder) (layers : Nat) : Prop :=
  ∀ k ≤ layers, d.maxDepth.less (d.depth + k : Nat) = false

theorem Admits.mono {d : Decoder} {layers more : Nat} (admits : d.Admits more) (fewer : layers ≤ more) : d.Admits layers :=
  fun k bound => admits k (bound.trans fewer)

theorem Admits.scope {d : Decoder} {layers : Nat} (admits : d.Admits (layers + 1)) (count : Nat) :
    (d.scope count).Admits layers := by
  intro k bound
  have deeper := admits (k + 1) (Nat.succ_le_succ bound)
  rwa [show d.depth + (k + 1) = d.depth + 1 + k by omega] at deeper

theorem Bounded.not_isFinished {d : Decoder} (bounded : d.Bounded) {octets rest : Octets} (some : octets ≠ [])
    (ahead : d.rest = octets ++ rest) : ¬ d.isFinished = true := by
  intro finished
  rw [bounded.isFinished_iff.mp finished] at ahead
  exact some (List.append_eq_nil_iff.mp ahead.symm).1

theorem admits_ofOctets {maxDepth : Number} {layers : Nat} (enough : ¬ maxDepth.less layers = true) (document : Octets) :
    (ofOctets document maxDepth).Admits layers := by
  intro k bound
  rw [ofOctets, Nat.zero_add]
  exact Bool.eq_false_iff.mpr fun less => enough (Number.less_of_le less bound)

end Decoder

namespace Decoding

variable {α β : Type} {layers : Nat} {octets more rest : Octets} {body : Decoding α} {next : α → Decoding β}
  {looks : Decoding β} {wanted wanted' : α → Prop} {wantedNext : β → Prop}

/-- Wherever the octets stand ahead, followed by the rest, the step reads them and has a wanted result. It nests at
most so many scopes. -/
def Finds (layers : Nat) (octets rest : Octets) (body : Decoding α) (wanted : α → Prop) : Prop :=
  ∀ ⦃d : Decoder⦄, d.Bounded → d.rest = octets ++ rest → d.Admits layers →
    ∃ a, body.run d = .ok a (d.skip octets.length) ∧ wanted a

theorem Finds.mono (finds : Finds layers octets rest body wanted) {layers' : Nat} (fewer : layers ≤ layers')
    (weaker : ∀ a, wanted a → wanted' a) : Finds layers' octets rest body wanted' := by
  intro d bounded ahead admits
  obtain ⟨a, run, holds⟩ := finds bounded ahead (admits.mono fewer)
  exact ⟨a, run, weaker a holds⟩

theorem finds_pure {a : α} (holds : wanted a) : Finds layers [] rest (pure a) wanted :=
  fun _ _ _ _ => ⟨a, rfl, holds⟩

theorem Finds.bind (begins : Finds layers octets (more ++ rest) body wanted)
    (goes : ∀ a, wanted a → Finds layers more rest (next a) wantedNext) :
    Finds layers (octets ++ more) rest (body >>= next) wantedNext := by
  intro d bounded ahead admits
  rw [List.append_assoc] at ahead
  obtain ⟨a, run, holds⟩ := begins bounded ahead admits
  have room := (Decoder.takes_of_ahead ahead).length_le
  have left := Decoder.rest_skip_of_ahead ahead
  obtain ⟨b, run', holds'⟩ := goes a holds (bounded.skip room) left admits
  refine ⟨b, ?_, holds'⟩
  rw [EStateM.run_bind, run, List.length_append, ← Decoder.skip_skip]
  exact run'

/-- A step that reads nothing before another one. -/
theorem Finds.before {body : β → Decoding α} {seen : β → Prop}
    (first : Finds layers [] (octets ++ rest) looks seen)
    (goes : ∀ b, seen b → Finds layers octets rest (body b) wanted) : Finds layers octets rest (looks >>= body) wanted := by
  have both := first.bind goes
  rwa [List.nil_append] at both

theorem Finds.before_eq {body : β → Decoding α} {b : β} (first : Finds layers [] (octets ++ rest) looks (· = b))
    (goes : Finds layers octets rest (body b) wanted) : Finds layers octets rest (looks >>= body) wanted := by
  refine first.before ?_
  intro b' same
  rw [same]
  exact goes

/-- A step that reads nothing after another one. -/
theorem Finds.after (finds : Finds layers octets rest body wanted)
    (goes : ∀ a, wanted a → Finds layers [] rest (next a) wantedNext) :
    Finds layers octets rest (body >>= next) wantedNext := by
  have both : Finds layers (octets ++ []) rest (body >>= next) wantedNext := finds.bind goes
  rwa [List.append_nil] at both

theorem finds_offset : Finds layers [] rest offset fun _ => True :=
  fun d _ _ _ => ⟨d.position, rfl, trivial⟩

theorem finds_get : Finds layers [] rest get fun d => d.Bounded ∧ d.rest = rest :=
  fun d bounded ahead _ => ⟨d, rfl, bounded, ahead⟩

theorem finds_peekTag_nil : Finds layers [] [] peekTag (· = none) := by
  intro d bounded ahead admits
  rw [List.append_nil] at ahead
  exact ⟨none, by rw [run_peekTag bounded, ahead]; rfl, rfl⟩

theorem run_peekTag_of_leads {d : Decoder} (bounded : d.Bounded) {t : Tag} (leads : t.Leads d.rest) :
    peekTag.run d = .ok (some t) d := by
  obtain ⟨left, read⟩ := leads
  have read := read d.position []
  rw [List.append_nil] at read
  rw [run_peekTag bounded]
  cases ahead : d.rest with
  | nil => rw [ahead] at read; cases read
  | cons first tail =>
    rw [ahead] at read
    simp only [read]

theorem finds_peekTag {t : Tag} (leads : t.Leads rest) : Finds layers [] rest peekTag (· = some t) := by
  intro d bounded ahead admits
  rw [List.nil_append] at ahead
  exact ⟨some t, run_peekTag_of_leads bounded (ahead ▸ leads), rfl⟩

theorem finds_expect {tag : Tag} (name : String) {header content : Octets} (valid : tag.WellFormed)
    (written : Header.encode tag content.length = .ok header) :
    Finds layers header (content ++ rest) (expect tag name) (· = ⟨tag, content.length⟩) := by
  intro d bounded ahead admits
  have fits := (List.prefix_append content rest).length_le
  exact ⟨_, run_expect_of_encode bounded name valid written ahead fits, rfl⟩

theorem finds_content {rule : Slice → Except Fault α}
    (complete : ∀ window : Slice, window.octets = .ok octets → ∃ a, rule window = .ok a ∧ wanted a) :
    Finds layers octets rest (content octets.length rule) wanted := by
  intro d bounded ahead admits
  have room := (Decoder.takes_of_ahead ahead).length_le
  have shows := octets_windowAt bounded room
  rw [ahead, List.take_left] at shows
  obtain ⟨a, read, holds⟩ := complete _ shows
  exact ⟨a, by rw [run_content bounded room, read], holds⟩

theorem Finds.complete (finds : Finds layers octets [] body wanted) : Finds layers octets [] (complete body) wanted := by
  have done : Finds layers [] [] finish fun _ => True := by
    intro d bounded ahead admits
    rw [List.append_nil] at ahead
    exact ⟨(), by rw [run_finish bounded, if_pos ahead, List.length_nil, Decoder.skip_zero], trivial⟩
  exact finds.after fun a holds => done.before fun _ _ => finds_pure holds

theorem Finds.nested (finds : Finds layers octets [] body wanted) :
    Finds (layers + 1) octets rest (nested octets.length body) wanted := by
  intro d bounded ahead admits
  have room := (Decoder.takes_of_ahead ahead).length_le
  obtain ⟨inside, inner⟩ := bounded.scope_of_ahead ahead
  obtain ⟨a, run, holds⟩ :=
    finds.complete inside (inner.trans (List.append_nil octets).symm) (admits.scope octets.length)
  have shallow : d.maxDepth.less (d.depth + 1 : Nat) = false := admits 1 (Nat.le_add_left _ _)
  refine ⟨a, ?_, holds⟩
  rw [run_nested bounded room, if_neg (by rw [shallow]; exact Bool.false_ne_true), run]

end Decoding

end Der
