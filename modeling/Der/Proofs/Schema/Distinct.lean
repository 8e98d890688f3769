import Der.Proofs.Codec.Members

namespace Der

namespace Tag

/-- The difference of small numbers is not rounded. -/
theorem sub_natCast {m n : Nat} (small : m ≤ maxNumber) (small' : n ≤ maxNumber) :
    Number.sub (m : Number) (n : Number) = .integer (m - n) := by
  have safe : maxNumber ≤ Number.maxSafe := by decide
  have difference : (m : Int) * (Nat.pow 2 0 : Nat) + -(n : Int) * (Nat.pow 2 0 : Nat) = m - n := by
    rw [show Nat.pow 2 0 = 1 from rfl]
    omega
  have exact : Number.nearest ((m : Int) - n) (Nat.pow 2 (0 + 0)) = .integer (m - n) :=
    if_pos (Or.inr ⟨rfl, by omega⟩)
  simp only [Number.sub, Number.neg, Number.add, Number.finite?, difference, exact]

/-- The place of a tag in the canonical order. -/
def rank (t : Tag) : Nat :=
  t.tagClass.toNat?.getD 0 * (maxNumber + 1) + t.number.toNat?.getD 0

/-- The canonical order is that of the places. -/
theorem WellFormed.compare_eq {s t : Tag} (valid : s.WellFormed) (valid' : t.WellFormed) :
    ∃ k : Int, s.compare t = .integer k ∧ (0 < k ↔ t.rank < s.rank) ∧ (k = 0 ↔ s.rank = t.rank) := by
  obtain ⟨c, n, smallClass, smallNumber, isClass, isNumber⟩ := valid
  obtain ⟨c', n', smallClass', smallNumber', isClass', isNumber'⟩ := valid'
  have large : 3 ≤ maxNumber := by decide
  simp only [compare, rank, isClass, isClass', isNumber, isNumber', Number.toNat?_natCast, Option.getD_some]
  by_cases same : c = c'
  · subst same
    refine ⟨n - n', ?_, ?_, ?_⟩
    · rw [if_pos (by simp [Number.same]), sub_natCast smallNumber smallNumber']
    · omega
    · omega
  · have differs : Number.same (c : Number) (c' : Number) = false := by
      simp only [Number.same, Bool.and_eq_false_iff, decide_eq_false_iff_not]
      exact Or.inl fun equal => same (Number.natCast_inj equal)
    have scale : ∀ a b : Nat, a < b → a * (maxNumber + 1) + (maxNumber + 1) ≤ b * (maxNumber + 1) := by
      intro a b less
      rw [← Nat.succ_mul]
      exact Nat.mul_le_mul_right _ less
    refine ⟨c - c', ?_, ?_, ?_⟩
    · rw [if_neg (by rw [differs]; exact Bool.false_ne_true), sub_natCast (by omega) (by omega)]
    · rcases Nat.lt_or_gt_of_ne same with less | less <;> have apart := scale _ _ less <;> omega
    · rcases Nat.lt_or_gt_of_ne same with less | less <;> have apart := scale _ _ less <;> omega

end Tag

/-- A type with a fixed tag accepts no other tag. -/
theorem Codec.eq_of_accepts {c : Codec} {tag t : Tag} (fixed : c.tag? = some tag) (accepted : c.accepts t = true) : t = tag := by
  cases c with
  | untagged c => cases fixed
  | tagged c =>
    cases fixed
    exact Tag.eq_of_equals accepted

namespace Field

variable {f g : Field Codec} {rest : List (Field Codec)}

/-- Of two fields that do not clash, the first accepts no tag of the second if one of them has a fixed tag. -/
theorem apart_of_clashes (clear : f.clashes g = false)
    (fixed : f.type.tag?.isSome = true ∨ g.type.tag?.isSome = true) :
    ∀ t, g.type.accepts t = true → f.type.accepts t = false := by
  obtain ⟨first, second⟩ := Bool.or_eq_false_iff.mp clear
  intro t accepted
  rw [Bool.eq_false_iff]
  intro shared
  rcases fixed with fixed | fixed
  · obtain ⟨tag, own⟩ := Option.isSome_iff_exists.mp fixed
    rw [Codec.eq_of_accepts own shared] at accepted
    rw [own, Option.any_some, accepted] at first
    cases first
  · obtain ⟨tag, own⟩ := Option.isSome_iff_exists.mp fixed
    rw [Codec.eq_of_accepts own accepted] at shared
    rw [own, Option.any_some, shared] at second
    cases second

theorem clashes_of_clashIn? (clear : f.clashIn? rest = none) :
    ∀ g ∈ Presence.reach Field.presence rest, f.clashes g = false := by
  induction rest with
  | nil =>
    intro g reached
    cases reached
  | cons later rest ih =>
    rw [clashIn?] at clear
    by_cases clash : f.clashes later = true
    · rw [if_pos clash] at clear
      cases clear
    · rw [if_neg clash] at clear
      intro g reached
      rcases Presence.mem_reach_cons.mp reached with rfl | ⟨optional, reached⟩
      · exact Bool.eq_false_iff.mpr clash
      · rw [if_pos optional] at clear
        exact ih clear g reached

theorem ambiguity?_cons (clear : ambiguity? (f :: rest) = none) :
    (f.presence.mayBeAbsent = true → f.clashIn? rest = none) ∧ ambiguity? rest = none := by
  rw [ambiguity?] at clear
  split at clear
  · cases clear
  · rename_i none
    refine ⟨?_, clear⟩
    intro optional
    rwa [if_pos optional] at none

end Field

namespace Member

variable {members : List Member}

/-- The member has a fixed tag that can be written. -/
def Placed (m : Member) : Prop :=
  ∃ tag, m.codec.tag? = some tag ∧ tag.WellFormed

/-- The place of the tag of a member in the canonical order. -/
def rank (m : Member) : Nat :=
  (m.codec.tag?.map Tag.rank).getD 0

theorem rank_eq {m : Member} {tag : Tag} (fixed : m.codec.tag? = some tag) : m.rank = tag.rank := by
  rw [rank, fixed]
  rfl

theorem ranks_canonical (placed : ∀ m ∈ members, m.Placed) :
    (canonical members).map rank = (members.map rank).mergeSort fun a b => a ≤ b := by
  refine List.map_mergeSort ?_
  intro a first b second
  obtain ⟨s, isFirst, valid⟩ := placed a first
  obtain ⟨t, isSecond, valid'⟩ := placed b second
  obtain ⟨k, difference, greater, _⟩ := valid.compare_eq valid'
  rw [isFirst, isSecond, rank_eq isFirst, rank_eq isSecond]
  dsimp only
  rw [difference, show (0 : Number) = .integer 0 from rfl, Number.less_integer, Bool.eq_iff_iff, Bool.not_eq_true',
    decide_eq_false_iff_not, decide_eq_true_eq, greater, Nat.not_lt]

theorem canonical_pairwise (placed : ∀ m ∈ members, m.Placed) :
    (canonical members).Pairwise fun a b => a.rank ≤ b.rank := by
  have trans : ∀ a b c : Nat, decide (a ≤ b) = true → decide (b ≤ c) = true → decide (a ≤ c) = true := by
    intro a b c first second
    rw [decide_eq_true_eq] at first second ⊢
    exact first.trans second
  have total : ∀ a b : Nat, (decide (a ≤ b) || decide (b ≤ a)) = true := by
    intro a b
    simpa using Nat.le_total a b
  rw [← List.pairwise_map, ranks_canonical placed]
  simpa only [decide_eq_true_eq] using List.pairwise_mergeSort trans total (members.map rank)

/-- Members in order that do not share a tag with the one before them ascend strictly. -/
theorem strict_of_repeated? (placed : ∀ m ∈ members, m.Placed) (ordered : members.Pairwise fun a b => a.rank ≤ b.rank)
    (distinct : Field.repeated? members = none) : members.Pairwise fun a b => a.rank < b.rank := by
  induction members with
  | nil => exact .nil
  | cons a others ih =>
    cases others with
    | nil => exact List.pairwise_singleton _ a
    | cons b rest =>
      obtain ⟨least, ordered⟩ := List.pairwise_cons.mp ordered
      obtain ⟨s, isFirst, valid⟩ := placed a List.mem_cons_self
      obtain ⟨t, isSecond, valid'⟩ := placed b (List.mem_cons_of_mem a List.mem_cons_self)
      obtain ⟨k, difference, _, zero⟩ := valid.compare_eq valid'
      simp only [Field.repeated?, isFirst, isSecond, difference] at distinct
      rw [← rank_eq isFirst, ← rank_eq isSecond] at zero
      by_cases same : Number.same (.integer k) 0 = true
      · rw [if_pos same] at distinct
        cases distinct
      · rw [if_neg same] at distinct
        have strict := ih (fun m member => placed m (List.mem_cons_of_mem a member)) ordered distinct
        have next : a.rank < b.rank := by
          refine Nat.lt_of_le_of_ne (least b List.mem_cons_self) ?_
          intro equal
          rw [zero.mpr equal] at same
          exact same rfl
        refine List.pairwise_cons.mpr ⟨?_, strict⟩
        intro m member
        rcases List.mem_cons.mp member with rfl | later
        · exact next
        · exact next.trans ((List.pairwise_cons.mp strict).1 m later)

/-- In the canonical order, members with fixed tags that are not repeated ascend strictly. -/
theorem strict_canonical (placed : ∀ m ∈ members, m.Placed) (distinct : Field.repeated? (canonical members) = none) :
    (canonical members).Pairwise fun a b => a.rank < b.rank :=
  strict_of_repeated? (fun m within => placed m (mem_canonical within)) (canonical_pairwise placed) distinct

end Member

namespace Slot

theorem clear_of_fields {fields : List (Field Schema)} (clear : Field.ambiguity? (Schema.fieldCodecs fields) = none)
    (separated : Field.Separated (Schema.fieldCodecs fields)) : Clear (Schema.slots fields) := by
  induction fields with
  | nil => trivial
  | cons f rest ih =>
    obtain ⟨first, clear⟩ := Field.ambiguity?_cons clear
    obtain ⟨fixed, separated⟩ := separated
    refine ⟨?_, ih clear separated⟩
    intro optional u reached
    rw [Schema.slots_eq_map, Presence.reach_map] at reached
    obtain ⟨g, within, rfl⟩ := List.mem_map.mp reached
    have follows : g.map Schema.codec ∈ Presence.reach Field.presence (Schema.fieldCodecs rest) := by
      rw [Schema.fieldCodecs_eq_map, Presence.reach_map]
      exact List.mem_map_of_mem within
    refine Field.apart_of_clashes (Field.clashes_of_clashIn? (first optional) _ follows) ?_
    exact (fixed optional).imp_right fun each => each _ follows

theorem canonical_perm (slots : List Slot) : (canonical slots).Perm slots :=
  List.mergeSort_perm slots _

theorem map_canonical (slots : List Slot) : (canonical slots).map member = Member.canonical (slots.map member) :=
  List.map_mergeSort fun _ _ _ _ => rfl

/-- Members that have different places are apart. -/
theorem apart_of_rank {s u : Slot} (placed : s.member.Placed) (placed' : u.member.Placed)
    (differ : s.member.rank ≠ u.member.rank) : s.Apart u := by
  intro t accepted
  obtain ⟨tag, isFirst, _⟩ := placed
  obtain ⟨tag', isSecond, _⟩ := placed'
  rw [Member.rank_eq isFirst, Member.rank_eq isSecond] at differ
  rw [Bool.eq_false_iff]
  intro shared
  exact differ (congrArg Tag.rank ((Codec.eq_of_accepts isFirst shared).symm.trans (Codec.eq_of_accepts isSecond accepted)))

theorem distinct_of_canonical {slots : List Slot} (placed : ∀ s ∈ slots, s.member.Placed)
    (distinct : Field.repeated? (Member.canonical (slots.map member)) = none) : (canonical slots).Pairwise Apart := by
  have each : ∀ m ∈ slots.map member, m.Placed := by
    intro m within
    obtain ⟨s, slot, rfl⟩ := List.mem_map.mp within
    exact placed s slot
  have strict := Member.strict_canonical each distinct
  have same := canonical_perm slots
  rw [← map_canonical, List.pairwise_map] at strict
  refine strict.imp_of_mem ?_
  intro s u first second less
  exact apart_of_rank (placed s (same.mem_iff.mp first)) (placed u (same.mem_iff.mp second)) less.ne

end Slot

end Der
