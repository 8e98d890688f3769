import Mathlib.Data.List.Lex
import Der.Proofs.Octets
import Der.Proofs.Progress

namespace Der

namespace Octets

variable {a b c : Octets}

/-- The comparison is that of the dictionary. -/
theorem compare_lt_zero_iff : compare a b < 0 ↔ a < b := by
  induction a generalizing b with
  | nil =>
    cases b with
    | nil => exact iff_of_false (Int.lt_irrefl 0) (List.lt_irrefl [])
    | cons y bs => exact iff_of_true (by simp only [compare, List.length_nil, List.length_cons]; omega) (List.nil_lt_cons _ _)
  | cons x as ih =>
    cases b with
    | nil => exact iff_of_false (by simp only [compare, List.length_nil, List.length_cons]; omega) (List.not_lt_nil _)
    | cons y bs =>
      rw [List.cons_lt_cons_iff]
      by_cases same : x = y
      · subst same
        simp only [compare, if_true, ih, true_and, UInt8.lt_irrefl, false_or]
      · simp only [compare, same, if_false, false_and, or_false, UInt8.lt_iff_toNat_lt]
        omega

theorem compare_eq_zero_iff : compare a b = 0 ↔ a = b := by
  constructor
  · intro zero
    have back := compare_neg a b
    exact compare_le_antisymm (Int.le_of_eq zero) (by omega)
  · rintro rfl
    have back := compare_neg a a
    omega

theorem compare_lt_trans (first : compare a b < 0) (second : compare b c < 0) : compare a c < 0 := by
  rw [compare_lt_zero_iff] at first second ⊢
  exact List.lt_trans first second

/-- The octets with as many zeros behind them as there are missing from a size. -/
def filled (size : Nat) (octets : Octets) : Octets :=
  octets ++ List.replicate (size - octets.length) 0

/-- The sign of the comparison in which the shorter string is filled up with zeros. -/
def paddedSign (a b : Octets) : Int :=
  let size := max a.length b.length
  if filled size a < filled size b then -1
  else if filled size b < filled size a then 1
  else 0

/-- What stands behind strings of which neither begins with the other does not matter to their order. -/
theorem append_lt_append_iff (apart : ¬ a <+: b) (apart' : ¬ b <+: a) (p q : Octets) : a ++ p < b ++ q ↔ a < b := by
  induction a generalizing b with
  | nil => exact absurd List.nil_prefix apart
  | cons x as ih =>
    cases b with
    | nil => exact absurd List.nil_prefix apart'
    | cons y bs =>
      rw [List.cons_append, List.cons_append, List.cons_lt_cons_iff, List.cons_lt_cons_iff]
      by_cases same : x = y
      · subst same
        rw [List.cons_prefix_cons] at apart apart'
        simp only [ih (fun front => apart ⟨rfl, front⟩) fun front => apart' ⟨rfl, front⟩]
      · simp only [same, false_and]

theorem sign_compare_eq (apart : ¬ a <+: b) (apart' : ¬ b <+: a) : (compare a b).sign = paddedSign a b := by
  have order := append_lt_append_iff apart apart'
  have order' := append_lt_append_iff apart' apart
  simp only [paddedSign, filled, order, order', ← compare_lt_zero_iff, compare_neg a b]
  rcases Int.lt_trichotomy (compare a b) 0 with less | same | greater
  · rw [if_pos less, Int.sign_eq_neg_one_of_neg less]
  · rw [same]
    rfl
  · rw [if_neg (by omega), if_pos (by omega), Int.sign_eq_one_of_pos greater]

/-- Neither string is a proper beginning of the other, and filling up the shorter one does not change their order. -/
structure Comparable (a b : Octets) : Prop where
  eq_of_prefix : a <+: b → a = b
  eq_of_prefix' : b <+: a → b = a
  sign_eq : (compare a b).sign = paddedSign a b

end Octets

/-- No element begins with another one, so filling them up with zeros makes no difference. -/
theorem Tag.Frames.comparable {s t : Tag} {a b : Octets} (frames : s.Frames a) (frames' : t.Frames b) :
    a.Comparable b where
  eq_of_prefix front := (frames.eq_of_prefix frames' front).2
  eq_of_prefix' front := (frames'.eq_of_prefix frames front).2
  sign_eq := by
    by_cases same : a = b
    · subst same
      rw [Octets.compare_eq_zero_iff.mpr rfl, Octets.paddedSign]
      simp only [List.lt_irrefl, if_false]
      rfl
    · refine Octets.sign_compare_eq (fun front => same ?_) fun front => same ?_
      · exact (frames.eq_of_prefix frames' front).2
      · exact (frames'.eq_of_prefix frames front).2.symm

namespace Schema

/-- What is built as a value of a declared type is one element. -/
theorem Declared.frames_of_build {T : Schema} (declared : T.Declared) {v : Value} {document : Octets}
    (captured : T = .any → ∀ a, v = .any a → ∃ d d', Any.read.run d = .ok a d')
    (built : Document.build T.codec v = .ok document) : ∃ t : Tag, t.Frames document := by
  rw [declared.measures.build_eq] at built
  obtain ⟨t, frames, _⟩ := declared.frames_of_toOctets (Any.captured_inside captured) built
  exact ⟨t, frames⟩

/-- The comparison of octet strings is a total order: it is zero on equal strings only, it changes its sign when they are
exchanged, and it is transitive. On elements, and so on the documents of any two types, it is the comparison in which the
shorter string is filled up with zeros. -/
theorem comparison_canonical :
    (∀ a b : Octets, (Octets.compare a b = 0 ↔ a = b) ∧ Octets.compare b a = -Octets.compare a b) ∧
    (∀ a b c : Octets, Octets.compare a b ≤ 0 → Octets.compare b c ≤ 0 → Octets.compare a c ≤ 0) ∧
    (∀ a b c : Octets, Octets.compare a b < 0 → Octets.compare b c < 0 → Octets.compare a c < 0) ∧
    (∀ (s t : Tag) (a b : Octets), s.Frames a → t.Frames b → a.Comparable b) ∧
    ∀ (T U : Schema), T.Declared → U.Declared → ∀ (v w : Value) (a b : Octets),
      (T = .any → ∀ x, v = .any x → ∃ d d', Any.read.run d = .ok x d') →
      (U = .any → ∀ x, w = .any x → ∃ d d', Any.read.run d = .ok x d') →
      Document.build T.codec v = .ok a → Document.build U.codec w = .ok b → a.Comparable b := by
  refine ⟨fun a b => ⟨Octets.compare_eq_zero_iff, Octets.compare_neg a b⟩, fun a b c => Octets.compare_le_trans,
    fun a b c => Octets.compare_lt_trans, fun s t a b => Tag.Frames.comparable, ?_⟩
  intro T U declared declared' v w a b captured captured' built built'
  obtain ⟨s, frames⟩ := declared.frames_of_build captured built
  obtain ⟨t, frames'⟩ := declared'.frames_of_build captured' built'
  exact frames.comparable frames'

/-- The INTEGER 1 comes before the INTEGER 256, and a BOOLEAN comes before both. -/
theorem comparison_canonical_integers :
    Octets.Comparable [2, 1, 1] [2, 2, 1, 0] ∧ Octets.Comparable [1, 1, 255] [2, 1, 1] ∧
      Octets.compare [2, 1, 1] [2, 2, 1, 0] = -1 ∧ Octets.compare [1, 1, 255] [2, 1, 1] = -1 := by
  have one : Document.build (primitive .integer).codec (.integer 1) = .ok [2, 1, 1] := rfl
  have more : Document.build (primitive .integer).codec (.integer 256) = .ok [2, 2, 1, 0] := rfl
  have flag : Document.build (primitive .boolean).codec (.boolean true) = .ok [1, 1, 255] := rfl
  refine ⟨?_, ?_, rfl, rfl⟩
  · exact comparison_canonical.2.2.2.2 _ _ (.primitive .integer) (.primitive .integer) _ _ _ _ nofun nofun one more
  · exact comparison_canonical.2.2.2.2 _ _ (.primitive .boolean) (.primitive .integer) _ _ _ _ nofun nofun flag one

end Schema

/-- On other strings the two comparisons differ: a string is less than itself with a zero behind it. -/
example : (Octets.compare [1] [1, 0]).sign = -1 ∧ Octets.paddedSign [1] [1, 0] = 0 := by decide

end Der
