import Mathlib.Data.List.Forall2
import Der.Fault

namespace Except

variable {ε α β : Type}

theorem bind_eq_ok {x : Except ε α} {f : α → Except ε β} {b : β} :
    (x >>= f) = .ok b ↔ ∃ a, x = .ok a ∧ f a = .ok b := by
  cases x with
  | error fault =>
    constructor
    · intro done
      cases done
    · intro parts
      obtain ⟨a, done, _⟩ := parts
      cases done
  | ok a =>
    constructor
    · intro done
      exact ⟨a, rfl, done⟩
    · intro parts
      obtain ⟨a', same, done⟩ := parts
      cases same
      exact done

theorem map_eq_ok {x : Except ε α} {f : α → β} {b : β} : x.map f = .ok b ↔ ∃ a, x = .ok a ∧ f a = b := by
  cases x with
  | error fault =>
    constructor
    · intro done
      cases done
    · intro parts
      obtain ⟨a, done, _⟩ := parts
      cases done
  | ok a =>
    constructor
    · intro done
      cases done
      exact ⟨a, rfl, rfl⟩
    · intro parts
      obtain ⟨a', same, done⟩ := parts
      cases same
      rw [← done]
      rfl

theorem mapM_eq_ok {f : α → Except ε β} {as : List α} {bs : List β} :
    as.mapM f = .ok bs ↔ List.Forall₂ (fun a b => f a = .ok b) as bs := by
  induction as generalizing bs with
  | nil =>
    rw [List.forall₂_nil_left_iff]
    constructor
    · intro done
      cases done
      rfl
    · intro equal
      subst equal
      rfl
  | cons a rest ih =>
    rw [List.mapM_cons, bind_eq_ok, List.forall₂_cons_left_iff]
    constructor
    · intro parts
      obtain ⟨b, first, done⟩ := parts
      obtain ⟨more, others, same⟩ := bind_eq_ok.mp done
      cases same
      exact ⟨b, more, first, ih.mp others, rfl⟩
    · intro parts
      obtain ⟨b, more, first, others, rfl⟩ := parts
      exact ⟨b, first, bind_eq_ok.mpr ⟨more, ih.mpr others, rfl⟩⟩

theorem exists_mapM {f : α → Except ε β} {as : List α} (each : ∀ a ∈ as, ∃ b, f a = .ok b) :
    ∃ bs, as.mapM f = .ok bs := by
  induction as with
  | nil => exact ⟨[], rfl⟩
  | cons a rest ih =>
    obtain ⟨b, first⟩ := each a List.mem_cons_self
    obtain ⟨more, others⟩ := ih fun a later => each a (List.mem_cons_of_mem _ later)
    refine ⟨b :: more, ?_⟩
    rw [List.mapM_cons, first, others]
    rfl

end Except

namespace Der

namespace Fault

variable {α β : Type} {family : Fault → Prop} {x : Except Fault α}

/-- If a result is a fault, then one of the family. -/
def Only (family : Fault → Prop) (x : Except Fault α) : Prop :=
  ∀ fault, x = .error fault → family fault

theorem only_ok (a : α) : Only family (.ok a) := by
  intro fault failed
  cases failed

theorem only_error {fault : Fault} (within : family fault) : Only family (.error fault : Except Fault α) := by
  intro fault' failed
  cases failed
  exact within

theorem Only.bind {f : α → Except Fault β} (first : Only family x) (next : ∀ a, Only family (f a)) :
    Only family (x >>= f) := by
  intro fault failed
  cases x with
  | error cause => exact first fault (by injection failed with same; rw [same])
  | ok a => exact next a fault failed

theorem Only.mapM {f : α → Except Fault β} {as : List α} (each : ∀ a ∈ as, Only family (f a)) :
    Only family (as.mapM f) := by
  induction as with
  | nil => exact only_ok []
  | cons a rest ih =>
    rw [List.mapM_cons]
    refine (each a List.mem_cons_self).bind ?_
    intro b
    refine (ih fun a later => each a (List.mem_cons_of_mem _ later)).bind ?_
    intro more
    exact only_ok _

theorem Only.ite {condition : Prop} [Decidable condition] {y : Except Fault α} (first : Only family x)
    (second : Only family y) : Only family (if condition then x else y) := by
  by_cases holds : condition
  · rwa [if_pos holds]
  · rwa [if_neg holds]

/-- The faults of a result have no place yet. -/
def Unplaced (x : Except Fault α) : Prop :=
  Only (fun fault => ∃ cause, fault = .ofCause cause) x

theorem unplaced_error (cause : Cause) : Unplaced (.error (.ofCause cause) : Except Fault α) :=
  only_error ⟨cause, rfl⟩

/-- A result that is no misuse. If it is a fault, octets or a value are refused. -/
def Blameless (x : Except Fault α) : Prop :=
  Only (fun fault => ∃ cause offset, fault = .coding cause offset) x

theorem Unplaced.blameless (unplaced : Unplaced x) : Blameless x := by
  intro fault failed
  obtain ⟨cause, rfl⟩ := unplaced fault failed
  exact ⟨cause, none, rfl⟩

theorem blameless_error (cause : Cause) : Blameless (.error (.ofCause cause) : Except Fault α) :=
  (unplaced_error cause).blameless

end Fault

end Der
