import Mathlib.Data.List.Forall2

/-!
# Steps that may fail

What is known of the steps of a computation that succeeds, and when a computation succeeds along a
list.
-/

universe u v

namespace Except

variable {ε ε' : Type u} {α β : Type v} {x : Except ε α} {a : α} {b : β}

theorem bind_eq_ok {f : α → Except ε β} : x >>= f = .ok b ↔ ∃ a, x = .ok a ∧ f a = .ok b := by
  cases x with
  | error e => exact ⟨nofun, nofun⟩
  | ok a =>
    constructor
    · exact fun h => ⟨a, rfl, h⟩
    · rintro ⟨a', ha, h⟩
      obtain rfl := ok.inj ha
      exact h

theorem mapError_eq_ok {f : ε → ε'} : x.mapError f = .ok a ↔ x = .ok a := by
  cases x with
  | error e => exact ⟨nofun, nofun⟩
  | ok a' => rw [Except.mapError, ok.injEq, ok.injEq]

theorem map_eq_ok {f : α → β} : x.map f = .ok b ↔ ∃ a, x = .ok a ∧ f a = b := by
  cases x with
  | error e => exact ⟨nofun, nofun⟩
  | ok a =>
    rw [Except.map, ok.injEq]
    exact ⟨fun h => ⟨a, rfl, h⟩, fun ⟨a', ha, h⟩ => ok.inj ha ▸ h⟩

theorem isOk_iff : x.isOk = true ↔ ∃ a, x = .ok a := by
  cases x with
  | error e => exact ⟨nofun, nofun⟩
  | ok a => exact ⟨fun _ => ⟨a, rfl⟩, fun _ => rfl⟩

theorem toOption_eq_some : x.toOption = some a ↔ x = .ok a := by
  cases x with
  | error e => exact ⟨nofun, nofun⟩
  | ok a' => rw [Except.toOption, Option.some.injEq, ok.injEq]

/-- The error of a step is put in other terms before the next step. -/
theorem mapError_bind_eq_ok {f : ε → ε'} {g : α → Except ε' β} :
    x.mapError f >>= g = .ok b ↔ ∃ a, x = .ok a ∧ g a = .ok b := by
  simp only [bind_eq_ok, mapError_eq_ok]

/-- What comes behind a check that throws. -/
theorem if_throw_eq_ok {c : Prop} [Decidable c] {e : ε} {f : PUnit → Except ε α} :
    (if c then throw e >>= f else x) = .ok a ↔ ¬ c ∧ x = .ok a := by
  by_cases hc : c
  · rw [if_pos hc]
    exact ⟨nofun, fun h => absurd hc h.1⟩
  · rw [if_neg hc, and_iff_right hc]

/-- A check that fails or has nothing to say. -/
theorem ite_error_eq_ok {c : Prop} [Decidable c] {e : ε} : (if c then error e else ok a) = ok a ↔
    ¬c := by
  by_cases hc : c
  · exact iff_of_false (by rw [if_pos hc]; nofun) (not_not.mpr hc)
  · exact iff_of_true (if_neg hc) hc

theorem mapM_eq_ok {f : α → Except ε β} {l : List α} {l' : List β}
    (h : List.Forall₂ (fun a b => f a = .ok b) l l') : l.mapM f = .ok l' := by
  induction h with
  | nil => rfl
  | cons hab _ ih =>
    rw [List.mapM_cons, hab, ih]
    rfl

theorem mapM_eq_ok_map {f : α → Except ε β} {g : α → β} {l : List α}
    (h : ∀ x ∈ l, f x = .ok (g x)) : l.mapM f = .ok (l.map g) :=
  mapM_eq_ok (List.forall₂_map_right_iff.mpr (List.forall₂_same.mpr h))

end Except
