import Mathlib.Logic.Function.Basic

/-!
# Parties that share something under a lock

Each party is somewhere in its program, and at some places of it holds the lock. What the lock
guards changes only by the hand of the one that holds it. Then no two parties hold it at once, and
what its holder has seen of the shared thing is still so when it comes to act on it, whatever the
others have done meanwhile.

The rule is `LockGuarded.Sound.step`.
-/

universe u v w

variable {ι : Type u} {π : Type v} {ρ : Type w}

/-- A lock, by who holds it, and what it guards. -/
structure LockGuarded (ι : Type u) (ρ : Type w) where
  lock : Option ι
  shared : ρ

/-- What a step of the party `i` from one place to the next may do to them. -/
inductive LockStep (holds : π → Bool) (i : ι) : π → LockGuarded ι ρ → π → LockGuarded ι ρ → Prop
  | acquired {a b r} : holds a = false → holds b = true → LockStep holds i a ⟨none, r⟩ b ⟨some i, r⟩
  | inside {a b l r r'} : holds a = true → holds b = true → LockStep holds i a ⟨l, r⟩ b ⟨l, r'⟩
  | released {a b l r} : holds a = true → holds b = false → LockStep holds i a ⟨l, r⟩ b ⟨none, r⟩
  | outside {a b g} : holds a = false → holds b = false → LockStep holds i a g b g

namespace LockGuarded

/-- Who holds the lock by its place is who the lock is held by. `Sees i a r` is what the party `i`
relies on at `a` of what is shared. -/
structure Sound (holds : π → Bool) (Sees : ι → π → ρ → Prop) (places : ι → Option π)
    (g : LockGuarded ι ρ) : Prop where
  held : ∀ i a, places i = some a → holds a = true → g.lock = some i ∧ Sees i a g.shared
  holder : ∀ i, g.lock = some i → ∃ a, places i = some a ∧ holds a = true

namespace Sound

variable {holds : π → Bool} {Sees : ι → π → ρ → Prop} {places : ι → Option π}
  {g g' : LockGuarded ι ρ} {i j : ι} {a b : π}

/-- No two hold it. -/
theorem unique (h : Sound holds Sees places g) (hi : places i = some a) (ha : holds a = true)
    (hj : places j = some b) (hb : holds b = true) : i = j :=
  Option.some.inj ((h.held i a hi ha).1.symm.trans (h.held j b hj hb).1)

variable [DecidableEq ι]

/-- Another party comes. -/
theorem join (h : Sound holds Sees places g) (hi : places i = none) (hb : holds b = false) :
    Sound holds Sees (Function.update places i (some b)) g := by
  constructor
  · intro j a hj ha
    rw [Function.update_apply] at hj
    split at hj
    · obtain rfl := Option.some.inj hj
      rw [hb] at ha
      cases ha
    · exact h.held j a hj ha
  · intro j hj
    obtain ⟨a, hplace, ha⟩ := h.holder j hj
    have hji : j ≠ i := by
      rintro rfl
      rw [hi] at hplace
      cases hplace
    exact ⟨a, by rwa [Function.update_of_ne hji], ha⟩

/-- A party goes on. It has to see to what it relies on itself; for all others it is still so. -/
theorem step (h : Sound holds Sees places g) (hi : places i = some a)
    (hstep : LockStep holds i a g b g')
    (hsees : (holds a = true → Sees i a g.shared) → holds b = true → Sees i b g'.shared) :
    Sound holds Sees (Function.update places i (some b)) g' := by
  have hself : holds b = true → Sees i b g'.shared := hsees fun ha => (h.held i a hi ha).2
  -- The others hold it as before; when one of them does, this party does not.
  have hothers : ∀ j c, j ≠ i → places j = some c → holds c = true → g' = g := by
    intro j c hji hj hc
    have hlock := (h.held j c hj hc).1
    cases hstep with
    | acquired => cases hlock
    | inside ha | released ha => exact absurd (h.unique hj hc hi ha) hji
    | outside => rfl
  constructor
  · intro j c hj hc
    by_cases hji : j = i
    · subst hji
      rw [Function.update_self] at hj
      obtain rfl := Option.some.inj hj
      refine ⟨?_, hself hc⟩
      cases hstep with
      | acquired => rfl
      | inside ha => exact (h.held j a hi ha).1
      | released _ hb | outside _ hb =>
        rw [hb] at hc
        cases hc
    · rw [Function.update_of_ne hji] at hj
      rw [hothers j c hji hj hc]
      exact h.held j c hj hc
  · intro j hj
    by_cases hji : j = i
    · subst hji
      refine ⟨b, Function.update_self .., ?_⟩
      cases hstep with
      | acquired _ hb | inside _ hb => exact hb
      | released => cases hj
      | outside ha =>
        obtain ⟨c, hc, hholds⟩ := h.holder j hj
        obtain rfl := Option.some.inj (hi.symm.trans hc)
        rw [ha] at hholds
        cases hholds
    · rw [Function.update_of_ne hji]
      cases hstep with
      | acquired => exact absurd (Option.some.inj hj).symm hji
      | inside | outside => exact h.holder j hj
      | released => cases hj

end Sound

end LockGuarded
