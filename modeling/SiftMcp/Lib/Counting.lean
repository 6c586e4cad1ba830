import Mathlib.Algebra.BigOperators.Group.List.Basic
import Mathlib.Algebra.GroupWithZero.Nat

/-!
# Counting by two lists

How often elements of one list meet elements of another, counted along either list. The elements
that are met at all are as many as the meetings exactly when none is met twice.
-/

universe u v

variable {α : Type u} {β : Type v} {meets : α → β → Bool} {as : List α} {bs : List β}

/-- The number of pairs that meet. -/
def meetings (meets : α → β → Bool) (as : List α) (bs : List β) : Nat :=
  (as.map fun a => bs.countP (meets a)).sum

theorem meetings_cons {b : β} : meetings meets as (b :: bs) =
    as.countP (meets · b) + meetings meets as bs := by
  induction as with
  | nil => rfl
  | cons a as ih =>
    simp only [meetings, List.map_cons, List.sum_cons, List.countP_cons] at ih ⊢
    omega

theorem met_le_meetings : bs.countP (fun b => as.any (meets · b)) ≤ meetings meets as bs := by
  induction bs with
  | nil => exact Nat.zero_le _
  | cons b bs ih =>
    rw [meetings_cons, List.countP_cons]
    split
    · rename_i h
      have hpos : 0 < as.countP (meets · b) := List.countP_pos_iff.mpr (List.any_eq_true.mp h)
      omega
    · omega

theorem meetings_eq_met_iff : meetings meets as bs = bs.countP (fun b => as.any (meets · b)) ↔
    ∀ b ∈ bs, as.countP (meets · b) ≤ 1 := by
  induction bs with
  | nil =>
    refine ⟨fun _ => nofun, fun _ => ?_⟩
    simp [meetings]
  | cons b bs ih =>
    have hle : bs.countP (fun b => as.any (meets · b)) ≤ meetings meets as bs := met_le_meetings
    have hany : as.any (meets · b) = true ↔ 0 < as.countP (meets · b) := by
      rw [List.countP_pos_iff, List.any_eq_true]
    rw [List.forall_mem_cons, ← ih, meetings_cons, List.countP_cons]
    by_cases h : as.any (meets · b) = true
    · have hpos := hany.mp h
      rw [if_pos h]
      omega
    · have hzero : as.countP (meets · b) = 0 := Nat.eq_zero_of_not_pos (mt hany.mpr h)
      rw [if_neg h]
      omega

theorem meetings_perm {as' : List α} (h : as.Perm as') :
    meetings meets as bs = meetings meets as' bs :=
  (h.map _).sum_eq

/-- Sums over the parts of a list, by what kind its elements are of, add up to the sum over the
list. -/
theorem sum_map_filter_kinds {κ M : Type} [DecidableEq κ] [AddCommMonoid M] {kind : α → κ}
    {f : α → M} {kinds : List κ} (hnodup : kinds.Nodup) (hkinds : ∀ a ∈ as, kind a ∈ kinds) :
    (kinds.map fun k => ((as.filter fun a => kind a = k).map f).sum).sum = (as.map f).sum := by
  induction kinds generalizing as with
  | nil =>
    cases as with
    | nil => rfl
    | cons a as => cases hkinds a List.mem_cons_self
  | cons k kinds ih =>
    obtain ⟨hk, hnodup⟩ := List.nodup_cons.mp hnodup
    have hrest : (kinds.map fun k' => ((as.filter fun a => kind a = k').map f).sum) =
        kinds.map fun k' =>
          (((as.filter fun a => ¬kind a = k).filter fun a => kind a = k').map f).sum := by
      apply List.map_congr_left
      intro k' hk'
      rw [List.filter_filter]
      congr 2
      apply List.filter_congr
      intro a _
      by_cases h : kind a = k'
      · have hne : kind a ≠ k := fun h' => hk (h' ▸ h ▸ hk')
        simp [h, h ▸ hne]
      · simp [h]
    rw [List.map_cons, List.sum_cons, hrest, ih hnodup, List.sum_map_filter_add_sum_map_filter_not]
    intro a ha
    obtain ⟨ha, hne⟩ := List.mem_filter.mp ha
    exact ((List.mem_cons.mp (hkinds a ha)).resolve_left (of_decide_eq_true hne))
