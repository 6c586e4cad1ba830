import Mathlib.Data.List.Sort
import Mathlib.Order.MinMax

/-!
# The least elements of a list

`least k l` are the `k` least elements of `l`, in order. They do not depend on the order of `l`, nor
on how it is divided, if each part gives its own least elements; and a heap of at most `k` elements
has them, that lets a new element in the place of its greatest.

* `least_append`, `least_flatten`: parts.
* `Heap.foldl_offer_perm`: the heap.
-/

universe u

namespace Least

variable {α : Type u} [LinearOrder α] {k : Nat} {a : α} {l l' s rest : List α}

def least (k : Nat) (l : List α) : List α := (l.insertionSort (· ≤ ·)).take k

theorem insertionSort_perm (h : l.Perm l') : l.insertionSort (· ≤ ·) = l'.insertionSort (· ≤ ·) :=
  (((List.perm_insertionSort _ l).trans h).trans
    (List.perm_insertionSort _ l').symm).eq_of_pairwise' (List.pairwise_insertionSort _ l)
      (List.pairwise_insertionSort _ l')

theorem least_perm (h : l.Perm l') : least k l = least k l' := by
  rw [least, least, insertionSort_perm h]

theorem length_least : (least k l).length = min k l.length := by
  rw [least, List.length_take, List.length_insertionSort]

theorem pairwise_least : (least k l).Pairwise (· ≤ ·) :=
  (List.pairwise_insertionSort _ l).sublist (List.take_sublist k _)

theorem least_eq_self (h : l.Pairwise (· ≤ ·)) : least k l = l.take k := by
  rw [least, h.insertionSort_eq]

/-- All of a list, where it is short. -/
theorem least_of_length_le (h : l.length ≤ k) : least k l = l.insertionSort (· ≤ ·) :=
  List.take_of_length_le (by rwa [List.length_insertionSort])

theorem take_orderedInsert : (l.orderedInsert (· ≤ ·) a).take k =
    ((l.take k).orderedInsert (· ≤ ·) a).take k := by
  induction l generalizing k with
  | nil => rw [List.take_nil]
  | cons b l ih =>
    cases k with
    | zero => rfl
    | succ k =>
      rw [List.take_succ_cons, List.orderedInsert_cons, List.orderedInsert_cons]
      split
      · rw [List.take_succ_cons, List.take_succ_cons]
        cases k with
        | zero => rfl
        | succ k =>
          rw [List.take_succ_cons, List.take_succ_cons, List.take_take,
            Nat.min_eq_left (Nat.le_succ k)]
      · rw [List.take_succ_cons, List.take_succ_cons, ih]

/-- An element can be added to the least ones alone. -/
theorem least_cons : least k (a :: l) = least k (a :: least k l) := by
  have hsorted : (least k l).insertionSort (· ≤ ·) = least k l := pairwise_least.insertionSort_eq
  calc least k (a :: l)
      = ((least k l).orderedInsert (· ≤ ·) a).take k := take_orderedInsert
    _ = ((a :: least k l).insertionSort (· ≤ ·)).take k := by rw [List.insertionSort_cons, hsorted]

theorem least_append : least k (l ++ l') = least k (least k l ++ l') := by
  induction l' with
  | nil =>
    rw [List.append_nil, List.append_nil, least_eq_self pairwise_least, least, List.take_take,
      min_self]
  | cons a l' ih =>
    calc least k (l ++ a :: l')
        = least k (a :: (l ++ l')) := least_perm List.perm_middle
      _ = least k (a :: least k (least k l ++ l')) := by rw [least_cons, ih]
      _ = least k (a :: (least k l ++ l')) := least_cons.symm
      _ = least k (least k l ++ a :: l') := least_perm List.perm_middle.symm

/-- Each part can be cut to its least elements first. -/
theorem least_flatten {ls : List (List α)} :
    least k ls.flatten = least k (ls.map (least k)).flatten := by
  induction ls with
  | nil => rfl
  | cons l ls ih =>
    rw [List.flatten_cons, List.map_cons, List.flatten_cons, least_append,
      least_perm List.perm_append_comm, least_append, ih, ← least_append,
        least_perm List.perm_append_comm]

/-! ## A heap with a bound -/

/-- A heap gives its elements in no order. -/
abbrev Heap (α : Type u) := List α

namespace Heap

/-- A greatest element. -/
def peek (h : Heap α) : Option α := h.max?

/-- The rest without a greatest element. -/
def pop (h : Heap α) : Heap α :=
  match h.peek with
  | some worst => h.erase worst
  | none => []

def push (h : Heap α) (a : α) : Heap α := a :: h

end Heap

/-- Put an element into a heap of at most `k`, if need be for the greatest. -/
def offer (k : Nat) (h : Heap α) (a : α) : Heap α :=
  if h.length < k then h.push a
  else if h.peek.any (a < ·) then h.pop.push a
  else h

/-- The least of the elements, when there is a greatest one too many. -/
theorem least_of_greatest (hl : l.length = k) (h : ∀ b ∈ l, b ≤ a) : (least k (a :: l)).Perm l := by
  have hsorted : (l.insertionSort (· ≤ ·) ++ [a]).Pairwise (· ≤ ·) := by
    refine List.pairwise_append.mpr
      ⟨List.pairwise_insertionSort _ l, List.pairwise_singleton _ _, ?_⟩
    intro b hb c hc
    rw [List.mem_singleton.mp hc]
    exact h b ((List.mem_insertionSort _).mp hb)
  have hperm : (a :: l).Perm (l.insertionSort (· ≤ ·) ++ [a]) :=
    (List.perm_append_singleton a l).symm.trans
    ((List.perm_insertionSort _ l).symm.append_right [a])
  rw [least_perm hperm, least_eq_self hsorted, ← hl,
    List.take_left' (List.length_insertionSort _ l)]
  exact List.perm_insertionSort _ l

theorem offer_perm {h : Heap α} (hlen : h.length ≤ k) : (offer k h a).Perm (least k (a :: h)) := by
  unfold offer
  split
  · next hlt =>
    rw [least_of_length_le (by exact hlt)]
    exact (List.perm_insertionSort _ _).symm
  · next hge =>
    have hlen : h.length = k := Nat.le_antisymm hlen (Nat.le_of_not_lt hge)
    unfold Heap.pop Heap.peek
    cases hmax : h.max? with
    | none =>
      obtain rfl := List.max?_eq_none_iff.mp hmax
      obtain rfl : 0 = k := hlen
      exact .nil
    | some worst =>
      obtain ⟨hmem, hall⟩ := List.max?_eq_some_iff.mp hmax
      have hbound : ∀ b ∈ h, b ≤ worst := hall
      rw [Option.any_some]
      split
      · next hlt =>
        -- The greatest of all is the one that is popped.
        have hswap : (a :: h).Perm (worst :: a :: h.erase worst) :=
          ((List.perm_cons_erase hmem).cons a).trans (List.Perm.swap worst a _)
        rw [least_perm hswap]
        refine (least_of_greatest ?_ fun b hb => ?_).symm
        · show (h.erase worst).length + 1 = k
          rw [List.length_erase_of_mem hmem, hlen]
          exact Nat.succ_pred_eq_of_pos (hlen ▸ List.length_pos_of_mem hmem)
        · rcases List.mem_cons.mp hb with rfl | hb
          · exact le_of_lt (of_decide_eq_true hlt)
          · exact hbound b (List.mem_of_mem_erase hb)
      · next hnot =>
        have hle : worst ≤ a := not_lt.mp fun h => hnot (decide_eq_true h)
        exact (least_of_greatest hlen fun b hb => (hbound b hb).trans hle).symm

/-- The heap has the least of the elements that it was offered. -/
theorem foldl_offer_perm {h : Heap α} (hperm : h.Perm (least k s)) :
    (l.foldl (offer k) h).Perm (least k (s ++ l)) := by
  induction l generalizing h s with
  | nil => rwa [List.append_nil]
  | cons a l ih =>
    have hlen : h.length ≤ k := by
      rw [hperm.length_eq, length_least]
      exact Nat.min_le_left _ _
    have hnext : (offer k h a).Perm (least k (a :: s)) := by
      rw [least_cons, ← least_perm (hperm.cons a)]
      exact offer_perm hlen
    exact (ih hnext).trans (.of_eq (least_perm List.perm_middle.symm))

end Least
