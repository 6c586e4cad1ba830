import SiftMcp.Lib.OptionList

/-!
# Rows one after the other

A list that is cut into rows of one length: where a row stands in it, and where an element of a row.
-/

universe u v

namespace RowMajor

variable {α : Type u} {β : Type v} {rows : List (List α)} {row l : List α} {n i j base : Nat}

/-- The `n` elements from `base` on, if all of them are there. -/
def slice (l : List α) (base n : Nat) : Option (List α) :=
  if base + n ≤ l.length then some ((l.drop base).take n) else none

theorem slice_append (h : base = l.length) (hrow : row.length = n) {rest : List α} :
    slice (l ++ (row ++ rest)) base n = some row := by
  rw [slice, if_pos, h, List.drop_left, ← hrow, List.take_left]
  rw [List.length_append, List.length_append]
  omega

theorem length_of_slice (h : slice l base n = some row) : row.length = n := by
  rw [slice] at h
  split at h
  · obtain rfl := Option.some_inj.mp h
    rw [List.length_take, List.length_drop]
    omega
  · cases h

theorem slice_map {f : α → β} (h : slice l base n = some row) :
    slice (l.map f) base n = some (row.map f) := by
  rw [slice] at h ⊢
  split at h
  · rename_i hle
    obtain rfl := Option.some_inj.mp h
    rw [List.length_map, if_pos hle, ← List.map_drop, ← List.map_take]
  · cases h

theorem slice_one {a : α} (h : l[i]? = some a) : slice l (i * 1) 1 = some [a] := by
  obtain ⟨hi, rfl⟩ := List.getElem?_eq_some_iff.mp h
  rw [Nat.mul_one, slice, if_pos (Nat.succ_le_of_lt hi), List.drop_eq_getElem_cons hi,
    List.take_succ_cons, List.take_zero]

theorem length_flatten (hrows : ∀ row ∈ rows, row.length = n) :
    rows.flatten.length = rows.length * n := by
  have hlengths : rows.map List.length = List.replicate rows.length n :=
    List.eq_replicate_iff.mpr ⟨List.length_map _, List.forall_mem_map.mpr hrows⟩
  rw [List.length_flatten, hlengths, List.sum_replicate_nat]

/-- A row stands behind those before it. -/
theorem flatten_split (hrows : ∀ row ∈ rows, row.length = n) (h : rows[i]? = some row) :
    ∃ before after : List α, before.length = i * n ∧ rows.flatten = before ++ (row ++ after) := by
  obtain ⟨hi, rfl⟩ := List.getElem?_eq_some_iff.mp h
  refine ⟨(rows.take i).flatten, (rows.drop (i + 1)).flatten, ?_, ?_⟩
  · rw [length_flatten fun row hrow => hrows row (List.mem_of_mem_take hrow), List.length_take,
      Nat.min_eq_left (Nat.le_of_lt hi)]
  · rw [← List.flatten_cons, ← List.flatten_append, ← List.drop_eq_getElem_cons hi,
      List.take_append_drop]

theorem slice_flatten (hrows : ∀ row ∈ rows, row.length = n) (h : rows[i]? = some row) :
    slice rows.flatten (i * n) n = some row := by
  obtain ⟨before, after, hlength, heq⟩ := flatten_split hrows h
  rw [heq]
  exact slice_append hlength.symm (hrows row (List.mem_of_getElem? h))

theorem getElem?_flatten (hrows : ∀ row ∈ rows, row.length = n) (h : rows[i]? = some row)
    (hj : j < n) : rows.flatten[i * n + j]? = row[j]? := by
  obtain ⟨before, after, hlength, heq⟩ := flatten_split hrows h
  have hrow : j < row.length := by rwa [hrows row (List.mem_of_getElem? h)]
  rw [heq, ← hlength, List.getElem?_append_right (Nat.le_add_right _ _), Nat.add_sub_cancel_left,
    List.getElem?_append_left hrow]

/-- The rows of a list can be read back. -/
theorem mapM_slice_flatten (hrows : ∀ row ∈ rows, row.length = n) {m : Nat} (hm : m = rows.length) :
    ((List.range m).mapM fun i => slice rows.flatten (i * n) n) = some rows := by
  rw [OptionList.mapM_range_eq_some_iff]
  exact ⟨hm.symm, fun i row h => slice_flatten hrows h⟩

end RowMajor
