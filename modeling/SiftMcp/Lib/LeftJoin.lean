import Mathlib.Data.List.Basic
import Mathlib.Data.List.Nodup

/-!
# Batched lookups

A batch of keys is looked up at once: each comes back under its place in the batch, with what is
found of it, or alone. What comes back is written to the places, in whatever order it comes. Where
no key is found twice, that is what lookups one by one say.
-/

variable {κ α : Type} {found : κ → List α} {keys : List κ} {rows : List (Nat × Option α)}
  {out : List (Option α)}

/-- Each numbered key with all that is found of it, or alone. -/
def leftJoin (found : κ → List α) (ids : List (Nat × κ)) : List (Nat × Option α) :=
  ids.flatMap fun id =>
    match found id.2 with
    | [] => [(id.1, none)]
    | matched => matched.map fun a => (id.1, some a)

/-- A row is written to its place, if it has found something; `none` is a place that is not
there. -/
def writeRow (out : List (Option α)) (row : Nat × Option α) : Option (List (Option α)) :=
  match row.2 with
  | none => some out
  | some a => if row.1 < out.length then some (out.set row.1 (some a)) else none

/-- All rows, into `n` empty places. -/
def writeRows (n : Nat) (rows : List (Nat × Option α)) : Option (List (Option α)) :=
  rows.foldlM writeRow (List.replicate n none)

theorem leftJoin_eq (hfound : ∀ key, (found key).length ≤ 1) {ids : List (Nat × κ)} :
    leftJoin found ids = ids.map fun id => (id.1, (found id.2).head?) := by
  have hone : ∀ id : Nat × κ, (match found id.2 with
      | [] => [(id.1, none)]
      | matched => matched.map fun a => (id.1, some a)) = [(id.1, (found id.2).head?)] := by
    intro id
    have hlength := hfound id.2
    cases hmatched : found id.2 with
    | nil => rfl
    | cons a rest =>
      rw [hmatched, List.length_cons] at hlength
      obtain rfl := List.length_eq_zero_iff.mp (Nat.le_zero.mp (Nat.le_of_succ_le_succ hlength))
      rfl
  rw [leftJoin, List.map_eq_flatMap]
  exact List.flatMap_congr fun id _ => hone id

/-- A row changes its own place alone. -/
theorem writeRow_eq {row : Nat × Option α} (hrow : row.1 < out.length) :
    ∃ out', writeRow out row = some out' ∧ out'.length = out.length ∧
    (∀ i, row.1 ≠ i → out'[i]? = out[i]?) ∧
    (out[row.1]? = some none → out'[row.1]? = some row.2) := by
  obtain ⟨i, a | a⟩ := row
  · exact ⟨out, rfl, rfl, fun _ _ => rfl, fun h => h⟩
  · refine ⟨out.set i (some a), if_pos hrow, List.length_set, fun j hj => List.getElem?_set_ne hj,
      fun _ => ?_⟩
    rw [List.getElem?_set_self hrow]

/-- No row is written to the place of another. -/
theorem foldlM_writeRow (hrows : ∀ row ∈ rows, row.1 < out.length)
    (hnodup : (rows.map (·.1)).Nodup) :
    ∃ out', rows.foldlM writeRow out = some out' ∧ out'.length = out.length ∧
      (∀ i, (∀ row ∈ rows, row.1 ≠ i) → out'[i]? = out[i]?) ∧
      ∀ row ∈ rows, out[row.1]? = some none → out'[row.1]? = some row.2 := by
  induction rows generalizing out with
  | nil => exact ⟨out, rfl, rfl, fun _ _ => rfl, nofun⟩
  | cons row rows ih =>
    obtain ⟨hrow, hrest⟩ := List.forall_mem_cons.mp hrows
    obtain ⟨hnot, hnodup⟩ := List.nodup_cons.mp hnodup
    have hother : ∀ r ∈ rows, r.1 ≠ row.1 := by
      intro r hr heq
      exact hnot (List.mem_map.mpr ⟨r, hr, heq⟩)
    obtain ⟨mid, hmid, hlength, hkeeps, hwritten⟩ := writeRow_eq hrow
    obtain ⟨out', hout, hlength', hkeeps', hwritten'⟩ :=
      @ih mid (fun r hr => hlength.symm ▸ hrest r hr) hnodup
    refine ⟨out', ?_, hlength'.trans hlength, fun i hi => ?_,
      List.forall_mem_cons.mpr ⟨fun hempty => ?_, ?_⟩⟩
    · rw [List.foldlM_cons, hmid]
      exact hout
    · obtain ⟨hne, hi⟩ := List.forall_mem_cons.mp hi
      exact (hkeeps' i hi).trans (hkeeps i hne)
    · exact (hkeeps' row.1 hother).trans (hwritten hempty)
    · intro r hr hempty
      exact hwritten' r hr ((hkeeps r.1 (hother r hr).symm).trans hempty)

/-- In whatever order the rows come, each place has what is found of its key. -/
theorem writeRows_eq {f : κ → Option α}
    (hrows : rows.Perm (keys.zipIdx.map fun p => (p.2, f p.1))) :
    writeRows keys.length rows = some (keys.map f) := by
  have hmem : ∀ row, row ∈ rows ↔ ∃ key, keys[row.1]? = some key ∧ row.2 = f key := by
    intro row
    rw [hrows.mem_iff, List.mem_map]
    constructor
    · rintro ⟨⟨key, i⟩, hp, rfl⟩
      exact ⟨key, List.mem_zipIdx_iff_getElem?.mp hp, rfl⟩
    · rintro ⟨key, hkey, hrow⟩
      exact ⟨(key, row.1), List.mem_zipIdx_iff_getElem?.mpr hkey, by rw [← hrow]⟩
  have hbound : ∀ row ∈ rows, row.1 < (List.replicate keys.length (none : Option α)).length := by
    intro row hrow
    obtain ⟨key, hkey, -⟩ := (hmem row).mp hrow
    rw [List.length_replicate]
    exact (List.getElem?_eq_some_iff.mp hkey).1
  have hnodup : (rows.map (·.1)).Nodup := by
    refine (hrows.map _).nodup_iff.mpr ?_
    rw [List.map_map]
    exact List.zipIdx_map_snd 0 keys ▸ List.nodup_range'
  obtain ⟨out', hout, hlength, -, hwritten⟩ := foldlM_writeRow hbound hnodup
  rw [writeRows, hout, Option.some.injEq]
  apply List.ext_getElem?
  intro i
  rw [List.getElem?_map]
  cases hkey : keys[i]? with
  | none =>
    rw [Option.map_none, List.getElem?_eq_none_iff, hlength, List.length_replicate]
    exact List.getElem?_eq_none_iff.mp hkey
  | some key =>
    have hrow := (hmem (i, f key)).mpr ⟨key, hkey, rfl⟩
    refine hwritten _ hrow ?_
    rw [List.getElem?_replicate, if_pos (List.getElem?_eq_some_iff.mp hkey).1]
