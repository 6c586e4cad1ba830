import SiftMcp.Retrieval.Refresh

/-!
# The nearest chunks

What a dense search is for: the live chunks of the contents by the score of their vectors. An index
prepared from a store finds just these (`denseIndex_search`).
-/

namespace SiftMcp
open Least

/-! ## The specification -/

section

variable {σ : Type} [LinearOrder σ] (F : DenseMachine σ)

/-- The live chunks, best first and then by row. -/
def Contents.nearest (a : Contents) (query : List F16) : List (ScoredRow σ) :=
  sortRows (a.table.live.map fun p => ⟨p.1, F.score p.2.2 query⟩)

variable {F} {rows rows' : List (ScoredRow σ)} {a : Contents} {s : ChunkStore} {query : List F16}
  {modelId : String} {k : Nat}

theorem sortRows_perm (h : rows.Perm rows') : sortRows rows = sortRows rows' := by
  rw [sortRows, sortRows, ScoredRow.mergeSort_eq, ScoredRow.mergeSort_eq]
  exact insertionSort_perm h

/-! ## An index of the store -/

omit [LinearOrder σ] in
/-- The live rows of the index, with their scores, are the live chunks. -/
theorem mem_referenceRows_denseIndex (H : Repr s a) (hdims : 0 < s.matrix.dims) {x : ScoredRow σ} :
    x ∈ referenceRows s.denseIndex.live (s.denseIndex.scores F query) ↔
      x ∈ a.table.live.map fun p => (⟨p.1, F.score p.2.2 query⟩ : ScoredRow σ) := by
  have hwhole := whole_denseIndex H.matrix
  -- The score of a live row is that of its vector.
  have hscore : ∀ p ∈ a.table.live, p.1 < s.matrix.rows ∧
      (s.denseIndex.scores F query)[p.1]? = some (F.score p.2.2 query) := by
    intro p hp
    have hrow : p.1 < s.matrix.rows := by
      rw [H.rows]
      exact a.table.inside p hp
    have hvector := (vector_denseIndex H.matrix hrow).symm.trans (vector_of_mem H hp)
    rw [DenseIndex.getElem?_scores hdims hwhole hrow, Except.ok.inj hvector]
    exact ⟨hrow, rfl⟩
  rw [mem_referenceRows, List.mem_map]
  constructor
  · rintro ⟨hlive, hx⟩
    have hrow : x.row < s.matrix.rows := by
      have hlt := (List.getElem?_eq_some_iff.mp hx).1
      rwa [DenseIndex.length_scores hdims hwhole] at hlt
    have hmem := (isLive_denseIndex hrow).mp hlive
    rw [ChunkStore.liveRows, H.pair.db.liveRows] at hmem
    obtain ⟨p, hp, hpx⟩ := List.mem_map.mp hmem
    refine ⟨p, hp, ?_⟩
    have hpscore := (hscore p hp).2
    rw [hpx, hx] at hpscore
    rw [hpx, ← Option.some.inj hpscore]
  · rintro ⟨p, hp, rfl⟩
    obtain ⟨hrow, hp'⟩ := hscore p hp
    refine ⟨(isLive_denseIndex hrow).mpr ?_, hp'⟩
    rw [ChunkStore.liveRows, H.pair.db.liveRows]
    exact List.mem_map_of_mem hp

omit [LinearOrder σ] in
theorem rows_sublist {live : LiveMask} (ps : List (σ × Nat)) :
    List.Sublist ((ps.filterMap (liveRow live)).map (·.row)) (ps.map (·.2)) := by
  induction ps with
  | nil => exact .slnil
  | cons p ps ih =>
    cases h : liveRow live p with
    | none =>
      rw [List.filterMap_cons_none h]
      exact ih.cons _
    | some x =>
      have hrow : x.row = p.2 := by
        rw [liveRow] at h
        split at h
        · rw [← Option.some.inj h]
        · cases h
      rw [List.filterMap_cons_some h, List.map_cons, List.map_cons, hrow]
      exact ih.cons_cons _

omit [LinearOrder σ] in
theorem nodup_rows_referenceRows {live : LiveMask} {scores : List σ} :
    ((referenceRows live scores).map (·.row)).Nodup := by
  refine List.Nodup.sublist (rows_sublist scores.zipIdx) ?_
  rw [List.zipIdx_map_snd]
  exact List.nodup_range'

/-- A search of an index prepared from a store finds the nearest chunks of what the store holds. -/
theorem denseIndex_search (H : Repr s a)
    (h : s.denseIndex.search F query modelId k = .ok rows) : rows = (a.nearest F query).take k := by
  rw [DenseIndex.search] at h
  split at h
  · cases h
  split at h
  · cases h
  split at h
  · next hk =>
    obtain rfl := Except.ok.inj h
    rw [hk, List.take_zero]
  · rw [DenseIndex.searchCpu] at h
    split at h
    · cases h
    · next hdims =>
      obtain ⟨-, -, rfl⟩ := selectScores_eq_iff.mp h
      have hnodup :
          (a.table.live.map fun p => (⟨p.1, F.score p.2.2 query⟩ : ScoredRow σ)).Nodup := by
        refine List.Nodup.of_map (·.row) ?_
        rw [List.map_map]
        exact a.table.nodup_rows
      rw [Contents.nearest,
        sortRows_perm ((List.perm_ext_iff_of_nodup nodup_rows_referenceRows.of_map hnodup).mpr
        fun _ => mem_referenceRows_denseIndex H (Nat.pos_of_ne_zero hdims))]

end

end SiftMcp
