import SiftMcp.Retrieval.RankFusion

/-!
# Places in a fused ranking

An earlier place counts more than a later one, so one ranking that is fused with nothing stays as it
is, and few rows of the lexical ranking all come among the first, whatever the dense ranking is.

* `fuse_of_dense`, `fuse_of_lexical`: one ranking alone.
* `lexical_mem_take`: the rows of a short lexical ranking.
-/

namespace SiftMcp

section

variable {σ : Type} {S : Scoring σ} {config : FusionConfig}
  {rows lexical dense : List (ScoredRow σ)} {ls ds : List (ScoredRow σ × Nat)} {x y : FusedRow σ}
  {row : RowId} {i n : Nat}

/-- Of the places of a list that are looked at, an earlier one counts more. -/
def Scoring.Descends (S : Scoring σ) (depth : Nat) : Prop :=
  ∀ m n, m < n → n < depth → ¬S.le (S.total [m + 1]) (S.total [n + 1])

theorem Scoring.Descends.mono {depth depth' : Nat} (h : S.Descends depth) (hle : depth' ≤ depth) :
    S.Descends depth' :=
  fun m n hmn hn => h m n hmn (hn.trans_le hle)

/-- The row at a place of a list has the rank of the place. -/
theorem ranks_getElem (hrows : (rows.map (·.row)).Nodup) (hi : i < rows.length) :
    ranks rows.zipIdx rows[i].row = [i + 1] := by
  obtain ⟨n, hn, heq⟩ := ranks_zipIdx hrows (List.mem_map_of_mem (List.getElem_mem hi)) 0
  have hplace : n = i := by
    apply (List.getElem?_inj (List.getElem?_eq_some_iff.mp hn).1 hrows).mp
    rw [hn, List.getElem?_map, List.getElem?_eq_getElem hi, Option.map_some]
  rw [heq, hplace, Nat.zero_add]

theorem ranks_append : ranks (ls ++ ds) row = ranks ls row ++ ranks ds row := by
  rw [ranks, List.filter_append, List.map_append]
  rfl

theorem FusedRow.row_eq_of_before (hS : S.Lawful) (hxy : x.before S y) (hyx : y.before S x) :
    x.row = y.row := by
  rcases before_iff.mp hxy with h | ⟨h, hrow⟩
  · rcases before_iff.mp hyx with h' | ⟨h', -⟩
    · exact absurd (hS.le_of_not_le h) h'
    · exact absurd h' h
  · rcases before_iff.mp hyx with h' | ⟨-, hrow'⟩
    · exact absurd h h'
    · exact Nat.le_antisymm hrow hrow'

/-! ## One ranking alone -/

/-- What a list contributes to a row of it has the score that the row has there. -/
theorem contribution_of_mem {x : ScoredRow σ} (hrows : (rows.map (·.row)).Nodup) (hx : x ∈ rows) :
    (contribution rows.zipIdx x.row).score = some x.score := by
  obtain ⟨hcontributes, -⟩ := @contribution_zipIdx _ _ x.row hrows
  generalize contribution rows.zipIdx x.row = c at hcontributes
  cases hcontributes with
  | place i score hi =>
    have heq := List.inj_on_of_nodup_map hrows (List.mem_of_getElem? hi) hx rfl
    exact congrArg (fun y => some y.score) heq
  | absent hrow => exact absurd (List.mem_map_of_mem hx) hrow

/-- The rows of a list come in the order of its places. -/
theorem pairwise_fusedRow (hdesc : S.Descends rows.length) (hrows : (rows.map (·.row)).Nodup)
    (hone : ls ++ ds = rows.zipIdx) :
    (rows.map fun x => fusedRow S ls ds x.row).Pairwise fun x y => x.before S y := by
  rw [List.pairwise_iff_getElem]
  intro i j hi hj hij
  rw [List.length_map] at hi hj
  rw [List.getElem_map, List.getElem_map]
  apply FusedRow.before_iff.mpr
  left
  show ¬S.le (S.total (ranks ls rows[i].row ++ ranks ds rows[i].row))
    (S.total (ranks ls rows[j].row ++ ranks ds rows[j].row))
  rw [← ranks_append, ← ranks_append, hone, ranks_getElem hrows hi, ranks_getElem hrows hj]
  exact hdesc i j hij hj

/-- What is fused of the places of one list is that list. -/
theorem fuse_of_one (hS : S.Lawful) (hdesc : S.Descends rows.length)
    (hrows : (rows.map (·.row)).Nodup)
    (hone : config.lexicalPlaces lexical ++ config.densePlaces dense = rows.zipIdx) :
    fuse S config lexical dense =
      rows.map fun x => fusedRow S (config.lexicalPlaces lexical) (config.densePlaces dense)
        x.row := by
  have hplaces : rows.zipIdx.map (·.1.row) = rows.map (·.row) := by
    have h := congrArg (List.map (·.row)) (List.zipIdx_map_fst 0 rows)
    rwa [List.map_map] at h
  have hmem : ∀ x, x ∈ fuse S config lexical dense ↔
      x ∈ rows.map fun x => fusedRow S (config.lexicalPlaces lexical) (config.densePlaces dense)
        x.row := by
    intro x
    rw [mem_fuse, hone, hplaces, List.mem_map, List.mem_map]
    constructor
    · rintro ⟨⟨y, hy, hrow⟩, hx⟩
      exact ⟨y, hy, hrow ▸ hx.symm⟩
    · rintro ⟨y, hy, rfl⟩
      exact ⟨⟨y, hy, rfl⟩, rfl⟩
  have hnodup : (rows.map fun x =>
      fusedRow S (config.lexicalPlaces lexical) (config.densePlaces dense) x.row).Nodup := by
    apply List.Nodup.of_map (·.row)
    rwa [List.map_map]
  refine List.Perm.eq_of_pairwise ?_ (pairwise_fuse hS) (pairwise_fusedRow hdesc hrows hone) ?_
  · intro x y hx hy hxy hyx
    rw [(mem_fuse.mp hx).2, (mem_fuse.mp ((hmem y).mpr hy)).2, FusedRow.row_eq_of_before hS hxy hyx]
  · exact (List.perm_ext_iff_of_nodup nodup_fuse.of_map hnodup).mpr hmem

/-- Fusing a dense ranking with nothing leaves it as it is. -/
theorem fuse_of_dense (hS : S.Lawful) (hdesc : S.Descends config.denseDepth)
    (hdense : (dense.map (·.row)).Nodup) (hlexical : lexical.take config.lexicalDepth = []) :
    fuse S config lexical dense =
      (dense.take config.denseDepth).map fun x =>
        fusedRow S [] (config.densePlaces dense) x.row := by
  have hnone : config.lexicalPlaces lexical = [] := by
    rw [FusionConfig.lexicalPlaces, hlexical, List.zipIdx_nil]
  have hone : config.lexicalPlaces lexical ++ config.densePlaces dense =
      (dense.take config.denseDepth).zipIdx := by
    rw [hnone, List.nil_append, FusionConfig.densePlaces]
  rw [← hnone]
  exact fuse_of_one hS (hdesc.mono (List.length_take_le _ _))
    (hdense.sublist ((List.take_sublist _ _).map _)) hone

/-- So does fusing a lexical ranking. -/
theorem fuse_of_lexical (hS : S.Lawful) (hdesc : S.Descends config.lexicalDepth)
    (hlexical : (lexical.map (·.row)).Nodup) (hdense : dense.take config.denseDepth = []) :
    fuse S config lexical dense =
      (lexical.take config.lexicalDepth).map fun x => fusedRow S (config.lexicalPlaces lexical)
      [] x.row := by
  have hnone : config.densePlaces dense = [] := by
    rw [FusionConfig.densePlaces, hdense, List.zipIdx_nil]
  have hone : config.lexicalPlaces lexical ++ config.densePlaces dense =
      (lexical.take config.lexicalDepth).zipIdx := by
    rw [hnone, List.append_nil, FusionConfig.lexicalPlaces]
  rw [← hnone]
  exact fuse_of_one hS (hdesc.mono (List.length_take_le _ _))
    (hlexical.sublist ((List.take_sublist _ _).map _)) hone

/-! ## Few lexical rows -/

/-- What comes before a lexical row is lexical too, or has no later place in the dense ranking. -/
theorem mem_dense_of_before (hS : S.Lawful) (hdesc : S.Descends config.denseDepth)
    (hlexical : ((lexical.take config.lexicalDepth).map (·.row)).Nodup)
    (hdense : (dense.map (·.row)).Nodup) (hi : i < (lexical.take config.lexicalDepth).length)
    (hn : i < n) (hx : x ∈ fuse S config lexical dense)
    (hbefore : x.before S (fusedRow S (config.lexicalPlaces lexical) (config.densePlaces dense)
      (lexical.take config.lexicalDepth)[i].row)) (hunseen : x.Unseen config lexical) :
    x.row ∈ (dense.take n).map (·.row) := by
  obtain ⟨hrow, heq⟩ := mem_fuse.mp hx
  have hnot : x.row ∉ (config.lexicalPlaces lexical).map (·.1.row) := by
    rw [FusionConfig.lexicalPlaces, places_rows]
    exact hunseen
  rw [List.map_append, List.mem_append, FusionConfig.densePlaces, places_rows] at hrow
  obtain ⟨j, hj, hranks⟩ :=
    ranks_zipIdx (hdense.sublist ((List.take_sublist _ _).map _)) (hrow.resolve_left hnot) 0
  have hscore : x.fusedScore = S.total [j + 1] := by
    rw [heq, fusedRow, ranks_nil hnot, FusionConfig.densePlaces, hranks, Nat.zero_add,
      List.nil_append]
  have hleast : S.le (S.total [i + 1]) (S.total [j + 1]) := by
    rw [← hscore]
    refine hS.trans _ _ _ ?_ (FusedRow.le_of_before hS hbefore)
    rw [fusedRow, FusionConfig.lexicalPlaces, ranks_getElem hlexical hi]
    exact hS.le_total_append
  have hjn : j < n := by
    by_contra hge
    have hjd : j < config.denseDepth := by
      have hlt := (List.getElem?_eq_some_iff.mp hj).1
      rw [List.length_map] at hlt
      exact hlt.trans_le (List.length_take_le _ _)
    exact hdesc i j (hn.trans_le (Nat.le_of_not_lt hge)) hjd hleast
  have hplace : (dense.map (·.row))[j]? = some x.row := by
    rw [List.map_take, List.getElem?_take] at hj
    split at hj
    · exact hj
    · cases hj
  apply List.mem_of_getElem?
  rw [List.map_take, List.getElem?_take_of_lt hjn]
  exact hplace

/-- All of at most `n` lexical rows come among the first `2 * n`. -/
theorem lexical_mem_take (hS : S.Lawful) (hdesc : S.Descends config.denseDepth)
    (hlexical : (lexical.map (·.row)).Nodup) (hdense : (dense.map (·.row)).Nodup)
    (hlength : lexical.length ≤ n) (hn : n ≤ config.lexicalDepth)
    (hrow : row ∈ lexical.map (·.row)) :
    row ∈ ((fuse S config lexical dense).take (2 * n)).map (·.row) := by
  have htake : lexical.take config.lexicalDepth = lexical :=
    List.take_of_length_le (hlength.trans hn)
  obtain ⟨l, hl, rfl⟩ := List.mem_map.mp hrow
  obtain ⟨i, hi, rfl⟩ := List.getElem_of_mem hl
  have hmem : fusedRow S (config.lexicalPlaces lexical) (config.densePlaces dense) lexical[i].row ∈
      fuse S config lexical dense := by
    refine mem_fuse.mpr ⟨?_, rfl⟩
    rw [List.map_append, FusionConfig.lexicalPlaces, places_rows, htake]
    exact List.mem_append_left _ hrow
  obtain ⟨p, q, hpq⟩ := List.append_of_mem hmem
  have hsorted := @pairwise_fuse _ S config lexical dense hS
  rw [hpq] at hsorted
  -- What comes before the row is among so many rows of either ranking.
  have hsub : (p.map (·.row)) ++ [lexical[i].row] ⊆ lexical.map (·.row) ++
      (dense.take n).map (·.row) := by
    intro r hr
    rcases List.mem_append.mp hr with hr | hr
    · obtain ⟨x, hx, rfl⟩ := List.mem_map.mp hr
      by_cases hunseen : x.Unseen config lexical
      · refine List.mem_append_right _ (mem_dense_of_before hS hdesc (htake.symm ▸ hlexical) hdense
          (htake.symm ▸ hi) (hi.trans_le hlength) (hpq ▸ List.mem_append_left _ hx) ?_ hunseen)
        simp only [htake]
        exact (List.pairwise_append.mp hsorted).2.2 x hx _ List.mem_cons_self
      · rw [FusedRow.Unseen, htake, not_not] at hunseen
        exact List.mem_append_left _ hunseen
    · rw [List.mem_singleton.mp hr]
      exact List.mem_append_left _ hrow
  have hnodup : ((p.map (·.row)) ++ [lexical[i].row]).Nodup := by
    have h := @nodup_fuse _ S config lexical dense
    rw [hpq, List.map_append, List.map_cons] at h
    exact h.sublist (List.Sublist.append_left (List.cons_sublist_cons.mpr (List.nil_sublist _)) _)
  have hshort : p.length < 2 * n := by
    have hle := (List.subperm_of_subset hnodup hsub).length_le
    simp only [List.length_append, List.length_map, List.length_singleton, List.length_take] at hle
    omega
  obtain ⟨m, hm⟩ := Nat.exists_eq_add_of_lt hshort
  have hplace : fusedRow S (config.lexicalPlaces lexical) (config.densePlaces dense)
      lexical[i].row ∈ (fuse S config lexical dense).take (2 * n) := by
    rw [hpq, List.take_append, hm, Nat.add_assoc, Nat.add_sub_cancel_left, List.take_succ_cons]
    exact List.mem_append_right _ List.mem_cons_self
  exact List.mem_map.mpr ⟨_, hplace, rfl⟩

end

end SiftMcp
