import SiftMcp.Retrieval.DenseSearch
import SiftMcp.Storage.StoreRuns
import Mathlib.Data.List.Lex

/-!
# Refreshing the dense index

`DenseIndex::refresh` keeps the rows that an index has, takes up those behind them, and takes a new
mask. It refuses a matrix that has become shorter. What a search finds is what an index prepared
afresh finds, as long as no live row has got another vector than the index has for it.

`refresh_searches` follows an index along the runs of its store.
-/

namespace SiftMcp
open ChunkStore Least

/-! ## Indexes with the same live rows -/

/-- The vector that the index has for a row. -/
def DenseIndex.vector (d : DenseIndex) (row : RowId) : List F16 :=
  (d.matrix.drop (row * d.dims)).take d.dims

/-- The matrix has just the rows of the index. -/
def DenseIndex.Whole (d : DenseIndex) : Prop := d.matrix.length = d.rows * d.dims

/-- Two indexes that differ at most in the vectors of dead rows. -/
structure DenseIndex.SameLive (d d' : DenseIndex) : Prop where
  whole : d.Whole
  whole' : d'.Whole
  rows : d.rows = d'.rows
  dims : d.dims = d'.dims
  modelId : d.modelId = d'.modelId
  live : d.live = d'.live
  vector : ∀ row < d.rows, d.live.isLive row = true → d.vector row = d'.vector row

/-- Searches find the same rows with the same scores, or fail alike. -/
def DenseIndex.SearchesAlike (d d' : DenseIndex) : Prop :=
  ∀ {σ : Type} [LinearOrder σ] (F : DenseMachine σ) (query : List F16) (modelId : String)
    (limit : Nat), d.search F query modelId limit = d'.search F query modelId limit

section
variable {σ : Type} {F : DenseMachine σ} {live : LiveMask} {limit : Nat} {scores scores' : List σ}
  {d d' : DenseIndex} {query : List F16} {row : RowId}

theorem DenseIndex.length_scores (hdims : 0 < d.dims) (hwhole : d.Whole) :
    (d.scores F query).length = d.rows := by
  rw [DenseIndex.scores, List.length_map, chunksExact, List.length_map, List.length_range, hwhole,
    Nat.mul_div_cancel _ hdims]

/-- The score of a row. -/
def DenseMachine.score (F : DenseMachine σ) (vector query : List F16) : σ :=
  F.sum ((vector.zip query).map fun p => F.mul (F.toF32 p.1) (F.toF32 p.2))

theorem DenseIndex.getElem?_scores (hdims : 0 < d.dims) (hwhole : d.Whole) (hrow : row < d.rows) :
    (d.scores F query)[row]? = some (F.score (d.vector row) query) := by
  rw [DenseIndex.scores, List.getElem?_map, chunksExact, List.getElem?_map, hwhole,
    Nat.mul_div_cancel _ hdims, List.getElem?_range hrow]
  rfl

variable [LinearOrder σ]

/-- The scores of dead rows do not count. -/
theorem foldlM_selectScore_congr {k : Nat} {top : Heap (Candidate σ)}
    (hlength : scores.length = scores'.length)
    (h : ∀ i < scores.length, live.isLive (k + i) = true → scores[i]? = scores'[i]?) :
    (scores.zipIdx k).foldlM (selectScore F live limit) top =
      (scores'.zipIdx k).foldlM (selectScore F live limit) top := by
  induction scores generalizing scores' k top with
  | nil => rw [List.length_eq_zero_iff.mp hlength.symm]
  | cons s scores ih =>
    cases scores' with
    | nil => cases hlength
    | cons s' scores' =>
      have hstep : selectScore F live limit top (s, k) = selectScore F live limit top (s', k) := by
        cases hlive : live.isLive k with
        | false => rw [selectScore, selectScore, if_pos hlive, if_pos hlive]
        | true => rw [Option.some_inj.mp (h 0 (Nat.succ_pos _) hlive)]
      rw [List.zipIdx_cons, List.zipIdx_cons, List.foldlM_cons, List.foldlM_cons, hstep]
      congr 1
      funext next
      refine ih (Nat.succ.inj hlength) fun i hi hlive => ?_
      rw [Nat.add_assoc, Nat.add_comm 1] at hlive
      exact h (i + 1) (Nat.succ_lt_succ hi) hlive

theorem selectScores_congr (hlength : scores.length = scores'.length)
    (h : ∀ i < scores.length, live.isLive i = true → scores[i]? = scores'[i]?) :
    selectScores F live scores limit = selectScores F live scores' limit := by
  rw [selectScores, selectScores]
  congr 1
  funext top
  rw [foldlM_selectScore_congr hlength fun i hi => by rw [Nat.zero_add]; exact h i hi]

theorem DenseIndex.SameLive.searchesAlike (H : d.SameLive d') : d.SearchesAlike d' := by
  intro σ _ F query modelId limit
  rw [search, search, H.dims, H.modelId, searchCpu, searchCpu, H.dims, H.live]
  rcases Nat.eq_zero_or_pos d'.dims with hzero | hpos
  · rw [if_pos hzero, if_pos hzero]
  have hpos' : 0 < d.dims := H.dims ▸ hpos
  have hscores : selectScores F d'.live (d.scores F query) limit =
      selectScores F d'.live (d'.scores F query) limit := by
    refine selectScores_congr ?_ fun i hi hlive => ?_
    · rw [length_scores hpos' H.whole, length_scores hpos H.whole', H.rows]
    · rw [length_scores hpos' H.whole] at hi
      rw [getElem?_scores hpos' H.whole hi, getElem?_scores hpos H.whole' (H.rows ▸ hi),
        H.vector i hi (H.live ▸ hlive)]
  rw [hscores]

end

/-! ## A search that tells vectors apart -/

/-- The score of a row is its vector. -/
def listScores : DenseMachine (List Nat) where
  toF32 x := [x.toNat]
  zero := []
  add := (· ++ ·)
  mul a _ := a
  isFinite _ := true
  allocates _ := true

theorem listScores_hasRoom {k : Nat} (h : k + 1 < 2 ^ 59) : listScores.HasRoom k := by
  refine ⟨?_, rfl⟩
  unfold candidateSize isizeMax
  omega

theorem listScores_score {vector query : List F16} (h : vector.length = query.length) :
    listScores.score vector query = vector.map UInt16.toNat := by
  have hsum : ∀ (vector query : List F16) (acc : List Nat), vector.length = query.length →
      ((vector.zip query).map fun p =>
        listScores.mul (listScores.toF32 p.1) (listScores.toF32 p.2)).foldl
        listScores.add acc = acc ++ vector.map UInt16.toNat := by
    intro vector
    induction vector with
    | nil => exact fun query acc _ => (List.append_nil acc).symm
    | cons x vector ih =>
      intro query acc hlength
      cases query with
      | nil => cases hlength
      | cons y query =>
        refine (ih query (acc ++ [x.toNat]) (Nat.succ.inj hlength)).trans ?_
        rw [List.append_assoc, List.singleton_append, List.map_cons]
  exact (hsum vector query [] h).trans (List.nil_append _)

section
variable {σ : Type} {live : LiveMask} {scores : List σ} {d d' : DenseIndex} {r : ScoredRow σ}

theorem mem_referenceRows :
    r ∈ referenceRows live scores ↔ live.isLive r.row = true ∧ scores[r.row]? = some r.score := by
  rw [referenceRows, List.mem_filterMap]
  constructor
  · rintro ⟨⟨score, row⟩, hmem, hrow⟩
    rw [liveRow] at hrow
    split at hrow
    · obtain rfl := Option.some_inj.mp hrow
      exact ⟨‹_›, List.mem_zipIdx_iff_getElem?.mp hmem⟩
    · cases hrow
  · rintro ⟨hlive, hscore⟩
    exact ⟨(r.score, r.row), List.mem_zipIdx_iff_getElem?.mpr hscore, if_pos hlive⟩

theorem length_referenceRows_le : (referenceRows live scores).length ≤ scores.length :=
  (List.length_filterMap_le _ _).trans (Nat.le_of_eq List.length_zipIdx)

/-- A search for as many rows as there are finds all that are live. -/
theorem DenseIndex.search_all (hwhole : d.Whole) (hdims : 0 < d.dims) (hrows : 0 < d.rows)
    (hsize : d.rows + 1 < 2 ^ 59) : d.search listScores (List.replicate d.dims 0) d.modelId d.rows =
      .ok (sortRows (referenceRows d.live (d.scores listScores (List.replicate d.dims 0)))) := by
  rw [search, if_neg (not_not.mpr List.length_replicate), if_neg (not_not.mpr rfl),
    if_neg hrows.ne', searchCpu, if_neg hdims.ne', selectScores_eq_iff]
  refine ⟨listScores_hasRoom hsize, fun _ _ => rfl, List.take_of_length_le ?_⟩
  rw [ranks_sortRows.perm.length_eq]
  exact length_referenceRows_le.trans (length_scores hdims hwhole).le

theorem DenseIndex.length_vector {row : RowId} (hwhole : d.Whole) (hrow : row < d.rows) :
    (d.vector row).length = d.dims := by
  have hend := MatrixFile.row_end_le (d := d.dims) hrow
  rw [vector, List.length_take, List.length_drop, hwhole]
  omega

/-- Indexes whose searches find the same have the same vectors of live rows. -/
theorem DenseIndex.vector_eq_of_searchesAlike (hwhole : d.Whole) (hwhole' : d'.Whole)
    (hrows : d.rows = d'.rows) (hdims : d.dims = d'.dims) (hmodel : d.modelId = d'.modelId)
    (hlive : d.live = d'.live) (hsize : d.rows + 1 < 2 ^ 59) (h : d.SearchesAlike d') {row : RowId}
    (hrow : row < d.rows) (hisLive : d.live.isLive row = true) : d.vector row = d'.vector row := by
  have hlength := d.length_vector hwhole hrow
  have hlength' := d'.length_vector hwhole' (hrows ▸ hrow)
  rcases Nat.eq_zero_or_pos d.dims with hzero | hpos
  · rw [List.length_eq_zero_iff.mp (hlength.trans hzero),
      List.length_eq_zero_iff.mp (hlength'.trans (hdims ▸ hzero))]
  have hpos' : 0 < d'.dims := hdims ▸ hpos
  have hsearch := h listScores (List.replicate d.dims 0) d.modelId d.rows
  rw [d.search_all hwhole hpos (Nat.zero_lt_of_lt hrow) hsize, hdims, hmodel, hrows,
    d'.search_all hwhole' hpos' (Nat.zero_lt_of_lt (hrows ▸ hrow)) (hrows ▸ hsize),
      hlive] at hsearch
  have hperm := ranks_sortRows.perm.symm.trans ((Except.ok.inj hsearch) ▸ ranks_sortRows.perm)
  have hmem :
      (⟨row, listScores.score (d.vector row) (List.replicate d'.dims 0)⟩ : ScoredRow (List Nat)) ∈
      referenceRows d'.live (d'.scores listScores (List.replicate d'.dims 0)) := by
    rw [hperm.mem_iff, mem_referenceRows]
    exact ⟨hlive ▸ hisLive, getElem?_scores hpos hwhole hrow⟩
  have hscore := (mem_referenceRows.mp hmem).2
  rw [getElem?_scores hpos' hwhole' (hrows ▸ hrow)] at hscore
  have hscores := Option.some_inj.mp hscore
  rw [listScores_score (hlength'.trans List.length_replicate.symm),
    listScores_score ((hlength.trans hdims).trans List.length_replicate.symm)] at hscores
  exact (List.map_injective_iff.mpr (fun _ _ => UInt16.toNat_inj.mp) hscores).symm

end

/-! ## An index along a run of the store -/

/-- What an operation of the store must keep for the rows of the index to be the same rows: that no
compaction finds a dead row among them. -/
def StoreOp.KeepsRows (d : DenseIndex) (s : ChunkStore) : StoreOp → Prop
  | compact _ _ _ => ∀ row < d.rows, row ∈ s.liveRows
  | _ => True

/-- An index that is prepared from a store, and refreshed at times, while operations that meet the
condition change the store. -/
inductive Watched (P : DenseIndex → ChunkStore → StoreOp → Prop) : ChunkStore → DenseIndex → Prop
  | prepared {s d} : Reached s → DenseIndex.fromStore none s = .ok d → Watched P s d
  | op {s d} (op : StoreOp) : Watched P s d → op.Fresh s → op.Undone s → P d s op →
    Watched P (op.run s).state d
  | reopen {s t d} : Watched P s d → ChunkStore.open s.onDisk = .ok t → Watched P t d
  | refreshed {s d d' live} : Watched P s d → LiveMask.fromStore none s = .ok live →
    d.refresh s.matrix live = .ok d' → Watched P s d'

/-- The index has the vectors of the store for those of its rows that are live. -/
def DenseIndex.Current (d : DenseIndex) (s : ChunkStore) : Prop :=
  ∀ row < d.rows, row ∈ s.liveRows → s.matrix.row row = .ok (d.vector row)

/-- What an index prepared from the store is. -/
def ChunkStore.denseIndex (s : ChunkStore) : DenseIndex where
  matrix := s.matrix.file.cells.take (s.matrix.rows * s.matrix.dims)
  rows := s.matrix.rows
  dims := s.matrix.dims
  modelId := s.matrix.modelId
  live := (List.range s.matrix.rows).map (· ∈ s.liveRows)

section
variable {P : DenseIndex → ChunkStore → StoreOp → Prop} {s : ChunkStore} {a : Contents}
  {d d' : DenseIndex} {live : LiveMask} {row : RowId}

theorem asSlice_eq (H : s.matrix.WF) :
    s.matrix.asSlice = .ok (s.matrix.file.cells.take (s.matrix.rows * s.matrix.dims)) := by
  have hlength : s.matrix.rows * s.matrix.dims ≤ s.matrix.file.cells.length := by
    rw [H.ready.rows, H.ready.dims]
    exact H.file.rows
  rw [EmbeddingMatrix.asSlice]
  split
  · rename_i hzero
    rw [hzero, List.take_zero]
  · rw [if_neg]
    rw [H.map]
    exact Nat.not_lt.mpr hlength

theorem length_asSlice (H : s.matrix.WF) :
    (s.matrix.file.cells.take (s.matrix.rows * s.matrix.dims)).length =
      s.matrix.rows * s.matrix.dims := by
  rw [List.length_take, H.ready.rows, H.ready.dims]
  exact Nat.min_eq_left H.file.rows

theorem fromStore_eq (H : s.matrix.WF) : DenseIndex.fromStore none s = .ok s.denseIndex := by
  rw [DenseIndex.fromStore, LiveMask.fromStore]
  show DenseIndex.prepare _ _ = _
  rw [DenseIndex.prepare, asSlice_eq H]
  show DenseIndex.prepareSlice _ _ _ _ _ = _
  rw [DenseIndex.prepareSlice, if_neg, if_neg]
  · rfl
  · rw [length_asSlice H]
    exact not_not.mpr rfl
  · rw [List.length_map, List.length_range]
    exact not_not.mpr rfl

theorem fromStore_live : LiveMask.fromStore none s = .ok s.denseIndex.live := rfl

theorem isLive_denseIndex (hrow : row < s.matrix.rows) :
    s.denseIndex.live.isLive row = true ↔ row ∈ s.liveRows := by
  rw [LiveMask.isLive, ChunkStore.denseIndex, List.getElem?_map, List.getElem?_range hrow]
  exact decide_eq_true_iff

theorem vector_denseIndex (H : s.matrix.WF) (hrow : row < s.matrix.rows) :
    s.matrix.row row = .ok (s.denseIndex.vector row) := by
  have hend := MatrixFile.row_end_le (d := s.matrix.dims) hrow
  rw [H.row hrow, MatrixFile.vector, ← H.ready.dims]
  show _ = Except.ok
    (((s.matrix.file.cells.take (s.matrix.rows * s.matrix.dims)).drop (row * s.matrix.dims)).take
    s.matrix.dims)
  rw [List.drop_take, List.take_take, Nat.min_eq_left (by omega)]

/-- What a refresh that is accepted leaves. -/
theorem refresh_eq_ok (H : s.matrix.WF) (hlive : LiveMask.fromStore none s = .ok live)
    (h : d.refresh s.matrix live = .ok d') :
    d.dims = s.matrix.dims ∧ d.modelId = s.matrix.modelId ∧ d.rows ≤ s.matrix.rows ∧
      d' = { s.denseIndex with matrix := d.matrix ++
        s.denseIndex.matrix.drop (d.rows * d.dims) } := by
  obtain rfl := Except.ok.inj hlive
  rw [DenseIndex.refresh] at h
  split at h
  · cases h
  split at h
  · cases h
  split at h
  · cases h
  split at h
  · cases h
  rename_i hdims hmodel _ hrows
  rw [not_not] at hdims hmodel
  rw [asSlice_eq H] at h
  simp only [bind, Except.bind] at h
  split at h
  · cases h
  · refine ⟨hdims.symm, hmodel.symm, Nat.not_lt.mp hrows, ?_⟩
    rw [← Except.ok.inj h, ChunkStore.denseIndex, ← hdims, ← hmodel]

theorem whole_denseIndex (H : s.matrix.WF) : s.denseIndex.Whole := length_asSlice H

/-- What a refresh makes of an index that is accepted. -/
def DenseIndex.grown (d : DenseIndex) (s : ChunkStore) : DenseIndex :=
  { s.denseIndex with matrix := d.matrix ++ s.denseIndex.matrix.drop (d.rows * d.dims) }

theorem whole_grown (H : s.matrix.WF) (hwhole : d.Whole) (hdims : d.dims = s.matrix.dims)
    (hrows : d.rows ≤ s.matrix.rows) : (d.grown s).Whole := by
  have hle := Nat.mul_le_mul_right s.matrix.dims hrows
  have hlength : s.denseIndex.matrix.length = s.matrix.rows * s.matrix.dims := whole_denseIndex H
  rw [DenseIndex.Whole, DenseIndex.grown, List.length_append, List.length_drop, hwhole,
    hlength, hdims]
  exact Nat.add_sub_cancel' hle

theorem vector_grown_old (hwhole : d.Whole) (hdims : d.dims = s.matrix.dims) (hrow : row < d.rows) :
    (d.grown s).vector row = d.vector row := by
  have hend := MatrixFile.row_end_le (d := d.dims) hrow
  show ((d.matrix ++ _).drop (row * s.matrix.dims)).take s.matrix.dims = _
  rw [← hdims, List.drop_append_of_le_length, List.take_append_of_le_length]
  · rfl
  · rw [List.length_drop, hwhole]
    omega
  · rw [hwhole]
    omega

theorem vector_grown_new (hwhole : d.Whole) (hdims : d.dims = s.matrix.dims) (hrow : d.rows ≤ row) :
    (d.grown s).vector row = s.denseIndex.vector row := by
  have hle := Nat.mul_le_mul_right d.dims hrow
  show ((d.matrix ++ _).drop (row * s.matrix.dims)).take s.matrix.dims =
    (s.denseIndex.matrix.drop (row * s.matrix.dims)).take s.matrix.dims
  rw [← hdims, ← hwhole, List.drop_append, List.drop_eq_nil_of_le (hwhole ▸ hle), List.nil_append,
    List.drop_drop, Nat.add_sub_cancel' (hwhole ▸ hle)]

/-- An index that is current agrees with the store after it is refreshed. -/
theorem DenseIndex.Current.sameLive (hcurrent : d.Current s) (H : s.matrix.WF) (hwhole : d.Whole)
    (hdims : d.dims = s.matrix.dims) (hrows : d.rows ≤ s.matrix.rows) :
    (d.grown s).SameLive s.denseIndex where
  whole := whole_grown H hwhole hdims hrows
  whole' := whole_denseIndex H
  rows := rfl
  dims := rfl
  modelId := rfl
  live := rfl
  vector row hrow hlive := by
    rcases Nat.lt_or_ge row d.rows with hlt | hge
    · have hvector := hcurrent row hlt ((isLive_denseIndex hrow).mp hlive)
      rw [vector_denseIndex H hrow] at hvector
      rw [vector_grown_old hwhole hdims hlt, Except.ok.inj hvector]
    · exact vector_grown_new hwhole hdims hge

/-- The rows of the index are rows of the contents still, with the same vectors if they are live. -/
structure DenseIndex.Holds (d : DenseIndex) (a : Contents) : Prop where
  rows : d.rows ≤ a.table.size
  vector : ∀ p ∈ a.table.live, p.1 < d.rows → d.vector p.1 = p.2.2

theorem vector_of_mem (H : Repr s a) {p : RowId × Entry} (hp : p ∈ a.table.live) :
    s.matrix.row p.1 = .ok p.2.2 := by
  rw [H.matrix.row (by rw [H.rows]; exact a.table.inside p hp), H.pair.vectors p hp]

theorem DenseIndex.Holds.current (h : d.Holds a) (H : Repr s a) : d.Current s := by
  intro row hrow hlive
  rw [ChunkStore.liveRows, H.pair.db.liveRows] at hlive
  obtain ⟨p, hp, rfl⟩ := List.mem_map.mp hlive
  rw [vector_of_mem H hp, h.vector p hp hrow]

theorem DenseIndex.Current.holds (h : d.Current s) (H : Repr s a) (hrows : d.rows ≤ s.matrix.rows) :
    d.Holds a where
  rows := H.rows ▸ hrows
  vector p hp hrow := by
    have hlive : p.1 ∈ s.liveRows := by
      rw [ChunkStore.liveRows, H.pair.db.liveRows]
      exact List.mem_map_of_mem hp
    exact (Except.ok.inj ((vector_of_mem H hp).symm.trans (h p.1 hrow hlive))).symm

/-- Compacting moves and drops no row of the index, if all of them are live. -/
theorem DenseIndex.Holds.compact (h : d.Holds a) (hlive : ∀ row < d.rows, row ∈ a.table.rows) :
    d.Holds a.compact where
  rows := by
    rcases Nat.eq_zero_or_pos d.rows with hzero | hpos
    · rw [hzero]
      exact Nat.zero_le _
    · have hlast := RowTable.rows_getElem?_of_live hlive (Nat.pred_lt hpos.ne')
      obtain ⟨hlt, -⟩ := List.getElem?_eq_some_iff.mp hlast
      rw [RowTable.rows, List.length_map] at hlt
      exact Nat.le_of_pred_lt hlt
  vector p hp hrow := by
    obtain ⟨r, hmap, hmem⟩ :=
      RowTable.mem_compact.mp (show (p.1, p.2) ∈ a.table.compact.live from hp)
    have hself := RowTable.rows_getElem?_of_live hlive hrow
    obtain rfl := Option.some_inj.mp ((List.mem_zipIdx_iff_getElem?.mp hmap).symm.trans hself)
    exact h.vector _ hmem hrow

theorem DenseIndex.Holds.after (h : d.Holds a) (H : Repr s a) (op : StoreOp)
    (hkeeps : op.KeepsRows d s) : d.Holds (op.after a) := by
  cases op with
  | insertBatch fails chunks =>
    refine ⟨h.rows.trans ?_, fun p hp hrow => ?_⟩
    · rw [StoreOp.after, Contents.insertBatch, RowTable.insertAll_size]
      exact Nat.le_add_right _ _
    · rcases RowTable.mem_insertAll hp with hp | ⟨-, -, hsize⟩
      · exact h.vector p hp hrow
      · exact absurd (hrow.trans_le h.rows) (Nat.not_lt.mpr hsize)
  | tombstone fails rows => exact ⟨h.rows, fun p hp => h.vector p (RowTable.mem_retire.mp hp).1⟩
  | rekeyFile fails oldFile newFile =>
    refine ⟨h.rows, fun p hp hrow => ?_⟩
    obtain ⟨q, hq, rfl⟩ := List.mem_map.mp hp
    rw [h.vector q hq hrow, Contents.rekeyEntry]
    split <;> rfl
  | setIndexedCommit fails commit => exact ⟨h.rows, h.vector⟩
  | compact fails pid nanos =>
    refine h.compact fun row hrow => ?_
    rw [← H.pair.db.liveRows]
    exact hkeeps row hrow

theorem Watched.whole (h : Watched P s d) : (∃ a, Repr s a) ∧ d.Whole := by
  induction h with
  | prepared hreached hd =>
    obtain ⟨a, ha⟩ := hreached.repr
    obtain rfl := Except.ok.inj (hd.symm.trans (fromStore_eq ha.matrix))
    exact ⟨⟨a, ha⟩, whole_denseIndex ha.matrix⟩
  | @op s d op _ hfresh hundone _ ih =>
    obtain ⟨⟨a, ha⟩, hwhole⟩ := ih
    have hwp := op.run_wp ha hfresh
    refine ⟨?_, hwhole⟩
    cases hr : (op.run s).result with
    | ok u => exact ⟨_, hwp.ok hr⟩
    | error e =>
      obtain ⟨b, hb, -⟩ := (hwp.error hr).kept hundone
      exact ⟨b, hb⟩
  | @reopen s t d _ ht ih =>
    obtain ⟨⟨a, ha⟩, hwhole⟩ := ih
    obtain ⟨t', ht', hrepr⟩ := ha.recovers
    obtain rfl : t = t' := Except.ok.inj (ht.symm.trans ht')
    exact ⟨⟨a, hrepr⟩, hwhole⟩
  | refreshed _ hlive hrefresh ih =>
    obtain ⟨⟨a, ha⟩, hwhole⟩ := ih
    obtain ⟨hdims, -, hrows, rfl⟩ := refresh_eq_ok ha.matrix hlive hrefresh
    exact ⟨⟨a, ha⟩, whole_grown ha.matrix hwhole hdims hrows⟩

/-- The index stays current as long as no compaction finds a dead row of it. -/
theorem Watched.holds (h : Watched (fun d s op => op.KeepsRows d s) s d) :
    ∃ a, Repr s a ∧ d.Holds a := by
  induction h with
  | @prepared s d hreached hd =>
    obtain ⟨a, ha⟩ := hreached.repr
    obtain rfl := Except.ok.inj (hd.symm.trans (fromStore_eq ha.matrix))
    have hcurrent : s.denseIndex.Current s := fun row hrow _ => vector_denseIndex ha.matrix hrow
    exact ⟨a, ha, hcurrent.holds ha le_rfl⟩
  | @op s d op _ hfresh hundone hkeeps ih =>
    obtain ⟨a, ha, hholds⟩ := ih
    have hwp := op.run_wp ha hfresh
    cases hr : (op.run s).result with
    | ok u => exact ⟨_, hwp.ok hr, hholds.after ha op hkeeps⟩
    | error e =>
      obtain ⟨b, hb, rfl | rfl, -⟩ := (hwp.error hr).kept hundone
      · exact ⟨_, hb, hholds⟩
      · exact ⟨_, hb, hholds.after ha op hkeeps⟩
  | @reopen s t d _ ht ih =>
    obtain ⟨a, ha, hholds⟩ := ih
    obtain ⟨t', ht', hrepr⟩ := ha.recovers
    obtain rfl : t = t' := Except.ok.inj (ht.symm.trans ht')
    exact ⟨a, hrepr, hholds⟩
  | @refreshed s d d' live hwatched hlive hrefresh ih =>
    obtain ⟨a, ha, hholds⟩ := ih
    obtain ⟨hdims, -, hrows, rfl⟩ := refresh_eq_ok ha.matrix hlive hrefresh
    have hsame := (hholds.current ha).sameLive ha.matrix hwatched.whole.2 hdims hrows
    have hcurrent : (d.grown s).Current s := by
      intro row hrow hrowLive
      rw [hsame.vector row hrow ((isLive_denseIndex hrow).mpr hrowLive)]
      exact vector_denseIndex ha.matrix hrow
    exact ⟨a, ha, hcurrent.holds ha le_rfl⟩

/-- If searches find what an index prepared afresh finds, then the index was current. -/
theorem current_of_searchesAlike (H : s.matrix.WF) (hwhole : d.Whole)
    (hdims : d.dims = s.matrix.dims) (hrows : d.rows ≤ s.matrix.rows)
    (hsize : s.matrix.rows + 1 < 2 ^ 59) (h : (d.grown s).SearchesAlike s.denseIndex) :
    d.Current s := by
  intro row hrow hlive
  have hlt := hrow.trans_le hrows
  have hvector := DenseIndex.vector_eq_of_searchesAlike (whole_grown H hwhole hdims hrows)
    (whole_denseIndex H) rfl rfl rfl rfl hsize h hlt ((isLive_denseIndex hlt).mpr hlive)
  rw [← vector_grown_old hwhole hdims hrow, hvector]
  exact vector_denseIndex H hlt

/-- Whenever a refresh is accepted: in a run in which no compaction finds a dead row among those of
the index, searches find what an index prepared afresh finds; and that is so as long as the live
rows of the index have the vectors that the index has, and, if a search can list all rows, only
then. -/
theorem refresh_searches (h : Watched (fun _ _ _ => True) s d)
    (hlive : LiveMask.fromStore none s = .ok live) (hrefresh : d.refresh s.matrix live = .ok d') :
    ∃ f, DenseIndex.fromStore none s = .ok f ∧
      (Watched (fun d s op => op.KeepsRows d s) s d → d'.SearchesAlike f) ∧
      (d.Current s → d'.SearchesAlike f) ∧
      (s.matrix.rows + 1 < 2 ^ 59 → d'.SearchesAlike f → d.Current s) := by
  obtain ⟨⟨a, ha⟩, hwhole⟩ := h.whole
  obtain ⟨hdims, -, hrows, rfl⟩ := refresh_eq_ok ha.matrix hlive hrefresh
  refine ⟨s.denseIndex, fromStore_eq ha.matrix, fun hkeeps => ?_, fun hcurrent => ?_,
    fun hsize halike => ?_⟩
  · obtain ⟨b, hb, hholds⟩ := hkeeps.holds
    exact ((hholds.current hb).sameLive ha.matrix hwhole hdims hrows).searchesAlike
  · exact (hcurrent.sameLive ha.matrix hwhole hdims hrows).searchesAlike
  · exact current_of_searchesAlike ha.matrix hwhole hdims hrows hsize halike

end

/-- A store of two chunks. -/
def pairStore : ChunkStore :=
  sampleStore.runOps [.insertBatch (fun _ => false) [sampleChunk 1, sampleChunk 2]]

theorem reached_pairStore : Reached pairStore :=
  (Reached.create rfl sampleStore_created).op
    (.insertBatch (fun _ => false) [sampleChunk 1, sampleChunk 2]) trivial
    (StoreOp.undone_of_length (by decide +kernel) (.inl nofun))

theorem prepared_pairStore {P : DenseIndex → ChunkStore → StoreOp → Prop} :
    Watched P pairStore pairStore.denseIndex := by
  obtain ⟨a, ha⟩ := reached_pairStore.repr
  exact .prepared reached_pairStore (fromStore_eq ha.matrix)

/-- The store with a third chunk, compacted. -/
def grownStore : ChunkStore :=
  pairStore.runOps [.insertBatch (fun _ => false) [sampleChunk 3], .compact (fun _ => false) 7 7]

theorem watched_grownStore {P : DenseIndex → ChunkStore → StoreOp → Prop}
    (hP : ∀ d s (op : StoreOp), op.KeepsRows d s → P d s op) :
    Watched P grownStore pairStore.denseIndex := by
  have h1 := (prepared_pairStore (P := P)).op (.insertBatch (fun _ => false) [sampleChunk 3])
    trivial (StoreOp.undone_of_length (by decide +kernel) (.inl nofun)) (hP _ _ _ trivial)
  refine h1.op (.compact (fun _ => false) 7 7) ⟨by decide +kernel, by decide +kernel⟩ nofun
    (hP _ _ _ ?_)
  show ∀ row < pairStore.denseIndex.rows, row ∈ _
  decide +kernel

theorem refresh_searches_grown : ∃ live d' f, LiveMask.fromStore none grownStore = .ok live ∧
    pairStore.denseIndex.refresh grownStore.matrix live = .ok d' ∧
      DenseIndex.fromStore none grownStore = .ok f ∧ d'.SearchesAlike f := by
  have hok : (pairStore.denseIndex.refresh grownStore.matrix grownStore.denseIndex.live).isOk =
      true := by
    decide +kernel
  cases hrefresh : pairStore.denseIndex.refresh grownStore.matrix grownStore.denseIndex.live with
  | error e =>
    rw [hrefresh] at hok
    cases hok
  | ok d' =>
    obtain ⟨f, hf, halike, -⟩ :=
      refresh_searches (watched_grownStore fun _ _ _ _ => trivial) fromStore_live hrefresh
    exact ⟨_, d', f, fromStore_live, hrefresh, hf, halike (watched_grownStore fun _ _ _ => id)⟩

/-- The store without its first chunk, compacted, and then with a third one. -/
def regrownStore : ChunkStore :=
  pairStore.runOps [.tombstone false [0], .compact (fun _ => false) 7 7,
    .insertBatch (fun _ => false) [sampleChunk 3]]

/-- After a compaction and another chunk there are as many rows as before, and the refresh is
accepted. -/
theorem regrown_refresh_accepted : ¬ ∀ (s : ChunkStore) (d d' f : DenseIndex) (live : LiveMask),
    Watched (fun _ _ _ => True) s d → LiveMask.fromStore none s = .ok live →
      d.refresh s.matrix live = .ok d' →
      DenseIndex.fromStore none s = .ok f → d'.SearchesAlike f := by
  intro h
  have h1 := (prepared_pairStore (P := fun _ _ _ => True)).op (.tombstone false [0]) trivial
      trivial trivial
  have h2 := h1.op (.compact (fun _ => false) 7 7) ⟨by decide +kernel, by decide +kernel⟩ nofun
    trivial
  have hwatched : Watched (fun _ _ _ => True) regrownStore pairStore.denseIndex :=
    h2.op (.insertBatch (fun _ => false) [sampleChunk 3]) trivial
      (StoreOp.undone_of_length (by decide +kernel) (.inl nofun)) trivial
  obtain ⟨⟨a, ha⟩, hwhole⟩ := hwatched.whole
  have hok : (pairStore.denseIndex.refresh regrownStore.matrix regrownStore.denseIndex.live).isOk =
      true := by
    decide +kernel
  cases hrefresh :
    pairStore.denseIndex.refresh regrownStore.matrix regrownStore.denseIndex.live with
  | error e =>
    rw [hrefresh] at hok
    cases hok
  | ok d' =>
    have halike : d'.SearchesAlike regrownStore.denseIndex :=
      h _ _ d' _ _ hwatched fromStore_live hrefresh (fromStore_eq ha.matrix)
    obtain ⟨hdims, -, hrows, rfl⟩ := refresh_eq_ok ha.matrix fromStore_live hrefresh
    have hcurrent :=
      current_of_searchesAlike ha.matrix hwhole hdims hrows (by decide +kernel) halike 0
      (by decide +kernel) (by decide +kernel)
    rw [vector_denseIndex ha.matrix (by decide +kernel)] at hcurrent
    exact absurd (Except.ok.inj hcurrent) (by decide +kernel)

end SiftMcp
