import SiftMcp.Storage.StoreRuns

/-!
# A batch that fails

`insert_batch` rolls the matrix back when its metadata transaction fails, and only then. A failing
lookup, append or flush returns past the rollback. The rows appended before it stay, below the rows
of every later batch; and a `grow` that fails half way leaves the handle without its map.

`insertBatch_error_asIfNever` says which failing calls leave a store as if there had been no batch.
-/

namespace SiftMcp
open Durable ChunkStore

/-- The state after batches inserted with nothing failing. -/
def ChunkStore.insertBatches (s : ChunkStore) (bs : List (List Entry)) : ChunkStore :=
  bs.foldl (fun s b => (insertBatch (fun _ => false) b s).state) s

/-- Every batch of the list is inserted successfully in its turn. -/
def ChunkStore.Inserts (s : ChunkStore) : List (List Entry) → Prop
  | [] => True
  | b :: bs => (∃ rows, (insertBatch (fun _ => false) b s).result = .ok rows) ∧
    (insertBatch (fun _ => false) b s).state.Inserts bs

/-- Two stores that no reader tells apart, now or after a restart. -/
structure SameView (s t : ChunkStore) : Prop where
  conn : t.conn = s.conn
  rows : t.matrix.rows = s.matrix.rows
  vectors : ∀ c ∈ s.conn.live, t.matrix.row c.rowid = s.matrix.row c.rowid
  reopened : ∃ r r', ChunkStore.open s.onDisk = .ok r ∧ ChunkStore.open t.onDisk = .ok r' ∧
    r'.liveChunks = r.liveChunks

/-- `t` reads as `s` does, and goes on to do so under all later successful batches. -/
def AsIfNever (s t : ChunkStore) : Prop :=
  ∀ bs, t.Inserts bs → SameView (s.insertBatches bs) (t.insertBatches bs)

/-- The failing step comes before anything has been appended, or is rolled back; and the handle
keeps its map, or has no row that needs it. -/
def FaultUndone (s : ChunkStore) (chunks : List Entry) : InsertStep → Prop
  | .lookup i => AllKnown s (chunks.take i)
  | .append i .growOpenPlaceholder | .append i .growMapPlaceholder => AllKnown s (chunks.take i)
  | .append i .growOpen | .append i .growSetLen | .append i .growMap =>
    AllKnown s (chunks.take i) ∧ (s.conn.live = [] ∨ s.matrix.dims = 0)
  | .append _ .headerFlush => False
  | .flush => AllKnown s chunks
  | _ => True

/-- The error is that of a vector, which is refused before the first step or is that of the first
chunk that needs a row; or the call `f` has failed, and this is undone. -/
def InsertUndone (s : ChunkStore) (chunks : List Entry) (f : InsertStep) : Failure → Prop
  | .error (.dimensionMismatch _ _) =>
    s.Refuses chunks ∨ ∃ i, s.Misfit chunks i ∧ AllKnown s (chunks.take i)
  | _ => FaultUndone s chunks f

section

variable {s t : ChunkStore} {a : Contents} {chunks : List Entry}

theorem live_eq_nil_iff (H : Repr s a) : s.conn.live = [] ↔ a.table.live = [] := by
  rw [← List.length_eq_zero_iff, H.pair.db.length_live, List.length_eq_zero_iff]

/-- The handle holds what `s` holds, and what it cannot read nobody asks for. -/
structure Restored (s t : ChunkStore) (a : Contents) : Prop where
  usable : Usable t a
  frame : Frame s t
  conn : t.conn = s.conn
  readable : t.matrix.WF ∨ t.matrix.map = .read 0 ∧ (a.table.live = [] ∨ a.dims = 0)

theorem Restored.sameView (H : Repr s a) (R : Restored s t a) : SameView s t where
  conn := R.conn
  rows := R.usable.rows.trans H.rows.symm
  vectors c hc := by
    have hmem : (c.rowid, c.record) ∈ a.table.live.map fun p => (p.1, p.2.1) :=
      H.pair.db.live ▸ List.mem_map_of_mem hc
    obtain ⟨p, hp, hpc⟩ := List.mem_map.mp hmem
    rw [← (Prod.mk.inj hpc).1]
    have hrow := a.table.inside p hp
    rw [H.matrix.row (by rw [H.rows]; exact hrow), H.pair.vectors p hp]
    rcases R.readable with hwf | ⟨hmap, hempty | hdims⟩
    · rw [hwf.row (by rw [R.usable.rows]; exact hrow), R.usable.pair.vectors p hp]
    · rw [hempty] at hp; cases hp
    · have hd : t.matrix.dims = 0 := by
        rw [R.usable.ready.dims, R.usable.pair.dims, hdims]
      have hlen := H.pair.length_vector hp
      rw [hdims, List.length_eq_zero_iff] at hlen
      rw [EmbeddingMatrix.row_unmapped hmap (by rw [R.usable.rows]; exact hrow), if_pos hd, hlen]
  reopened := by
    obtain ⟨r, hr, hra⟩ := H.recovers
    obtain ⟨r', hr', hra'⟩ := H.recovers_pair R.frame R.usable.pair
    exact ⟨r, r', hr, hr', hra'.liveChunks.trans hra.liveChunks.symm⟩

theorem Restored.dims (H : Repr s a) (R : Restored s t a) : t.matrix.dims = s.matrix.dims := by
  rw [R.usable.ready.dims, R.usable.pair.dims, H.matrix.ready.dims, H.pair.dims]

theorem Restored.refuses_iff (H : Repr s a) (R : Restored s t a) :
    t.Refuses chunks ↔ s.Refuses chunks := by
  rw [Refuses, Refuses, R.dims H]

theorem Restored.misfit_iff (H : Repr s a) (R : Restored s t a) {i : Nat} :
    t.Misfit chunks i ↔ s.Misfit chunks i := by
  simp only [Misfit, getByHash, R.dims H, R.conn]

/-- A batch that succeeds on the restored handle does the same to both stores. -/
theorem Restored.insertBatch (H : Repr s a) (R : Restored s t a) {b : List Entry}
    {rows : List RowId} (hok : (insertBatch (fun _ => false) b t).result = .ok rows) :
    Repr (insertBatch (fun _ => false) b s).state (a.insertBatch b) ∧
      Restored (insertBatch (fun _ => false) b s).state (insertBatch (fun _ => false) b t).state
        (a.insertBatch b) := by
  obtain ⟨hu, hm, hf, -, hconn, haccepts⟩ := (insertBatch_wp R.usable (fun _ => false) b).ok hok
  have hs := insertBatch_wp H.usable (fun _ => false) b
  cases hr : (ChunkStore.insertBatch (fun _ => false) b s).result with
  | error e =>
    have hstop := (hs.error hr).2 H.matrix
    generalize (ChunkStore.insertBatch (fun _ => false) b s).state = u at hstop
    cases hstop with
    | refused hrefuses => exact absurd ((R.refuses_iff H).mpr hrefuses) haccepts.1
    | misfit _ hmisfit => exact absurd ((R.misfit_iff H).mpr hmisfit) (haccepts.2 _)
    | fault hf => cases hf
  | ok rows' =>
    obtain ⟨hu', hm', hf', -, hconn', -⟩ := hs.ok hr
    refine ⟨H.usable_repr hf' hu' hm', hu, ?_, ?_, .inl hm⟩
    · exact ⟨hf.dir.trans (R.frame.dir.trans hf'.dir.symm),
        hf.dbPath.trans (R.frame.dbPath.trans hf'.dbPath.symm),
        hf.matrixPath.trans (R.frame.matrixPath.trans hf'.matrixPath.symm)⟩
    · rw [hconn, hconn', R.conn]

theorem Restored.asIfNever (H : Repr s a) (R : Restored s t a) : AsIfNever s t := by
  intro bs
  induction bs generalizing s t a with
  | nil => exact fun _ => R.sameView H
  | cons b bs ih =>
    rintro ⟨⟨rows, hok⟩, hrest⟩
    obtain ⟨H', R'⟩ := R.insertBatch H hok
    exact ih H' R' hrest

theorem AsIfNever.sameView (H : AsIfNever s t) : SameView s t := H [] trivial

/-- A loop that stops having appended nothing leaves the handle as it was; one that has appended a
row leaves that row. -/
theorem Allocating.restored_iff (H : Repr s a) {done : List Entry} {al : Allocation}
    (I : Allocating s a done al t) : AsIfNever s t ↔ AllKnown s done := by
  have hrows : t.matrix.rows = a.table.size + (a.table.novel done).length := by
    rw [← RowTable.insertAll_size]; exact congrArg (·.rows) I.header
  constructor
  · intro h
    have := h.sameView.rows
    rw [hrows, H.rows] at this
    exact (allKnown_iff H).mpr (List.length_eq_zero_iff.mp (by omega))
  · intro h
    obtain ⟨hu, hm⟩ := I.usable_of_known H h
    exact Restored.asIfNever H ⟨hu, I.kept.frame, I.kept.conn, .inl hm⟩

/-- A `grow` that failed behind its placeholder leaves no map: the live rows cannot be read. -/
theorem Allocating.unmapped_iff (H : Repr s a) {done : List Entry} {al : Allocation}
    {u : ChunkStore} (I : Allocating s a done al t) (hk : Kept s u) (hu : u.matrix.Ready)
    (hh : u.matrix.header = t.matrix.header) (hmap : u.matrix.map = .read 0) :
    AsIfNever s u ↔ AllKnown s done ∧ (s.conn.live = [] ∨ s.matrix.dims = 0) := by
  rw [allKnown_iff H, live_eq_nil_iff H]
  have hrows : u.matrix.rows = a.table.size + (a.table.novel done).length := by
    rw [← RowTable.insertAll_size, EmbeddingMatrix.rows, hh]; exact congrArg (·.rows) I.header
  have hd : s.matrix.dims = a.dims := H.matrix.ready.dims.trans H.pair.dims
  have hdims : u.matrix.dims = s.matrix.dims := by
    rw [hu.dims, hk.file.dims, H.matrix.ready.dims]
  constructor
  · intro h
    have hnovel : a.table.novel done = [] := by
      have := h.sameView.rows
      rw [hrows, H.rows] at this
      exact List.length_eq_zero_iff.mp (by omega)
    refine ⟨hnovel, or_iff_not_imp_left.mpr fun hlive => ?_⟩
    rw [← live_eq_nil_iff H] at hlive
    obtain ⟨c, hc⟩ := List.exists_mem_of_ne_nil _ hlive
    have hmem : (c.rowid, c.record) ∈ a.table.live.map fun p => (p.1, p.2.1) :=
      H.pair.db.live ▸ List.mem_map_of_mem hc
    obtain ⟨p, hp, hpc⟩ := List.mem_map.mp hmem
    have hrow : c.rowid < a.table.size := by
      rw [← (Prod.mk.inj hpc).1]; exact a.table.inside p hp
    have hread := h.sameView.vectors c hc
    rw [H.matrix.row (by rw [H.rows]; exact hrow),
      EmbeddingMatrix.row_unmapped hmap (by rw [hrows]; exact hrow.trans_le (Nat.le_add_right _ _)),
      hdims] at hread
    by_contra h0
    rw [if_neg h0] at hread
    cases hread
  · rintro ⟨hnovel, hempty⟩
    rw [hd] at hempty
    refine Restored.asIfNever H ⟨⟨?_, hu, ?_⟩, hk.frame, hk.conn, .inr ⟨hmap, hempty⟩⟩
    · rw [hk.conn]; exact H.pair.extends hk.file
    · rw [hrows, hnovel]; rfl

/-- The loop stops at the first vector that does not fit, so nothing is appended before it if
nothing would be before any of them. -/
theorem Allocating.known_iff_misfit {i : Nat} {al : Allocation}
    (I : Allocating s a (chunks.take i) al t) (hmisfit : s.Misfit chunks i) :
    AllKnown s (chunks.take i) ↔ ∃ j, s.Misfit chunks j ∧ AllKnown s (chunks.take j) := by
  refine ⟨fun h => ⟨i, hmisfit, h⟩, fun ⟨j, hj, hknown⟩ => ?_⟩
  have hle : i ≤ j := by
    by_contra hlt
    have hsplit : s.Misfit (chunks.take i ++ chunks.drop i) j := by rwa [List.take_append_drop]
    refine I.fits j (hsplit.of_append ?_)
    rw [List.length_take, Nat.min_eq_left hmisfit.lt_length.le]
    exact Nat.lt_of_not_le hlt
  exact fun e he => hknown e ((List.take_prefix_take_left hle).subset he)

theorem InsertFault.asIfNever_iff (H : Repr s a) (hk : Kept s t) {f : InsertStep}
    (hfault : InsertFault s a chunks f t)
    (hmeta : MetadataFault (fun f' => f' = f) → Usable t a ∧ t.matrix.WF) :
    AsIfNever s t ↔ FaultUndone s chunks f := by
  have hcovered : MetadataFault (fun f' => f' = f) → AsIfNever s t := fun hm =>
    Restored.asIfNever H ⟨(hmeta hm).1, hk.frame, hk.conn, .inl (hmeta hm).2⟩
  cases f with
  | lookup i =>
    obtain ⟨done, rest, rfl, rfl, al, I⟩ := hfault
    rw [FaultUndone, List.take_left]
    exact I.restored_iff H
  | append i g =>
    obtain ⟨done, rest, rfl, rfl, al, u, I, hm⟩ := hfault
    cases g with
    | growOpenPlaceholder | growMapPlaceholder =>
      rw [FaultUndone, List.take_left, hk.eq_of_matrix I.kept hm]
      exact I.restored_iff H
    | growOpen | growSetLen | growMap =>
      rw [FaultUndone, List.take_left]
      exact I.unmapped_iff H hk hm.1 hm.2.1 hm.2.2
    | headerFlush =>
      refine iff_of_false (fun h => ?_) id
      have hrows : u.matrix.rows = a.table.size + (a.table.novel done).length := by
        rw [← RowTable.insertAll_size]; exact congrArg (·.rows) I.header
      have := h.sameView.rows
      rw [H.rows, show t.matrix.rows = u.matrix.rows + 1 from hm, hrows] at this
      omega
  | flush =>
    obtain ⟨al, I⟩ := hfault
    exact I.restored_iff H
  | begin => exact iff_of_true (hcovered fun f hf => .inl (of_decide_eq_true hf)) trivial
  | insertChunk j =>
    exact iff_of_true (hcovered fun f hf => .inr (.inl ⟨j, of_decide_eq_true hf⟩)) trivial
  | beforeCommit =>
    exact iff_of_true (hcovered fun f hf => .inr (.inr (.inl (of_decide_eq_true hf)))) trivial
  | commit =>
    exact iff_of_true (hcovered fun f hf => .inr (.inr (.inr (of_decide_eq_true hf)))) trivial
  | rollbackHeader | rollbackReopen => exact hfault.elim

/-- A failing batch leaves the store as if it had never been called exactly when nothing had been
appended before the failing step, or the step is one that the rollback covers. -/
theorem insertBatch_error_asIfNever (H : Repr s a) {f : InsertStep} {e : Failure}
    (herr : (insertBatch (fun f' => f' = f) chunks s).result = .error e) :
    AsIfNever s (insertBatch (fun f' => f' = f) chunks s).state ↔ InsertUndone s chunks f e := by
  obtain ⟨hk, hstop⟩ := (insertBatch_wp H.usable _ chunks).error herr
  generalize (insertBatch (fun f' => f' = f) chunks s).state = t at *
  cases hstop H.matrix with
  | refused hrefuses =>
    exact iff_of_true (Restored.asIfNever H ⟨H.usable, hk.frame, hk.conn, .inl H.matrix⟩)
      (.inl hrefuses)
  | misfit hrefuses hmisfit I =>
    exact (I.restored_iff H).trans
      ((I.known_iff_misfit hmisfit).trans (or_iff_right hrefuses).symm)
  | fault hf hfault hmeta =>
    obtain rfl := of_decide_eq_true hf
    exact hfault.asIfNever_iff H hk hmeta

end

theorem insertBatch_error_asIfNever_commit :
    let s := sampleStore.runOps [.insertBatch (fun _ => false) [sampleChunk 1]]
    AsIfNever s (insertBatch (fun f => f = .commit) [sampleChunk 2, sampleChunk 3] s).state := by
  obtain ⟨a, H⟩ := ((Reached.create rfl sampleStore_created).op
    (.insertBatch (fun _ => false) [sampleChunk 1]) trivial
    (StoreOp.undone_of_length (by decide +kernel) (.inl nofun))).repr
  have herr : (insertBatch (fun f => f = .commit) [sampleChunk 2, sampleChunk 3]
      (sampleStore.runOps [.insertBatch (fun _ => false) [sampleChunk 1]])).result =
      .error (.error (.io .other "injected failure")) := by decide +kernel
  exact (insertBatch_error_asIfNever H herr).mpr trivial

/-- The lookup of the second chunk fails. The row of the first stays without a record; the next
batch goes behind it, and the store neither verifies nor opens again. -/
theorem insertBatch_leaves_row :
    let s := sampleStore.runOps [.insertBatch (fun _ => false) [sampleChunk 1]]
    let t := (insertBatch (fun f => f = .lookup 1) [sampleChunk 2, sampleChunk 3] s).state
    let u := (insertBatch (fun _ => false) [sampleChunk 4] t).state
    Reached s ∧ (insertBatch (fun f => f = .lookup 1) [sampleChunk 2, sampleChunk 3] s).result =
        .error (.error (.io .other "injected failure")) ∧
      s.matrix.rows = 1 ∧ t.matrix.rows = 2 ∧ ¬AsIfNever s t ∧
      (insertBatch (fun _ => false) [sampleChunk 4] t).result = .ok [2] ∧
      u.verify = .broken [1] [] [] ∧
      (ChunkStore.open u.onDisk).map (fun _ => ()) =
        .error (.error (.corrupt (.broken [1] [] []))) := by
  have h : Reached (sampleStore.runOps [.insertBatch (fun _ => false) [sampleChunk 1]]) :=
    (Reached.create rfl sampleStore_created).op (.insertBatch (fun _ => false) [sampleChunk 1])
      trivial (StoreOp.undone_of_length (by decide +kernel) (.inl nofun))
  refine ⟨h, by decide +kernel, by decide +kernel, by decide +kernel, fun hn => ?_,
    by decide +kernel, by decide +kernel, by decide +kernel⟩
  exact absurd hn.sameView.rows (by decide +kernel)

end SiftMcp
