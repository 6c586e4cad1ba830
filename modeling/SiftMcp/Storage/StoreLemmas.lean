import SiftMcp.Storage.Contents

/-!
# What each operation does to the contents

One theorem for each operation of the store: the contents it leaves when it succeeds, what an error
leaves behind, and what a killed process finds again. `insertBatch` is specified from `Usable`
handles, a little weaker than `Repr`: a failed `grow` may have left the handle without its map.

* `tombstone_wp`, `rekeyFile_wp`, `setIndexedCommit_wp`: statements on the database.
* `insertBatch_wp`: the batch, over `allocate_wp` and `insertRecords_wp`.
-/

namespace SiftMcp
open Durable ChunkStore

/-! ## Killed processes -/

/-- The handle is still on the same files. -/
structure Frame (s t : ChunkStore) : Prop where
  dir : t.dir = s.dir
  dbPath : t.dbPath = s.dbPath
  matrixPath : t.matrix.path = s.matrix.path

theorem Frame.refl (s : ChunkStore) : Frame s s := ⟨rfl, rfl, rfl⟩

theorem Frame.trans {s t u : ChunkStore} (H : Frame s t) (H' : Frame t u) : Frame s u :=
  ⟨H'.dir.trans H.dir, H'.dbPath.trans H.dbPath, H'.matrixPath.trans H.matrixPath⟩

/-- The database is as it was, and the matrix file has lost no row. -/
structure Kept (s t : ChunkStore) : Prop where
  frame : Frame s t
  conn : t.conn = s.conn
  file : s.matrix.file.Extends t.matrix.file

theorem Kept.trans {s t u : ChunkStore} (H : Kept s t) (H' : Kept t u) : Kept s u :=
  ⟨H.frame.trans H'.frame, H'.conn.trans H.conn, H.file.trans H'.file⟩

theorem Kept.withMatrix {s t : ChunkStore} {m : EmbeddingMatrix} (H : Kept s t)
    (hm : t.matrix.Kept m) : Kept s { t with matrix := m } :=
  H.trans ⟨⟨rfl, rfl, hm.2⟩, rfl, hm.1⟩

theorem head?_ne {p q : String} {a b : Char} (hp : p.toList.head? = some a)
    (hq : q.toList.head? = some b) (h : a ≠ b) : p ≠ q := by
  rintro rfl
  exact h (Option.some.inj (hp.symm.trans hq))

theorem manifestName_head : manifestName.toList.head? = some 's' := by decide

/-- A pair named as the store names its files is found again where the handle put it. -/
theorem onDisk_recovers {t : ChunkStore} {a : Contents}
    (active : activePaths t.dir = .ok (t.dbPath, t.matrix.path))
    (hdb : t.dbPath.toList.head? = some 'c') (hpath : t.matrix.path.toList.head? = some 'e')
    (H : Pair t.conn t.matrix.file a) : RecoversTo t.onDisk a := by
  have hne : t.dbPath ≠ t.matrix.path := head?_ne hdb hpath (by decide)
  refine recoversTo_of_pair (p := t.dbPath) (q := t.matrix.path) ?_ hdb hpath ?_ ?_ H
  · rw [← active]
    refine activePaths_congr ?_
    rw [onDisk, Dir.write_of_ne _ _ (head?_ne manifestName_head hpath (by decide)),
      Dir.write_of_ne _ _ (head?_ne manifestName_head hdb (by decide))]
  · rw [onDisk, Dir.write_of_ne _ _ hne, Dir.write_self]
  · rw [onDisk, Dir.write_self]

theorem Repr.recovers {s : ChunkStore} {a : Contents} (H : Repr s a) : RecoversTo s.onDisk a :=
  onDisk_recovers H.active H.dbPath H.matrixPath H.pair

theorem Repr.recovers_pair {s t : ChunkStore} {a b : Contents} (H : Repr s a) (hf : Frame s t)
    (hp : Pair t.conn t.matrix.file b) : RecoversTo t.onDisk b :=
  onDisk_recovers (by rw [hf.dir, hf.dbPath, hf.matrixPath]; exact H.active)
    (hf.dbPath ▸ H.dbPath) (hf.matrixPath ▸ H.matrixPath) hp

theorem Repr.recovers_kept {s t : ChunkStore} {a : Contents} (H : Repr s a) (hk : Kept s t) :
    RecoversTo t.onDisk a :=
  H.recovers_pair hk.frame (by rw [hk.conn]; exact H.pair.extends hk.file)

/-- A handle that `insertBatch` can be called on. -/
structure Usable (s : ChunkStore) (a : Contents) : Prop where
  pair : Pair s.conn s.matrix.file a
  ready : s.matrix.Ready
  rows : s.matrix.rows = a.table.size

theorem Repr.usable {s : ChunkStore} {a : Contents} (H : Repr s a) : Usable s a :=
  ⟨H.pair, H.matrix.ready, H.rows⟩

theorem Repr.usable_repr {s t : ChunkStore} {a b : Contents} (H : Repr s a) (hf : Frame s t)
    (ht : Usable t b) (hm : t.matrix.WF) : Repr t b :=
  ⟨ht.pair, hm, ht.rows, by rw [hf.dir, hf.dbPath, hf.matrixPath]; exact H.active,
    hf.dbPath ▸ H.dbPath, hf.matrixPath ▸ H.matrixPath⟩

/-! ## Single statements -/

theorem tombstone_wp {s : ChunkStore} {a : Contents} (H : Repr s a) (fails : Bool)
    (rows : List RowId) :
    Prog.wp (tombstone fails rows) (fun _ t => Repr t (a.tombstone rows) ∧ Frame s t)
      (fun _ t => t = s ∧ fails = true)
      (fun _ t => Repr t (a.tombstone rows)) s := by
  have : Repr { s with conn := s.conn.tombstone rows } (a.tombstone rows) :=
    { H with pair := { H.pair with
      db := H.pair.db.tombstone rows
      vectors := fun p hp => H.pair.vectors p (RowTable.mem_retire.mp hp).1 } }
  have hframe : Frame s { s with conn := s.conn.tombstone rows } := ⟨rfl, rfl, rfl⟩
  simp [tombstone, this, hframe]

theorem rekeyFile_wp {s : ChunkStore} {a : Contents} (H : Repr s a) (fails : Bool)
    (oldFile newFile : String) :
    Prog.wp (rekeyFile fails oldFile newFile)
      (fun n t => Repr t (a.rekeyFile oldFile newFile) ∧ n = (s.rowsForFile oldFile).length ∧
        Frame s t)
      (fun _ t => t = s ∧ fails = true) (fun _ t => Repr t (a.rekeyFile oldFile newFile)) s := by
  have hvec : ∀ p ∈ (a.rekeyFile oldFile newFile).table.live,
      s.matrix.file.vector p.1 = p.2.2 := by
    intro p hp
    obtain ⟨q, hq, rfl⟩ := List.mem_map.mp hp
    rw [H.pair.vectors q hq]
    simp only [Contents.rekeyEntry]
    split <;> rfl
  have : Repr { s with conn := s.conn.rekeyFile oldFile newFile }
      (a.rekeyFile oldFile newFile) :=
    { H with pair := { H.pair with
      db := H.pair.db.rekeyFile oldFile newFile
      vectors := hvec } }
  have hframe : Frame s { s with conn := s.conn.rekeyFile oldFile newFile } := ⟨rfl, rfl, rfl⟩
  simp [rekeyFile, this, hframe]

theorem setIndexedCommit_wp {s : ChunkStore} {a : Contents} (H : Repr s a) (fails : Bool)
    (commit : String) :
    Prog.wp (setIndexedCommit fails commit)
      (fun _ t => Repr t (a.setIndexedCommit commit) ∧ Frame s t)
      (fun _ t => t = s ∧ fails = true) (fun _ t => Repr t (a.setIndexedCommit commit)) s := by
  have : Repr { s with conn := s.conn.setMeta "indexed_commit" commit }
      (a.setIndexedCommit commit) :=
    { H with pair := { H.pair with
      db := H.pair.db.setMeta (by decide)
      commit := Db.Repr.metaValue_setMeta } }
  have hframe : Frame s { s with conn := s.conn.setMeta "indexed_commit" commit } := ⟨rfl, rfl, rfl⟩
  simp [setIndexedCommit, this, hframe]

/-! ## The batch -/

/-- The row is the one the table has for the chunk's hash. -/
def RowOf (t : ChunkTable) (r : RowId) (e : Entry) : Prop := ∃ v, (r, v) ∈ t.live ∧ v.hash = e.hash

/-- The failing calls are those of the metadata transaction. -/
def MetadataFault (fails : InsertStep → Bool) : Prop :=
  ∀ f, fails f = true → f = .begin ∨ (∃ j, f = .insertChunk j) ∨ f = .beforeCommit ∨ f = .commit

/-- A vector is refused before the first step. Of its length 32 bits are looked at. -/
def ChunkStore.Refuses (s : ChunkStore) (chunks : List Entry) : Prop :=
  ∃ e ∈ chunks, e.2.length % 2 ^ 32 ≠ s.matrix.dims % 2 ^ 32

/-- The chunk at `i` is to get a row, and its vector has another dimension. -/
def ChunkStore.Misfit (s : ChunkStore) (chunks : List Entry) (i : Nat) : Prop :=
  ∃ e, chunks[i]? = some e ∧ e.2.length ≠ s.matrix.dims ∧ s.getByHash e.hash = none ∧
    e.hash ∉ (chunks.take i).map Entry.hash

/-- No vector is refused, neither before the first step nor when it is appended. -/
def ChunkStore.Accepts (s : ChunkStore) (chunks : List Entry) : Prop :=
  ¬s.Refuses chunks ∧ ∀ i, ¬s.Misfit chunks i

section

variable {s : ChunkStore} {a : Contents} {chunks done rest : List Entry} {e : Entry} {i : Nat}

theorem ChunkStore.accepts_of_length (h : ∀ e ∈ chunks, e.2.length = s.matrix.dims) :
    s.Accepts chunks := by
  refine ⟨fun hrefuses => ?_, fun i hmisfit => ?_⟩
  · obtain ⟨e, he, hne⟩ := hrefuses
    exact hne (by rw [h e he])
  · obtain ⟨e, he, hne, -⟩ := hmisfit
    exact hne (h e (List.mem_of_getElem? he))

theorem ChunkStore.misfit_at : s.Misfit (done ++ e :: rest) done.length ↔
    e.2.length ≠ s.matrix.dims ∧ s.getByHash e.hash = none ∧ e.hash ∉ done.map Entry.hash := by
  simp [Misfit]

/-- A chunk that has been looked at fits, whatever comes behind it. -/
theorem ChunkStore.Misfit.of_append (h : s.Misfit (done ++ rest) i) (hi : i < done.length) :
    s.Misfit done i := by
  obtain ⟨e, he, hne, hget, hfirst⟩ := h
  rw [List.getElem?_append_left hi] at he
  rw [List.take_append_of_le_length hi.le] at hfirst
  exact ⟨e, he, hne, hget, hfirst⟩

theorem ChunkStore.Misfit.lt_length (h : s.Misfit chunks i) : i < chunks.length := by
  obtain ⟨e, he, -⟩ := h
  exact (List.getElem?_eq_some_iff.mp he).1

/-- The chunks for which the loop appends a row. -/
theorem Usable.not_mem_keys_iff (H : Usable s a) : e.hash ∉ (a.table.insertAll done).keys ↔
    s.getByHash e.hash = none ∧ e.hash ∉ done.map Entry.hash := by
  rw [RowTable.mem_keys_insertAll, not_or, getByHash, H.pair.db.getByHash, Option.map_eq_none_iff,
    List.find?_eq_none, RowTable.mem_keys, List.mem_map]
  simp

end

/-- The loop invariant of `insert_batch`. The matrix already has the rows of the chunks done; the
database knows nothing of them. -/
structure Allocating (s : ChunkStore) (a : Contents) (done : List Entry) (al : Allocation)
    (t : ChunkStore) : Prop where
  kept : Kept s t
  ready : t.matrix.Ready
  wf : s.matrix.WF ∨ a.table.novel done ≠ [] → t.matrix.WF
  header : t.matrix.header = { s.matrix.header with rows := (a.table.insertAll done).size }
  vectors : ∀ p ∈ (a.table.insertAll done).live, t.matrix.file.vector p.1 = p.2.2
  pos : al.pos = done.length
  seen : ∀ e r, al.batchHashToRow.lookup e.hash = some r → RowOf (a.table.insertAll done) r e
  unseen : ∀ h, al.batchHashToRow.lookup h = none → h ∉ done.map Entry.hash
  result : List.Forall₂ (RowOf (a.table.insertAll done)) al.result done
  newRows : al.newRows = ((a.table.novel done).zipIdx a.table.size).map fun p => (p.2, p.1.1)
  fits : ∀ i, ¬s.Misfit done i

namespace Allocating

variable {s t : ChunkStore} {a : Contents} {done : List Entry} {al : Allocation} {e : Entry}

/-- The chunks that have been looked at fit if the next one does. -/
theorem fits_concat (I : Allocating s a done al t) (he : ¬s.Misfit (done ++ [e]) done.length) :
    ∀ i, ¬s.Misfit (done ++ [e]) i := by
  intro i h
  have hi := h.lt_length
  rw [List.length_append, List.length_singleton] at hi
  rcases (Nat.lt_succ_iff.mp hi).lt_or_eq with hlt | rfl
  · exact I.fits i (h.of_append hlt)
  · exact he h

theorem init (H : Usable s a) : Allocating s a [] ⟨0, [], [], []⟩ s where
  kept := ⟨.refl s, rfl, .refl H.ready.file⟩
  ready := H.ready
  wf := fun h => h.resolve_right fun h => h rfl
  header := by rw [RowTable.insertAll_nil, ← H.rows]; rfl
  vectors := H.pair.vectors
  pos := rfl
  seen := by simp
  unseen := by simp
  result := .nil
  newRows := rfl
  fits i h := absurd h.lt_length (Nat.not_lt_zero i)

/-- A chunk whose hash has a row already. -/
theorem reuse (H : Usable s a) (I : Allocating s a done al t) {r : RowId}
    (hr : RowOf (a.table.insertAll done) r e) {rows : List (ContentHash × RowId)}
    (seen : ∀ e r, rows.lookup e.hash = some r → RowOf (a.table.insertAll done) r e)
    (unseen : ∀ h, rows.lookup h = none → al.batchHashToRow.lookup h = none ∧ h ≠ e.hash) :
    Allocating s a (done ++ [e])
      { al with pos := al.pos + 1, batchHashToRow := rows, result := al.result ++ [r] } t := by
  have hmem : e.hash ∈ (a.table.insertAll done).keys := by
    obtain ⟨v, hv, hh⟩ := hr
    exact RowTable.mem_keys.mpr ⟨_, hv, hh⟩
  have htab : a.table.insertAll (done ++ [e]) = a.table.insertAll done := by
    rw [RowTable.insertAll_append, RowTable.insertAll_cons, RowTable.insert_of_mem hmem,
      RowTable.insertAll_nil]
  have hnov : a.table.novel (done ++ [e]) = a.table.novel done := by
    rw [RowTable.novel_append, RowTable.novel_of_mem hmem, RowTable.novel, List.append_nil]
  refine ⟨I.kept, I.ready, hnov ▸ I.wf, htab ▸ I.header, htab ▸ I.vectors, ?_, htab ▸ seen, ?_, ?_,
    hnov ▸ I.newRows, I.fits_concat fun h => ?_⟩
  · simp [I.pos]
  · intro h hh
    obtain ⟨h1, h2⟩ := unseen h hh
    simpa [h2] using I.unseen h h1
  · rw [htab]
    exact List.rel_append I.result (.cons hr .nil)
  · exact H.not_mem_keys_iff.mpr (misfit_at.mp h).2 hmem

/-- A chunk that has just been appended to the matrix. -/
theorem append (I : Allocating s a done al t) (hlen : e.2.length = s.matrix.dims)
    (hnew : e.hash ∉ (a.table.insertAll done).keys) {m : EmbeddingMatrix} (hk : t.matrix.Kept m)
    (hm : m.WF) (hh : m.header = { t.matrix.header with rows := t.matrix.rows + 1 })
    (hv : m.file.vectors = t.matrix.file.vectors ++ [e.2]) :
    Allocating s a (done ++ [e])
      ⟨al.pos + 1, (e.hash, t.matrix.rows) :: al.batchHashToRow, al.result ++ [t.matrix.rows],
        al.newRows ++ [(t.matrix.rows, e.1)]⟩ { t with matrix := m } := by
  have hrows : t.matrix.rows = (a.table.insertAll done).size := congrArg (·.rows) I.header
  have htab : a.table.insertAll (done ++ [e]) = (a.table.insertAll done).insert e := by
    rw [RowTable.insertAll_append, RowTable.insertAll_cons, RowTable.insertAll_nil]
  have hnov : a.table.novel (done ++ [e]) = a.table.novel done ++ [e] := by
    rw [RowTable.novel_append, RowTable.novel_of_not_mem hnew, RowTable.novel]
  have hrow : RowOf (a.table.insertAll (done ++ [e])) t.matrix.rows e :=
    ⟨e, by rw [htab, RowTable.insert_live hnew, hrows]; simp, rfl⟩
  have hmono : ∀ {r e'}, RowOf (a.table.insertAll done) r e' →
      RowOf (a.table.insertAll (done ++ [e])) r e' := by
    intro r e' h
    obtain ⟨v, hv, hh⟩ := h
    exact ⟨v, by rw [RowTable.insertAll_append]; exact RowTable.mem_insertAll_of_mem hv, hh⟩
  refine ⟨I.kept.withMatrix hk, hm.ready, fun _ => hm, ?_, ?_, ?_, ?_, ?_, ?_, ?_,
    I.fits_concat fun h => (misfit_at.mp h).1 hlen⟩
  · show m.header = _
    rw [hh, I.header, hrows, htab, RowTable.insert_size hnew]
  · rw [htab]
    exact vectors_insert hk.1 (I.ready.rows.symm.trans hrows) hv hnew I.vectors
  · simp [I.pos]
  · intro e' r hr
    rw [List.lookup_cons] at hr
    split at hr
    · obtain rfl := Option.some.inj hr
      rename_i heq
      obtain ⟨v, hv, hh⟩ := hrow
      exact ⟨v, hv, hh.trans (eq_of_beq heq).symm⟩
    · exact hmono (I.seen e' r hr)
  · intro h hh
    rw [List.lookup_cons] at hh
    split at hh
    · cases hh
    · rename_i hne
      have hne : h ≠ e.hash := ne_of_beq_false hne
      simpa [hne] using I.unseen h hh
  · exact List.rel_append (I.result.imp fun _ _ => hmono) (.cons hrow .nil)
  · rw [hnov, List.zipIdx_append, List.map_append, ← I.newRows]
    have : a.table.size + (a.table.novel done).length = t.matrix.rows := by
      rw [hrows, RowTable.insertAll_size]
    simp [this]

end Allocating

/-- The state in which a failing call of the loop stops, `done` being the chunks before it. -/
def AllocFault (s : ChunkStore) (a : Contents) (done : List Entry) (f : InsertStep)
    (u : ChunkStore) : Prop :=
  match f with
  | .lookup i => i = done.length ∧ ∃ al, Allocating s a done al u
  | .append i g => i = done.length ∧ ∃ al t, Allocating s a done al t ∧
      t.matrix.AppendFault g u.matrix
  | _ => False

/-- How the loop stops at a chunk: a call fails, or its vector is not taken. -/
def AllocStop (s : ChunkStore) (a : Contents) (fails : InsertStep → Bool) (done : List Entry)
    (e : Entry) (err : Failure) (u : ChunkStore) : Prop :=
  (∃ f, fails f = true ∧ AllocFault s a done f u ∧ err = .injected) ∨
  s.Misfit (done ++ [e]) done.length ∧ (∃ al, Allocating s a done al u) ∧
    ∃ got, err = .error (.dimensionMismatch s.matrix.dims got)

theorem allocate_wp {s t : ChunkStore} {a : Contents} {done : List Entry} {al : Allocation}
    {e : Entry} (H : Usable s a) (I : Allocating s a done al t) (fails : InsertStep → Bool) :
    Prog.wp (allocate fails al e) (fun al' u => Allocating s a (done ++ [e]) al' u)
      (fun err u => Kept s u ∧ AllocStop s a fails done e err u)
      (fun l u => l ≠ .sqlCommit ∧ Kept s u) t := by
  have hkeys : ∀ h, h ∈ (a.table.insertAll done).keys ↔ h ∈ a.table.keys ∨
      h ∈ done.map Entry.hash :=
    fun h => by rw [RowTable.mem_keys_insertAll, List.mem_map]
  simp only [allocate]
  cases hl : al.batchHashToRow.lookup e.1.contentHash with
  | some r =>
    simp only [Prog.wp_pure]
    refine I.reuse H (I.seen e r hl) I.seen fun h hh => ⟨hh, ?_⟩
    rintro rfl
    cases hl.symm.trans hh
  | none =>
    simp only [Prog.wp_bind, wp_failAt, Prog.wp_get]
    refine ⟨fun h => ⟨I.kept, .inl ⟨_, h, ⟨I.pos, _, I⟩, rfl⟩⟩, fun _ => ?_⟩
    have hget : t.getByHash e.1.contentHash =
        (a.table.live.find? (·.2.hash = e.hash)).map fun p => (p.1, p.2.1) := by
      rw [getByHash, I.kept.conn]; exact H.pair.db.getByHash _
    cases hf : a.table.live.find? (·.2.hash = e.hash) with
    | some p =>
      obtain ⟨r, v⟩ := p
      have hr : RowOf (a.table.insertAll done) r e :=
        ⟨v, RowTable.mem_insertAll_of_mem (List.mem_of_find?_eq_some hf),
          by simpa using List.find?_some hf⟩
      simp only [hget, hf, Option.map_some, Prog.wp_pure]
      refine I.reuse H hr (fun e' r' h => ?_) fun h hh => ?_
      · rw [List.lookup_cons] at h
        split at h
        · obtain rfl := Option.some.inj h
          rename_i heq
          obtain ⟨v, hv, hh⟩ := hr
          exact ⟨v, hv, hh.trans (eq_of_beq heq).symm⟩
        · exact I.seen e' r' h
      · rw [List.lookup_cons] at hh
        split at hh
        · cases hh
        · rename_i hne
          exact ⟨hh, ne_of_beq_false hne⟩
    | none =>
      have hnew : e.hash ∉ (a.table.insertAll done).keys := by
        rw [hkeys]
        rintro (h | h)
        · obtain ⟨p, hp, hk⟩ := RowTable.mem_keys.mp h
          simpa [hk] using List.find?_eq_none.mp hf p hp
        · exact I.unseen _ hl h
      have hdims : t.matrix.dims = s.matrix.dims := congrArg (·.dims) I.header
      simp only [hget, hf, Option.map_none, Prog.wp_bind, inMatrix, Prog.wp_focus, Prog.wp_pure]
      by_cases hlen : e.2.length = s.matrix.dims
      · refine (EmbeddingMatrix.append_wp I.ready (hlen.trans hdims.symm) _).mono ?_ ?_ ?_
        · rintro r m ⟨rfl, hk, hm, hh, hv⟩
          exact I.append hlen hnew hk hm hh hv
        · rintro err m ⟨hk, ⟨f, hf, hm⟩, herr⟩
          exact ⟨I.kept.withMatrix hk, .inl ⟨_, hf, ⟨I.pos, _, _, I, hm⟩, herr⟩⟩
        · exact fun _ m h => ⟨h.1.ne_sqlCommit, I.kept.withMatrix h.2⟩
      · rw [Prog.wp, EmbeddingMatrix.append_refused (hdims ▸ hlen)]
        exact ⟨fun _ h => absurd h List.not_mem_nil, I.kept, .inr
          ⟨misfit_at.mpr ⟨hlen, H.not_mem_keys_iff.mp hnew⟩, ⟨_, I⟩, _, by rw [hdims]; rfl⟩⟩

theorem Allocating.usable {s t : ChunkStore} {a : Contents} {chunks : List Entry} {al : Allocation}
    (H : Usable s a) (I : Allocating s a chunks al t)
    (hdb : (t.conn.withRows a.table.size (a.table.novel chunks)).Repr (a.table.insertAll chunks)) :
    Usable { t with conn := t.conn.withRows a.table.size (a.table.novel chunks) }
      (a.insertBatch chunks) where
  pair := {
    db := hdb
    commit := by
      rw [I.kept.conn]; exact H.pair.commit
    file := I.ready.file
    dims := by
      rw [← I.kept.file.dims.symm]; exact H.pair.dims
    modelId := by
      rw [I.kept.file.header]; exact H.pair.modelId
    rows := by
      rw [← I.ready.rows]; exact (congrArg (·.rows) I.header).ge
    vectors := I.vectors }
  ready := I.ready
  rows := congrArg (·.rows) I.header

/-- The transaction takes up the novel chunks, one row after the other. -/
theorem insertRecords_loop {s : ChunkStore} (fails : InsertStep → Bool) :
    ∀ (new : List Entry) {db : Db} {t : ChunkTable} (j : Nat), db.Repr t → t.novel new = new →
      Prog.wp (σ := ChunkStore) (ε := Failure) (ι := Step)
        (Prog.foldlP (fun (p : Nat × Db) (q : RowId × ChunkRecord) => do
          failAt (fails (.insertChunk p.1))
          let db ← .ofExcept ((Db.insertChunk p.2 q.1 q.2).mapError .error)
          return (p.1 + 1, db)) (j, db) ((new.zipIdx t.size).map fun p => (p.2, p.1.1)))
        (fun p u => u = s ∧ p.2 = db.withRows t.size new ∧ p.2.Repr (t.insertAll new))
        (fun err u => u = s ∧ (∃ j, fails (.insertChunk j)) ∧ err = .injected) (fun _ _ => False)
        s
  | [], db, t, j, H, _ => by simp [Prog.foldlP, H, Db.withRows]
  | e :: new, db, t, j, H, hn => by
    have he : e.hash ∉ t.keys := fun h => by
      have := RowTable.novel_sublist new t
      rw [RowTable.novel_of_mem h] at hn
      rw [hn] at this
      exact absurd this.length_le (by simp)
    rw [RowTable.novel_of_not_mem he, List.cons.injEq] at hn
    obtain ⟨hi, H'⟩ := H.insertChunk he
    have ih := insertRecords_loop (s := s) fails new (j + 1) H' hn.2
    rw [RowTable.insert_size he] at ih
    simp only [List.zipIdx_cons, List.map_cons, Prog.foldlP, Prog.wp_bind, wp_failAt, hi,
      Except.mapError, Prog.wp_ofExcept, Prog.wp_pure, RowTable.insertAll_cons]
    refine ⟨fun h => ⟨trivial, ⟨j, h⟩, trivial⟩, fun _ =>
      ih.mono ?_ (fun _ _ h => h) (fun _ _ h => h)⟩
    exact fun p u h => ⟨h.1, h.2.1.trans (Db.withRows_cons ..), h.2.2⟩

/-- What the durable steps of `insertBatch` leave: the new contents once the transaction is
committed, before that the old ones. -/
def InsertCut (s : ChunkStore) (a : Contents) (chunks : List Entry) (l : Step) (t : ChunkStore) :
    Prop :=
  if l = .sqlCommit then
    s.Accepts chunks ∧ Frame s t ∧ Pair t.conn t.matrix.file (a.insertBatch chunks)
  else Kept s t

/-- The rollback gives the handle back as it was before the batch. -/
theorem rollbackRows_wp {s t : ChunkStore} {a : Contents} (H : Usable s a) (hk : Kept s t)
    (hm : t.matrix.WF) (fails : InsertStep → Bool) :
    Prog.wp (rollbackRows fails s.matrix.rows)
      (fun _ u => Kept s u ∧ Usable u a ∧ u.matrix.WF)
      (fun err u => Kept s u ∧ ¬MetadataFault fails ∧ err = .injected)
      (fun l u => l ≠ .sqlCommit ∧ Kept s u) t := by
  let f : MatrixFile := { t.matrix.file with
    header := { t.matrix.file.header with rows := s.matrix.rows } }
  have hrows : s.matrix.rows = s.matrix.file.rows := H.ready.rows
  have hf : f.WF := by
    have := hk.file.cut.1
    rwa [← hrows] at this
  have hext : s.matrix.file.Extends f :=
    ⟨hf, by rw [show f.header = { t.matrix.file.header with rows := s.matrix.rows } from rfl,
      hk.file.header]; rfl, hrows.ge, hk.file.vector⟩
  obtain ⟨m, hopen, hm', hpath, hfile⟩ := EmbeddingMatrix.openMut_wf t.matrix.path hf
  have henc : ({ t.matrix.header with rows := s.matrix.rows } : MatrixHeader).encode =
      .ok f.header := by
    rw [hm.header]; exact (hm.file.header.withRows _).encode
  have hk1 : Kept s { t with matrix := { t.matrix with file := f } } :=
    ⟨⟨hk.frame.dir, hk.frame.dbPath, hk.frame.matrixPath⟩, hk.conn, hext⟩
  have hk2 : Kept s { t with matrix := m } :=
    ⟨⟨hk.frame.dir, hk.frame.dbPath, hpath.trans hk.frame.matrixPath⟩, hk.conn, hfile ▸ hext⟩
  have hu : Usable { t with matrix := m } a :=
    ⟨by rw [show ({ t with matrix := m } : ChunkStore).conn = s.conn from hk.conn]
        exact H.pair.extends hk2.file, hm'.ready,
      by rw [hm'.ready.rows, hfile]; exact H.rows⟩
  have hopen' : EmbeddingMatrix.openMut t.matrix.path
      { header := f.header, cells := t.matrix.file.cells } = .ok m := hopen
  simp only [rollbackRows, Prog.wp_bind, Prog.wp_get, wp_failAt, henc, Except.mapError,
    Prog.wp_ofExcept, Prog.wp_durable, hopen', Prog.wp_modify]
  exact ⟨fun h => ⟨hk, fun hm => by simpa using hm _ h, trivial⟩, fun _ => ⟨⟨by decide, hk1⟩,
    fun h => ⟨hk1, fun hm => by simpa using hm _ h, trivial⟩, fun _ => ⟨hk2, hu, hm'⟩⟩⟩

/-- The state that a failing step of `insertBatch` leaves; the metadata steps are rolled back, and
the rollback is not run unless one of them fails. -/
def InsertFault (s : ChunkStore) (a : Contents) (chunks : List Entry) (f : InsertStep)
    (u : ChunkStore) : Prop :=
  match f with
  | .lookup _ | .append _ _ => ∃ done rest, chunks = done ++ rest ∧ AllocFault s a done f u
  | .flush => ∃ al, Allocating s a chunks al u
  | .begin | .insertChunk _ | .beforeCommit | .commit => True
  | .rollbackHeader | .rollbackReopen => False

/-- How a batch fails. The check of the lengths comes before everything else; a vector that it has
let through may still be none of the store, which shows when it is to be appended. -/
inductive InsertStop (s : ChunkStore) (a : Contents) (fails : InsertStep → Bool)
    (chunks : List Entry) : Failure → ChunkStore → Prop
  | refused {got} : s.Refuses chunks →
    InsertStop s a fails chunks (.error (.dimensionMismatch s.matrix.dims got)) s
  | misfit {i al got t} : ¬s.Refuses chunks → s.Misfit chunks i →
    Allocating s a (chunks.take i) al t →
    InsertStop s a fails chunks (.error (.dimensionMismatch s.matrix.dims got)) t
  | fault {f t} : fails f = true → InsertFault s a chunks f t →
    (MetadataFault fails → Usable t a ∧ t.matrix.WF) → InsertStop s a fails chunks .injected t

/-- With the vectors in the matrix, the transaction publishes the batch, or it fails and the rows
are rolled back. -/
theorem insertRecords_wp {s t : ChunkStore} {a : Contents} {al : Allocation} {chunks : List Entry}
    (H : Usable s a) (I : Allocating s a chunks al t) (hm : t.matrix.WF)
    (hrefuses : ¬s.Refuses chunks) (fails : InsertStep → Bool) :
    Prog.wp (.onError (insertRecords fails al.newRows) fun _ => rollbackRows fails s.matrix.rows)
      (fun _ u => Usable u (a.insertBatch chunks) ∧ u.matrix.WF ∧ Frame s u ∧
        u.conn = s.conn.withRows a.table.size (a.table.novel chunks))
      (fun err u => Kept s u ∧ InsertStop s a fails chunks err u) (InsertCut s a chunks) t := by
  have hroll := rollbackRows_wp H I.kept hm fails
  have hback : ∀ {f}, fails f = true → (∀ u, InsertFault s a chunks f u) →
      Prog.wp (rollbackRows fails s.matrix.rows)
        (fun _ u => Kept s u ∧ InsertStop s a fails chunks .injected u)
        (fun err u => Kept s u ∧ InsertStop s a fails chunks err u) (InsertCut s a chunks) t := by
    intro f hf hi
    refine hroll.mono (fun _ u h => ⟨h.1, .fault hf (hi u) fun _ => h.2⟩) ?_ ?_
    · rintro _ u ⟨hk, hnot, rfl⟩
      exact ⟨hk, .fault hf (hi u) fun hmeta => absurd hmeta hnot⟩
    · intro l u h
      rw [InsertCut, if_neg h.1]
      exact h.2
  simp only [Prog.wp_onError, insertRecords, Prog.wp_bind, wp_failAt, Prog.wp_get, Prog.wp_durable]
  refine ⟨fun h => hback h fun _ => trivial, fun _ => ?_⟩
  have hdb : t.conn.Repr a.table := by rw [I.kept.conn]; exact H.pair.db
  rw [I.newRows]
  refine (insertRecords_loop fails _ 0 hdb (RowTable.novel_novel _ _)).mono ?_ ?_ ?_
  · rintro ⟨j, db⟩ t ⟨rfl, rfl, hdb⟩
    rw [RowTable.insertAll_novel] at hdb
    have hu := I.usable H hdb
    have hframe : Frame s { t with conn := t.conn.withRows a.table.size (a.table.novel chunks) } :=
      ⟨I.kept.frame.dir, I.kept.frame.dbPath, I.kept.frame.matrixPath⟩
    refine ⟨fun h => hback h fun _ => trivial, fun _ => ⟨fun h => hback h fun _ => trivial,
      fun _ => ⟨?_, hu, hm, hframe, ?_⟩⟩⟩
    · rw [InsertCut, if_pos rfl]
      exact ⟨⟨hrefuses, I.fits⟩, hframe, hu.pair⟩
    · rw [← I.kept.conn]
  · rintro _ _ ⟨rfl, ⟨j, hj⟩, rfl⟩
    exact hback hj fun _ => trivial
  · exact fun _ _ h => h.elim

theorem insertBatch_wp {s : ChunkStore} {a : Contents} (H : Usable s a)
    (fails : InsertStep → Bool) (chunks : List Entry) :
    Prog.wp (insertBatch fails chunks)
      (fun rows t => Usable t (a.insertBatch chunks) ∧ t.matrix.WF ∧ Frame s t ∧
        List.Forall₂ (RowOf (a.table.insertAll chunks)) rows chunks ∧
        t.conn = s.conn.withRows a.table.size (a.table.novel chunks) ∧ s.Accepts chunks)
      (fun err t => Kept s t ∧ (s.matrix.WF → InsertStop s a fails chunks err t))
      (InsertCut s a chunks) s := by
  have hrefl : Kept s s := ⟨.refl s, rfl, .refl H.ready.file⟩
  have hcut : ∀ l t, l ≠ Step.sqlCommit ∧ Kept s t → InsertCut s a chunks l t := fun l t h => by
    rw [InsertCut, if_neg h.1]; exact h.2
  simp only [insertBatch, Prog.wp_bind, Prog.wp_get]
  cases hf : chunks.find? (·.2.length % 2 ^ 32 ≠ s.matrix.dims % 2 ^ 32) with
  | some chunk =>
    simp only [Prog.wp_bind, Prog.wp_fail]
    exact ⟨hrefl, fun _ => .refused ⟨chunk, List.mem_of_find?_eq_some hf,
      by simpa using List.find?_some hf⟩⟩
  | none =>
    have hrefuses : ¬s.Refuses chunks := by
      rintro ⟨e, he, hne⟩
      exact hne (by simpa using List.find?_eq_none.mp hf e he)
    have hloop := Prog.wp_foldlP (f := allocate fails)
      (E := fun err t => Kept s t ∧ ∃ done e rest, chunks = done ++ e :: rest ∧
        AllocStop s a fails done e err t)
      (C := fun l t => l ≠ .sqlCommit ∧ Kept s t)
      (fun done rest al t => chunks = done ++ rest ∧ Allocating s a done al t)
      (fun done e rest al t I => (allocate_wp H I.2 fails).mono
        (fun _ _ h => ⟨by rw [I.1, List.append_assoc]; rfl, h⟩)
        (fun _ _ h => ⟨h.1, done, e, rest, I.1, h.2⟩) (fun _ _ h => h))
      chunks [] _ s ⟨rfl, Allocating.init H⟩
    simp only [Prog.wp_bind, Prog.wp_pure]
    refine hloop.mono ?_ ?_ hcut
    · rintro al t ⟨-, I⟩
      rw [List.nil_append] at I
      simp only [inMatrix, Prog.wp_focus]
      refine (EmbeddingMatrix.flush_wp I.ready _).mono ?_ ?_ ?_
      · rintro _ _ ⟨rfl, hm⟩
        exact (insertRecords_wp H I hm hrefuses fails).mono
          (fun _ _ h => ⟨h.1, h.2.1, h.2.2.1, I.result, h.2.2.2, hrefuses, I.fits⟩)
          (fun _ _ h => ⟨h.1, fun _ => h.2⟩) (fun _ _ h => h)
      · rintro _ _ ⟨rfl, hfail⟩
        refine ⟨I.kept, fun hwf => ?_⟩
        obtain ⟨hflush, rfl⟩ := hfail (I.wf (.inl hwf))
        exact .fault hflush ⟨_, I⟩ fun hmeta => by simpa using hmeta _ hflush
      · rintro l _ ⟨hl, rfl⟩
        exact hcut l _ ⟨hl.ne_sqlCommit, I.kept⟩
    · rintro _ t ⟨hk, done, e, rest, rfl, hstop⟩
      refine ⟨hk, fun _ => ?_⟩
      rcases hstop with ⟨f, hf, hfault, rfl⟩ | ⟨hmisfit, ⟨al, I⟩, got, rfl⟩
      · cases f with
        | lookup | append =>
          exact .fault hf ⟨done, _, rfl, hfault⟩ fun hmeta => by simpa using hmeta _ hf
        | _ => exact hfault.elim
      · have htake : (done ++ e :: rest).take done.length = done := List.take_left
        exact .misfit hrefuses (misfit_at.mpr (misfit_at.mp hmisfit)) (htake.symm ▸ I)

theorem Repr.insertCut_recovers {s t : ChunkStore} {a : Contents} (H : Repr s a)
    {chunks : List Entry} {l : Step} (h : InsertCut s a chunks l t) :
    RecoversTo t.onDisk (if l = .sqlCommit then a.insertBatch chunks else a) := by
  unfold InsertCut at h
  split at h
  · rw [if_pos ‹_›]; exact H.recovers_pair h.2.1 h.2.2
  · rw [if_neg ‹_›]; exact H.recovers_kept h

end SiftMcp
