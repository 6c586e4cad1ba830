import SiftMcp.Storage.Store
import SiftMcp.Storage.MatrixLemmas
import SiftMcp.Lib.RowTable
import Mathlib.Data.List.TakeWhile

/-!
# What a store holds

`Contents` is the store as its callers think of it: a table of chunks with their vectors, keyed by
content hash, and the commit marker. `Repr s a` says that the handle `s` holds the contents `a` and
is attached to the pair of files that the manifest names; `RecoversTo d a` says that opening the
directory `d` gives a handle that holds `a`.
-/

namespace SiftMcp
open Durable

abbrev Entry := ChunkRecord × List F16

def Entry.hash (e : Entry) : ContentHash := e.1.contentHash

abbrev ChunkTable := RowTable Entry.hash

structure Contents where
  dims : Nat
  modelId : String
  indexedCommit : Option String
  table : ChunkTable

namespace Contents

def stats (a : Contents) : StoreStats := ⟨a.table.live.length, a.table.size - a.table.live.length⟩

def insertBatch (a : Contents) (chunks : List Entry) : Contents :=
  { a with table := a.table.insertAll chunks }

def tombstone (a : Contents) (rows : List RowId) : Contents :=
  { a with table := a.table.retire rows }

def rekeyEntry (oldFile newFile : String) (e : Entry) : Entry :=
  if e.1.file = oldFile then ({ e.1 with file := newFile }, e.2) else e

theorem hash_rekeyEntry (oldFile newFile : String) (e : Entry) :
    (rekeyEntry oldFile newFile e).hash = e.hash := by
  unfold rekeyEntry Entry.hash; split <;> rfl

def rekeyFile (a : Contents) (oldFile newFile : String) : Contents :=
  { a with table := a.table.relabel (rekeyEntry oldFile newFile) (hash_rekeyEntry oldFile newFile) }

def setIndexedCommit (a : Contents) (commit : String) : Contents :=
  { a with indexedCommit := some commit }

def compact (a : Contents) : Contents := { a with table := a.table.compact }

/-- The live chunks with their rows and vectors. -/
def live (a : Contents) : List (RowId × Entry) := a.table.live

end Contents

/-! ## The database -/

/-- The database with new live rows, numbered on. -/
def Db.withRows (db : Db) (size : Nat) (es : List Entry) : Db :=
  { db with chunks := db.chunks ++ (es.zipIdx size).map fun p => ⟨p.2, p.1.1, true⟩ }

theorem Db.withRows_cons (db : Db) (size : Nat) (e : Entry) (es : List Entry) :
    (db.withRows size [e]).withRows (size + 1) es = db.withRows size (e :: es) := by
  simp [withRows]

/-- A database whose rows are those of the table. -/
structure Db.Repr (db : Db) (t : ChunkTable) : Prop where
  tables : db.tables = true
  version : db.metaValue "schema_version" = some (toString schemaVersion)
  rowids : db.chunks.map (·.rowid) = List.range t.size
  live : db.live.map (fun c => (c.rowid, c.record)) = t.live.map fun p => (p.1, p.2.1)

namespace Db.Repr

variable {db : Db} {t : ChunkTable}

theorem getByHash (H : db.Repr t) (h : ContentHash) :
    db.getByHash h = (t.live.find? (·.2.hash = h)).map fun p => (p.1, p.2.1) := by
  have := congrArg (List.find? fun p : RowId × ChunkRecord => p.2.contentHash = h) H.live
  rw [List.find?_map, List.find?_map] at this
  exact this

theorem get (H : db.Repr t) (r : RowId) :
    db.get r = (t.live.find? (·.1 = r)).map fun p => p.2.1 := by
  have := congrArg (fun l : List (RowId × ChunkRecord) => (l.find? (·.1 = r)).map (·.2)) H.live
  simp only [List.find?_map, Option.map_map] at this
  exact this

theorem get_of_mem (H : db.Repr t) {p : RowId × Entry} (hp : p ∈ t.live) :
    db.get p.1 = some p.2.1 := by
  rw [H.get]
  cases hf : t.live.find? (·.1 = p.1) with
  | none => simpa using List.find?_eq_none.mp hf p hp
  | some q =>
    have hrow : q.1 = p.1 := by simpa using List.find?_some hf
    rw [RowTable.eq_of_row (List.mem_of_find?_eq_some hf) hp hrow]
    rfl

theorem rowsForFile (H : db.Repr t) (file : String) :
    db.rowsForFile file = (t.live.filter (·.2.1.file = file)).map (·.1) := by
  have := congrArg (fun l : List (RowId × ChunkRecord) =>
    (l.filter (·.2.file = file)).map (·.1)) H.live
  simp only [List.filter_map, List.map_map] at this
  exact this

theorem liveRows (H : db.Repr t) : db.liveRows = t.rows := by
  have := congrArg (List.map (·.1)) H.live
  rw [List.map_map, List.map_map] at this
  exact this

theorem length_live (H : db.Repr t) : db.live.length = t.live.length := by
  simpa using congrArg List.length H.live

theorem length_chunks (H : db.Repr t) : db.chunks.length = t.size := by
  simpa using congrArg List.length H.rowids

theorem stats (H : db.Repr t) : db.stats = ⟨t.live.length, t.size - t.live.length⟩ := by
  have h := List.length_eq_length_filter_add (l := db.chunks) (·.live)
  rw [H.length_chunks] at h
  have hl : (db.chunks.filter (·.live)).length = t.live.length := H.length_live
  simp only [Db.stats, H.length_live, StoreStats.mk.injEq, true_and]
  omega

theorem hashes (H : db.Repr t) : db.live.map (·.hash) = t.keys := by
  have := congrArg (List.map fun p : RowId × ChunkRecord => p.2.contentHash) H.live
  rw [List.map_map, List.map_map] at this
  exact this

theorem countRow (H : db.Repr t) (i : RowId) : db.countRow i = if i < t.size then 1 else 0 := by
  have h : db.countRow i = (db.chunks.map (·.rowid)).count i := by
    rw [List.count, List.countP_map]
    exact List.countP_congr fun c _ => by simp
  rw [h, H.rowids]
  split
  · rename_i hi
    exact List.count_eq_one_of_mem List.nodup_range (List.mem_range.mpr hi)
  · rename_i hi
    exact List.count_eq_zero.mpr (mt List.mem_range.mp hi)

theorem maxRowid (H : db.Repr t) : db.maxRowid.elim 0 (· + 1) = t.size := by
  rw [Db.maxRowid, H.rowids]
  cases h : t.size with
  | zero => rfl
  | succ n =>
    have : (List.range (n + 1)).max? = some n := by
      rw [List.max?_eq_some_iff]
      exact ⟨by simp, fun b hb => Nat.le_of_lt_succ (List.mem_range.mp hb)⟩
    rw [this, Option.elim_some]

theorem duplicateHashRows (H : db.Repr t) : db.duplicateHashRows = [] := by
  have hd : (db.live.map (·.hash)).Nodup := H.hashes ▸ t.distinct
  rw [Db.duplicateHashRows, List.filter_eq_nil_iff.mpr, List.map_nil]
  intro c hc
  have h : db.live.countP (·.hash = c.hash) = (db.live.map (·.hash)).count c.hash := by
    rw [List.count, List.countP_map]
    exact List.countP_congr fun c _ => by simp
  rw [h, List.count_eq_one_of_mem hd (List.mem_map_of_mem hc)]
  simp

theorem tombstone (H : db.Repr t) (rows : List RowId) :
    (db.tombstone rows).Repr (t.retire rows) := by
  refine ⟨H.tables, H.version, ?_, ?_⟩
  · rw [Db.tombstone, List.map_map, RowTable.retire, ← H.rowids]
    refine List.map_congr_left fun c _ => ?_
    simp only [Function.comp_apply]
    split <;> rfl
  · have hl : (db.tombstone rows).live = db.live.filter (·.rowid ∉ rows) := by
      simp only [Db.live, Db.tombstone, List.filter_map, List.filter_filter]
      rw [List.map_congr_left (g := id), List.map_id]
      · refine List.filter_congr fun c _ => ?_
        by_cases h : c.rowid ∈ rows <;> simp [h]
      · intro c hc
        have := (List.mem_filter.mp hc).2
        by_cases h : c.rowid ∈ rows <;> simp_all
    have := congrArg (List.filter fun p : RowId × ChunkRecord => p.1 ∉ rows) H.live
    rw [List.filter_map, List.filter_map] at this
    rw [hl]
    exact this

theorem rekeyFile (H : db.Repr t) (oldFile newFile : String) :
    (db.rekeyFile oldFile newFile).Repr (t.relabel (Contents.rekeyEntry oldFile newFile)
      (Contents.hash_rekeyEntry oldFile newFile)) := by
  refine ⟨H.tables, H.version, ?_, ?_⟩
  · rw [Db.rekeyFile, List.map_map, RowTable.relabel, ← H.rowids]
    refine List.map_congr_left fun c _ => ?_
    simp only [Function.comp_apply]
    split <;> rfl
  · let f : RowId × ChunkRecord → RowId × ChunkRecord := fun p =>
      if p.2.file = oldFile then (p.1, { p.2 with file := newFile }) else p
    have hl : (db.rekeyFile oldFile newFile).live.map (fun c => (c.rowid, c.record)) =
        (db.live.map fun c => (c.rowid, c.record)).map f := by
      rw [Db.rekeyFile, Db.live, List.filter_map, List.map_map, List.map_map, Db.live]
      have : ((fun c : ChunkRow => c.live) ∘ fun c => if c.live ∧ c.record.file = oldFile then
          { c with record := { c.record with file := newFile } } else c) = (·.live) := by
        funext c; simp only [Function.comp_apply]; split <;> rfl
      rw [this]
      refine List.map_congr_left fun c hc => ?_
      have hlive : c.live = true := (List.mem_filter.mp hc).2
      simp only [Function.comp_apply, hlive, true_and, f]
      split <;> rfl
    rw [hl, H.live, List.map_map, RowTable.relabel, List.map_map]
    refine List.map_congr_left fun p _ => ?_
    simp only [Function.comp_apply, Contents.rekeyEntry, f]
    split <;> rfl

theorem metaValue_setMeta_of_ne {key key' value : String} (h : key' ≠ key) :
    (db.setMeta key value).metaValue key' = db.metaValue key' := by
  have h' : ¬key = key' := fun e => h e.symm
  simp only [Db.metaValue, Db.setMeta, List.find?_cons, h', decide_false, List.find?_filter]
  congr 2
  funext p
  by_cases hp : p.1 = key' <;> simp [hp, h]

theorem metaValue_setMeta {key value : String} :
    (db.setMeta key value).metaValue key = some value := by
  simp [Db.metaValue, Db.setMeta]

theorem setMeta (H : db.Repr t) {key value : String} (h : key ≠ "schema_version") :
    (db.setMeta key value).Repr t :=
  ⟨H.tables, (metaValue_setMeta_of_ne h.symm).trans H.version, H.rowids, H.live⟩

theorem insertChunk (H : db.Repr t) {e : Entry} (he : e.hash ∉ t.keys) :
    db.insertChunk t.size e.1 = .ok (db.withRows t.size [e]) ∧
      (db.withRows t.size [e]).Repr (t.insert e) := by
  have hmem : ∀ c ∈ db.chunks, c.rowid < t.size := fun c hc => by
    rw [← List.mem_range, ← H.rowids]; exact List.mem_map_of_mem hc
  have hrow : db.chunks.any (·.rowid = t.size) = false := by
    rw [List.any_eq_false]
    exact fun c hc => by simpa using Nat.ne_of_lt (hmem c hc)
  have hhash : db.live.any (·.hash = e.1.contentHash) = false := by
    rw [List.any_eq_false]
    intro c hc
    have : c.hash ∈ t.keys := H.hashes ▸ List.mem_map_of_mem hc
    have hne : c.hash ≠ e.hash := fun h => he (h ▸ this)
    simpa [Entry.hash] using hne
  have htake : db.chunks.takeWhile (·.rowid < t.size) = db.chunks := by
    rw [List.takeWhile_eq_self_iff]; simpa using hmem
  have hdrop : db.chunks.dropWhile (·.rowid < t.size) = [] := by
    rw [List.dropWhile_eq_nil_iff]; simpa using hmem
  have hins : db.insertChunk t.size e.1 =
      .ok { db with chunks := db.chunks ++ [⟨t.size, e.1, true⟩] } := by
    simp only [Db.insertChunk, hrow, hhash, htake, hdrop]
    rfl
  refine ⟨hins, H.tables, H.version, ?_, ?_⟩
  · simp [withRows, H.rowids, RowTable.insert_size he, List.range_succ]
  · rw [RowTable.insert_live he, Db.live, withRows, List.filter_append, List.map_append,
      List.map_append]
    exact congrArg (· ++ _) H.live

end Db.Repr

/-! ## The pair of files and the handle -/

/-- A database and a matrix file that hold the contents. The file may have rows behind those of the
database: `open` reclaims them. -/
structure Pair (conn : Db) (f : MatrixFile) (a : Contents) : Prop where
  db : conn.Repr a.table
  commit : conn.metaValue "indexed_commit" = a.indexedCommit
  file : f.WF
  dims : f.dims = a.dims
  modelId : f.header.modelId = a.modelId
  rows : a.table.size ≤ f.rows
  vectors : ∀ p ∈ a.table.live, f.vector p.1 = p.2.2

theorem Pair.extends {db : Db} {f g : MatrixFile} {a : Contents} (H : Pair db f a)
    (hg : f.Extends g) : Pair db g a where
  db := H.db
  commit := H.commit
  file := hg.wf
  dims := hg.dims.trans H.dims
  modelId := by rw [hg.header]; exact H.modelId
  rows := H.rows.trans hg.rows
  vectors p hp := (hg.vector _ ((a.table.inside p hp).trans_le H.rows)).trans (H.vectors p hp)

theorem Pair.length_vector {db : Db} {f : MatrixFile} {a : Contents} (H : Pair db f a)
    {p : RowId × Entry} (hp : p ∈ a.table.live) : p.2.2.length = a.dims := by
  have hrow : p.1 * f.dims + f.dims ≤ f.cells.length :=
    (MatrixFile.row_end_le ((a.table.inside p hp).trans_le H.rows)).trans H.file.rows
  rw [← H.vectors p hp, MatrixFile.vector, List.length_take, List.length_drop, ← H.dims]
  exact Nat.min_eq_left (Nat.le_sub_of_add_le' hrow)

/-- A row appended to the file is the row the table gives the chunk. -/
theorem vectors_insert {f g : MatrixFile} {t : ChunkTable} {e : Entry} (hext : f.Extends g)
    (hrows : f.rows = t.size) (hv : g.vectors = f.vectors ++ [e.2]) (hnew : e.hash ∉ t.keys)
    (H : ∀ p ∈ t.live, f.vector p.1 = p.2.2) : ∀ p ∈ (t.insert e).live, g.vector p.1 = p.2.2 := by
  intro p hp
  have hlen : g.rows = f.rows + 1 := by simpa using congrArg List.length hv
  rw [RowTable.insert_live hnew] at hp
  rcases List.mem_append.mp hp with hp | hp
  · rw [hext.vector _ (by rw [hrows]; exact t.inside p hp)]
    exact H p hp
  · obtain rfl := List.mem_singleton.mp hp
    have hlast : g.vectors[f.rows]? = some e.2 := by simp [hv]
    rw [MatrixFile.getElem?_vectors (by omega)] at hlast
    rw [← hrows]
    exact Option.some.inj hlast

/-- The handle holds the contents, and is attached to the active pair. -/
structure Repr (s : ChunkStore) (a : Contents) : Prop where
  pair : Pair s.conn s.matrix.file a
  matrix : s.matrix.WF
  rows : s.matrix.rows = a.table.size
  active : activePaths s.dir = .ok (s.dbPath, s.matrix.path)
  dbPath : s.dbPath.toList.head? = some 'c'
  matrixPath : s.matrix.path.toList.head? = some 'e'

def RecoversTo (d : Dir) (a : Contents) : Prop := ∃ s, ChunkStore.open d = .ok s ∧ Repr s a

/-! ## Opening -/

theorem activePaths_congr {d d' : Dir} (h : d manifestName = d' manifestName) :
    activePaths d = activePaths d' := by
  simp only [activePaths, h]

namespace ChunkStore

theorem verify_ok {s : ChunkStore} {t : ChunkTable} (H : s.conn.Repr t)
    (hr : s.matrix.rows = t.size) : s.verify = .ok t.live.length := by
  have horphans : (List.range s.matrix.rows).filter (fun i => s.conn.countRow i = 0) = [] := by
    rw [List.filter_eq_nil_iff]
    intro i hi
    rw [List.mem_range, hr] at hi
    simp [H.countRow, hi]
  have htwice : (List.range s.matrix.rows).filter (fun i => s.conn.countRow i > 1) = [] := by
    rw [List.filter_eq_nil_iff]
    intro i hi
    rw [List.mem_range, hr] at hi
    simp [H.countRow, hi]
  have hmissing : (s.conn.chunks.map (·.rowid)).filter (· ≥ s.matrix.rows) = [] := by
    rw [List.filter_eq_nil_iff, H.rowids, hr]
    intro i hi
    simpa using hi
  simp [verify, horphans, htwice, hmissing, H.duplicateHashRows, stats, H.stats]

/-- Rows behind those of the database are dropped, and nothing else changes. -/
theorem reclaimTrailingOrphans_repr {s : ChunkStore} {a : Contents}
    (H : Pair s.conn s.matrix.file a) (hm : s.matrix.WF)
    (active : activePaths s.dir = .ok (s.dbPath, s.matrix.path))
    (hdb : s.dbPath.toList.head? = some 'c') (hpath : s.matrix.path.toList.head? = some 'e') :
    ∃ s', s.reclaimTrailingOrphans = .ok s' ∧ Repr s' a := by
  have hrows : s.matrix.rows = s.matrix.file.rows := hm.ready.rows
  have hcount : ((List.range a.table.size).any fun i => s.conn.countRow i ≠ 1) = false := by
    rw [List.any_eq_false]
    intro i hi
    simp [H.db.countRow, List.mem_range.mp hi]
  by_cases hle : s.matrix.rows ≤ a.table.size
  · refine ⟨s, ?_, H, hm, hle.antisymm (hrows ▸ H.rows), active, hdb, hpath⟩
    simp [reclaimTrailingOrphans, H.db.maxRowid, H.db.length_chunks, hle]
  · let f : MatrixFile := { s.matrix.file with
      header := { s.matrix.file.header with rows := a.table.size } }
    have hf : f.WF := ⟨H.file.header.withRows _, H.file.whole,
      (Nat.mul_le_mul_right _ H.rows).trans H.file.rows⟩
    obtain ⟨m, hopen, hm', hpath', hfile⟩ := EmbeddingMatrix.openMut_wf s.matrix.path hf
    have henc : ({ s.matrix.header with rows := a.table.size } : MatrixHeader).encode =
        .ok f.header := by
      rw [hm.header]; exact (H.file.header.withRows _).encode
    refine ⟨{ s with matrix := m }, ?_, ?_⟩
    · simp only [reclaimTrailingOrphans, H.db.maxRowid, H.db.length_chunks, hle, hcount, henc,
        Except.mapError, bind, Except.bind, pure, Except.pure]
      rw [if_neg (by simp), if_neg (by simp), if_neg (by simp)]
      rw [show ({ header := f.header, cells := s.matrix.file.cells } : MatrixFile) = f from rfl,
        hopen]
    · refine ⟨⟨H.db, H.commit, hm'.file, ?_, ?_, ?_, ?_⟩, hm', ?_, ?_, hdb, ?_⟩
      · rw [hfile]; exact H.dims
      · rw [hfile]; exact H.modelId
      · rw [hfile]; exact Nat.le_refl _
      · rw [hfile]; exact H.vectors
      · rw [hm'.ready.rows, hfile]; rfl
      · rw [hpath']; exact active
      · rw [hpath']; exact hpath

/-- A directory whose active pair holds the contents opens to a handle that holds them. -/
theorem recoversTo_of_pair {d : Dir} {p q : String} {db : Db} {f : MatrixFile} {a : Contents}
    (active : activePaths d = .ok (p, q)) (hp : p.toList.head? = some 'c')
    (hq : q.toList.head? = some 'e') (hdb : d p = some (.db db)) (hf : d q = some (.matrix f))
    (H : Pair db f a) : RecoversTo d a := by
  obtain ⟨m, hopen, hm, hpath, hfile⟩ := EmbeddingMatrix.openMut_wf q H.file
  have hversion : db.metaU32 "schema_version" = .ok 1 := by
    have h1 : Db.parseU32 (toString schemaVersion) = some 1 := by decide
    simp only [Db.metaU32, H.db.tables, H.db.version, h1]
    rfl
  obtain ⟨s, hs, hrepr⟩ := reclaimTrailingOrphans_repr
    (s := { dir := d, dbPath := p, conn := db, matrix := m }) (a := a) (hfile ▸ H) hm
    (hpath ▸ active) hp (hpath ▸ hq)
  refine ⟨s, ?_, hrepr⟩
  simp only [ChunkStore.open, active, openConnection, hdb, hversion, openMatrix, hf, hopen, hs,
    bind, Except.bind, pure, Except.pure, Except.mapError, verify_ok hrepr.pair.db hrepr.rows]
  rfl

end ChunkStore

end SiftMcp
