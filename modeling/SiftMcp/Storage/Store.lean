import SiftMcp.Storage.Dir

/-!
# The chunk store

`ChunkStore` is the handle a process holds: the database behind its connection, its matrix, and
the other files of the directory. The pair it holds is written through to the two files it was
opened from, so what a killed process leaves behind is `ChunkStore.onDisk`.
-/

namespace SiftMcp
open Durable

def schemaVersion : Nat := 1

/-- Report from compaction. -/
structure CompactionReport where
  liveBefore : Nat
  deadReclaimed : Nat
  liveAfter : Nat
  rowMapping : List (RowId × RowId)
deriving DecidableEq

structure ChunkStore where
  dir : Dir
  dbPath : String
  conn : Db
  matrix : EmbeddingMatrix

/-- The fallible calls of `insert_batch`. `lookup` and `append` carry the position in the batch,
`insertChunk` the position among the new rows. `beforeCommit` is the test hook. -/
inductive InsertStep
  | lookup (i : Nat)
  | append (i : Nat) (a : AppendStep)
  | flush
  | begin
  | insertChunk (j : Nat)
  | beforeCommit | commit
  | rollbackHeader | rollbackReopen
deriving DecidableEq

/-- The fallible calls of `compact`, in program order. -/
inductive CompactStep
  | stats | selectLive | indexedCommit
  | create (c : CreateStep)
  | openDb | configure | initSchema | setSchemaVersion | setIndexedCommit
  | begin
  | append (i : Nat) (a : AppendStep)
  | insertChunk (i : Nat)
  | flush | commit
  | openForTruncate | truncate
  | publish (p : PublishStep)
  | reopenDb | reconfigure | reopenMatrix
  | removeMatrix | removeDb
  | statsAfter
deriving DecidableEq

namespace ChunkStore

/-- The directory as a killed process leaves it. -/
def onDisk (s : ChunkStore) : Dir :=
  (s.dir.write s.dbPath (.db s.conn)).write s.matrix.path (.matrix s.matrix.file)

def inDir {α : Type} (m : Prog Dir Failure Step α) : Prog ChunkStore Failure Step α :=
  .focus (·.dir) (fun d s => { s with dir := d }) id id m

def inMatrix {α : Type} (m : Prog EmbeddingMatrix Failure Step α) :
    Prog ChunkStore Failure Step α :=
  .focus (·.matrix) (fun m s => { s with matrix := m }) id id m

/-! ## Reading -/

def get (s : ChunkStore) (row : RowId) : Option ChunkRecord := s.conn.get row

def getByHash (s : ChunkStore) (hash : ContentHash) : Option (RowId × ChunkRecord) :=
  s.conn.getByHash hash

def rowsForFile (s : ChunkStore) (file : String) : List RowId := s.conn.rowsForFile file

def liveRows (s : ChunkStore) : List RowId := s.conn.liveRows

def stats (s : ChunkStore) : StoreStats := s.conn.stats

def indexedCommit (s : ChunkStore) : Option String := s.conn.metaValue "indexed_commit"

def requireModel (s : ChunkStore) (expected : String) : Except StoreError Unit :=
  if s.matrix.modelId ≠ expected then .error (.modelMismatch expected s.matrix.modelId) else .ok ()

/-- Every matrix row has one record, every record has a matrix row, and no two live records share
a content hash. -/
def verify (s : ChunkStore) : Integrity :=
  let matrixRows := s.matrix.rows
  let orphans := (List.range matrixRows).filter fun i => s.conn.countRow i = 0
  let missing := (s.conn.chunks.map (·.rowid)).filter (· ≥ matrixRows)
  let twice := (List.range matrixRows).filter fun i => s.conn.countRow i > 1
  let duplicates := twice ++ s.conn.duplicateHashRows.filter (· ∉ twice)
  if orphans = [] ∧ missing = [] ∧ duplicates = [] then .ok s.stats.live
  else .broken (orphans.insertionSort (· ≤ ·)) (missing.insertionSort (· ≤ ·))
    (duplicates.insertionSort (· ≤ ·))

/-! ## Opening and creating -/

/-- Drop trailing matrix rows that have no metadata (crash recovery). -/
def reclaimTrailingOrphans (s : ChunkStore) : Except Failure ChunkStore :=
  let expectedRows := s.conn.maxRowid.elim 0 (· + 1)
  -- Only reclaim when metadata is a dense prefix.
  if s.conn.chunks.length ≠ expectedRows then .ok s
  else if s.matrix.rows ≤ expectedRows then .ok s
  else if (List.range expectedRows).any fun i => s.conn.countRow i ≠ 1 then .ok s
  else do
    let header ← ({ s.matrix.header with rows := expectedRows } : MatrixHeader).encode.mapError
        .error
    let matrix ← EmbeddingMatrix.openMut s.matrix.path { s.matrix.file with header }
    return { s with matrix }

def «open» (d : Dir) : Except Failure ChunkStore := do
  let (dbPath, matrixPath) ← activePaths d
  let conn ← openConnection d dbPath
  let version ← (conn.metaU32 "schema_version").mapError .error
  if version ≠ schemaVersion then throw (.error (.schemaVersion schemaVersion version))
  let matrix ← openMatrix d matrixPath
  let s ← reclaimTrailingOrphans { dir := d, dbPath, conn, matrix }
  match s.verify with
  | .ok _ => return s
  | broken => throw (.error (.corrupt broken))

/-- The fallible calls of `ChunkStore::create`. -/
inductive CreateStoreStep
  | createDir
  | matrix (c : CreateStep)
  | openDb | configure | initSchema | setSchemaVersion
deriving DecidableEq

/-- Open a new database file and give it its tables. -/
def newConnection (openDb configure initSchema setVersion : Bool) (name : String) :
    Prog Dir Failure Step Db := do
  failAt openDb
  .durable .fileCreate (·.write name (.db .empty))
  failAt configure
  failAt initSchema
  let db ← .ofExcept (Db.empty.initSchema.mapError .error)
  .durable .sqlCommit (·.write name (.db db))
  failAt setVersion
  let db := db.setMeta "schema_version" (toString schemaVersion)
  .durable .sqlCommit (·.write name (.db db))
  return db

def create (fails : CreateStoreStep → Bool) (dims : Nat) (modelId : String) :
    Prog Dir Failure Step ChunkStore := do
  failAt (fails .createDir)
  let d ← .get
  if (d dbName).isSome ∨ (d matrixName).isSome then
    .fail (.error (.io .alreadyExists "store directory is not empty"))
  let matrix ← EmbeddingMatrix.create (fun c => fails (.matrix c)) matrixName dims modelId
  let conn ← newConnection (fails .openDb) (fails .configure) (fails .initSchema)
    (fails .setSchemaVersion) dbName
  return { dir := ← .get, dbPath := dbName, conn, matrix }

/-! ## Writing -/

/-- The loop variable of `insert_batch`: the position in the batch, the rows of the batch's hashes,
the rows handed out so far, and the new rows with their records. -/
structure Allocation where
  pos : Nat
  batchHashToRow : List (ContentHash × RowId)
  result : List RowId
  newRows : List (RowId × ChunkRecord)

/-- Reuse the row of a hash the batch or the store already has; append a row for any other. -/
def allocate (fails : InsertStep → Bool) (a : Allocation) (chunk : ChunkRecord × List F16) :
    Prog ChunkStore Failure Step Allocation := do
  let (rec, vec) := chunk
  let hash := rec.contentHash
  match a.batchHashToRow.lookup hash with
  | some row => return { a with pos := a.pos + 1, result := a.result ++ [row] }
  | none =>
    failAt (fails (.lookup a.pos))
    match (← .get).getByHash hash with
    | some (row, _) =>
      return { a with
        pos := a.pos + 1
        batchHashToRow := (hash, row) :: a.batchHashToRow
        result := a.result ++ [row] }
    | none =>
      let row ← inMatrix (EmbeddingMatrix.append (fun f => fails (.append a.pos f)) vec)
      return {
        pos := a.pos + 1
        batchHashToRow := (hash, row) :: a.batchHashToRow
        result := a.result ++ [row]
        newRows := a.newRows ++ [(row, rec)] }

/-- The transaction of `insert_batch`. It is rolled back when it is dropped uncommitted, so nothing
of it is seen before the commit. -/
def insertRecords (fails : InsertStep → Bool) (newRows : List (RowId × ChunkRecord)) :
    Prog ChunkStore Failure Step Unit := do
  failAt (fails .begin)
  let (_, db) ← .foldlP (fun (j, db) (row, rec) => do
      failAt (fails (.insertChunk j))
      let db ← .ofExcept ((Db.insertChunk db row rec).mapError .error)
      return (j + 1, db))
    (0, (← .get).conn) newRows
  failAt (fails .beforeCommit)
  failAt (fails .commit)
  .durable .sqlCommit fun s => { s with conn := db }

/-- Roll back the matrix rows appended for a batch. -/
def rollbackRows (fails : InsertStep → Bool) (rowsBefore : Nat) :
    Prog ChunkStore Failure Step Unit := do
  let header := { (← .get).matrix.header with rows := rowsBefore }
  failAt (fails .rollbackHeader)
  let encoded ← .ofExcept (header.encode.mapError .error)
  .durable .headerWrite fun s =>
    { s with matrix := { s.matrix with file := { s.matrix.file with header := encoded } } }
  failAt (fails .rollbackReopen)
  let s ← .get
  let matrix ← .ofExcept (EmbeddingMatrix.openMut s.matrix.path s.matrix.file)
  .modify fun s => { s with matrix }

/-- One row for each input, reusing the row of any content hash already live. -/
def insertBatch (fails : InsertStep → Bool) (chunks : List (ChunkRecord × List F16)) :
    Prog ChunkStore Failure Step (List RowId) := do
  let s ← .get
  let dims := s.matrix.dims
  -- `vec.len() as u32 != dims`, where `dims` is a `u32` too.
  match chunks.find? (·.2.length % 2 ^ 32 ≠ dims % 2 ^ 32) with
  | some chunk => .fail (.error (.dimensionMismatch dims (chunk.2.length % 2 ^ 32)))
  | none => pure ()
  let rowsBefore := s.matrix.rows
  let a ← .foldlP (allocate fails) ⟨0, [], [], []⟩ chunks
  inMatrix (EmbeddingMatrix.flush (fails .flush))
  .onError (insertRecords fails a.newRows) fun _ => rollbackRows fails rowsBefore
  return a.result

def tombstone (fails : Bool) (rows : List RowId) : Prog ChunkStore Failure Step Unit := do
  failAt fails
  .durable .sqlCommit fun s => { s with conn := s.conn.tombstone rows }

/-- Rewrite the `file` path on every live row of `oldFile`; the number of rows is returned. -/
def rekeyFile (fails : Bool) (oldFile newFile : String) : Prog ChunkStore Failure Step Nat := do
  failAt fails
  let n := ((← .get).rowsForFile oldFile).length
  .durable .sqlCommit fun s => { s with conn := s.conn.rekeyFile oldFile newFile }
  return n

def setIndexedCommit (fails : Bool) (commit : String) : Prog ChunkStore Failure Step Unit := do
  failAt fails
  .durable .sqlCommit fun s => { s with conn := s.conn.setMeta "indexed_commit" commit }

/-! ## Compaction -/

/-- A file name of a new generation: process id and nanoseconds since the epoch. -/
def generationName (base : String) (pid nanos : Nat) : String :=
  s!"{base}.generation-{pid}-{nanos}"

/-- Run a program of a matrix that is being built beside the active pair. -/
def inNewMatrix {α : Type} (m : EmbeddingMatrix) (p : Prog EmbeddingMatrix Failure Step α) :
    Prog ChunkStore Failure Step (α × EmbeddingMatrix) :=
  .focus (fun _ => m) (fun m' s => { s with dir := s.dir.write m'.path (.matrix m'.file) }) id id do
    let a ← p
    return (a, ← .get)

/-- Fill the new pair with the live rows. -/
def copyLive (fails : CompactStep → Bool) (liveRows : List (RowId × ChunkRecord × List F16))
    (newDb : String) (m : EmbeddingMatrix) (db : Db) : Prog ChunkStore Failure Step Nat := do
  failAt (fails .begin)
  let (_, m, db) ← .foldlP (fun (i, m, db) (_, rec, vec) => do
      let (row, m) ← inNewMatrix m (EmbeddingMatrix.append (fun f => fails (.append i f)) vec)
      failAt (fails (.insertChunk i))
      let db ← .ofExcept ((Db.insertChunk db row rec).mapError .error)
      return (i + 1, m, db))
    (0, m, db) liveRows
  let (_, m) ← inNewMatrix m (EmbeddingMatrix.flush (fails .flush))
  failAt (fails .commit)
  inDir (.durable .sqlCommit (·.write newDb (.db db)))
  failAt (fails .openForTruncate)
  failAt (fails .truncate)
  inDir (.durable .fileLength (·.write m.path (.matrix (m.file.setLen (m.rows * m.dims)))))
  return m.rows

/-- Switch the handle to a pair of the directory. The old pair stays in its files. -/
def switchTo (dbPath : String) (conn : Db) (matrix : EmbeddingMatrix) (s : ChunkStore) :
    ChunkStore :=
  { dir := s.onDisk, dbPath, conn, matrix }

/-- The new database's commit marker. -/
def carryCommit (fails : Bool) (newDb : String) (db : Db) :
    Option String → Prog ChunkStore Failure Step Db
  | none => pure db
  | some commit => do
    failAt fails
    let db := db.setMeta "indexed_commit" commit
    inDir (.durable .sqlCommit (·.write newDb (.db db)))
    return db

/-- Build the new pair beside the active one. -/
def buildPair (fails : CompactStep → Bool) (s : ChunkStore)
    (liveRows : List (RowId × ChunkRecord × List F16)) (newDb newMatrix : String) :
    Prog ChunkStore Failure Step Nat := do
  inDir (.durable .fileRemove (·.remove newDb))
  inDir (.durable .fileRemove (·.remove newMatrix))
  failAt (fails .indexedCommit)
  let indexed := s.indexedCommit
  let m ← inDir (EmbeddingMatrix.create (fun c => fails (.create c)) newMatrix s.matrix.dims
    s.matrix.modelId)
  let db ← inDir (newConnection (fails .openDb) (fails .configure) (fails .initSchema)
    (fails .setSchemaVersion) newDb)
  let db ← carryCommit (fails .setIndexedCommit) newDb db indexed
  copyLive fails liveRows newDb m db

/-- A failure to remove a file of the old pair is ignored. -/
def removeOld (fails : Bool) (oldFile newFile : String) : Prog ChunkStore Failure Step Unit :=
  if oldFile ≠ newFile ∧ ¬fails then inDir (.durable .oldFileRemove (·.remove oldFile))
  else pure ()

/-- Open the published pair, switch to it and remove the old one. -/
def reopenPair (fails : CompactStep → Bool) (oldDb oldMatrix newDb newMatrix : String) :
    Prog ChunkStore Failure Step Unit := do
  failAt (fails .reopenDb)
  let conn ← .ofExcept (openConnection (← .get).dir newDb)
  failAt (fails .reconfigure)
  failAt (fails .reopenMatrix)
  let matrix ← .ofExcept (openMatrix (← .get).dir newMatrix)
  .modify (switchTo newDb conn matrix)
  removeOld (fails .removeMatrix) oldMatrix newMatrix
  removeOld (fails .removeDb) oldDb newDb

def compact (fails : CompactStep → Bool) (pid nanos : Nat) :
    Prog ChunkStore Failure Step CompactionReport := do
  failAt (fails .stats)
  let s ← .get
  let stats := s.stats
  failAt (fails .selectLive)
  let liveRows ← .ofExcept (s.conn.live.mapM fun c => do
    let vector ← s.matrix.row c.rowid
    return (c.rowid, c.record, vector))
  let newDb := generationName dbName pid nanos
  let newMatrix := generationName matrixName pid nanos
  let _ ← buildPair fails s liveRows newDb newMatrix
  let oldMatrix := s.matrix.path
  let (oldDb, _) ← .ofExcept (activePaths s.dir)
  -- A crash before the rename leaves the old pair active, a crash after it selects the new one.
  inDir (publishManifest (fun p => fails (.publish p)) pid newDb newMatrix)
  reopenPair fails oldDb oldMatrix newDb newMatrix
  failAt (fails .statsAfter)
  return {
    liveBefore := stats.live
    deadReclaimed := stats.dead
    liveAfter := (← .get).stats.live
    rowMapping := liveRows.zipIdx.map fun (r, i) => (r.1, i) }

end ChunkStore

end SiftMcp
