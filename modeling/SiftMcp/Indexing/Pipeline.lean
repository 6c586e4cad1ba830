import SiftMcp.Indexing.Collect

/-!
# The indexing pipeline

`index_all` and `update` of `Indexer`, as programs over the store, the lexical index and the report
of the run. The durable steps are those of the store and the commits of the lexical index; the
label of a step tells which call of the pipeline took it. Timings and progress reports are left out.
-/

namespace SiftMcp
open Durable

/-- Marker suffix when the worktree was dirty at index time. -/
def dirtyCommitSuffix : String := "+dirty"

inductive IndexError
  | store (e : StoreError)
  | infer (detail : String)
  | retrieval (e : RetrievalError)
  | lexicalOutOfSync (storeLive indexed : Nat)
  | git (detail : String)
  | io (detail : String)
  | dirtyRefused (paths : String)
  | interrupted (detail : String)
  | other (detail : String)
deriving DecidableEq

inductive IndexFailure
  | error (e : IndexError)
  | panic (detail : String)
deriving DecidableEq

def IndexFailure.ofStore : Failure → IndexFailure
  | .error e => .error (.store e)
  | .panic detail => .panic detail

def IndexFailure.ofLexical (e : RetrievalError) : IndexFailure := .error (.retrieval e)

def IndexFailure.ofGit (e : String) : IndexFailure := .error (.git e)

/-- A durable step of a run. A re-key carries the rows it moves, a compaction the rows that were
live before it. -/
inductive RunStep
  | tombstone (l : Step)
  | rekey (rows : List RowId) (source dest : String) (l : Step)
  | insert (l : Step)
  | setCommit (l : Step)
  | compact (rows : List RowId) (l : Step)
  | lexical
deriving DecidableEq

structure IndexState where
  store : ChunkStore
  lexical : LexicalIndex
  report : IndexReport
  batchesCommitted : Nat
  /-- The number of calls made so far that can fail. -/
  calls : Nat

abbrev IndexProg := Prog IndexState IndexFailure RunStep

def emptyReport (liveBefore : Nat) : IndexReport :=
  ⟨"", 0, 0, 0, 0, 0, 0, 0, 0, 0, 0, none, liveBefore, liveBefore⟩

def inStore {α : Type} (lbl : Step → RunStep) (m : Prog ChunkStore Failure Step α) : IndexProg α :=
  .focus (·.store) (fun s t => { t with store := s }) .ofStore lbl m

def inLexical {α : Type} (m : Prog LexicalIndex RetrievalError LexicalStep α) : IndexProg α :=
  .focus (·.lexical) (fun x t => { t with lexical := x }) .ofLexical (fun _ => .lexical) m

def report (f : IndexReport → IndexReport) : IndexProg Unit :=
  .modify fun t => { t with report := f t.report }

/-- The number of the next call. -/
def nextCall : IndexProg Nat := do
  let n := (← .get).calls
  .modify fun t => { t with calls := t.calls + 1 }
  return n

namespace Indexer

/-- A call that fails as a whole or not at all. -/
def mayFail (ix : Indexer) (e : IndexError) : IndexProg Unit := do
  let n ← nextCall
  if ix.faults.call n then .fail (.error e) else pure ()

def sqliteFailure : IndexError := .store (.sqlite "injected failure")

/-! ## The two backends together -/

def commitLexical (ix : Indexer) : IndexProg Unit := do
  let n ← nextCall
  inLexical (LexicalIndex.commit (ix.faults.lexical n))

/-- Take rows out of the store and of the lexical index. -/
def retire (ix : Indexer) (rows : List RowId) : IndexProg Unit := do
  let n ← nextCall
  inStore .tombstone (ChunkStore.tombstone (ix.faults.call n) rows)
  inLexical (LexicalIndex.remove rows)
  ix.commitLexical

/-! ## Batches -/

/-- One representative of each content hash. -/
def uniqueByHash : List Chunk → List Chunk → List Chunk
  | _, [] => []
  | seen, c :: rest =>
    if c.record.contentHash ∈ seen.map (·.record.contentHash) then uniqueByHash seen rest
    else c :: uniqueByHash (c :: seen) rest

def lexicalDoc (c : Chunk) : LexicalDoc :=
  { symbol := c.record.symbol
    signature := c.record.signature
    docFirstLine := c.record.docFirstLine
    file := c.record.file
    body := c.body }

/-- The test hook. -/
def checkInterrupt (ix : Indexer) : IndexProg Unit := do
  let t ← .get
  match ix.interruptAfterBatches with
  | some limit =>
    if t.batchesCommitted ≥ limit then
      .fail (.error (.interrupted s!"stopped after {limit} batches"))
    else pure ()
  | none => pure ()

def flushBatch (ix : Indexer) (pending : List Chunk) : IndexProg Unit :=
  if pending = [] then pure () else do
    let unique := uniqueByHash [] pending
    ix.mayFail (.infer "injected failure")
    let embeddings := ix.embedder.embed (unique.map (·.body))
    if embeddings.length ≠ unique.length then .fail (.panic "assertion failed") else pure ()
    report fun r =>
      { r with chunksTruncated := r.chunksTruncated + embeddings.countP (·.truncated) }
    let batch := (unique.zip embeddings).map fun (c, e) => (c.record, e.vector)
    let n ← nextCall
    let ids ← inStore .insert (ChunkStore.insertBatch (ix.faults.insertBatch n) batch)
    let n ← nextCall
    inLexical (LexicalIndex.addBatch (ix.faults.lexical n) (ids.zip (unique.map lexicalDoc)))
    ix.commitLexical
    report fun r => { r with
      chunksAdded := r.chunksAdded + batch.length
      embeddingsComputed := r.embeddingsComputed + batch.length }
    .modify fun t => { t with batchesCommitted := t.batchesCommitted + 1 }
    ix.checkInterrupt

/-! ## Work items -/

/-- The rows of a file by content hash. The live index on content hashes is unique, so that no hash
is entered twice. -/
abbrev HashRows := List (ContentHash × RowId)

inductive ParsedFile
  | ok (rel : String) (chunks : List Chunk)
  | unparsed
  | skipIdentical (reused : Nat)

/-- Parsing an item does not panic. -/
def parses (ix : Indexer) (item : WorkItem) : Bool :=
  !ix.chunker.ready || (ix.chunker.chunkFile item.rel item.language item.source).isSome

/-- The chunks of an item; `none` when parsing it failed. -/
def chunks (ix : Indexer) (item : WorkItem) : Option (List Chunk) :=
  if ¬ix.chunker.ready then none
  else (ix.chunker.chunkFile item.rel item.language item.source).bind fun file =>
    if file.diagnostics ≠ [] ∧ file.chunks = [] then none else some file.chunks

def hashesOf (cs : List Chunk) : List ContentHash := cs.map (·.record.contentHash)

/-- `a == b` of two hash sets. -/
def sameHashes (a b : List ContentHash) : Bool := (a.all (· ∈ b)) && (b.all (· ∈ a))

def parse (ix : Indexer) (existing : List (String × HashRows)) (item : WorkItem) : ParsedFile :=
  match ix.chunks item with
  | none => .unparsed
  | some cs =>
    let old := ((existing.lookup item.rel).getD []).map (·.1)
    if sameHashes (hashesOf cs) old then .skipIdentical (hashesOf cs).dedup.length
    else .ok item.rel cs

/-- What the consumer carries from file to file. -/
structure Consumer where
  known : List ContentHash
  pending : List Chunk

/-- A chunk of a file whose hashes changed. -/
def takeChunk (ix : Indexer) (old : HashRows) (c : Consumer) (chunk : Chunk) :
    IndexProg Consumer :=
  let hash := chunk.record.contentHash
  if hash ∈ old.map (·.1) ∨ hash ∈ c.known then do
    report fun r => { r with chunksReused := r.chunksReused + 1 }
    return c
  else
    let pending := c.pending ++ [chunk]
    if pending.length ≥ ix.config.embedBatch then do
      ix.flushBatch pending
      return ⟨hash :: c.known, []⟩
    else return ⟨hash :: c.known, pending⟩

/-- Retire the rows of hashes that vanished from a file. -/
def retireVanished (ix : Indexer) (rows : List RowId) : IndexProg Unit :=
  if rows = [] then pure () else do
    ix.retire rows
    report fun r => { r with chunksRemoved := r.chunksRemoved + rows.length }

def consume (ix : Indexer) (existing : List (String × HashRows)) (c : Consumer) :
    ParsedFile → IndexProg Consumer
  | .unparsed => do
    report fun r => { r with filesUnparsed := r.filesUnparsed + 1 }
    return c
  | .skipIdentical reused => do
    report fun r => { r with
      filesIndexed := r.filesIndexed + 1
      chunksReused := r.chunksReused + reused }
    return c
  | .ok rel cs => do
    report fun r => { r with filesIndexed := r.filesIndexed + 1 }
    let old := (existing.lookup rel).getD []
    ix.retireVanished ((old.filter (·.1 ∉ hashesOf cs)).map (·.2))
    .foldlP (ix.takeChunk old) c cs

def hashRows (s : ChunkStore) (rel : String) : HashRows :=
  (s.rowsForFile rel).filterMap fun row => (s.get row).map fun rec => (rec.contentHash, row)

/-- The files that the parser threads deliver, in their order. -/
def delivered (ix : Indexer) (work : List WorkItem) : List WorkItem :=
  if work.all ix.parses then ix.schedule work
  else (ix.schedule work).filter fun item => ix.parses item && ix.outlives work item

def scopePanic : IndexFailure := .panic "a scoped thread panicked"

/-- The scope joins the parser threads whatever the consumer returns, and panics when one of them
has. A panic of the consumer goes on first. -/
def joinParsers (ix : Indexer) (work : List WorkItem) (consumer : IndexProg Unit) :
    IndexProg Unit :=
  if work.all ix.parses then consumer
  else do
    .onError consumer fun
      | .error _ => .fail scopePanic
      | .panic _ => pure ()
    .fail scopePanic

def processWorkItems (ix : Indexer) (work : List WorkItem) : IndexProg Unit :=
  if work = [] then pure () else do
    ix.mayFail sqliteFailure
    let s := (← .get).store
    let existing := work.map fun item => (item.rel, hashRows s item.rel)
    let known := s.liveRows.filterMap fun row => (s.get row).map (·.contentHash)
    let parsed := (ix.delivered work).map (ix.parse existing)
    ix.joinParsers work do
      let c ← .foldlP (ix.consume existing) ⟨known, []⟩ parsed
      ix.flushBatch c.pending

/-! ## Changes -/

/-- `work_item_for_path`, with its entries in the report. -/
def lookAt (ix : Indexer) (path : String) : IndexProg (List WorkItem) := do
  ix.mayFail (.io "injected failure")
  let (r, item) := ix.workItemForPath path (← .get).report
  report fun _ => r
  return item.toList

def deleteFile (ix : Indexer) (path : String) : IndexProg Unit := do
  ix.mayFail sqliteFailure
  let rows := (← .get).store.rowsForFile path
  if rows = [] then pure () else do
    ix.retire rows
    report fun r => { r with
      chunksRemoved := r.chunksRemoved + rows.length
      filesIndexed := r.filesIndexed + 1 }

/-- Re-key a file in the store, and in the lexical index when it has rows there. -/
def renameFile (ix : Indexer) (source dest : String) : IndexProg Nat := do
  ix.mayFail sqliteFailure
  let rows := (← .get).store.rowsForFile source
  let n ← nextCall
  let n ← inStore (.rekey rows source dest) (ChunkStore.rekeyFile (ix.faults.call n) source dest)
  if n = 0 then return n else do
    let i ← nextCall
    inLexical (LexicalIndex.updateFilePaths (ix.faults.lexical i) (rows.map fun row => (row, dest)))
    ix.commitLexical
    return n

/-- The work that a change leaves. -/
def applyFileChange (ix : Indexer) : FileChange → IndexProg (List WorkItem)
  | .added path | .modified path => ix.lookAt path
  | .deleted path => do
    ix.deleteFile path
    return []
  | .renamed source dest => do
    let n ← ix.renameFile source dest
    let items ← ix.lookAt dest
    if n > 0 ∧ items = [] then report fun r => { r with filesIndexed := r.filesIndexed + 1 }
    else pure ()
    return items

def applyFileChanges (ix : Indexer) (work : List WorkItem) (changes : List FileChange) :
    IndexProg (List WorkItem) :=
  .foldlP (fun work change => do return work ++ (← ix.applyFileChange change)) work changes

/-- Work items by path, the first of each path. -/
def dedupWork : List WorkItem → List WorkItem → List WorkItem
  | _, [] => []
  | seen, item :: rest =>
    if item.rel ∈ seen.map (·.rel) then dedupWork seen rest
    else item :: dedupWork (item :: seen) rest

/-! ## Runs -/

def dirty (ix : Indexer) : IndexProg Bool := .ofExcept (ix.git.isDirty.mapError .ofGit)

def applyDirtyPolicy (ix : Indexer) (dirty : Bool) : IndexProg Unit :=
  if dirty ∧ ix.config.dirtyWorktree = .refuse then
    .fail (.error (.dirtyRefused (", ".intercalate (ix.git.dirtyPaths.toOption.getD []))))
  else pure ()

def commitMarker (ix : Indexer) (dirty : Bool) (head : String) : String :=
  if dirty ∧ ix.config.dirtyWorktree = .indexWorktree then head ++ dirtyCommitSuffix else head

def recordCommit (ix : Indexer) (dirty : Bool) : IndexProg String := do
  let head ← .ofExcept (ix.git.headId.mapError .ofGit)
  let commit := ix.commitMarker dirty head
  let n ← nextCall
  inStore .setCommit (ChunkStore.setIndexedCommit (ix.faults.call n) commit)
  return commit

def maybeCompact (ix : Indexer) : IndexProg Unit := do
  ix.mayFail sqliteFailure
  let s := (← .get).store
  if ix.config.overThreshold s.stats then do
    let n ← nextCall
    let rep ← inStore (.compact s.liveRows)
      (ChunkStore.compact (ix.faults.compact n) ix.pid ix.nanos)
    let n ← nextCall
    inLexical (LexicalIndex.renumber (ix.faults.lexical n) rep.rowMapping)
    ix.commitLexical
    report fun r => { r with compacted := some rep }
  else pure ()

/-- The start of both kinds of run: whether the worktree is dirty, and may be. -/
def start (ix : Indexer) : IndexProg Bool := do
  ix.mayFail sqliteFailure
  let live := (← .get).store.stats.live
  report fun _ => emptyReport live
  let dirty ← ix.dirty
  ix.applyDirtyPolicy dirty
  return dirty

/-- The end of both kinds of run. The unsigned subtraction of the assertion wraps around, or panics,
where the counters do not add up, so that it holds exactly when they do. -/
def finish (ix : Indexer) (dirty : Bool) : IndexProg IndexReport := do
  let commit ← ix.recordCommit dirty
  report fun r => { r with commit }
  ix.maybeCompact
  ix.mayFail sqliteFailure
  let live := (← .get).store.stats.live
  report fun r => { r with liveAfter := live }
  let r := (← .get).report
  if r.liveAfter + r.chunksRemoved ≠ r.liveBefore + r.chunksAdded then
    .fail (.panic "counter reconciliation failed")
  else return r

def indexAll (ix : Indexer) : IndexProg IndexReport := do
  let dirty ← ix.start
  ix.mayFail (.io "injected failure")
  let (r, work) := ix.collectAllFiles (← .get).report
  report fun _ => r
  ix.processWorkItems work
  ix.finish dirty

/-- Always reconcile dirty paths. -/
def dirtyWork (ix : Indexer) (dirty : Bool) : IndexProg (List WorkItem) :=
  if dirty ∧ ix.config.dirtyWorktree = .indexWorktree then do
    let paths ← .ofExcept (ix.git.dirtyPaths.mapError .ofGit)
    .foldlP (fun work path => do return work ++ (← ix.lookAt path)) [] paths
  else pure []

/-- The commit that a marker names, and whether it is marked dirty. -/
def baseOf (marker : String) : String × Bool :=
  let l := marker.toList
  let n := l.length - dirtyCommitSuffix.length
  if l.drop n = dirtyCommitSuffix.toList then (String.ofList (l.take n), true) else (marker, false)

/-- The changes since the marker. A dirty base may not resolve; then there are none. -/
def changes (ix : Indexer) (marker : String) : Except String (List FileChange) :=
  match ix.git.changesSince (baseOf marker).1 with
  | .ok changes => .ok changes
  | .error e => if (baseOf marker).2 then .ok [] else .error e

def updateSince (ix : Indexer) (dirty : Bool) (marker : String) : IndexProg IndexReport := do
  let work ← ix.dirtyWork dirty
  let changes ← .ofExcept ((ix.changes marker).mapError .ofGit)
  let work ← ix.applyFileChanges work changes
  ix.processWorkItems (dedupWork [] work)
  ix.finish dirty

def update (ix : Indexer) : IndexProg IndexReport := do
  let dirty ← ix.start
  ix.mayFail sqliteFailure
  match (← .get).store.indexedCommit with
  | none => ix.indexAll
  | some marker => ix.updateSince dirty marker

/-- `Indexer::open` on the directories that `t` has left: the store is opened, its model and the
number of documents are checked. -/
def «open» (ix : Indexer) (dir : Dir) (docs : List (RowId × LexicalDoc)) :
    Except IndexFailure IndexState := do
  let store ← (ChunkStore.open dir).mapError .ofStore
  (store.requireModel ix.embedder.modelId).mapError fun e => .error (.store e)
  let lexical : LexicalIndex := .open docs
  let live := store.stats.live
  let indexed := LexicalIndex.numDocs lexical
  if live ≠ indexed then throw (.error (.lexicalOutOfSync live indexed))
  return ⟨store, lexical, emptyReport live, 0, 0⟩

end Indexer

end SiftMcp
