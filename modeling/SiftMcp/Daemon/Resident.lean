import SiftMcp.Daemon.Protocol
import SiftMcp.Indexing.Pipeline
import SiftMcp.Retrieval.Dense

/-!
# The resident

What the daemon keeps in memory of a store, how it is loaded, split for an index run and built
again, and what it answers from it. The file system and the repository are met by each call as they
are at the moment of the call; a call that fails for no reason of the caller's fails with a text
that it is given.
-/

namespace SiftMcp
open Durable

/-- An error value, or a panic of the thread. -/
inductive Fault
  | error (e : DaemonError)
  | panic (detail : String)
deriving DecidableEq

def Fault.ofDense (context : String) : DenseFailure → Fault
  | .error text => .error (.internal s!"{context}: {text}")
  | .panic detail => .panic detail
  -- neither preparing nor refreshing an index asks for more than it copies
  | .abort bytes => .panic s!"memory allocation of {bytes} bytes failed"

def Fault.ofStore (context : String) : Failure → Fault
  | .error e => .error (.internal s!"{context}: {e.display}")
  | .panic detail => .panic detail

/-- Fail with the text that is given, if one is. -/
def failWith (context : String) : Option String → Except DaemonError Unit
  | some e => .error (.internal s!"{context}: {e}")
  | none => .ok ()

def IndexError.display : IndexError → String
  | .store e => s!"store error: {e.display}"
  | .infer detail => s!"inference error: {detail}"
  | .retrieval e => s!"retrieval error: {e.display}"
  | .lexicalOutOfSync storeLive indexed =>
    s!"lexical/store row count mismatch: store has {storeLive} live rows, index has {indexed}"
  | .git detail => s!"git error: {detail}"
  | .io detail => s!"io error: {detail}"
  | .dirtyRefused paths => s!"dirty worktree refused: {paths}"
  | .interrupted detail => s!"interrupted: {detail}"
  | .other detail => detail

/-! ## Identity of the store -/

/-- The part of the file system that identifies a directory: the path it resolves to, and device and
inode behind that. -/
structure Host where
  canonicalize : String → Except String String
  metadata : String → Except String (Nat × Nat)

/-- Identity used to detect store delete/replace under a running daemon. -/
structure StoreIdentity where
  canonicalPath : String
  schemaVersion : Nat
  modelId : String
  dirDev : Nat
  dirIno : Nat
deriving DecidableEq

namespace StoreIdentity

def capture (host : Host) (storeDir modelId : String) : Except DaemonError StoreIdentity := do
  let canonical ← (host.canonicalize storeDir).mapError fun e =>
    .internal s!"canonicalize {storeDir}: {e}"
  let (dev, ino) ← (host.metadata canonical).mapError fun e => .internal s!"stat {canonical}: {e}"
  return ⟨canonical, SiftMcp.schemaVersion, modelId, dev, ino⟩

def checkStillValid (host : Host) (id : StoreIdentity) : Except DaemonError Unit :=
  match host.metadata id.canonicalPath with
  | .error e => .error (.storeStale s!"store missing: {e}")
  | .ok (dev, ino) =>
    if dev ≠ id.dirDev ∨ ino ≠ id.dirIno then .error (.storeStale "store directory replaced")
    else .ok ()

end StoreIdentity

/-! ## Resident and frozen view -/

structure Resident where
  store : ChunkStore
  lexical : LexicalIndex
  dense : DenseIndex
  embedder : Embedder
  identity : StoreIdentity
  repoDir : String

/-- Immutable search view used while an index runs against owned store parts. -/
structure FrozenSearch where
  dense : DenseIndex
  lexical : List (RowId × LexicalDoc)
  records : List (RowId × ChunkRecord)
  bodies : List (RowId × String)
  embedder : Embedder
  identity : StoreIdentity
  modelId : String
  chunksLive : Nat
  chunksDead : Nat
  indexedCommit : Option String

/-- The reader of the view has moved on to a commit with the documents `docs`. -/
def FrozenSearch.seeing (f : FrozenSearch) (docs : List (RowId × LexicalDoc)) : FrozenSearch :=
  { f with lexical := docs }

inductive Role
  | query | document
deriving DecidableEq

/-- The errors of `Searcher::search`, as the daemon tells them apart. -/
inductive SearchError
  | gpuUnavailable (detail : String)
  | other (text : String)
deriving DecidableEq

/-- Searching: `Searcher::search` and `search_similar` over the parts of a resident, and
`search_with_parts` over those of a frozen view. The role tells the two kinds of search apart.
`mapOrder` is the order in which a hash map lists its entries. -/
structure Retrieval where
  run : LexicalIndex → DenseIndex → ChunkStore → Embedder → Role → String → Nat →
    Except SearchError SearchResponse
  searchWithParts : FrozenSearch → Role → String → Nat → Except DaemonError SearchResponse
  mapOrder : List (RowId × ChunkRecord) → List (RowId × ChunkRecord)
  mapOrder_perm : ∀ entries, (mapOrder entries).Perm entries

def mapRetrievalErr : SearchError → DaemonError
  | .gpuUnavailable detail => .gpuUnavailable detail
  | .other text => .internal text

def symbolResponse (r : ChunkRecord) (body : String) : Response :=
  .symbol r.file r.symbol r.language r.signature (r.lineStart, r.lineEnd) body

/-- The one match, with its body; none and several are errors. -/
def oneSymbol (file symbol : String) (found : List (RowId × ChunkRecord))
    (body : RowId → Option String) : Except DaemonError Response :=
  match found with
  | [] => .error (.symbolNotFound file symbol)
  | [(row, r)] => .ok (symbolResponse r ((body row).getD ""))
  | found =>
    .error (.symbolAmbiguous file symbol (found.map fun p => s!"{p.2.file}:{p.2.signature}"))

/-- `LexicalIndex::bodies`, of one row. -/
def bodyOf (docs : List (RowId × LexicalDoc)) (row : RowId) : Option String :=
  (DocIndex.load row docs).map (·.body)

def resolveSymbol (store : ChunkStore) (lexical : LexicalIndex) (file symbol : String) :
    Except DaemonError Response :=
  let found := (store.rowsForFile file).filterMap fun row =>
    (store.get row).bind fun r => if r.symbol = symbol then some (row, r) else none
  oneSymbol file symbol found (bodyOf lexical.reader)

namespace Resident

variable (R : Retrieval) (host : Host)

def search (r : Resident) (role : Role) (text : String) (topK : Nat) :
    Except DaemonError Response := do
  r.identity.checkStillValid host
  let resp ← (R.run r.lexical r.dense r.store r.embedder role text topK).mapError mapRetrievalErr
  return .search resp

def getSymbol (r : Resident) (file symbol : String) : Except DaemonError Response := do
  r.identity.checkStillValid host
  resolveSymbol r.store r.lexical file symbol

def answer (r : Resident) : Query → Except DaemonError Response
  | .search query topK => r.search R host .query query topK
  | .searchSimilar code topK => r.search R host .document code topK
  | .getSymbol file symbol => r.getSymbol host file symbol

end Resident

namespace FrozenSearch

variable (R : Retrieval) (host : Host)

def search (f : FrozenSearch) (role : Role) (text : String) (topK : Nat) :
    Except DaemonError Response := do
  f.identity.checkStillValid host
  return .search (← R.searchWithParts f role text topK)

def getSymbol (f : FrozenSearch) (file symbol : String) : Except DaemonError Response := do
  f.identity.checkStillValid host
  let found := (R.mapOrder f.records).filter fun p => p.2.file = file ∧ p.2.symbol = symbol
  oneSymbol file symbol found fun row => f.bodies.lookup row

def answer (f : FrozenSearch) : Query → Except DaemonError Response
  | .search query topK => f.search R host .query query topK
  | .searchSimilar code topK => f.search R host .document code topK
  | .getSymbol file symbol => f.getSymbol R host file symbol

end FrozenSearch

/-! ## Loading, splitting, rebuilding -/

structure DaemonConfig where
  storeDir : String
  repoDir : String
  embedder : Embedder

/-- What the loader meets: the directory of the store with its lexical index, and which calls
fail. -/
structure LoadEnv where
  host : Host
  dir : Dir
  createFails : ChunkStore.CreateStoreStep → Bool
  docs : List (RowId × LexicalDoc)
  lexicalError : Option String
  liveError : Option String

def Resident.load (env : LoadEnv) (cfg : DaemonConfig) : Except Fault Resident := do
  let dbExists := (env.dir dbName).isSome
  let matrixExists := (env.dir matrixName).isSome
  let manifestExists := (env.dir manifestName).isSome
  let store ←
    if !dbExists && !matrixExists && !manifestExists then
      (ChunkStore.create env.createFails cfg.embedder.dims cfg.embedder.modelId
        env.dir).result.mapError (Fault.ofStore "open or create store")
    else (ChunkStore.open env.dir).mapError (Fault.ofStore "open or create store")
  (store.requireModel cfg.embedder.modelId).mapError fun e =>
    .error (.internal s!"model: {e.display}")
  (failWith "open lexical" env.lexicalError).mapError .error
  let dense ← (DenseIndex.fromStore env.liveError store).mapError (Fault.ofDense "open dense")
  let identity ← (StoreIdentity.capture env.host cfg.storeDir cfg.embedder.modelId).mapError .error
  return ⟨store, .open env.docs, dense, cfg.embedder, identity, cfg.repoDir⟩

/-- The calls of `split_for_index` that can fail. A failure to read the indexed commit counts as
none. -/
inductive SplitCall
  | stats | liveRows | getMany | bodies
deriving DecidableEq

/-- The frozen view of a resident. -/
def Resident.freeze (r : Resident) : FrozenSearch :=
  let records := r.store.liveRows.filterMap fun row => (r.store.get row).map fun rec => (row, rec)
  { dense := r.dense
    lexical := r.lexical.reader
    records
    bodies := records.filterMap fun p => (bodyOf r.lexical.reader p.1).map fun b => (p.1, b)
    embedder := r.embedder
    identity := r.identity
    modelId := r.embedder.modelId
    chunksLive := r.store.stats.live
    chunksDead := r.store.stats.dead
    indexedCommit := r.store.indexedCommit }

/-- Split a ready resident into a frozen search view plus parts for indexing. -/
def splitForIndex (fails : SplitCall → Option String) (r : Resident) :
    Except DaemonError (FrozenSearch × ChunkStore × String × Embedder) := do
  failWith "stats" (fails .stats)
  failWith "live_rows" (fails .liveRows)
  failWith "get_many" (fails .getMany)
  failWith "bodies" (fails .bodies)
  return (r.freeze, r.store, r.repoDir, r.embedder)

/-- What the end of a run meets: the errors of the calls that fail. -/
structure RebuildEnv where
  host : Host
  maskError : Option String
  denseError : Option String

def rebuildResident (env : RebuildEnv) (cfg : DaemonConfig) (store : ChunkStore)
    (lexical : LexicalIndex) (embedder : Embedder) (repoDir : String) : Except Fault Resident := do
  let live ← (LiveMask.fromStore env.maskError store).mapError (Fault.ofDense "live mask")
  let dense ← (DenseIndex.fromStore env.denseError store).mapError (Fault.ofDense "dense")
  let dense ← (dense.refresh store.matrix live).mapError (Fault.ofDense "dense refresh")
  let identity ← (StoreIdentity.capture env.host cfg.storeDir embedder.modelId).mapError .error
  return ⟨store, lexical, dense, embedder, identity, repoDir⟩

/-! ## Running the indexer -/

/-- What a run meets behind the directory it is given. -/
structure RepoEnv where
  openError : Option IndexError
  git : Except String RepoGit
  globMatches : String → String → Bool
  gitignore : Except String (Option Gitignore)
  chunker : Chunker
  worktree : FsEntries
  host : String → Option FsNode
  schedule : List WorkItem → List WorkItem
  schedule_perm : ∀ work, (schedule work).Perm work
  outlives : List WorkItem → WorkItem → Bool
  pid : Nat
  nanos : Nat
  faults : Faults
  verifyError : Option StoreError

def IndexConfig.default : IndexConfig where
  embedBatch := 32
  overThreshold s := s.dead * 5 > s.live + s.dead
  dirtyWorktree := .indexWorktree

/-- `Indexer::open` on a store that is open already: its model and the number of documents are
checked, then the repository is opened. -/
def RepoEnv.openIndexer (env : RepoEnv) (embedder : Embedder) (repoDir : String)
    (store : ChunkStore) (docs : List (RowId × LexicalDoc)) :
    Except IndexError (Indexer × IndexState) := do
  (store.requireModel embedder.modelId).mapError .store
  match env.openError with
  | some e => throw e
  | none => pure ()
  let lexical : LexicalIndex := .open docs
  let live := store.stats.live
  let indexed := LexicalIndex.numDocs lexical
  if live ≠ indexed then throw (.lexicalOutOfSync live indexed)
  let git ← env.git.mapError .git
  let exclusions ← (Exclusions.forRepository env.globMatches env.gitignore repoDir).mapError
      fun e =>
    .other s!"chunking error: {e}"
  let ix : Indexer := {
    chunker := env.chunker
    embedder
    worktree := env.worktree
    host := env.host
    git, exclusions
    config := .default
    interruptAfterBatches := none
    schedule := env.schedule
    schedule_perm := env.schedule_perm
    outlives := env.outlives
    pid := env.pid
    nanos := env.nanos
    faults := env.faults }
  return (ix, ⟨store, lexical, emptyReport live, 0, 0⟩)

def runIndex (env : RepoEnv) (embedder : Embedder) (repoDir : String) (store : ChunkStore)
    (docs : List (RowId × LexicalDoc)) (mode : IndexMode) :
    Except Fault (ChunkStore × LexicalIndex × IndexReport) := do
  let (ix, t) ← (env.openIndexer embedder repoDir store docs).mapError fun e =>
    .error (.internal s!"indexer open: {e.display}")
  let out := match mode with
    | .full => ix.indexAll t
    | .update => ix.update t
  match out.result with
  | .error (.error e) => throw (.error (.internal s!"index: {e.display}"))
  | .error (.panic detail) => throw (.panic detail)
  | .ok report =>
    match env.verifyError with
    | some e => throw (.error (.internal s!"verify: {e.display}"))
    | none =>
      match out.state.store.verify with
      | .ok _ => return (out.state.store, out.state.lexical, report)
      | other => throw (.error (.internal s!"verify after index: {other.debug}"))

end SiftMcp
