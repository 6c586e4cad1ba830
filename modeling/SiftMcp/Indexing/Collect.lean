import SiftMcp.Indexing.Exclusions
import SiftMcp.Indexing.Git
import SiftMcp.Storage.Store
import SiftMcp.Retrieval.Lexical

/-!
# Reading the files to index

The parts of `Indexer` that only read: which files a run takes up, and their text. `Indexer` holds
what stays fixed during a run: the repository as the run finds it, the configuration, the chunker
and the embedder, and which of the calls that can fail will.
-/

namespace SiftMcp

/-- A chunk with its text. -/
structure Chunk where
  record : ChunkRecord
  body : String
deriving DecidableEq

structure FileChunks where
  chunks : List Chunk
  diagnostics : List String

/-- The chunker. Parsing is deterministic; `ready` is false when `Chunker::new` fails, and there are
no chunks of a file on which `chunk_file` panics. -/
structure Chunker where
  ready : Bool
  chunkFile : String → Language → String → Option FileChunks
  file : ∀ rel language source, ∀ file ∈ chunkFile rel language source, ∀ c ∈ file.chunks,
    c.record.file = replaceBackslash rel

structure Embedding where
  vector : List F16
  truncated : Bool

/-- The embedder: one vector of its dimension for each text. -/
structure Embedder where
  dims : Nat
  modelId : String
  embed : List String → List Embedding
  length : ∀ texts, (embed texts).length = texts.length
  vector : ∀ texts, ∀ e ∈ embed texts, e.vector.length = dims

inductive DirtyPolicy
  | indexWorktree | indexCommitOnly | refuse
deriving DecidableEq

/-- `overThreshold` is the comparison of the dead fraction with `compact_threshold`. -/
structure IndexConfig where
  embedBatch : Nat
  overThreshold : StoreStats → Bool
  dirtyWorktree : DirtyPolicy

structure IndexReport where
  commit : String
  filesSeen : Nat
  filesIndexed : Nat
  filesExcluded : Nat
  filesUnsupported : Nat
  filesUnparsed : Nat
  chunksAdded : Nat
  chunksReused : Nat
  chunksRemoved : Nat
  embeddingsComputed : Nat
  chunksTruncated : Nat
  compacted : Option CompactionReport
  liveBefore : Nat
  liveAfter : Nat
deriving DecidableEq

structure WorkItem where
  rel : String
  language : Language
  source : String
deriving DecidableEq

/-- The calls of a run that fail, by the number of the call. `call` is any call that fails as a
whole. -/
structure Faults where
  call : Nat → Bool
  insertBatch : Nat → InsertStep → Bool
  compact : Nat → CompactStep → Bool
  lexical : Nat → LexicalCall → Bool

def Faults.none : Faults := ⟨fun _ => false, fun _ _ => false, fun _ _ => false, fun _ _ => false⟩

structure Indexer where
  chunker : Chunker
  embedder : Embedder
  worktree : FsEntries
  host : String → Option FsNode
  git : RepoGit
  exclusions : Exclusions
  config : IndexConfig
  interruptAfterBatches : Option Nat
  /-- The order in which the parser threads deliver the files. -/
  schedule : List WorkItem → List WorkItem
  schedule_perm : ∀ work, (schedule work).Perm work
  /-- Which files they still deliver when one of them panics. -/
  outlives : List WorkItem → WorkItem → Bool
  /-- Process id and clock of a compaction. -/
  pid : Nat
  nanos : Nat
  faults : Faults

namespace Indexer

def nodeAt (ix : Indexer) (path : String) : Option FsNode := ix.worktree.resolve ix.host path

def isDir (ix : Indexer) (path : String) : Bool :=
  match ix.nodeAt path with
  | some (.dir _) => true
  | _ => false

/-- The path of the repository, as it was given. -/
def repo (ix : Indexer) : String := ix.exclusions.root

/-- Whether what the rules of `.gitignore` are asked about is a directory, for a path that is one or
not. Behind a relative path of the repository it is not that path, but the one that has `repo`
twice. -/
def dirAsked (ix : Indexer) (isDir : Bool) (path : String) : Bool :=
  if pathIsAbsolute (pathAt ix.repo path) then isDir else ix.isDir (pathAt ix.repo path)

/-- `check_path` of an entry of the repository. -/
def checkEntry (ix : Indexer) (isDir : Bool) (path : String) : Option SkipReason :=
  ix.exclusions.checkPath (ix.dirAsked isDir path) (pathAt ix.repo path)

def checkPath (ix : Indexer) (path : String) : Option SkipReason :=
  ix.checkEntry (ix.isDir path) path

def readSource (ix : Indexer) (rel : String) : Option String :=
  if ix.config.dirtyWorktree = .indexCommitOnly then (ix.git.show rel).bind sourceText
  else
    match ix.nodeAt rel with
    | some (.file bytes) => sourceText bytes
    | _ => none

def workItemForPath (ix : Indexer) (rel : String) (report : IndexReport) :
    IndexReport × Option WorkItem :=
  if (ix.checkPath rel).isSome then
    ({ report with filesExcluded := report.filesExcluded + 1 }, none)
  else
    match Language.fromPath rel with
    | none =>
      ({ report with
        filesUnsupported := report.filesUnsupported + 1
        filesExcluded := report.filesExcluded + 1 }, none)
    | some language =>
      match ix.readSource rel with
      | none => (report, none)
      | some source => (report, some ⟨replaceBackslash rel, language, source⟩)

/-- The state of the walk: the directories still to be listed, last in first out, and the files
found. -/
structure Walk where
  stack : List (String × FsEntries)
  report : IndexReport
  work : List WorkItem

/-- A file that the walk comes upon. -/
def visitFile (ix : Indexer) (path : String) (w : Walk) : Walk :=
  let r := { w.report with filesSeen := w.report.filesSeen + 1 }
  match ix.checkPath path with
  | some reason =>
    let r := { r with filesExcluded := r.filesExcluded + 1 }
    { w with report := if reason = .unsupportedLanguage then
        { r with filesUnsupported := r.filesUnsupported + 1 } else r }
  | none =>
    match Language.fromPath path with
    | none => { w with report := { r with
        filesUnsupported := r.filesUnsupported + 1
        filesExcluded := r.filesExcluded + 1 } }
    | some language =>
      let rel := replaceBackslash path
      match ix.readSource rel with
      | some source => { w with report := r, work := w.work ++ [⟨rel, language, source⟩] }
      | none => { w with report := { r with filesExcluded := r.filesExcluded + 1 } }

def visitEntry (ix : Indexer) (dir : String) (w : Walk) (entry : String × FsNode) : Walk :=
  let path := pathJoin dir entry.1
  if entry.1 = ".git" then w
  else
    match entry.2 with
    | .dir es =>
      if (ix.checkEntry true path).isSome then
        { w with report := { w.report with filesExcluded := w.report.filesExcluded + 1 } }
      else { w with stack := (path, es) :: w.stack }
    | .file _ => ix.visitFile path w
    | .other => w

/-- `while let Some(dir) = stack.pop()`; a directory is listed once, so the number of directories
bounds the loop. -/
def walkLoop (ix : Indexer) : Nat → Walk → Walk
  | 0, w => w
  | n + 1, w =>
    match w.stack with
    | [] => w
    | (dir, es) :: stack => walkLoop ix n (es.toList.foldl (ix.visitEntry dir) { w with stack })

def collectAllFiles (ix : Indexer) (report : IndexReport) : IndexReport × List WorkItem :=
  let w := ix.walkLoop (ix.worktree.dirs + 1) ⟨[("", ix.worktree)], report, []⟩
  (w.report, w.work)

end Indexer

end SiftMcp
