import SiftMcp.Eval.Mine
import SiftMcp.Indexing.Git
import SiftMcp.Retrieval.Tokenize

/-!
# Labels from commits

`mine_commits` walks the history and takes the subjects of commits for queries, and the symbols that
a commit touches for the answers. Objects, the walk and the differences of trees are git's,
differences of texts and regular expressions those of their crates, and `MinedRepo` has their
answers.
-/

namespace SiftMcp
open Text

inductive EvalError
  | message (text : String)
  | revisionMismatch (expected actual : String)
  | git (text : String)
  | index (text : String)
  | retrieval (text : String)
  | store (text : String)
  | io (text : String)
deriving DecidableEq

inductive MiningFailure
  | error (e : EvalError)
  | panic
deriving DecidableEq

structure MiningConfig where
  maxSymbolsPerCommit : Nat
  minSubjectWords : Nat
  maintenancePatterns : List String
  maxCommits : Option Nat
  /-- When true, refuse unless HEAD equals the pinned mined corpus revision. -/
  enforcePinnedRevision : Bool

def MiningConfig.default : MiningConfig where
  maxSymbolsPerCommit := 3
  minSubjectWords := 4
  maintenancePatterns := ["wip", "fixup", "typo", "bump", "lint"]
  maxCommits := none
  enforcePinnedRevision := true

/-- Pinned `llama.cpp` revision. Mining refuses any other HEAD. -/
def minedCorpusPinnedRevision : String := "c589f0ed10c643678c4707dd160c21ac7633ebc0"

/-- A commit, with what its parts cannot be read for. -/
structure Commit (Tree : Type) where
  id : String
  parentIds : List String
  message : Except String Text
  tree : Except String Tree

structure TreeEntry where
  mode : EntryMode
  oid : String

inductive ChangeTag
  | equal | insert | delete
deriving DecidableEq

/-- A line of one text or of both. -/
structure LineChange where
  tag : ChangeTag
  value : Text
deriving DecidableEq

/-- What mining asks of git, of the lines of two texts and of regular expressions. -/
structure MinedRepo (Tree : Type) where
  opened : Except String Unit
  /-- The commit of HEAD, as the indexer finds it. -/
  headCommit : Except String String
  headId : Except String String
  revWalk : String → Except String (List (Except String String))
  commit : String → Except String (Commit Tree)
  diffTreeToTree : Option Tree → Tree → Except String (List ChangeDetached)
  lookupEntryByPath : Tree → String → Except String (Option TreeEntry)
  findObject : String → Except String (List UInt8)
  diffLines : Text → Text → List LineChange
  /-- Whether a subject has the pattern as a word, in whatever case. -/
  maintenanceRegex : String → Except String (Text → Bool)

/-- A call of git that may fail. -/
def gitCall {α : Type} (e : Except String α) : Except MiningFailure α :=
  e.mapError fun text => .error (.git text)

/-! ## Symbols of a commit -/

/-- A set of files and symbols. -/
abbrev Pairs := List (String × String)

/-- The order in which a set lists its elements. -/
def pairLe (a b : String × String) : Bool := a.1 < b.1 || a.1 = b.1 && a.2 ≤ b.2

def lineCount (text : Text) : Nat := if text = [] then 0 else max (lines text).length 1

/-- The numbers that the inserted lines have in the new text. -/
def newSideChangedLines (changes : List LineChange) : List Nat :=
  (changes.foldl turn ([], 0)).1
where
  turn (s : List Nat × Nat) (change : LineChange) : List Nat × Nat :=
    match change.tag with
    | .equal => (s.1, s.2 + 1)
    | .insert => (s.1 ++ [s.2 + 1], s.2 + 1)
    | .delete => s

/-- Where a change is; of a rename, its new place. -/
def changeLocation : ChangeDetached → List UInt8
  | .addition location _ | .deletion location _ | .modification location _ _
  | .rewrite _ location _ _ =>
    location

section
variable {Tree : Type} (repo : MinedRepo Tree)

def changedPaths (oldTree : Option Tree) (newTree : Tree) : Except MiningFailure (List String) := do
  let changes ← gitCall (repo.diffTreeToTree oldTree newTree)
  let paths := changes.filterMap fun change => locationToString (changeLocation change)
  return (paths.mergeSort (fun a b => decide (a ≤ b))).dedup

def blobAtTree (tree : Tree) (path : String) : Except MiningFailure (Option Text) := do
  match ← gitCall (repo.lookupEntryByPath tree path) with
  | none => return none
  | some entry =>
    if !entry.mode.isBlob && !entry.mode.isLink then return none
    else
      let data ← gitCall (repo.findObject entry.oid)
      return (decodeUtf8 data).map (·.toList)

variable (blake3 : List UInt8 → ContentHash) (ts : TreeSitter)

def chunkFileOr (path : String) (lang : Language) (text : Text) :
    Except MiningFailure ChunkedFile :=
  match chunkFile blake3 path lang ts text with
  | some chunks => .ok chunks
  | none => .error .panic

/-- The turn of the loop of `touched_symbols` over the chunks of a file. -/
def touchChunk (changedLines : List Nat) (touched : Pairs) (chunk : FragmentChunk) : Pairs :=
  if chunk.record.symbol = String.ofList preludeSymbol then touched
  else if changedLines.any fun l =>
    decide (chunk.record.lineStart ≤ l ∧ l ≤ chunk.record.lineEnd) then
    touched.insert (chunk.record.file, chunk.record.symbol)
  else touched

/-- The old text of a path, empty where there is none. -/
def oldTextAt (oldTree : Option Tree) (path : String) : Except MiningFailure Text :=
  match oldTree with
  | some tree => (·.getD []) <$> blobAtTree repo tree path
  | none => .ok []

/-- The lines that count as changed: all of them in a new file. -/
def changedLines (oldText newText : Text) : List Nat :=
  if oldText = [] then (List.range (lineCount newText)).map (· + 1)
  else newSideChangedLines (repo.diffLines oldText newText)

/-- The turn of its loop over the changed paths. -/
def touchPath (oldTree : Option Tree) (newTree : Tree) (touched : Pairs) (path : String) :
    Except MiningFailure Pairs :=
  match Language.fromPath path with
  | none => .ok touched
  | some lang => do
    match ← blobAtTree repo newTree path with
    | none => return touched
    | some newText =>
      let oldText ← oldTextAt repo oldTree path
      let changed := changedLines repo oldText newText
      if changed = [] then return touched
      else
        let file ← chunkFileOr blake3 ts path lang newText
        return file.chunks.foldl (touchChunk changed) touched

def touchedSymbols (commit : Commit Tree) (parent : Option (Commit Tree)) :
    Except MiningFailure Pairs := do
  let newTree ← gitCall commit.tree
  let oldTree ← parent.mapM fun p => gitCall p.tree
  let paths ← changedPaths repo oldTree newTree
  let touched ← paths.foldlM (touchPath repo blake3 ts oldTree newTree) []
  return touched.mergeSort pairLe

end

/-! ## Mining -/

/-- The known patterns, as reports name them. -/
def knownPatterns : List String := ["wip", "fixup", "typo", "bump", "lint"]

def matchMaintenance (subject : Text) : List (String × (Text → Bool)) → Option String
  | [] => none
  | (name, isMatch) :: patterns =>
    if isMatch subject then
      some ((knownPatterns.find? fun k => lowercase name.toList = lowercase k.toList).getD "custom")
    else matchMaintenance subject patterns

def commitSubject {Tree : Type} (commit : Commit Tree) : Except MiningFailure Text := do
  let text ← gitCall commit.message
  return trim ((lines text).headD [])

/-- The symbols of the live rows; `none` is a row without a record. -/
def indexedSymbolSet (rows : List (Option ChunkRecord)) : Pairs :=
  rows.filterMap fun row => row.bind fun rec =>
    if rec.symbol = String.ofList preludeSymbol then none else some (rec.file, rec.symbol)

section
variable {Tree : Type} (repo : MinedRepo Tree) (blake3 : List UInt8 → ContentHash) (ts : TreeSitter)
  (config : MiningConfig) (indexed : Pairs) (maintenance : List (String × (Text → Bool)))

def compileMaintenance (patterns : List String) :
    Except MiningFailure (List (String × (Text → Bool))) :=
  patterns.mapM fun p => do
    let re ← (repo.maintenanceRegex p).mapError fun text => MiningFailure.error (.message text)
    return (p, re)

def requireMinedRevision : Except MiningFailure Unit := do
  let actual ← gitCall repo.headCommit
  if actual ≠ minedCorpusPinnedRevision then
    throw (.error (.revisionMismatch minedCorpusPinnedRevision actual))

def checkRevision : Except MiningFailure Unit :=
  if config.enforcePinnedRevision then requireMinedRevision repo else .ok ()

/-- Where the loop over the history stands. -/
structure CommitMining where
  report : MiningReport
  labels : List Label

def onlyParent (commit : Commit Tree) : Except MiningFailure (Option (Commit Tree)) :=
  match commit.parentIds with
  | [parent] => some <$> gitCall (repo.commit parent)
  | _ => .ok none

/-- The turn of that loop for a commit. -/
def mineCommit (m : CommitMining) (id : String) : Except MiningFailure CommitMining := do
  let report := { m.report with commitsExamined := m.report.commitsExamined + 1 }
  let commit ← gitCall (repo.commit id)
  let parentCount := commit.parentIds.length
  if parentCount > 1 then return { m with report := report.reject .merge }
  else
    let subject ← commitSubject commit
    match matchMaintenance subject maintenance with
    | some pattern => return { m with report := report.reject (.maintenancePattern pattern) }
    | none =>
      let words := (splitWhitespace subject).length
      if words < config.minSubjectWords then
        return { m with report := report.reject (.subjectTooShort words) }
      else
        let parent ← onlyParent repo commit
        let touched ← touchedSymbols repo blake3 ts commit parent
        if touched = [] then return { m with report := report.reject .noSymbolsTouched }
        else if touched.length > config.maxSymbolsPerCommit then
          return { m with report := report.reject (.tooManySymbols touched.length) }
        else
          let missing := (touched.filter (!indexed.contains ·)).length
          if missing > 0 then return { m with report := report.reject (.symbolsNotIndexed missing) }
          else return {
            report := { report with labelsAccepted := report.labelsAccepted + 1 }
            labels := m.labels ++ [{
              query := String.ofList subject
              expected := touched
              source := .commitSubject
              provenance := commit.id }] }

/-- The loop, which leaves off when enough commits have been examined. -/
def mineWalk (m : CommitMining) : List (Except String String) → Except MiningFailure CommitMining
  | [] => .ok m
  | info :: walk => do
    let id ← gitCall info
    if config.maxCommits.any (· ≤ m.report.commitsExamined) then return m
    else mineWalk (← mineCommit repo blake3 ts config indexed maintenance m id) walk

/-- `rows` are the live rows of the store with their records, and `chunker` is what keeps it from
being made. -/
def mineCommits (rows : Except String (List (Option ChunkRecord))) (chunker : Except String Unit) :
    Except MiningFailure (List Label × MiningReport) := do
  checkRevision repo config
  gitCall repo.opened
  let tip ← gitCall repo.headId
  let rows ← rows.mapError fun text => MiningFailure.error (.store text)
  let indexed := indexedSymbolSet rows
  chunker.mapError fun text => MiningFailure.error (.index text)
  let maintenance ← compileMaintenance repo config.maintenancePatterns
  let walk ← gitCall (repo.revWalk tip)
  let m ← mineWalk repo blake3 ts config indexed maintenance ⟨.new, []⟩ walk
  return (m.labels.insertionSort fun a b => a.provenance ≤ b.provenance, m.report)

end

end SiftMcp
