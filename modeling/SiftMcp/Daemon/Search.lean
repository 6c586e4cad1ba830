import SiftMcp.Daemon.Resident
import SiftMcp.Retrieval.Fusion

/-!
# Searching

The two implementations of a search: `Searcher`, over the parts of a resident, and
`search_with_parts`, over those of a frozen view. The retrievers themselves, the embedder and the
scores are parameters, which both are given alike.
-/

namespace SiftMcp

/-- The errors of an embedder, with the text that they display. -/
inductive InferError
  | gpuUnavailable (detail : String)
  | other (text : String)

def InferError.display : InferError → String
  | gpuUnavailable detail => s!"GPU unavailable: {detail}"
  | other text => text

def mapInferErr : InferError → DaemonError
  | .gpuUnavailable detail => .gpuUnavailable detail
  | e => .internal e.display

/-- `RetrievalError::Inference`. -/
def searchInferErr : InferError → SearchError
  | .gpuUnavailable detail => .gpuUnavailable detail
  | e => .other s!"inference error: {e.display}"

abbrev Scored := List (ScoredRow F32)

/-- What a search calls. Errors come as the texts that they display. -/
structure Backends where
  /-- The vector of the one text. -/
  embed : Embedder → Role → String → Except InferError (List F16)
  /-- tantivy, on the documents that the reader sees. -/
  tantivy : List (RowId × LexicalDoc) → String → Nat → Except String Scored
  /-- The scores of the live rows, and the best of them. -/
  scores : DenseIndex → List F16 → Nat → Except String Scored
  scoring : Scoring F32
  fusion : FusionConfig
  /-- The errors of `get_many` and `bodies` when the results are assembled. -/
  getManyError : Option String
  bodiesError : Option String
  mapOrder : List (RowId × ChunkRecord) → List (RowId × ChunkRecord)
  mapOrder_perm : ∀ entries, (mapOrder entries).Perm entries

/-! ## Retrievers -/

namespace Backends

variable (B : Backends)

/-- `LexicalSearchHandle::search`. -/
def lexicalSearch (docs : List (RowId × LexicalDoc)) (query : String) (limit : Nat) :
    Except String Scored :=
  if limit = 0 then .ok [] else B.tantivy docs query limit

/-- `DenseIndex::search`. -/
def denseSearch (d : DenseIndex) (query : List F16) (modelId : String) (limit : Nat) :
    Except String Scored :=
  if query.length ≠ d.dims then
    .error s!"embedding dimension mismatch: expected {d.dims}, got {query.length}"
  else if modelId ≠ d.modelId then
    .error s!"model identity mismatch: expected {d.modelId}, got {modelId}"
  else if limit = 0 then .ok []
  else B.scores d query limit

end Backends

/-! ## Results -/

def previewMaxBytes : Nat := 320

/-- The longest beginning of at most `n` bytes. -/
def takeBytes : Nat → List Char → List Char
  | n, c :: cs => if c.utf8Size ≤ n then c :: takeBytes (n - c.utf8Size) cs else []
  | _, [] => []

def previewFromBody (body : String) : String :=
  if body.utf8ByteSize ≤ previewMaxBytes then body
  else String.ofList (takeBytes previewMaxBytes body.toList)

def searchResult (record : ChunkRecord) (body : Option String) (row : FusedRow F32) :
    SearchResult where
  file := record.file
  symbol := record.symbol
  signature := record.signature
  doc := record.docFirstLine
  preview := previewFromBody (body.getD "")
  lines := (record.lineStart, record.lineEnd)
  lexicalScore := row.lexical.score
  denseScore := row.dense.score
  fusedScore := row.fusedScore

/-- The rows that a retriever has returned, and its error. -/
def rowsOf (outcome : Except String Scored) : Scored := outcome.toOption.getD []

def errorOf : Except String Scored → Option String
  | .ok _ => none
  | .error e => some e

def diagnosticsOf (lexical dense : Except String Scored) : SearchDiagnostics where
  lexicalOk := (errorOf lexical).isNone
  denseOk := (errorOf dense).isNone
  lexicalError := errorOf lexical
  denseError := errorOf dense

/-! ## Over a resident -/

structure Searcher where
  lexical : LexicalIndex
  dense : DenseIndex
  store : ChunkStore
  embedder : Embedder
  /-- When true, run lexical and dense concurrently. -/
  concurrent : Bool

structure DispatchRequest where
  lexical : LexicalIndex
  dense : DenseIndex
  text : String
  queryVec : List F16
  modelId : String
  runLexical : Bool

namespace Searcher

variable (B : Backends)

def new (lexical : LexicalIndex) (dense : DenseIndex) (store : ChunkStore) (embedder : Embedder) :
    Searcher :=
  ⟨lexical, dense, store, embedder, true⟩

def dispatchSequential (request : DispatchRequest) : Except String Scored × Except String Scored :=
  let lexical :=
    if request.runLexical then
      B.lexicalSearch request.lexical.reader request.text B.fusion.lexicalDepth
    else .ok []
  (lexical, B.denseSearch request.dense request.queryVec request.modelId B.fusion.denseDepth)

/-- Each in a thread of its own, on the same reader. -/
def dispatchConcurrent (request : DispatchRequest) : Except String Scored × Except String Scored :=
  (B.lexicalSearch request.lexical.reader request.text B.fusion.lexicalDepth,
    B.denseSearch request.dense request.queryVec request.modelId B.fusion.denseDepth)

def assemble (store : ChunkStore) (lexical : LexicalIndex) (fused : List (FusedRow F32))
    (topK : Nat) : Except SearchError (List SearchResult) :=
  match B.getManyError, B.bodiesError with
  | some e, _ => .error (.other s!"store error: {e}")
  | none, some e => .error (.other s!"tantivy error: {e}")
  | none, none => .ok ((fused.take topK).filterMap fun row =>
    (store.get row.row).map fun record => searchResult record (bodyOf lexical.reader row.row) row)

def run (s : Searcher) (text : String) (topK : Nat) (role : Role) (runLexical : Bool) :
    Except SearchError SearchResponse := do
  let queryVec ← (B.embed s.embedder role text).mapError searchInferErr
  let request : DispatchRequest :=
    ⟨s.lexical, s.dense, text, queryVec, s.embedder.modelId, runLexical⟩
  let (lexical, dense) :=
    if s.concurrent && runLexical then dispatchConcurrent B request
    else dispatchSequential B request
  match errorOf lexical, errorOf dense with
  | some l, some d => throw (.other s!"both retrievers failed: lexical={l}; dense={d}")
  | _, _ =>
    let fused := fuse B.scoring B.fusion (rowsOf lexical) (rowsOf dense)
    let results ← assemble B s.store s.lexical fused topK
    return ⟨results, diagnosticsOf lexical dense⟩

def search (s : Searcher) (query : String) (topK : Nat) : Except SearchError SearchResponse :=
  s.run B query topK .query true

/-- find_similar_code: embeds `code` as a document, skips the lexical path. -/
def searchSimilar (s : Searcher) (code : String) (topK : Nat) : Except SearchError SearchResponse :=
  s.run B code topK .document false

end Searcher

/-! ## Over a frozen view -/

def searchWithParts (B : Backends) (f : FrozenSearch) (role : Role) (text : String) (topK : Nat) :
    Except DaemonError SearchResponse := do
  let vector ← (B.embed f.embedder role text).mapError mapInferErr
  let lexical := B.lexicalSearch f.lexical text B.fusion.lexicalDepth
  let dense := B.denseSearch f.dense vector f.embedder.modelId B.fusion.denseDepth
  let fused := fuse B.scoring B.fusion (rowsOf lexical) (rowsOf dense)
  let results := (fused.take topK).filterMap fun row =>
    (f.records.lookup row.row).map fun record => searchResult record (f.bodies.lookup row.row) row
  return ⟨results, diagnosticsOf lexical dense⟩

/-- A resident searches for one role as `search` does, and for the other as `search_similar`. -/
def Backends.retrieval (B : Backends) : Retrieval where
  run lexical dense store embedder role text topK :=
    let searcher := Searcher.new lexical dense store embedder
    match role with
    | .query => searcher.search B text topK
    | .document => searcher.searchSimilar B text topK
  searchWithParts := searchWithParts B
  mapOrder := B.mapOrder
  mapOrder_perm := B.mapOrder_perm

end SiftMcp
