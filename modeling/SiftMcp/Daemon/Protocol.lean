import SiftMcp.Indexing.Collect

/-!
# The protocol of the daemon

Requests, responses and errors, and the texts that errors print as. Timings are left out of
responses, as they are of the reports they are made from.
-/

namespace SiftMcp

def protocolVersion : Nat := 1

inductive IndexMode
  | full | update
deriving DecidableEq

inductive IndexPhase
  | walking | parsing | embedding | storing | compacting
deriving DecidableEq

/-- The requests that are answered from the index. -/
inductive Query
  | search (query : String) (topK : Nat)
  | searchSimilar (code : String) (topK : Nat)
  | getSymbol (file symbol : String)
deriving DecidableEq

inductive Request
  | hello (protocolVersion : Nat) (client : String)
  | query (q : Query)
  | index (mode : IndexMode) (repoDir : String)
  | status
  | shutdown
deriving DecidableEq

inductive DaemonError
  | protocolVersion (daemon client : Nat)
  | starting
  | indexInProgress
  | symbolNotFound (file symbol : String)
  | symbolAmbiguous (file symbol : String) (candidates : List String)
  | storeStale (reason : String)
  | gpuUnavailable (detail : String)
  | requestTooLarge (bytes limit : Nat)
  | malformed (detail : String)
  | internal (detail : String)
deriving DecidableEq

structure DaemonStatus where
  modelId : String
  chunksLive : Nat
  chunksDead : Nat
  indexedCommit : Option String
  indexing : Bool
  residentGpuBytes : Nat
deriving DecidableEq

/-- The bit pattern of a single-precision float. -/
abbrev F32 := UInt32

structure SearchResult where
  file : String
  symbol : String
  signature : String
  doc : Option String
  preview : String
  lines : Nat × Nat
  lexicalScore : Option F32
  denseScore : Option F32
  fusedScore : F32
deriving DecidableEq

/-- Which retrievers ran and which failed. -/
structure SearchDiagnostics where
  lexicalOk : Bool
  denseOk : Bool
  lexicalError : Option String
  denseError : Option String
deriving DecidableEq

structure SearchResponse where
  results : List SearchResult
  diagnostics : SearchDiagnostics
deriving DecidableEq

/-- Mirror of the report of a run for the wire. -/
structure IndexReportWire where
  commit : String
  filesSeen : Nat
  filesIndexed : Nat
  filesExcluded : Nat
  filesUnsupported : Nat
  filesUnparsed : Nat
  chunksAdded : Nat
  chunksReused : Nat
  chunksRemoved : Nat
  embeddingsComputed : Nat
  chunksTruncated : Nat
  liveBefore : Nat
  liveAfter : Nat
deriving DecidableEq

def IndexReportWire.from (r : IndexReport) : IndexReportWire where
  commit := r.commit
  filesSeen := r.filesSeen
  filesIndexed := r.filesIndexed
  filesExcluded := r.filesExcluded
  filesUnsupported := r.filesUnsupported
  filesUnparsed := r.filesUnparsed
  chunksAdded := r.chunksAdded
  chunksReused := r.chunksReused
  chunksRemoved := r.chunksRemoved
  embeddingsComputed := r.embeddingsComputed
  chunksTruncated := r.chunksTruncated
  liveBefore := r.liveBefore
  liveAfter := r.liveAfter

inductive Response
  | hello (protocolVersion : Nat) (modelId : String) (chunks : Nat)
  | search (r : SearchResponse)
  | symbol (file symbol language signature : String) (lines : Nat × Nat) (body : String)
  | indexProgress (phase : IndexPhase) (done : Nat) (total : Option Nat)
  | indexDone (r : IndexReportWire)
  | status (s : DaemonStatus)
  | error (e : DaemonError)
deriving DecidableEq

structure Envelope (π : Type) where
  requestId : Nat
  payload : π
deriving DecidableEq

/-! ## Texts -/

def hexDigits (n : Nat) : String := String.ofList (Nat.toDigits 16 n)

/-- `char::escape_debug` within a text. Beyond ASCII every character counts as printable. -/
def escapeDebug (c : Char) : String :=
  match c with
  | '\x00' => "\\0"
  | '\t' => "\\t"
  | '\r' => "\\r"
  | '\n' => "\\n"
  | '\\' => "\\\\"
  | '\x22' => "\\\""
  | c =>
    if c.toNat < 32 ∨ c.toNat = 127 then "\\u\x7b" ++ hexDigits c.toNat ++ "\x7d" else c.toString

def debugStr (s : String) : String := "\"" ++ String.join (s.toList.map escapeDebug) ++ "\""

def debugList (items : List String) : String := "[" ++ ", ".intercalate items ++ "]"

/-- A variant with fields. -/
def debugFields (name : String) (fields : List (String × String)) : String :=
  name ++ " \x7b " ++ ", ".intercalate (fields.map fun f => f.1 ++ ": " ++ f.2) ++ " \x7d"

def DaemonError.debug : DaemonError → String
  | .protocolVersion daemon client =>
    debugFields "ProtocolVersion" [("daemon", toString daemon), ("client", toString client)]
  | .starting => "Starting"
  | .indexInProgress => "IndexInProgress"
  | .symbolNotFound file symbol =>
    debugFields "SymbolNotFound" [("file", debugStr file), ("symbol", debugStr symbol)]
  | .symbolAmbiguous file symbol candidates =>
    debugFields "SymbolAmbiguous" [("file", debugStr file), ("symbol", debugStr symbol),
      ("candidates", debugList (candidates.map debugStr))]
  | .storeStale reason => debugFields "StoreStale" [("reason", debugStr reason)]
  | .gpuUnavailable detail => debugFields "GpuUnavailable" [("detail", debugStr detail)]
  | .requestTooLarge bytes limit =>
    debugFields "RequestTooLarge" [("bytes", toString bytes), ("limit", toString limit)]
  | .malformed detail => debugFields "Malformed" [("detail", debugStr detail)]
  | .internal detail => debugFields "Internal" [("detail", debugStr detail)]

def Integrity.debug : Integrity → String
  | .ok live => debugFields "Ok" [("live", toString live)]
  | .broken orphanRows missingRows duplicateRows =>
    let rows := fun l : List RowId => debugList (l.map fun row => "RowId(" ++ toString row ++ ")")
    debugFields "Broken" [("orphan_rows", rows orphanRows), ("missing_rows", rows missingRows),
      ("duplicate_rows", rows duplicateRows)]

def StoreError.display : StoreError → String
  | .dimensionMismatch expected got =>
    s!"embedding dimension mismatch: expected {expected}, got {got}"
  | .modelMismatch expected got => s!"model identity mismatch: expected {expected}, got {got}"
  | .schemaVersion expected got =>
    s!"schema or format version mismatch: expected {expected}, got {got}"
  | .corrupt i => s!"store correspondence broken: {i.debug}"
  | .io _ detail => detail
  | .sqlite detail => detail

def RetrievalError.display : RetrievalError → String
  | .tantivy detail => s!"tantivy error: {detail}"

/-- Validate and answer a Hello. Any other first request is refused. -/
def handleHello (req : Request) (modelId : String) (chunks : Nat) : Except Response Response :=
  match req with
  | .hello version _ =>
    if version ≠ protocolVersion then .error (.error (.protocolVersion protocolVersion version))
    else .ok (.hello protocolVersion modelId chunks)
  | _ => .error (.error (.malformed "Hello required before other requests"))

end SiftMcp
