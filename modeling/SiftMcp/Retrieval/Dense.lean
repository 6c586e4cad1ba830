import SiftMcp.Storage.Store

/-!
# The dense index

What `DenseIndex` prepares from a store: a copy of the matrix, and the mask of its live rows. Only
the backend of the CPU is modelled. Scores are left to whoever searches.
-/

namespace SiftMcp

/-- An error comes as the text that it displays. A request for memory that is refused ends the
process. -/
inductive DenseFailure
  | error (text : String)
  | panic (detail : String)
  | abort (bytes : Nat)
deriving DecidableEq

/-- Whole matrix as a contiguous slice, including dead rows. -/
def EmbeddingMatrix.asSlice (m : EmbeddingMatrix) : Except DenseFailure (List F16) :=
  let n := m.rows * m.dims
  if n = 0 then .ok []
  else if m.map.cells < n then .error (.panic "slice index out of range")
  else .ok (m.file.cells.take n)

/-- Snapshot of live matrix rows. -/
abbrev LiveMask := List Bool

/-- `error` is what `live_rows` fails with, if it does. -/
def LiveMask.fromStore (error : Option String) (s : ChunkStore) : Except DenseFailure LiveMask :=
  match error with
  | some e => .error (.error s!"store error: {e}")
  | none => .ok ((List.range s.matrix.rows).map (· ∈ s.liveRows))

structure DenseIndex where
  matrix : List F16
  rows : Nat
  dims : Nat
  modelId : String
  live : LiveMask
deriving DecidableEq

namespace DenseIndex

def prepareSlice (matrix : List F16) (rows dims : Nat) (modelId : String) (live : LiveMask) :
    Except DenseFailure DenseIndex :=
  if rows ≠ live.length then
    .error (.error s!"dense index error: live mask has {live.length} rows but matrix has {rows}")
  else if matrix.length ≠ rows * dims then
    .error (.error (s!"dense index error: matrix has {matrix.length} values but shape " ++
      s!"{rows}x{dims} requires {rows * dims}"))
  else .ok { matrix, rows, dims, modelId, live }

def prepare (m : EmbeddingMatrix) (live : LiveMask) : Except DenseFailure DenseIndex := do
  prepareSlice (← m.asSlice) m.rows m.dims m.modelId live

def fromStore (error : Option String) (s : ChunkStore) : Except DenseFailure DenseIndex := do
  let live ← LiveMask.fromStore error s
  prepare s.matrix live

/-- Take up the rows that the matrix has gained, and a new mask. -/
def refresh (d : DenseIndex) (m : EmbeddingMatrix) (live : LiveMask) :
    Except DenseFailure DenseIndex :=
  if m.dims ≠ d.dims then
    .error (.error s!"embedding dimension mismatch: expected {d.dims}, got {m.dims}")
  else if m.modelId ≠ d.modelId then
    .error (.error s!"model identity mismatch: expected {d.modelId}, got {m.modelId}")
  else if m.rows ≠ live.length then
    .error (.error s!"dense index error: live mask has {live.length} rows but matrix has {m.rows}")
  else if m.rows < d.rows then
    .error (.error (s!"dense index error: matrix row count decreased from {d.rows} to {m.rows}; " ++
      "prepare a new index after compaction"))
  else do
    let slice ← m.asSlice
    if slice.length < d.rows * d.dims then .error (.panic "range start index out of range")
    else .ok { d with matrix := d.matrix ++ slice.drop (d.rows * d.dims), rows := m.rows, live }

end DenseIndex

end SiftMcp
