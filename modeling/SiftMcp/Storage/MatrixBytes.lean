import SiftMcp.Storage.HeaderBytes

/-!
# The matrix over the bytes of its file

`EmbeddingMatrix` once more, here as the code has it: the header and the rows share one file of
bytes, offsets are computed in 64-bit words, and a map makes so many of the bytes visible.
Arithmetic that leaves a word panics in a build with overflow checks and wraps around in one
without. Halves are kept with their low byte first, as on the machines that the crate is built for.
-/

namespace SiftMcp
open Durable

/-! ## Machine words -/

def wordAdd (checks : Bool) (a b : Nat) : Except Failure Nat :=
  if a + b < 2 ^ 64 then .ok (a + b)
  else if checks then .error (.panic "attempt to add with overflow")
  else .ok ((a + b) % 2 ^ 64)

def wordMul (checks : Bool) (a b : Nat) : Except Failure Nat :=
  if a * b < 2 ^ 64 then .ok (a * b)
  else if checks then .error (.panic "attempt to multiply with overflow")
  else .ok (a * b % 2 ^ 64)

section
variable {checks : Bool} {a b : Nat}

theorem wordAdd_ok (h : a + b < 2 ^ 64) : wordAdd checks a b = .ok (a + b) := if_pos h

theorem wordMul_ok (h : a * b < 2 ^ 64) : wordMul checks a b = .ok (a * b) := if_pos h

end

/-- `&bytes[a..b]` -/
def sliceOf (bytes : List UInt8) (a b : Nat) : Except Failure (List UInt8) :=
  if b < a ∨ bytes.length < b then .error (.panic "slice index out of range")
  else .ok (bytes.cut a b)

/-- `f16_slice_as_bytes` -/
def f16SliceAsBytes (v : List F16) : List UInt8 := v.flatMap fun x => leBytes 2 x.toNat

/-- The halves that pairs of bytes give. -/
def halvesOf : List UInt8 → List F16
  | a :: b :: rest => UInt16.ofNat (leNat [a, b]) :: halvesOf rest
  | _ => []

def bytesAsF16Slice (bytes : List UInt8) : Except Failure (List F16) :=
  if bytes.length % 2 ≠ 0 then .error (.panic "assertion failed") else .ok (halvesOf bytes)

/-! ## The handle -/

/-- A file: it is no longer than a file offset can tell. -/
structure FileContent where
  bytes : List UInt8
  length_lt : bytes.length < 2 ^ 63

/-- A map of the file, with the number of bytes it makes visible. -/
inductive ByteMap
  | read (len : Nat)
  | write (len : Nat)
deriving DecidableEq

def ByteMap.len : ByteMap → Nat
  | .read n | .write n => n

structure ByteMatrix where
  header : RawHeader
  capacityRows : Nat
  map : ByteMap
  file : List UInt8
deriving DecidableEq

namespace ByteMatrix

def dims (m : ByteMatrix) : Nat := m.header.dims.toNat

def rows (m : ByteMatrix) : Nat := m.header.rows.toNat

/-- `as_bytes` -/
def asBytes (m : ByteMatrix) : List UInt8 := m.file.take m.map.len

/-- The rows that a file of this length has room for. -/
def roomFor (dims len : Nat) : Nat := if dims = 0 then 0 else (len - headerSize) / (dims * 2)

/-- `open`; the file can be opened and mapped. -/
def «open» (utf8Error : List UInt8 → String) (f : FileContent) : Except StoreError ByteMatrix := do
  let header ← RawHeader.decode utf8Error f.bytes
  return {
    header
    capacityRows := roomFor header.dims.toNat f.bytes.length
    map := .read f.bytes.length
    file := f.bytes }

/-- Open for mutation (append). -/
def openMut (utf8Error : List UInt8 → String) (f : FileContent) : Except StoreError ByteMatrix := do
  let header ← RawHeader.decode utf8Error f.bytes
  return {
    header
    capacityRows := roomFor header.dims.toNat f.bytes.length
    map := .write f.bytes.length
    file := f.bytes }

/-- `HEADER_SIZE + row * dims * 2` -/
def rowOffset (checks : Bool) (row dims : Nat) : Except Failure Nat := do
  wordAdd checks headerSize (← wordMul checks (← wordMul checks row dims) 2)

def row (checks : Bool) (m : ByteMatrix) (row : RowId) : Except Failure (List F16) :=
  if row ≥ m.rows then
    .error (.error (.io .invalidInput s!"row {row} out of range (rows={m.rows})"))
  else do
    let offset ← rowOffset checks row m.dims
    let stop ← wordAdd checks offset (← wordMul checks m.dims 2)
    bytesAsF16Slice (← sliceOf m.asBytes offset stop)

/-- Whole matrix as a contiguous slice, including dead rows. -/
def asSlice (checks : Bool) (m : ByteMatrix) : Except Failure (List F16) := do
  let n ← wordMul checks m.rows m.dims
  if n = 0 then return []
  let stop ← wordAdd checks headerSize (← wordMul checks n 2)
  bytesAsF16Slice (← sliceOf m.asBytes headerSize stop)

/-- `set_len`, for a length that a file offset can tell. -/
def setLen (n : Nat) (bytes : List UInt8) : List UInt8 :=
  bytes.take n ++ List.replicate (n - bytes.length) 0

/-- `create`; the calls on the file succeed. -/
def create (dims : UInt32) (modelId : String) : Except StoreError ByteMatrix := do
  let header : RawHeader :=
    ⟨matrixMagic, .ofNat matrixFormatVersion, dims, 0, modelId, length_matrixMagic⟩
  let fileLen := headerSize + growBlockRows * dims.toNat * 2
  let encoded ← header.encode
  return {
    header
    capacityRows := growBlockRows
    map := .write fileLen
    file := (setLen fileLen []).patch 0 encoded }

def asBytesMut : Prog ByteMatrix Failure Step Unit := do
  match (← .get).map with
  | .write _ => pure ()
  | .read _ => .fail (.error (.io .permissionDenied "matrix opened read-only"))

def writeHeader (fails : Bool) : Prog ByteMatrix Failure Step Unit := do
  let encoded ← .ofExcept (((← .get).header.encode).mapError .error)
  asBytesMut
  if (← .get).map.len < headerSize then .fail (.panic "slice index out of range")
  .durable .headerWrite fun m => { m with file := m.file.patch 0 encoded }
  failAt fails

def grow (checks : Bool) (fails : AppendStep → Bool) : Prog ByteMatrix Failure Step Unit := do
  let m ← .get
  let newCapacity ← .ofExcept (wordAdd checks m.capacityRows growBlockRows)
  let fileLen ← .ofExcept (rowOffset checks newCapacity m.dims)
  failAt (fails .growOpenPlaceholder)
  failAt (fails .growMapPlaceholder)
  .modify fun m => { m with map := .read headerSize }
  failAt (fails .growOpen)
  failAt (fails .growSetLen || 2 ^ 63 ≤ fileLen)
  .durable .grow fun m => { m with file := setLen fileLen m.file }
  failAt (fails .growMap)
  .modify fun m => { m with map := .write m.file.length }
  .modify fun m => { m with capacityRows := newCapacity }

/-- Write a vector behind the last row, then count it in the header. -/
def writeRow (checks : Bool) (fails : Bool) (vector : List F16) :
    Prog ByteMatrix Failure Step RowId := do
  let m ← .get
  let row := m.rows
  let offset ← .ofExcept (rowOffset checks row m.dims)
  asBytesMut
  let width ← .ofExcept (wordMul checks m.dims 2)
  let stop ← .ofExcept (wordAdd checks offset width)
  let _ ← .ofExcept (sliceOf m.asBytes offset stop)
  .durable .rowWrite fun m => { m with file := m.file.patch offset (f16SliceAsBytes vector) }
  let rows ← .ofExcept (wordAdd checks m.rows 1)
  .modify fun m => { m with header := { m.header with rows := .ofNat rows } }
  writeHeader fails
  return row

def append (checks : Bool) (fails : AppendStep → Bool) (vector : List F16) :
    Prog ByteMatrix Failure Step RowId := do
  let m ← .get
  if vector.length ≠ m.dims then
    .fail (.error (.dimensionMismatch m.dims (vector.length % 2 ^ 32)))
  if m.rows ≥ m.capacityRows then grow checks fails
  writeRow checks (fails .headerFlush) vector

def flush (fails : Bool) : Prog ByteMatrix Failure Step Unit := do
  writeHeader fails
  .durable .flush id

end ByteMatrix

end SiftMcp
