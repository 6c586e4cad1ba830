import SiftMcp.Storage.Record
import Mathlib.Algebra.Group.Nat.Defs

/-!
# The embedding matrix

One fixed-width row of half floats for each chunk, in a file that is memory-mapped shared, so a
write to the map is a write to the file. A file is its 288-byte header, kept here as the fields it
encodes, followed by cells of two bytes; lengths count cells. `EmbeddingMatrix` holds the file
together with what the process keeps beside it: the header in memory, the mapped capacity, and the
map, of which only the visible length and the write permission matter.
-/

namespace SiftMcp
open Durable

def matrixFormatVersion : Nat := 1

/-- `b"SIFTEMB\0"` -/
def matrixMagic : List UInt8 := [83, 73, 70, 84, 69, 77, 66, 0]

def modelIdCapacity : Nat := 256

/-- Grow the backing file in blocks of this many rows to amortize remaps. -/
def growBlockRows : Nat := 1024

structure MatrixHeader where
  magic : List UInt8
  formatVersion : Nat
  dims : Nat
  rows : Nat
  modelId : String
deriving DecidableEq

/-- The header as the file takes it. -/
def MatrixHeader.encode (h : MatrixHeader) : Except StoreError MatrixHeader :=
  if h.modelId.utf8ByteSize > modelIdCapacity then
    .error (.io .invalidInput "model_id exceeds maximum length")
  else .ok h

/-- The header as the file gives it back. -/
def MatrixHeader.decode (h : MatrixHeader) : Except StoreError MatrixHeader :=
  if h.magic ≠ matrixMagic then .error (.corrupt (.broken [] [] []))
  else if h.formatVersion ≠ matrixFormatVersion then
    .error (.schemaVersion matrixFormatVersion h.formatVersion)
  else if h.modelId.utf8ByteSize > modelIdCapacity then .error (.corrupt (.broken [] [] []))
  else .ok h

structure MatrixFile where
  header : MatrixHeader
  cells : List F16
deriving DecidableEq

/-- `set_len`: cut the cells, or extend them with zeros. -/
def MatrixFile.setLen (f : MatrixFile) (n : Nat) : MatrixFile :=
  { f with cells := f.cells.take n ++ List.replicate (n - f.cells.length) 0 }

def MatrixFile.writeCells (f : MatrixFile) (offset : Nat) (v : List F16) : MatrixFile :=
  { f with cells := f.cells.take offset ++ v ++ f.cells.drop (offset + v.length) }

/-- A map of the file, with the number of cells it makes visible. -/
inductive Map
  | read (cells : Nat)
  | write (cells : Nat)
deriving DecidableEq

def Map.cells : Map → Nat
  | .read n | .write n => n

structure EmbeddingMatrix where
  path : String
  header : MatrixHeader
  capacityRows : Nat
  map : Map
  file : MatrixFile
deriving DecidableEq

/-- The fallible calls of `append`. -/
inductive AppendStep
  | growOpenPlaceholder | growMapPlaceholder
  | growOpen | growSetLen | growMap
  | headerFlush
deriving DecidableEq

namespace EmbeddingMatrix

def dims (m : EmbeddingMatrix) : Nat := m.header.dims

def modelId (m : EmbeddingMatrix) : String := m.header.modelId

def rows (m : EmbeddingMatrix) : Nat := m.header.rows

/-- Open a file for mutation; the handle maps the whole of it. -/
def openMut (path : String) (f : MatrixFile) : Except Failure EmbeddingMatrix := do
  let header ← (f.header.decode).mapError .error
  return {
    path, header
    capacityRows := if header.dims = 0 then 0 else f.cells.length / header.dims
    map := .write f.cells.length
    file := f }

def asBytesMut : Prog EmbeddingMatrix Failure Step Unit := do
  match (← .get).map with
  | .write _ => pure ()
  | .read _ => .fail (.error (.io .permissionDenied "matrix opened read-only"))

/-- Copy the encoded header to the start of the map and flush it. -/
def writeHeader (fails : Bool) : Prog EmbeddingMatrix Failure Step Unit := do
  let encoded ← .ofExcept (((← .get).header.encode).mapError .error)
  asBytesMut
  .durable .headerWrite fun m => { m with file := { m.file with header := encoded } }
  failAt fails

/-- Extend the file by one block and map it again. The map is replaced by one of the header alone
while the file is resized. -/
def grow (fails : AppendStep → Bool) : Prog EmbeddingMatrix Failure Step Unit := do
  let newCapacity := (← .get).capacityRows + growBlockRows
  failAt (fails .growOpenPlaceholder)
  failAt (fails .growMapPlaceholder)
  .modify fun m => { m with map := .read 0 }
  failAt (fails .growOpen)
  failAt (fails .growSetLen)
  .durable .grow fun m => { m with file := m.file.setLen (newCapacity * m.dims) }
  failAt (fails .growMap)
  .modify fun m => { m with map := .write m.file.cells.length }
  .modify fun m => { m with capacityRows := newCapacity }

/-- Write a vector behind the last row, then count it in the header. -/
def writeRow (fails : Bool) (vector : List F16) : Prog EmbeddingMatrix Failure Step RowId := do
  let m ← .get
  let row := m.rows
  let offset := row * m.dims
  asBytesMut
  if m.map.cells < offset + m.dims then .fail (.panic "slice index out of range")
  .durable .rowWrite fun m => { m with file := m.file.writeCells offset vector }
  .modify fun m => { m with header := { m.header with rows := m.header.rows + 1 } }
  writeHeader fails
  return row

def append (fails : AppendStep → Bool) (vector : List F16) :
    Prog EmbeddingMatrix Failure Step RowId := do
  let m ← .get
  if vector.length ≠ m.dims then
    .fail (.error (.dimensionMismatch m.dims (vector.length % 2 ^ 32)))
  if m.rows ≥ m.capacityRows then grow fails
  writeRow (fails .headerFlush) vector

def row (m : EmbeddingMatrix) (row : RowId) : Except Failure (List F16) :=
  if row ≥ m.rows then
    .error (.error (.io .invalidInput s!"row {row} out of range (rows={m.rows})"))
  else if m.map.cells < row * m.dims + m.dims then .error (.panic "slice index out of range")
  else .ok ((m.file.cells.drop (row * m.dims)).take m.dims)

def flush (fails : Bool) : Prog EmbeddingMatrix Failure Step Unit := do
  writeHeader fails
  .durable .flush id

end EmbeddingMatrix

end SiftMcp
