import SiftMcp.Storage.Record
import Mathlib.Algebra.Group.Nat.Defs
import Mathlib.Data.List.Sort

/-!
# The metadata database

The two tables of `chunks.db` and the statements the store runs on them. `chunks` is kept as SQLite
keeps it, ascending by rowid. A statement that changes the database is a function to the changed
database; the store commits it as one step.
-/

namespace SiftMcp

structure ChunkRow where
  rowid : RowId
  record : ChunkRecord
  live : Bool
deriving DecidableEq

def ChunkRow.hash (c : ChunkRow) : ContentHash := c.record.contentHash

/-- `tables` is false of a database on which `init_schema` has not run. -/
structure Db where
  tables : Bool
  metaTable : List (String × String)
  chunks : List ChunkRow
deriving DecidableEq

/-- Counts used to decide when to compact. -/
structure StoreStats where
  live : Nat
  dead : Nat
deriving DecidableEq

namespace Db

def empty : Db := ⟨false, [], []⟩

def initSchema (db : Db) : Except StoreError Db :=
  if db.tables then .error (.sqlite "table meta already exists") else .ok { db with tables := true }

def metaValue (db : Db) (key : String) : Option String :=
  (db.metaTable.find? (·.1 = key)).map (·.2)

/-- `INSERT ... ON CONFLICT(key) DO UPDATE` -/
def setMeta (db : Db) (key value : String) : Db :=
  { db with metaTable := (key, value) :: db.metaTable.filter (·.1 ≠ key) }

/-- `str::parse::<u32>` -/
def parseU32 (s : String) : Option Nat :=
  let digits := match s.toList with | '+' :: ds => ds | ds => ds
  if digits ≠ [] ∧ digits.all Char.isDigit then
    let n := digits.foldl (fun n c => 10 * n + (c.toNat - '0'.toNat)) 0
    if n < 2 ^ 32 then some n else none
  else none

def metaU32 (db : Db) (key : String) : Except StoreError Nat :=
  if ¬db.tables then .error (.sqlite "no such table: meta")
  else match db.metaValue key with
    | none => .error (.sqlite "Query returned no rows")
    | some s =>
      match parseU32 s with
      | none => .error (.io .invalidData s!"meta {key}: invalid digit found in string")
      | some n => .ok n

/-- The live rows, in ascending row order. -/
def live (db : Db) : List ChunkRow := db.chunks.filter (·.live)

def get (db : Db) (row : RowId) : Option ChunkRecord :=
  (db.live.find? (·.rowid = row)).map (·.record)

def getByHash (db : Db) (hash : ContentHash) : Option (RowId × ChunkRecord) :=
  (db.live.find? (·.hash = hash)).map fun c => (c.rowid, c.record)

def rowsForFile (db : Db) (file : String) : List RowId :=
  (db.live.filter (·.record.file = file)).map (·.rowid)

def liveRows (db : Db) : List RowId := db.live.map (·.rowid)

/-- `UPDATE chunks SET live = 0 WHERE rowid = ?1 AND live = 1`, for each row. -/
def tombstone (db : Db) (rows : List RowId) : Db :=
  { db with chunks := db.chunks.map fun c => if c.rowid ∈ rows then { c with live := false }
    else c }

/-- `UPDATE chunks SET file = ?1 WHERE file = ?2 AND live = 1` -/
def rekeyFile (db : Db) (oldFile newFile : String) : Db :=
  { db with chunks := db.chunks.map fun c =>
      if c.live ∧ c.record.file = oldFile then
        { c with record := { c.record with file := newFile } }
      else c }

def stats (db : Db) : StoreStats :=
  ⟨db.live.length, (db.chunks.filter (!·.live)).length⟩

/-- `INSERT INTO chunks`, under the primary key and the unique index on live hashes. -/
def insertChunk (db : Db) (row : RowId) (rec : ChunkRecord) : Except StoreError Db :=
  if db.chunks.any (·.rowid = row) then .error (.sqlite "UNIQUE constraint failed: chunks.rowid")
  else if db.live.any (·.hash = rec.contentHash) then
    .error (.sqlite "UNIQUE constraint failed: chunks.content_hash")
  else .ok { db with chunks :=
    db.chunks.takeWhile (·.rowid < row) ++ ⟨row, rec, true⟩ :: db.chunks.dropWhile (·.rowid < row) }

/-- `SELECT COUNT(*) FROM chunks WHERE rowid = ?1` -/
def countRow (db : Db) (row : RowId) : Nat := db.chunks.countP (·.rowid = row)

/-- `SELECT MAX(rowid) FROM chunks` -/
def maxRowid (db : Db) : Option RowId := (db.chunks.map (·.rowid)).max?

/-- Live rows whose content hash another live row bears too. -/
def duplicateHashRows (db : Db) : List RowId :=
  (db.live.filter fun c => db.live.countP (·.hash = c.hash) > 1).map (·.rowid)

end Db

end SiftMcp
