import SiftMcp.Storage.Matrix
import SiftMcp.Storage.Db
import Mathlib.Logic.Function.Basic

/-!
# The store directory

Files by name, and the manifest that names the active pair of database and matrix file. Names are
relative to the store directory.
-/

namespace SiftMcp
open Durable

def dbName : String := "chunks.db"
def matrixName : String := "embeddings.f16"
def manifestName : String := "store.manifest"

/-- `empty` is a file just created, of length zero. -/
inductive File
  | empty
  | db (db : Db)
  | matrix (f : MatrixFile)
  | text (s : String)

abbrev Dir := String → Option File

namespace Dir

def empty : Dir := fun _ => none

def write (d : Dir) (name : String) (f : File) : Dir := Function.update d name (some f)

def remove (d : Dir) (name : String) : Dir := Function.update d name none

@[simp] theorem write_self (d : Dir) (name : String) (f : File) : d.write name f name = some f := by
  simp [write]

theorem write_of_ne (d : Dir) {name other : String} (f : File) (h : other ≠ name) :
    d.write name f other = d other := by
  simp [write, h]

theorem write_write (d : Dir) (name : String) (f g : File) :
    (d.write name f).write name g = d.write name g := Function.update_idem ..

theorem remove_of_ne (d : Dir) {name other : String} (h : other ≠ name) :
    d.remove name other = d other := by
  simp [remove, h]

end Dir

/-! ## Paths -/

inductive Component
  | rootDir | curDir | parentDir
  | normal (name : String)
deriving DecidableEq

/-- `Path::components` on Unix: empty pieces and inner dots are dropped. -/
def pathComponents (path : String) : List Component :=
  let pieces := path.toList.splitOn '/'
  let root := if path.toList.head? = some '/' then [Component.rootDir] else []
  let cur := if pieces.head? = some ['.'] then [Component.curDir] else []
  root ++ cur ++ pieces.filterMap fun p =>
    if p = [] ∨ p = ['.'] then none
    else if p = ['.', '.'] then some .parentDir
    else some (.normal (String.ofList p))

/-! ## The manifest -/

/-- `str::lines`. A carriage return is part of the end of a line, but not of the end of the text. -/
def textLines (s : String) : List (List Char) :=
  let pieces := s.toList.splitOn '\n'
  let ended := pieces.dropLast.map fun l => if l.getLast? = some '\r' then l.dropLast else l
  let last := pieces.getLast?.toList.filter (· ≠ [])
  ended ++ last

def stripPrefix (p l : List Char) : Option String :=
  if p.isPrefixOf l then some (String.ofList (l.drop p.length)) else none

def invalidManifest (field detail : String) : Failure :=
  .error (.io .invalidData s!"invalid store manifest {field}: {detail}")

def checkManifestName (value : Option String) (field : String) : Except Failure String :=
  match value with
  | none => .error (invalidManifest field "missing value")
  | some value =>
    match pathComponents value with
    | [.normal _] => .ok value
    | _ => .error (invalidManifest field "value must be a relative filename")

/-- The last value of a manifest field. -/
def manifestField (field : String) (lines : List (List Char)) : Option String :=
  lines.foldl (fun v l => (stripPrefix field.toList l).or v) none

/-- Names of the active database and matrix file. -/
def activePaths (d : Dir) : Except Failure (String × String) :=
  match d manifestName with
  | none => .ok (dbName, matrixName)
  | some (.text s) => do
    let lines := textLines s
    if "version=1".toList ∉ lines then
      throw (invalidManifest "version" "unsupported or missing version")
    let db ← checkManifestName (manifestField "db=" lines) "db"
    let matrix ← checkManifestName (manifestField "matrix=" lines) "matrix"
    return (db, matrix)
  | some _ => throw (.error (.io .invalidData "stream did not contain valid UTF-8"))

/-- The fallible calls of `publish_manifest`. The sync of the directory is not among them: its
failure is ignored. -/
inductive PublishStep
  | create | write | sync | rename
deriving DecidableEq

def publishManifest (fails : PublishStep → Bool) (pid : Nat) (db matrix : String) :
    Prog Dir Failure Step Unit := do
  let tmp := s!"{manifestName}.tmp-{pid}"
  failAt (fails .create)
  .durable .fileCreate (·.write tmp (.text ""))
  failAt (fails .write)
  .durable .manifestWrite (·.write tmp (.text "version=1\n"))
  .durable .manifestWrite (·.write tmp (.text s!"version=1\ndb={db}\n"))
  .durable .manifestWrite (·.write tmp (.text s!"version=1\ndb={db}\nmatrix={matrix}\n"))
  failAt (fails .sync)
  failAt (fails .rename)
  .durable .manifestRename fun d =>
    (d.remove tmp).write manifestName (.text s!"version=1\ndb={db}\nmatrix={matrix}\n")

/-! ## Opening the files of a pair -/

/-- `Connection::open`: a missing or empty file is an empty database. -/
def openConnection (d : Dir) (name : String) : Except Failure Db :=
  match d name with
  | none | some .empty => .ok .empty
  | some (.db db) => .ok db
  | some _ => .error (.error (.sqlite "file is not a database"))

def openMatrix (d : Dir) (name : String) : Except Failure EmbeddingMatrix :=
  match d name with
  | none => .error (.error (.io .notFound "No such file or directory"))
  | some (.matrix f) => EmbeddingMatrix.openMut name f
  | some _ => .error (.error (.corrupt (.broken [] [] [])))

/-- The fallible calls of `EmbeddingMatrix::create`. -/
inductive CreateStep
  | createDir | openFile | setLen | writeHeader | map
deriving DecidableEq

/-- `EmbeddingMatrix::create`: the file is truncated, extended to one block of zeros, and only then
given its header. -/
def EmbeddingMatrix.create (fails : CreateStep → Bool) (path : String) (dims : Nat)
    (modelId : String) : Prog Dir Failure Step EmbeddingMatrix := do
  failAt (fails .createDir)
  let header : MatrixHeader := ⟨matrixMagic, matrixFormatVersion, dims, 0, modelId⟩
  let capacityRows := growBlockRows
  let cells := List.replicate (capacityRows * dims) 0
  failAt (fails .openFile)
  .durable .fileCreate (·.write path .empty)
  failAt (fails .setLen)
  .durable .fileLength
    (·.write path (.matrix ⟨⟨List.replicate 8 0, 0, 0, 0, ""⟩, cells⟩))
  let encoded ← .ofExcept (header.encode.mapError .error)
  failAt (fails .writeHeader)
  .durable .headerWrite (·.write path (.matrix ⟨encoded, cells⟩))
  failAt (fails .map)
  return { path, header, capacityRows, map := .write cells.length, file := ⟨encoded, cells⟩ }

end SiftMcp
