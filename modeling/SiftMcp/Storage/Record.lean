import SiftMcp.Lib.Prog

/-!
# Chunk records and store errors

The record shape and the error values of the storage crate. A failure is an error value the caller
receives or a panic; operating-system and SQLite failures that the caller cannot foresee are
injected by the `fails` argument of each operation.
-/

namespace SiftMcp
open Durable

/-- blake3 over the normalized symbol body, 32 bytes. -/
structure ContentHash where
  bits : BitVec 256
deriving DecidableEq

/-- Position of a chunk's embedding in the matrix; also the SQLite rowid. -/
abbrev RowId := Nat

/-- The bit pattern of a half-precision float. -/
abbrev F16 := UInt16

/-- A chunk as it is stored. -/
structure ChunkRecord where
  repository : String
  file : String
  language : String
  symbol : String
  symbolType : String
  signature : String
  docFirstLine : Option String
  lineStart : Nat
  lineEnd : Nat
  contentHash : ContentHash
deriving DecidableEq

/-- Result of the correspondence check. -/
inductive Integrity
  | ok (live : Nat)
  | broken (orphanRows missingRows duplicateRows : List RowId)
deriving DecidableEq

inductive IoKind
  | alreadyExists | invalidInput | invalidData | permissionDenied | notFound | other
deriving DecidableEq

inductive StoreError
  | dimensionMismatch (expected got : Nat)
  | modelMismatch (expected got : String)
  | schemaVersion (expected got : Nat)
  | corrupt (i : Integrity)
  | io (kind : IoKind) (detail : String)
  | sqlite (detail : String)
deriving DecidableEq

inductive Failure
  | error (e : StoreError)
  | panic (detail : String)
deriving DecidableEq

/-- The durable steps of the storage crate: what outlives a killed process. -/
inductive Step
  | grow | rowWrite | headerWrite | flush
  | sqlCommit
  | fileCreate | fileLength | fileRemove
  | manifestWrite | manifestRename | oldFileRemove
deriving DecidableEq

/-- The error of a call that fails for no reason of the caller's. -/
abbrev Failure.injected : Failure := .error (.io .other "injected failure")

/-- A call into the operating system or SQLite that may fail for no reason of the caller's. -/
def failAt {σ : Type} (b : Bool) : Prog σ Failure Step Unit :=
  if b then .fail .injected else pure ()

@[simp] theorem wp_failAt {σ : Type} {b : Bool} {Q : Unit → σ → Prop} {E : Failure → σ → Prop}
    {C : Step → σ → Prop} {s : σ} :
    Prog.wp (failAt b) Q E C s ↔
      (b = true → E .injected s) ∧ (b = false → Q () s) := by
  cases b <;> simp [failAt]

end SiftMcp
