import SiftMcp.Lib.DocIndex
import SiftMcp.Storage.Record

/-!
# The lexical index

The writing half of `LexicalIndex`, over a tantivy index as `DocIndex` describes it. Each document
is stored under the row id of its chunk.
-/

namespace SiftMcp
open Durable

structure LexicalDoc where
  symbol : String
  signature : String
  docFirstLine : Option String
  file : String
  body : String
deriving DecidableEq

inductive RetrievalError
  | tantivy (detail : String)
deriving DecidableEq

abbrev LexicalIndex := DocIndex RowId LexicalDoc

inductive LexicalStep
  | commit
deriving DecidableEq

/-- The fallible calls into tantivy, by their position in a loop. -/
inductive LexicalCall
  | loadDocument (i : Nat)
  | addDocument (i : Nat)
  | commit | reload
deriving DecidableEq

namespace LexicalIndex

abbrev LexProg := Prog LexicalIndex RetrievalError LexicalStep

def tantivyCall (b : Bool) : LexProg Unit :=
  if b then .fail (.tantivy "injected failure") else pure ()

def deleteTerm (row : RowId) : LexProg Unit :=
  .modify fun x => { x with staged := DocIndex.delete row x.staged }

def addDocument (fails : Bool) (row : RowId) (doc : LexicalDoc) : LexProg Unit := do
  tantivyCall fails
  .modify fun x => { x with staged := x.staged ++ [(row, doc)] }

def loadDocument (fails : Bool) (row : RowId) : LexProg (Option LexicalDoc) := do
  tantivyCall fails
  return DocIndex.load row (← .get).reader

def addBatch (fails : LexicalCall → Bool) (docs : List (RowId × LexicalDoc)) : LexProg Unit := do
  let _ ← .foldlP (fun i (row, doc) => do
      deleteTerm row
      addDocument (fails (.addDocument i)) row doc
      return i + 1)
    0 docs

def remove (rows : List RowId) : LexProg Unit :=
  .foldlP (fun _ row => deleteTerm row) () rows

def updateFilePaths (fails : LexicalCall → Bool) (paths : List (RowId × String)) :
    LexProg Unit := do
  let _ ← .foldlP (fun i (row, path) => do
      match ← loadDocument (fails (.loadDocument i)) row with
      | none => return i + 1
      | some document =>
        deleteTerm row
        addDocument (fails (.addDocument i)) row { document with file := path }
        return i + 1)
    0 paths

def renumber (fails : LexicalCall → Bool) (mapping : List (RowId × RowId)) : LexProg Unit := do
  let _ ← .foldlP (fun i (oldRow, newRow) => do
      match ← loadDocument (fails (.loadDocument i)) oldRow with
      | none => return i + 1
      | some document =>
        deleteTerm oldRow
        deleteTerm newRow
        addDocument (fails (.addDocument i)) newRow document
        return i + 1)
    0 mapping

def commit (fails : LexicalCall → Bool) : LexProg Unit := do
  tantivyCall (fails .commit)
  .durable .commit fun x => { x with durable := x.staged }
  tantivyCall (fails .reload)
  .modify fun x => { x with reader := x.durable }

def numDocs (x : LexicalIndex) : Nat := x.reader.length

/-! ## What the calls do -/

variable {Q : Unit → LexicalIndex → Prop} {E : RetrievalError → LexicalIndex → Prop}
  {C : LexicalStep → LexicalIndex → Prop} {x : LexicalIndex}

@[simp] theorem wp_tantivyCall {b : Bool} :
    Prog.wp (tantivyCall b) Q E C x ↔
      (b = true → E (.tantivy "injected failure") x) ∧ (b = false → Q () x) := by
  cases b <;> simp [tantivyCall]

/-- Nothing but the staged documents differs. -/
def Staging (x y : LexicalIndex) : Prop := y.durable = x.durable ∧ y.reader = x.reader

theorem remove_wp (rows : List RowId) :
    Prog.wp (remove rows) (fun _ y => y = { x with staged := DocIndex.deleteAll rows x.staged })
      (fun _ _ => False) (fun _ _ => False) x := by
  refine (Prog.wp_foldlP
    (fun done _ _ y => y = { x with staged := DocIndex.deleteAll done x.staged }) ?_ rows [] () x
    rfl).mono (fun _ _ h => h) (fun _ _ h => h) (fun _ _ h => h)
  rintro done row rest _ _ rfl
  simp [deleteTerm, DocIndex.deleteAll]

theorem addBatch_wp (fails : LexicalCall → Bool) (docs : List (RowId × LexicalDoc)) :
    Prog.wp (addBatch fails docs)
      (fun _ y => y = { x with staged := DocIndex.putAll docs x.staged })
      (fun _ y => Staging x y ∧ ∃ f, fails f = true) (fun _ _ => False) x := by
  simp only [addBatch, Prog.wp_bind, Prog.wp_pure]
  refine (Prog.wp_foldlP
    (fun done _ _ y => y = { x with staged := DocIndex.putAll done x.staged }) ?_ docs [] 0 x
    rfl).mono (fun _ _ h => h) (fun _ _ h => h) (fun _ _ h => h)
  rintro done ⟨row, doc⟩ rest i _ rfl
  simp only [deleteTerm, addDocument, Prog.wp_bind, Prog.wp_modify, wp_tantivyCall, Prog.wp_pure]
  refine ⟨fun h => ⟨⟨rfl, rfl⟩, _, h⟩, fun _ => ?_⟩
  simp [DocIndex.putAll, DocIndex.put]

def pathMove (p : RowId × String) : DocIndex.Move RowId LexicalDoc :=
  ⟨p.1, p.1, fun doc => { doc with file := p.2 }⟩

/-- A loop of which every turn stages a move stages all of them. -/
theorem moves_wp {β : Type} {fails : LexicalCall → Bool} {step : Nat → β → LexProg Nat}
    {toMove : β → DocIndex.Move RowId LexicalDoc}
    (hstep : ∀ i p (y : LexicalIndex), Prog.wp (step i p)
      (fun _ z => z = { y with staged := DocIndex.move y.reader (toMove p) y.staged })
      (fun _ z => Staging y z ∧ ∃ f, fails f = true) (fun _ _ => False) y) (ps : List β) :
    Prog.wp (Prog.foldlP step 0 ps)
      (fun _ y => y = { x with staged := DocIndex.moveAll x.reader (ps.map toMove) x.staged })
      (fun _ y => Staging x y ∧ ∃ f, fails f = true) (fun _ _ => False) x := by
  refine (Prog.wp_foldlP (fun done _ _ y =>
    y = { x with staged := DocIndex.moveAll x.reader (done.map toMove) x.staged }) ?_ ps [] 0 x
    rfl).mono (fun _ _ h => h) (fun _ _ h => h) (fun _ _ h => h)
  rintro done p rest i _ rfl
  refine (hstep i p _).mono ?_ ?_ fun _ _ h => h
  · rintro _ _ rfl
    rw [List.map_append, DocIndex.moveAll, DocIndex.moveAll, List.foldl_append]
    rfl
  · rintro _ z ⟨hstaging, hfails⟩
    exact ⟨⟨hstaging.1, hstaging.2⟩, hfails⟩

theorem updateFilePaths_wp (fails : LexicalCall → Bool) (paths : List (RowId × String)) :
    Prog.wp (updateFilePaths fails paths)
      (fun _ y => y = { x with staged := DocIndex.moveAll x.reader (paths.map pathMove) x.staged })
      (fun _ y => Staging x y ∧ ∃ f, fails f = true) (fun _ _ => False) x := by
  simp only [updateFilePaths, Prog.wp_bind, Prog.wp_pure]
  refine moves_wp ?_ paths
  rintro i ⟨row, path⟩ y
  simp only [loadDocument, Prog.wp_bind, wp_tantivyCall, Prog.wp_get, Prog.wp_pure]
  refine ⟨fun h => ⟨⟨rfl, rfl⟩, _, h⟩, fun _ => ?_⟩
  cases hl : DocIndex.load row y.reader with
  | none =>
    simp [DocIndex.move, pathMove, hl]
  | some doc =>
    simp only [deleteTerm, addDocument, Prog.wp_bind, Prog.wp_modify, wp_tantivyCall, Prog.wp_pure]
    refine ⟨fun h => ⟨⟨rfl, rfl⟩, _, h⟩, fun _ => ?_⟩
    simp [DocIndex.move, DocIndex.put, pathMove, hl]

def rowMove (p : RowId × RowId) : DocIndex.Move RowId LexicalDoc := ⟨p.1, p.2, id⟩

theorem renumber_wp (fails : LexicalCall → Bool) (mapping : List (RowId × RowId)) :
    Prog.wp (renumber fails mapping)
      (fun _ y => y = { x with staged := DocIndex.moveAll x.reader (mapping.map rowMove) x.staged })
      (fun _ y => Staging x y ∧ ∃ f, fails f = true) (fun _ _ => False) x := by
  simp only [renumber, Prog.wp_bind, Prog.wp_pure]
  refine moves_wp ?_ mapping
  rintro i ⟨oldRow, newRow⟩ y
  simp only [loadDocument, Prog.wp_bind, wp_tantivyCall, Prog.wp_get, Prog.wp_pure]
  refine ⟨fun h => ⟨⟨rfl, rfl⟩, _, h⟩, fun _ => ?_⟩
  cases hl : DocIndex.load oldRow y.reader with
  | none =>
    simp [DocIndex.move, rowMove, hl]
  | some doc =>
    simp only [deleteTerm, addDocument, Prog.wp_bind, Prog.wp_modify, wp_tantivyCall, Prog.wp_pure]
    refine ⟨fun h => ⟨⟨rfl, rfl⟩, _, h⟩, fun _ => ?_⟩
    simp [DocIndex.move, DocIndex.put, rowMove, hl]

/-- A commit that fails may have made the staged documents durable: the reader is reloaded last. -/
theorem commit_wp (fails : LexicalCall → Bool) :
    Prog.wp (commit fails) (fun _ y => y = .open x.staged)
      (fun _ y => (y.durable = x.durable ∨ y.durable = x.staged) ∧ ∃ f, fails f = true)
      (fun _ y => y.durable = x.staged) x := by
  simp only [commit, Prog.wp_bind, wp_tantivyCall, Prog.wp_durable, Prog.wp_modify]
  exact ⟨fun h => ⟨.inl trivial, _, h⟩,
    fun _ => ⟨trivial, fun h => ⟨.inr trivial, _, h⟩, fun _ => rfl⟩⟩

end LexicalIndex

end SiftMcp
