import SiftMcp.Daemon.Searches
import SiftMcp.Lib.LeftJoin

/-!
# Results from batches

The records of all results are looked up by one statement, and their bodies in one call; what
belongs to a result is found by its place in the batches. In a store that indexing has reached,
every result gets the record and the body that a lookup of its own gives.

`Served.assemble_batched` says so of every resident that a sequence of Index requests has led to.
-/

namespace SiftMcp
open Durable

/-- `SELECT ... FROM get_many_ids g LEFT JOIN chunks c ON c.rowid = g.row_id AND c.live = 1
ORDER BY g.ord` -/
def Db.selectMany (db : Db) (ids : List (Nat × RowId)) : List (Nat × Option ChunkRecord) :=
  (leftJoin (fun row => (db.live.filter (·.rowid = row)).map (·.record)) ids).mergeSort fun a b =>
    decide (a.1 ≤ b.1)

/-- One query for the whole set, in the order requested. The rows are numbered in a table of their
own, which is emptied first; `none` is a number that is out of bounds. -/
def ChunkStore.getMany (s : ChunkStore) (rows : List RowId) : Option (List (Option ChunkRecord)) :=
  writeRows rows.length (s.conn.selectMany (rows.zipIdx.map fun p => (p.2, p.1)))

/-- `LexicalIndex::bodies` -/
def bodies (docs : List (RowId × LexicalDoc)) (rows : List RowId) : List (Option String) :=
  rows.map (bodyOf docs)

/-- `assemble`, with the batches that it fetches. -/
def Searcher.assembleBatched (B : Backends) (store : ChunkStore) (lexical : LexicalIndex)
    (fused : List (FusedRow F32)) (topK : Nat) : Option (Except SearchError (List SearchResult)) :=
  let selected := fused.take topK
  let rowIds := selected.map (·.row)
  match B.getManyError with
  | some e => some (.error (.other s!"store error: {e}"))
  | none => do
    let records ← store.getMany rowIds
    match B.bodiesError with
    | some e => return .error (.other s!"tantivy error: {e}")
    | none =>
      let bodies := bodies lexical.reader rowIds
      return .ok (selected.zipIdx.filterMap fun p =>
        records[p.2]?.join.map fun record => searchResult record bodies[p.2]?.join p.1)

section

variable {B : Backends} {cfg : DaemonConfig}
  {allowed : List IndexRequest → Resident → IndexRequest → Prop}
  {qs : List IndexRequest} {r : Resident} {s : ChunkStore} {a : Contents} {rows : List RowId}
  {row : RowId} {lexical : LexicalIndex} {fused : List (FusedRow F32)} {topK : Nat}

/-- Where no rowid is live twice, a batch has what single lookups have. -/
theorem getMany_eq (hnodup : s.liveRows.Nodup) : s.getMany rows = some (rows.map s.get) := by
  have hfound : ∀ row, ((s.conn.live.filter (·.rowid = row)).map (·.record)).length ≤ 1 := by
    intro row
    rw [List.length_map, ← List.countP_eq_length_filter]
    have hcount := List.nodup_iff_count_le_one.mp hnodup row
    rwa [ChunkStore.liveRows, Db.liveRows, List.count, List.countP_map] at hcount
  have hget : ∀ row, ((s.conn.live.filter (·.rowid = row)).map (·.record)).head? = s.get row := by
    intro row
    rw [List.head?_map, List.head?_filter]
    rfl
  refine writeRows_eq ((List.mergeSort_perm _ _).trans (.of_eq ?_))
  rw [leftJoin_eq hfound, List.map_map]
  exact List.map_congr_left fun p _ => congrArg (Prod.mk p.2) (hget p.1)

theorem filterMap_zipIdx {α β : Type} {l : List α} {f : α × Nat → Option β} {g : α → Option β}
    (h : ∀ x i, l[i]? = some x → f (x, i) = g x) : l.zipIdx.filterMap f = l.filterMap g := by
  have hfst : l.zipIdx.filterMap (fun p => g p.1) = l.filterMap g := by
    have hmap := @List.filterMap_map _ _ _ (fun p : α × Nat => p.1) g l.zipIdx
    rw [List.zipIdx_map_fst] at hmap
    exact hmap.symm
  rw [← hfst]
  exact List.filterMap_congr fun p hp => h p.1 p.2 (List.mem_zipIdx_iff_getElem?.mp hp)

/-- What is found by places is what belongs to the rows. -/
theorem assembleBatched_eq (hnodup : s.liveRows.Nodup) :
    Searcher.assembleBatched B s lexical fused topK =
      some (Searcher.assemble B s lexical fused topK) := by
  unfold Searcher.assembleBatched Searcher.assemble
  cases B.getManyError with
  | some e => rfl
  | none =>
    dsimp only
    rw [getMany_eq hnodup]
    cases B.bodiesError with
    | some e => rfl
    | none =>
      refine congrArg (fun results => some (Except.ok results)) (filterMap_zipIdx fun x i hx => ?_)
      simp only [bodies, List.getElem?_map, hx]
      rfl

/-- Whatever has been indexed, the batches agree with lookups one by one: for any rows, known or
not, live or not, and however often each is asked for, the records come back in the order of the
request; and what is assembled by places is what is assembled row by row. -/
theorem Served.assemble_batched (hserved : Served cfg allowed qs r) (B : Backends) :
    (∀ rows, r.store.getMany rows = some (rows.map r.store.get)) ∧
    ∀ fused topK, Searcher.assembleBatched B r.store r.lexical fused topK =
      some (Searcher.assemble B r.store r.lexical fused topK) := by
  obtain ⟨-, a, docs, S⟩ := hserved.backed
  have hlive : r.store.liveRows = a.table.rows := S.repr.pair.db.liveRows
  have hnodup : r.store.liveRows.Nodup := by
    rw [hlive]
    exact a.table.nodup_rows
  exact ⟨fun _ => getMany_eq hnodup, fun _ _ => assembleBatched_eq hnodup⟩

end

/-- Rows are asked for twice, and one that is not there. -/
theorem Served.assemble_batched_first : firstResident.store.getMany [1, 7, 0, 1] =
    some (([1, 7, 0, 1] : List RowId).map firstResident.store.get) := by
  have hserved : Served sampleConfig (fun _ _ _ => True) [firstRequest] firstResident :=
    firstResident_served trivial
  exact (Served.assemble_batched hserved sampleBackends).1 _

end SiftMcp
