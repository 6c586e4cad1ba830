import SiftMcp.Indexing.Agreement
import SiftMcp.Storage.StoreRuns

/-!
# Compaction of both backends

`maybe_compact` compacts the store, renumbers the lexical index by the mapping that the store
returns, and commits. `Renumbered` says what is left of the store and of the index: the live rows
have moved down to the first row numbers in their order, and each has taken its record, its vector
and its document along.

The main result is `compact_renumber_commit`.
-/

namespace SiftMcp
open Durable DocIndex ChunkStore

/-- Nothing is staged, and the documents are those of the live rows, one for each. -/
structure InAgreement (s : ChunkStore) (x : LexicalIndex) : Prop where
  committed : x = .open x.reader
  unique : Unique x.reader
  rows : ∀ row, row ∈ DocIndex.keys x.reader ↔ row ∈ s.liveRows

/-- The mapping is a bijection from the rows onto the first row numbers that keeps their order. -/
structure Renumbers (mapping : List (RowId × RowId)) (rows : List RowId) : Prop where
  old : mapping.map (·.1) = rows
  new : mapping.map (·.2) = List.range rows.length
  order : ∀ p ∈ mapping, ∀ q ∈ mapping, p.1 < q.1 ↔ p.2 < q.2

structure Renumbered (s : ChunkStore) (x : LexicalIndex) (mapping : List (RowId × RowId))
    (t : ChunkStore) (y : LexicalIndex) : Prop where
  bijection : Renumbers mapping s.liveRows
  rows : t.liveRows = mapping.map (·.2)
  records : ∀ p ∈ mapping, ∃ r, s.get p.1 = some r ∧ t.get p.2 = some r
  vectors : ∀ p ∈ mapping, ∃ v, s.matrix.row p.1 = .ok v ∧ t.matrix.row p.2 = .ok v
  documents : ∀ p ∈ mapping, ∃ d, (p.1, d) ∈ x.reader ∧ (p.2, d) ∈ y.reader
  agreement : InAgreement t y
  dead : t.stats.dead = 0
  commit : t.indexedCommit = s.indexedCommit

variable {s t : ChunkStore} {a : Contents} {x y : LexicalIndex}

theorem renumbers_mapping (t : ChunkTable) : Renumbers t.mapping t.rows where
  old := List.zipIdx_map_fst 0 t.rows
  new := by rw [RowTable.mapping, List.zipIdx_map_snd, List.range_eq_range']
  order := by
    have hs : t.rows.Pairwise (· < ·) := List.pairwise_map.mpr t.sorted
    have hrow : ∀ p ∈ t.mapping, ∃ h : p.2 < t.rows.length, p.1 = t.rows[p.2] := by
      intro p hp
      obtain ⟨h, hp⟩ := List.getElem?_eq_some_iff.mp (List.mem_zipIdx_iff_getElem?.mp hp)
      exact ⟨h, hp.symm⟩
    intro p hp q hq
    obtain ⟨hp, hpr⟩ := hrow p hp
    obtain ⟨hq, hqr⟩ := hrow q hq
    have hmono := List.pairwise_iff_getElem.mp hs
    rw [hpr, hqr]
    rcases Nat.lt_trichotomy p.2 q.2 with h | h | h
    · exact iff_of_true (hmono _ _ hp hq h) h
    · simp [h]
    · exact iff_of_false (Nat.lt_asymm (hmono _ _ hq hp h)) (Nat.lt_asymm h)

/-- What a live row holds. -/
theorem Repr.row_of_mem (H : Repr s a) {p : RowId × Entry} (hp : p ∈ a.table.live) :
    s.get p.1 = some p.2.1 ∧ s.matrix.row p.1 = .ok p.2.2 := by
  have hrow : p.1 < s.matrix.rows := by
    rw [H.rows]
    exact a.table.inside p hp
  refine ⟨H.pair.db.get_of_mem hp, ?_⟩
  rw [H.matrix.row hrow, H.pair.vectors p hp]

theorem renumbered_of_repr (H : Repr s a) (Hx : InAgreement s x) (Ht : Repr t a.compact)
    (hy : y = .open (moveAll x.reader (a.table.mapping.map LexicalIndex.rowMove) x.staged)) :
    Renumbered s x a.table.mapping t y := by
  have hstaged : x.staged = x.reader := congrArg DocIndex.staged Hx.committed
  have hrows : s.liveRows = a.table.rows := H.pair.db.liveRows
  have hnew : t.liveRows = a.table.mapping.map (·.2) := by
    refine (Ht.pair.db.liveRows).trans ((RowTable.compact_rows a.table).trans ?_)
    rw [(renumbers_mapping a.table).new, RowTable.rows, List.length_map]
  have hkeys : ∀ row, row ∈ DocIndex.keys x.reader ↔ row ∈ a.table.rows := by
    intro row
    rw [← hrows]
    exact Hx.rows row
  have hmove := fun row d => @mem_moveAll_mapping _ _ Hx.unique hkeys row d
  -- Each pair of the mapping starts from a live row.
  have hlive : ∀ p ∈ a.table.mapping, ∃ e, (p.1, e) ∈ a.table.live ∧
      (p.2, e) ∈ a.table.compact.live := by
    intro p hp
    obtain ⟨q, hq, hpq⟩ := List.mem_map.mp (List.fst_mem_of_mem_zipIdx hp)
    have hmem : (p.1, q.2) ∈ a.table.live := by rw [← hpq]; exact hq
    exact ⟨q.2, hmem, RowTable.mem_compact.mpr ⟨p.1, hp, hmem⟩⟩
  subst hy
  refine ⟨hrows ▸ renumbers_mapping a.table, hnew, ?_, ?_, ?_, ⟨rfl, ?_, ?_⟩, ?_, ?_⟩
  · intro p hp
    obtain ⟨e, he, he'⟩ := hlive p hp
    exact ⟨e.1, (H.row_of_mem he).1, (Ht.row_of_mem he').1⟩
  · intro p hp
    obtain ⟨e, he, he'⟩ := hlive p hp
    exact ⟨e.2, (H.row_of_mem he).2, (Ht.row_of_mem he').2⟩
  · intro p hp
    obtain ⟨d, hd⟩ := mem_keys.mp ((hkeys p.1).mpr (List.fst_mem_of_mem_zipIdx hp))
    refine ⟨d, hd, ?_⟩
    show (p.2, d) ∈ moveAll x.reader _ x.staged
    rw [hstaged]
    exact (hmove p.2 d).mpr ⟨p.1, hp, hd⟩
  · show Unique (moveAll x.reader _ x.staged)
    rw [hstaged]
    exact Hx.unique.moveAll
  · intro row
    show row ∈ DocIndex.keys (moveAll x.reader _ x.staged) ↔ _
    rw [hstaged, hnew, mem_keys, List.mem_map]
    constructor
    · rintro ⟨d, hd⟩
      obtain ⟨old, hp, -⟩ := (hmove row d).mp hd
      exact ⟨(old, row), hp, rfl⟩
    · rintro ⟨p, hp, rfl⟩
      obtain ⟨d, hd⟩ := mem_keys.mp ((hkeys p.1).mpr (List.fst_mem_of_mem_zipIdx hp))
      exact ⟨d, (hmove p.2 d).mpr ⟨p.1, hp, hd⟩⟩
  · have hstats : t.stats = _ := Ht.pair.db.stats
    rw [hstats]
    simp [Contents.compact, RowTable.compact, RowTable.vals]
  · exact Ht.pair.commit.trans H.pair.commit.symm

/-- `compact`, then `renumber` with the mapping it returns, then `commit`: where no step fails, both
backends have been compacted, and nothing else keeps them from it. -/
theorem compact_renumber_commit (H : Repr s a) (Hx : InAgreement s x) (fails : CompactStep → Bool)
    (renumberFails commitFails : LexicalCall → Bool) (pid nanos : Nat) :
    Prog.wp (compact fails pid nanos)
      (fun rep t =>
        Prog.wp (LexicalIndex.renumber renumberFails rep.rowMapping >>= fun _ =>
            LexicalIndex.commit commitFails)
          (fun _ y => Renumbered s x rep.rowMapping t y)
          (fun _ _ => ∃ f, renumberFails f = true ∨ commitFails f = true) (fun _ _ => True) x)
      (fun _ _ => ∃ f, fails f = true) (fun _ _ => True) s := by
  refine (compact_ends H fails pid nanos).mono ?_ (fun _ _ h => h.imp fun _ h => h.1)
    fun _ _ _ => trivial
  rintro rep t ⟨ht, rfl⟩
  refine Prog.wp_bind.mpr ((LexicalIndex.renumber_wp renumberFails a.table.mapping).mono ?_
    (fun _ _ h => h.2.imp fun _ h => .inl h) fun _ _ h => h.elim)
  rintro _ z rfl
  refine (LexicalIndex.commit_wp commitFails).mono ?_ (fun _ _ h => h.2.imp fun _ h => .inr h)
    fun _ _ _ => trivial
  rintro _ y rfl
  exact renumbered_of_repr H Hx ht rfl

/-- One row of two is dead. -/
theorem compact_renumber_commit_sample :
    let s := sampleStore.runOps
      [.insertBatch (fun _ => false) [sampleChunk 1, sampleChunk 2], .tombstone false [0]]
    let x : LexicalIndex := .open [(1, ⟨"f", "fn f()", none, "a.rs", "fn f() {}"⟩)]
    Prog.wp (compact (fun _ => false) 7 7)
      (fun rep t =>
        Prog.wp (LexicalIndex.renumber (fun _ => false) rep.rowMapping >>= fun _ =>
            LexicalIndex.commit fun _ => false)
          (fun _ y => Renumbered s x rep.rowMapping t y) (fun _ _ => False) (fun _ _ => True) x)
      (fun _ _ => False) (fun _ _ => True) s := by
  have h0 : Reached sampleStore := .create rfl sampleStore_created
  have h1 := h0.op (.insertBatch (fun _ => false) [sampleChunk 1, sampleChunk 2]) trivial
    (StoreOp.undone_of_length (by decide +kernel) (.inl nofun))
  obtain ⟨a, h2⟩ := (h1.op (.tombstone false [0]) trivial trivial).repr
  have hlive : (sampleStore.runOps
      [.insertBatch (fun _ => false) [sampleChunk 1, sampleChunk 2],
        .tombstone false [0]]).liveRows =
        [1] := by decide +kernel
  have hagree : InAgreement (sampleStore.runOps
      [.insertBatch (fun _ => false) [sampleChunk 1, sampleChunk 2], .tombstone false [0]])
      (.open [(1, ⟨"f", "fn f()", none, "a.rs", "fn f() {}"⟩)]) := by
    refine ⟨rfl, List.nodup_singleton _, fun row => ?_⟩
    rw [hlive]
    rfl
  refine (compact_renumber_commit h2 hagree (fun _ => false) (fun _ => false) (fun _ => false) 7
    7).mono ?_ (fun _ _ h => ?_) fun _ _ h => h
  · exact fun rep t h => h.mono (fun _ _ h => h) (fun _ _ h => by simp at h) fun _ _ h => h
  · simp at h

end SiftMcp
