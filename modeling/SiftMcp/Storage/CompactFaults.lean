import SiftMcp.Storage.StoreRuns

/-!
# A compaction that fails

The manifest is published before the new pair is reopened. When one of the three steps between the
publication and the switch of the handle fails, the handle keeps the old pair: what it writes
afterwards is acknowledged and gone when the store is opened again. Every other failing step leaves
handle and manifest on one pair: `compact_error_onManifest`.
-/

namespace SiftMcp
open Durable ChunkStore

def StoreOp.IsWrite : StoreOp → Prop
  | insertBatch _ _ | tombstone _ _ | rekeyFile _ _ _ => True
  | _ => False

/-- Every operation of the list is a write and succeeds in its turn. -/
def ChunkStore.Acknowledges (s : ChunkStore) : List StoreOp → Prop
  | [] => True
  | op :: ops => op.IsWrite ∧ (op.run s).result = .ok () ∧ (op.run s).state.Acknowledges ops

/-- The handle holds the pair that the manifest names, and what it acknowledges is there when the
store is opened again. -/
structure ChunkStore.OnManifest (s : ChunkStore) : Prop where
  active : activePaths s.onDisk = .ok (s.dbPath, s.matrix.path)
  visible : ∀ ops, s.Acknowledges ops → ∃ r, ChunkStore.open (s.runOps ops).onDisk = .ok r ∧
    r.liveChunks = (s.runOps ops).liveChunks

theorem Repr.runOps {s : ChunkStore} {a : Contents} (H : Repr s a) : ∀ {ops : List StoreOp},
    s.Acknowledges ops → ∃ b, Repr (s.runOps ops) b := by
  intro ops
  induction ops generalizing s a with
  | nil => exact fun _ => ⟨a, H⟩
  | cons op ops ih =>
    rintro ⟨hw, hr, hack⟩
    have hfresh : op.Fresh s := by cases op <;> trivial
    exact ih ((op.run_wp H hfresh).ok hr) hack

theorem Repr.onManifest {s : ChunkStore} {a : Contents} (H : Repr s a) : s.OnManifest where
  active := by
    rw [← H.active]
    refine activePaths_congr ?_
    rw [onDisk, Dir.write_of_ne _ _ (head?_ne manifestName_head H.matrixPath (by decide)),
      Dir.write_of_ne _ _ (head?_ne manifestName_head H.dbPath (by decide))]
  visible ops hops := by
    obtain ⟨b, hb⟩ := H.runOps hops
    obtain ⟨r, hr, hrb⟩ := hb.recovers
    exact ⟨r, hr, hrb.liveChunks.trans hb.liveChunks.symm⟩

theorem Stranded.not_onManifest {s t : ChunkStore} {a b : Contents} {newDb newMatrix : String}
    (H : Repr s a) (h : Stranded s b newDb newMatrix t) (hdb : newDb ≠ s.dbPath) :
    ¬t.OnManifest := fun hon => by
  have hactive : activePaths t.onDisk = .ok (newDb, newMatrix) := by
    rw [← h.active]
    refine activePaths_congr ?_
    rw [onDisk, h.matrix, h.dbPath,
      Dir.write_of_ne _ _ (head?_ne manifestName_head H.matrixPath (by decide)),
      Dir.write_of_ne _ _ (head?_ne manifestName_head H.dbPath (by decide))]
  have hpair := Except.ok.inj (hactive.symm.trans hon.active)
  exact hdb ((congrArg Prod.fst hpair).trans h.dbPath)

/-- The one failing step that `compact` reports; failures to remove the old pair may come on top,
they are ignored. -/
def CompactStep.Only (f : CompactStep) (fails : CompactStep → Bool) : Prop :=
  fails f = true ∧ ∀ f', fails f' = true → f' = f ∨ f' = .removeMatrix ∨ f' = .removeDb

/-- A failing compaction leaves the handle on the published pair exactly when the failing step is
not one of those that reopen that pair. -/
theorem compact_error_onManifest {s : ChunkStore} (H : Reached s) {fails : CompactStep → Bool}
    {f : CompactStep} (hf : f.Only fails) {pid nanos : Nat} (hfresh : FreshGeneration s pid nanos)
    {e : Failure} (herr : (compact fails pid nanos s).result = .error e) :
    (compact fails pid nanos s).state.OnManifest ↔ ¬f.Reopens := by
  obtain ⟨a, ha⟩ := H.repr
  obtain ⟨f', hf', hend⟩ := (compact_wp ha fails pid nanos hfresh).error herr
  rcases hend with ⟨hr, hstranded⟩ | ⟨⟨hr, hm, hd⟩, hrepr⟩
  · obtain rfl : f' = f := by
      rcases hf.2 f' hf' with h | rfl | rfl
      · exact h
      · exact absurd hr (by decide)
      · exact absurd hr (by decide)
    exact iff_of_false (hstranded.not_onManifest ha hfresh.db) (not_not_intro hr)
  · obtain rfl : f' = f := ((hf.2 f' hf').resolve_right fun h => h.elim hm hd)
    refine iff_of_true ?_ hr
    rcases hrepr with h | h
    · exact h.onManifest
    · exact h.onManifest

theorem compact_error_onManifest_flush :
    (compact (fun f => f = .flush) 7 7 (sampleStore.runOps
      [.insertBatch (fun _ => false) [sampleChunk 1, sampleChunk 2],
        .tombstone false [0]])).state.OnManifest := by
  have h0 : Reached sampleStore := .create rfl sampleStore_created
  have h1 := h0.op (.insertBatch (fun _ => false) [sampleChunk 1, sampleChunk 2]) trivial
    (StoreOp.undone_of_length (by decide +kernel) (.inl nofun))
  have h2 := h1.op (.tombstone false [0]) trivial trivial
  have herr : (compact (fun f => f = .flush) 7 7 (sampleStore.runOps
      [.insertBatch (fun _ => false) [sampleChunk 1, sampleChunk 2],
        .tombstone false [0]])).result = .error (.error (.io .other "injected failure")) := by
    decide +kernel
  exact (compact_error_onManifest h2 (f := .flush)
    ⟨by decide, fun f' hf' => .inl (of_decide_eq_true hf')⟩ ⟨by decide +kernel, by decide +kernel⟩
      herr).mpr (by decide)

/-- The connection to the new database fails; a chunk inserted afterwards is acknowledged, and gone
after a restart. -/
theorem compact_loses_acknowledged_chunk :
    let s := sampleStore.runOps
      [.insertBatch (fun _ => false) [sampleChunk 1, sampleChunk 2], .tombstone false [0]]
    let t := (compact (fun f => f = .reopenDb) 7 7 s).state
    let u := t.runOps [.insertBatch (fun _ => false) [sampleChunk 3]]
    Reached s ∧ s.stats.dead = 1 ∧
      (compact (fun f => f = .reopenDb) 7 7 s).result =
        .error (.error (.io .other "injected failure")) ∧
      t.Acknowledges [.insertBatch (fun _ => false) [sampleChunk 3]] ∧
      (u.getByHash (sampleChunk 3).hash).isSome ∧
      (ChunkStore.open u.onDisk).map (fun r => r.getByHash (sampleChunk 3).hash) = .ok none ∧
      ¬t.OnManifest := by
  have h0 : Reached sampleStore := .create rfl sampleStore_created
  have h1 := h0.op (.insertBatch (fun _ => false) [sampleChunk 1, sampleChunk 2]) trivial
    (StoreOp.undone_of_length (by decide +kernel) (.inl nofun))
  have h2 := h1.op (.tombstone false [0]) trivial trivial
  refine ⟨h2, by decide +kernel, by decide +kernel, ⟨trivial, by decide +kernel, trivial⟩,
    by decide +kernel, by decide +kernel, fun h => ?_⟩
  have : (activePaths (compact (fun f => f = .reopenDb) 7 7 (sampleStore.runOps
      [.insertBatch (fun _ => false) [sampleChunk 1, sampleChunk 2],
        .tombstone false [0]])).state.onDisk).toOption ≠ some (dbName, matrixName) := by
          decide +kernel
  exact this (by rw [h.active]; decide +kernel)

end SiftMcp
