import SiftMcp.Indexing.Counters

/-!
# Indexing again after a stop

A run stops at any point: it has not begun, the process is killed behind a durable step, or a call
fails. The store opens again wherever that is. Whether the indexer opens, and whether a full index
then leaves what indexing into a new store would, is decided by what the stopped run has left.

`History.recovers_iff` says what that has to be.
-/

namespace SiftMcp
open Durable Indexer

variable {E : Embedder} {ix : Indexer} {H : Prop} {b : Contents} {t u : IndexState}

def ChunkStore.records (s : ChunkStore) : List ChunkRecord := s.conn.live.map (·.record)

/-- The directories are opened again, and a full index succeeds and leaves the live hashes that it
leaves in the new store. -/
def Indexer.Recovers (ix : Indexer) (u : IndexState) (new : ChunkStore) : Prop :=
  ∃ v, ix.reopen u = .ok v ∧ (ix.run .indexAll v).result.isOk = true ∧
    ∀ k, k ∈ (ix.run .indexAll v).state.hashes ↔
      k ∈ (ix.run .indexAll (freshState new)).state.hashes

/-- What tree, store and lexical index must be like for the full index to go through and to come out
right: no file on which parsing panics, as many documents as live rows, no row that is retired
twice, and every row retired whose hash has gone from the tree, and no other. -/
structure Indexer.Resumable (ix : Indexer) (s : ChunkStore) (docs : Docs) : Prop where
  count : s.stats.live = docs.length
  answers : ¬ix.Refuses
  parses : ix.Parses ix.walked
  once : ix.RetiresOnce ix.walked s.records
  stale : ∀ r ∈ s.records,
    ix.retires ix.walked r = true ↔ r.contentHash ∉ hashesOf (ix.chunksOf ix.walked)

/-- A run may stop at its start, behind a durable step, or with an error. -/
def Stops (ix : Indexer) (kind : RunKind) (t u : IndexState) : Prop :=
  u = t ∨ ∃ stop, Stopped (ix.run kind) t stop u

/-- Wherever a run stops, the store opens again. -/
theorem Stops.recoverable {kind : RunKind} {docs : Docs} (S : Synced ix H b docs t)
    (hu : Stops ix kind t u) : Recoverable ix.embedder u := by
  rcases hu with rfl | ⟨stop, hstop⟩
  · exact S.recoverable
  · cases hstop with
    | killed hmem => exact ((run_wp S kind).trace hmem).recoverable
    | failed he => exact ((run_wp S kind).error he).1

/-- The hashes that a full index leaves. -/
theorem indexAll_hashes {docs : Docs} (S : Synced ix H b docs t)
    (hok : (ix.run .indexAll t).result.isOk = true) (k : ContentHash) :
    k ∈ (ix.run .indexAll t).state.hashes ↔
      (∃ r ∈ b.records, r.contentHash = k ∧ ix.retires ix.walked r = false) ∨
        k ∉ recordHashes b.records ∧ k ∈ hashesOf (ix.chunksOf ix.walked) := by
  cases hr : (ix.run .indexAll t).result with
  | error e => rw [hr] at hok; cases hok
  | ok r =>
    obtain ⟨-, c, docs', S', hran, -⟩ := (run_wp S .indexAll).ok hr
    rw [IndexState.hashes, S'.records, hran.records]
    exact mem_hashes_outcome

/-- The full index leaves the hashes of the tree, exactly when it retires the rows whose hashes have
gone from it, and no others. -/
theorem indexAll_exact_iff {docs : Docs} (S : Synced ix H b docs t)
    (hok : (ix.run .indexAll t).result.isOk = true) :
    (∀ k, k ∈ (ix.run .indexAll t).state.hashes ↔ k ∈ hashesOf (ix.chunksOf ix.walked)) ↔
      ∀ r ∈ b.records,
        ix.retires ix.walked r = true ↔ r.contentHash ∉ hashesOf (ix.chunksOf ix.walked) := by
  have hd : (recordHashes b.records).Nodup := b.keys_eq ▸ b.table.distinct
  simp only [indexAll_hashes S hok]
  constructor
  · intro h r hr
    have hmem : r.contentHash ∈ recordHashes b.records := mem_recordHashes.mpr ⟨r, hr, rfl⟩
    constructor
    · intro hret hk
      rcases (h _).mpr hk with ⟨r', hr', hh, hret'⟩ | ⟨hnew, -⟩
      · rw [List.inj_on_of_nodup_map hd hr' hr hh, hret] at hret'
        cases hret'
      · exact hnew hmem
    · intro hk
      by_contra hret
      exact hk ((h _).mp (.inl ⟨r, hr, rfl, by simpa using hret⟩))
  · intro h k
    constructor
    · intro hk
      rcases hk with ⟨r, hr, rfl, hret⟩ | ⟨-, hk⟩
      · by_contra hk
        rw [(h r hr).mpr hk] at hret
        cases hret
      · exact hk
    · intro hk
      by_cases hold : k ∈ recordHashes b.records
      · obtain ⟨r, hr, rfl⟩ := mem_recordHashes.mp hold
        refine .inl ⟨r, hr, rfl, ?_⟩
        by_contra hret
        exact (h r hr).mp (by simpa using hret) hk
      · exact .inr ⟨hold, hk⟩

theorem records_freshState {d : Dir} {fails : ChunkStore.CreateStoreStep → Bool} {dims : Nat}
    {model : String} {new : ChunkStore} (hd : d manifestName = none)
    (hnew : (ChunkStore.create fails dims model d).result = .ok new) :
    Repr new ⟨dims, model, none, .empty⟩ :=
  (create_wp hd _ _ _).ok hnew

/-- A full index into a new store returns. -/
theorem indexAll_fresh_isOk {new : ChunkStore}
    (hrepr : Repr new ⟨ix.embedder.dims, ix.embedder.modelId, none, .empty⟩)
    (hfresh : FreshGeneration new ix.pid ix.nanos) (hfault : ix.Faultless)
    (hans : ¬ix.Refuses) (hparses : ix.Parses ix.walked) :
    (ix.run .indexAll (freshState new)).result.isOk = true := by
  have S : Synced ix True _ [] (freshState new) :=
    ⟨⟨hrepr, rfl, rfl, rfl, fun _ => .empty⟩, hfresh⟩
  refine (S.run_isOk_iff .indexAll hfault (Indexer.answered_indexAll hans)).mpr ⟨hparses, ?_⟩
  rw [balanced_records]
  exact fun r hr => absurd hr List.not_mem_nil

/-- A full index into a new store. -/
theorem indexAll_fresh {new : ChunkStore} (hrepr : Repr new ⟨ix.embedder.dims, ix.embedder.modelId,
    none, .empty⟩) (hfresh : FreshGeneration new ix.pid ix.nanos) (hfault : ix.Faultless)
    (hans : ¬ix.Refuses) (hparses : ix.Parses ix.walked) (k : ContentHash) :
    k ∈ (ix.run .indexAll (freshState new)).state.hashes ↔
      k ∈ hashesOf (ix.chunksOf ix.walked) := by
  have S : Synced ix True _ [] (freshState new) :=
    ⟨⟨hrepr, rfl, rfl, rfl, fun _ => .empty⟩, hfresh⟩
  exact (indexAll_exact_iff S (indexAll_fresh_isOk hrepr hfresh hfault hans hparses)).mpr nofun k

/-- A run stops, wherever it may. The store opens again; the indexer opens and a full index leaves
what indexing the tree into a new store leaves, exactly when tree, store and lexical index are as
`Resumable` says. -/
theorem History.recovers_iff {allowed : Stop → Prop} {kind : RunKind} (Hs : History E allowed t)
    (hE : ix.embedder = E) (hf : FreshGeneration t.store ix.pid ix.nanos)
    (hu : Stops ix kind t u) {ix' : Indexer} (hE' : ix'.embedder = E) (hfault : ix'.Faultless)
    {d : Dir} {fails : ChunkStore.CreateStoreStep → Bool} {new : ChunkStore}
    (hd : d manifestName = none)
    (hnew : (ChunkStore.create fails E.dims E.modelId d).result = .ok new)
    (hfnew : FreshGeneration new ix'.pid ix'.nanos) :
    ∃ s, ChunkStore.open u.store.onDisk = .ok s ∧ (FreshGeneration s ix'.pid ix'.nanos →
      (ix'.Recovers u new ↔ ix'.Resumable s u.lexical.durable)) := by
  obtain ⟨a, docs, S⟩ := Hs.holds
  obtain ⟨b, ⟨s, hs, hrepr⟩, hdims, hmodel⟩ := hu.recoverable (S.synced hE hf)
  refine ⟨s, hs, fun hfs => ?_⟩
  subst hE'
  rw [hE] at hdims hmodel
  have hopen := Indexer.open_eq hs hrepr hmodel u.lexical.durable
  have hnew := records_freshState hd hnew
  -- The handle that `Indexer::open` returns, if it does.
  let v : IndexState := ⟨s, .open u.lexical.durable, emptyReport b.table.live.length, 0, 0⟩
  have Sv : Synced ix' False b u.lexical.durable v := ⟨⟨hrepr, rfl, hdims, hmodel, False.elim⟩, hfs⟩
  have hrecords : s.records = b.records := Sv.records
  have hcount : s.stats.live = b.table.live.length := stats_eq Sv.toHolds
  constructor
  · intro h
    obtain ⟨v', hv, hok, hsame⟩ := h
    rw [Indexer.reopen, hopen] at hv
    split at hv
    · rename_i hlen
      obtain rfl : v = v' := Except.ok.inj hv
      have hans : ¬ix'.Refuses := by
        cases hr : (ix'.run .indexAll v).result with
        | error e => rw [hr] at hok; cases hok
        | ok r => exact ((run_wp Sv .indexAll).ok hr).1
      have hruns := (Sv.run_isOk_iff .indexAll hfault (Indexer.answered_indexAll hans)).mp hok
      refine ⟨hcount.trans hlen, hans, hruns.1, ?_, ?_⟩
      · rw [hrecords, ← balanced_records]
        exact hruns.2
      · rw [hrecords, ← indexAll_exact_iff Sv hok]
        exact fun k => (hsame k).trans (indexAll_fresh hnew hfnew hfault hans hruns.1 k)
    · cases hv
  · intro h
    have hok : (ix'.run .indexAll v).result.isOk = true := by
      refine (Sv.run_isOk_iff .indexAll hfault (Indexer.answered_indexAll h.answers)).mpr
        ⟨h.parses, ?_⟩
      exact balanced_records.mpr (hrecords ▸ h.once)
    refine ⟨v, ?_, hok, fun k => ?_⟩
    · rw [Indexer.reopen, hopen, if_pos (hcount.symm.trans h.count)]
    · rw [indexAll_fresh hnew hfnew hfault h.answers h.parses k]
      exact (indexAll_exact_iff Sv hok).mpr (hrecords ▸ h.stale) k

/-- Whether the store opens and is as `Resumable` asks, on a tree with nothing to refuse. -/
def Indexer.canResume (ix : Indexer) (u : IndexState) : Bool :=
  match ChunkStore.open u.store.onDisk with
  | .ok s => s.stats.live = u.lexical.durable.length ∧
      (∀ r ∈ s.records, ix.walked.countP (fun item => ix.vanishes item r) ≤ 1) ∧
      (∀ r ∈ s.records, ix.retires ix.walked r = true ↔
        r.contentHash ∉ hashesOf (ix.chunksOf ix.walked)) ∧
      ChunkStore.generationName dbName ix.pid ix.nanos ≠ s.dbPath ∧
      ChunkStore.generationName matrixName ix.pid ix.nanos ≠ s.matrix.path
  | .error _ => False

/-- A kill behind the commit of a batch to the lexical index. -/
theorem History.recovers_iff_batch :
    let tree := sampleTree [("a.rs", "fn f() {}")]
    let ix := sampleIndexer tree (sampleGit "c1" tree []) 1
    let ix' := sampleIndexer tree (sampleGit "c1" tree []) 2
    ∃ u, (RunStep.lexical, u) ∈ (ix.run .indexAll sampleStart).trace ∧
      ix'.Recovers u sampleStore := by
  intro tree ix ix'
  have Hs : History sampleEmbedder (fun _ => False) sampleStart := sampleStart_history
  have htrace : (ix.run .indexAll sampleStart).trace.any
      (fun p => p.1 = .lexical && ix'.canResume p.2) = true := by decide +kernel
  obtain ⟨⟨l, u⟩, hu, hp⟩ := List.any_eq_true.mp htrace
  obtain ⟨hl, hp⟩ := Bool.and_eq_true_iff.mp hp
  obtain rfl : l = .lexical := of_decide_eq_true hl
  obtain ⟨s, hs, h⟩ := @History.recovers_iff _ ix _ u _ .indexAll Hs rfl
    sampleStart_fresh (.inr ⟨_, .killed hu⟩) ix' rfl ⟨rfl, rfl⟩ _ _ _ rfl
    sampleStore_created sampleStart_fresh
  simp only [Indexer.canResume, hs, decide_eq_true_eq] at hp
  obtain ⟨hcount, honce, hstale, hdb, hmatrix⟩ := hp
  refine ⟨u, hu, (h ⟨hdb, hmatrix⟩).mpr ⟨hcount, ?_, fun _ _ => rfl, honce, hstale⟩⟩
  rintro (⟨e, h⟩ | ⟨h, -⟩ | ⟨e, h⟩)
  · cases h
  · cases h
  · cases h

/-- An index is killed between the commit of the store and that of the lexical index. The indexer
does not open again. -/
theorem indexAll_killed_between :
    let tree := sampleTree [("a.rs", "fn f() {}")]
    let ix := sampleIndexer tree (sampleGit "c1" tree []) 1
    History sampleEmbedder (fun _ => False) sampleStart ∧ ix.Faultless ∧
      ∃ l u, (l, u) ∈ (ix.run .indexAll sampleStart).trace ∧
        (match ix.reopen u with
          | .ok _ => none
          | .error e => some e) = some (.error (.lexicalOutOfSync 1 0)) ∧
        ¬ix.Recovers u sampleStore := by
  intro tree ix
  have htrace : (ix.run .indexAll sampleStart).trace.any (fun p => (match ix.reopen p.2 with
      | .ok _ => none
      | .error e => some e) = some (IndexFailure.error (.lexicalOutOfSync 1 0))) = true := by
    decide +kernel
  obtain ⟨⟨l, u⟩, hu, hp⟩ := List.any_eq_true.mp htrace
  refine ⟨sampleStart_history, ⟨rfl, rfl⟩, l, u, hu, of_decide_eq_true hp, fun ⟨v, hv, _⟩ => ?_⟩
  rw [hv] at hp
  cases of_decide_eq_true hp

end SiftMcp
