import SiftMcp.Indexing.Coverage

/-!
# Invariants of runs

A run changes its backends by few steps: it retires rows and renames files as the changes tell it,
then retires rows and flushes batches for the work items, records the commit and compacts.
`Invariant` asks of these steps, one by one and from synchronized backends, that they keep a
property. Then the run does.

`Invariant.run` is the rule for both kinds of runs.
-/

namespace SiftMcp
open Durable DocIndex Indexer

/-- The chunks that the consumer takes up, of the files that are delivered to it. -/
def Indexer.consumed (ix : Indexer) (plan : Plan) (rs : List ChunkRecord) : List Chunk :=
  taken (recordHashes (plan.diff rs)) (ix.chunksOf (ix.delivered plan.work))

/-- `I` depends on the backends alone, implies `E` where the run fails, and outlives retired rows.
`C` holds of what durable steps leave. -/
structure Retiring (ix : Indexer) (H : Prop) (I E C : IndexState → Prop) : Prop where
  congr : ∀ {t u : IndexState}, I t → u.store = t.store → u.lexical = t.lexical → I u
  failed : ∀ {b docs t}, Holds ix.embedder H b docs t → I t → E t
  retire : ∀ {b docs t} rows, Synced ix H b docs t → I t →
    Prog.Keeps I (fun _ => E) (fun _ => C) (ix.retire rows) t

/-- The steps that apply the changes. -/
structure Changing (ix : Indexer) (H : Prop) (plan : Plan) (a : Contents)
    (I E C : IndexState → Prop) : Prop extends Retiring ix H I E C where
  rename : ∀ {done source dest rest docs t}, done ++ .renamed source dest :: rest = plan.changes →
    Synced ix H (a.applyChanges done) docs t → I t →
      Prog.Keeps I (fun _ => E) (fun _ => C) (ix.renameFile source dest) t

/-- The steps from then on. -/
structure Working (ix : Indexer) (H : Prop) (plan : Plan) (a : Contents)
    (I E C : IndexState → Prop) : Prop extends Retiring ix H I E C where
  flush : ∀ {b docs t pending}, (∀ c ∈ pending, c ∈ ix.consumed plan a.records) →
    (∀ c ∈ pending, c.record.contentHash ∉ b.table.keys) → (hashesOf pending).Nodup →
      Synced ix H b docs t → I t → Prog.Keeps I (fun _ => E) (fun _ => C) (ix.flushBatch pending) t
  recordCommit : ∀ {b docs t} dirty, Synced ix H b docs t → I t →
    Prog.Keeps I (fun _ => E) (fun _ => C) (ix.recordCommit dirty) t
  compact : ∀ {b docs t}, Synced ix H b docs t → I t →
    Prog.Keeps I (fun _ => E) (fun _ => C) ix.maybeCompact t

/-- `I` is kept while the changes are applied, and `J` from then on. -/
structure Invariant (ix : Indexer) (H : Prop) (plan : Plan) (a : Contents)
    (I J E C : IndexState → Prop) : Prop where
  changing : Changing ix H plan a I E C
  turn : ∀ {docs t}, Synced ix H (a.applyChanges plan.changes) docs t → I t → J t
  working : Working ix H plan a J E C

variable {ix : Indexer} {H : Prop} {plan : Plan} {a b : Contents} {docs : Docs} {t : IndexState}
  {I J E C : IndexState → Prop}

theorem consumed_eq : ix.consumed plan a.records =
    taken (a.applyChanges plan.changes).table.keys (ix.chunksOf (ix.delivered plan.work)) := by
  rw [consumed, Plan.diff, ← Contents.records_applyChanges, ← Contents.keys_eq]

/-- Where parsing does not panic these are the chunks that the run takes up. -/
theorem consumed_of_parses (h : ix.Parses plan.work) {rs : List ChunkRecord} :
    ix.consumed plan rs = ix.takes plan rs := by
  rw [consumed, delivered_eq h]
  rfl

theorem mem_chunksOf_of_consumed {rs : List ChunkRecord} {c : Chunk} (h : c ∈ ix.consumed plan rs) :
    c ∈ ix.chunksOf plan.work := by
  obtain ⟨item, hitem, cs, hcs, hc⟩ := mem_chunksOf.mp (firsts.sublist.subset h)
  exact mem_chunksOf.mpr ⟨item, delivered_subset hitem, cs, hcs, hc⟩

/-! ## Changes -/

theorem Retiring.lookAt (V : Retiring ix H I E C) (S : Holds ix.embedder H a docs t) (hI : I t)
    (path : String) : Prog.Keeps I (fun _ => E) (fun _ => C) (ix.lookAt path) t := by
  have htick : I t.tick := V.congr hI rfl rfl
  simp only [Indexer.lookAt, Prog.wp_bind, wp_mayFail, Prog.wp_get, wp_report, Prog.wp_pure]
  exact ⟨fun _ => V.failed S.tick htick, fun _ => V.congr htick rfl rfl⟩

theorem Retiring.deleteFile (V : Retiring ix H I E C) (S : Synced ix H a docs t) (hI : I t)
    (path : String) : Prog.Keeps I (fun _ => E) (fun _ => C) (ix.deleteFile path) t := by
  have htick : I t.tick := V.congr hI rfl rfl
  simp only [Indexer.deleteFile, Prog.wp_bind, wp_mayFail, Prog.wp_get, Prog.wp_ite, Prog.wp_pure,
    wp_report]
  refine ⟨fun _ => V.failed S.tick.toHolds htick, fun _ => ⟨fun _ => htick, fun _ => ?_⟩⟩
  exact (V.retire _ S.tick htick).mono (fun _ _ h => V.congr h rfl rfl) (fun _ _ h => h)
    (fun _ _ h => h)

theorem Changing.applyFileChange (V : Changing ix H plan a I E C) {done rest : List FileChange}
    {change : FileChange} (h : done ++ change :: rest = plan.changes)
    (S : Synced ix H (a.applyChanges done) docs t) (hI : I t) :
    Prog.Keeps I (fun _ => E) (fun _ => C) (ix.applyFileChange change) t := by
  cases change with
  | added path | modified path => exact V.lookAt S.toHolds hI path
  | deleted path =>
    simp only [Indexer.applyFileChange, Prog.wp_bind, Prog.wp_pure]
    exact V.deleteFile S hI path
  | renamed source dest =>
    refine (V.rename h S hI).bind (renameFile_wp (P := True) S source dest) fun n u hu hI => ?_
    obtain ⟨-, S', -⟩ := hu
    rw [Prog.wp_bind]
    refine (V.lookAt S'.toHolds hI dest).mono ?_ (fun _ _ h => h) (fun _ _ h => h)
    intro items v hv
    simp only [Prog.wp_ite, Prog.wp_bind, wp_report, Prog.wp_pure]
    exact ⟨fun _ => V.congr hv rfl rfl, fun _ => hv⟩

theorem Changing.applyFileChanges (V : Changing ix H plan a I E C) (S : Synced ix H a docs t)
    (hI : I t) (work : List WorkItem) :
    Prog.Keeps I (fun _ => E) (fun _ => C) (ix.applyFileChanges work plan.changes) t := by
  refine Prog.keeps_foldlP (D := fun _ _ => True) (K := fun _ _ => True) (fun done rest _ u =>
    done ++ rest = plan.changes ∧ ∃ docs', Synced ix H (a.applyChanges done) docs' u) ?_
      plan.changes
    work t ⟨rfl, docs, S⟩ hI
  intro done change rest items u hu hI
  obtain ⟨hchanges, docs', S'⟩ := hu
  simp only [Prog.wp_bind, Prog.wp_pure]
  refine ⟨V.applyFileChange hchanges S' hI, ?_⟩
  refine (applyFileChange_wp (P := True) S' change).mono ?_ (fun _ _ _ => trivial)
    (fun _ _ _ => trivial)
  intro items' v hv
  obtain ⟨-, hv, -⟩ := hv
  exact ⟨by rw [List.append_assoc]; exact hchanges, Contents.applyChanges_concat ▸ hv⟩

theorem Retiring.dirtyWork (V : Retiring ix H I E C) (S : Synced ix H a docs t) (hI : I t)
    (dirty : Bool) : Prog.Keeps I (fun _ => E) (fun _ => C) (ix.dirtyWork dirty) t := by
  simp only [Indexer.dirtyWork, Prog.wp_ite, Prog.wp_bind, Prog.wp_pure, Prog.wp_ofExcept]
  refine ⟨fun _ => ?_, fun _ => hI⟩
  cases ix.git.dirtyPaths with
  | error e => exact V.failed S.toHolds hI
  | ok paths =>
    refine Prog.keeps_foldlP (D := fun _ _ => True) (K := fun _ _ => True)
      (fun _ _ _ u => Synced ix H a docs u) ?_ paths _ t S hI
    intro _ path _ items u S hI
    simp only [Prog.wp_bind, Prog.wp_pure]
    refine ⟨V.lookAt S.toHolds hI path, ?_⟩
    exact (lookAt_wp (P := True) S path).mono (fun _ _ h => h.2.1) (fun _ _ _ => trivial)
      (fun _ _ _ => trivial)

/-! ## Work items -/

theorem taken_subset {known : List ContentHash} {cs ds : List Chunk} :
    taken known cs ⊆ taken known (cs ++ ds) := by
  rw [taken_append]
  exact List.subset_append_left _ _

section work

variable {start : Nat × Nat × Nat} {done : List WorkItem} {cs ds : List Chunk} {c : Consumer}
  {old : HashRows}

theorem Working.takeChunk (V : Working ix H plan a J E C) {chunk : Chunk}
    (U : Consuming ix H (a.applyChanges plan.changes) start done cs c t) (hJ : J t)
    (htakes : taken (a.applyChanges plan.changes).table.keys (cs ++ [chunk]) ⊆
      ix.consumed plan a.records) :
    Prog.Keeps J (fun _ => E) (fun _ => C) (ix.takeChunk old c chunk) t := by
  obtain ⟨b, docs, flushed, S, hp, hpend, hknown, -⟩ := id U
  by_cases hseen : chunk.record.contentHash ∈ old.map (·.1) ∨ chunk.record.contentHash ∈ c.known
  · simp only [Indexer.takeChunk, if_pos hseen, Prog.wp_bind, wp_report, Prog.wp_pure]
    exact V.congr hJ rfl rfl
  · have hpend' : flushed ++ (c.pending ++ [chunk]) =
        taken (a.applyChanges plan.changes).table.keys (cs ++ [chunk]) := by
      rw [taken_concat fun h => hseen (.inr ((hknown _).mpr h)), ← hpend, List.append_assoc]
    obtain ⟨hnovel, hdistinct⟩ := pending_novel hp hpend'
    simp only [Indexer.takeChunk, if_neg hseen, Prog.wp_ite, Prog.wp_bind, Prog.wp_pure]
    refine ⟨fun _ => V.flush (fun d hd => htakes ?_) hnovel hdistinct S hJ, fun _ => hJ⟩
    rw [← hpend']
    exact List.mem_append_right _ hd

theorem Working.takeChunks (V : Working ix H plan a J E C)
    (U : Consuming ix H (a.applyChanges plan.changes) start done cs c t) (hJ : J t)
    (hold : ∀ h ∈ old.map (·.1), h ∈ (a.applyChanges plan.changes).table.keys)
    (htakes : taken (a.applyChanges plan.changes).table.keys (cs ++ ds) ⊆ ix.consumed plan
      a.records) :
    Prog.Keeps J (fun _ => E) (fun _ => C) (.foldlP (ix.takeChunk old) c ds) t := by
  refine Prog.keeps_foldlP (D := fun _ _ => True) (K := fun _ _ => True) (fun seen rest c u =>
    seen ++ rest = ds ∧ Consuming ix H (a.applyChanges plan.changes) start done (cs ++ seen) c u) ?_
      ds
    c t ⟨rfl, by rwa [List.append_nil]⟩ hJ
  intro seen chunk rest c u hu hJ
  obtain ⟨hds, U⟩ := hu
  have hds : seen ++ [chunk] ++ rest = ds := by rw [List.append_assoc]; exact hds
  constructor
  · refine V.takeChunk U hJ fun d hd => htakes ?_
    rw [← hds, ← List.append_assoc, ← List.append_assoc]
    exact taken_subset hd
  · refine (takeChunk_wp (P := True) U hold).mono (fun _ _ h => ⟨hds, ?_⟩) (fun _ _ _ => trivial)
      (fun _ _ _ => trivial)
    rw [← List.append_assoc]
    exact h

theorem Retiring.retireVanished (V : Retiring ix H J E C) (U : Consuming ix H a start done cs c t)
    (hJ : J t) (rows : List RowId) :
    Prog.Keeps J (fun _ => E) (fun _ => C) (ix.retireVanished rows) t := by
  obtain ⟨b, docs, flushed, S, -⟩ := U
  simp only [Indexer.retireVanished, Prog.wp_ite, Prog.wp_pure, Prog.wp_bind, wp_report]
  exact ⟨fun _ => hJ, fun _ => (V.retire rows S hJ).mono (fun _ _ h => V.congr h rfl rfl)
    (fun _ _ h => h) (fun _ _ h => h)⟩

theorem Working.consume (V : Working ix H plan a J E C) {existing : List (String × HashRows)}
    {item : WorkItem}
    (U : Consuming ix H (a.applyChanges plan.changes) start done (ix.chunksOf done) c t) (hJ : J t)
    (hexist : existing.lookup item.rel =
      some (((a.applyChanges plan.changes).table.live.filter (·.2.1.file = item.rel)).map
        fun p => (p.2.hash, p.1)))
    (htakes : taken (a.applyChanges plan.changes).table.keys (ix.chunksOf (done ++ [item])) ⊆
      ix.consumed plan a.records) :
    Prog.Keeps J (fun _ => E) (fun _ => C) (ix.consume existing c (ix.parse existing item)) t := by
  rw [chunksOf_append, chunksOf_singleton] at htakes
  cases hcs : ix.chunks item with
  | none =>
    simp only [parse, hcs, Indexer.consume, Prog.wp_bind, wp_report, Prog.wp_pure]
    exact V.congr hJ rfl rfl
  | some cs =>
    rw [hcs, Option.getD_some] at htakes
    simp only [parse, hcs, hexist, Option.getD_some]
    split
    · simp only [Indexer.consume, Prog.wp_bind, wp_report, Prog.wp_pure]
      exact V.congr hJ rfl rfl
    · simp only [Indexer.consume, hexist, Option.getD_some, vanished_rows hcs, Prog.wp_bind,
        wp_report]
      have U' : Consuming ix H (a.applyChanges plan.changes) start done (ix.chunksOf done) c
          { t with report := { t.report with filesIndexed := t.report.filesIndexed + 1 } } :=
        U.report rfl rfl rfl
      refine ((V.retireVanished U' (V.congr hJ rfl rfl) _).and
        (retireVanished_wp (P := True) U' item)).mono ?_ (fun _ _ h => h) (fun _ _ h => h)
      intro _ u hu
      refine V.takeChunks hu.1 hu.2 (fun h hh => ?_) htakes
      rw [List.map_map] at hh
      obtain ⟨p, hp, rfl⟩ := List.mem_map.mp hh
      exact RowTable.mem_keys.mpr ⟨p, (List.mem_filter.mp hp).1, rfl⟩

end work

theorem Working.processWorkItems (V : Working ix H plan a J E C)
    (S : Synced ix H (a.applyChanges plan.changes) docs t) (hJ : J t) :
    Prog.Keeps J (fun _ => E) (fun _ => C) (ix.processWorkItems plan.work) t := by
  have htick : J t.tick := V.congr hJ rfl rfl
  simp only [Indexer.processWorkItems, Prog.wp_ite, Prog.wp_pure, Prog.wp_bind, wp_mayFail,
    Prog.wp_get]
  refine ⟨fun _ => hJ, fun _ => ⟨fun _ => V.failed S.tick.toHolds htick, fun _ => ?_⟩⟩
  have hknown := knownHashes_eq S.tick.toHolds
  have U : Consuming ix H (a.applyChanges plan.changes) t.report.tally [] (ix.chunksOf [])
      ⟨t.tick.store.liveRows.filterMap fun row => (t.tick.store.get row).map (·.contentHash), []⟩
      t.tick :=
    ⟨_, docs, [], S.tick, .nil, rfl, fun h => by rw [hknown]; rfl, rfl⟩
  have hexist : ∀ item ∈ ix.delivered plan.work,
      (plan.work.map fun item => (item.rel, hashRows t.tick.store item.rel)).lookup item.rel =
        some (((a.applyChanges plan.changes).table.live.filter (·.2.1.file = item.rel)).map
          fun p => (p.2.hash, p.1)) := by
    intro item hitem
    rw [lookup_map (·.rel) (hashRows t.tick.store) (delivered_subset hitem),
      hashRows_eq S.tick.toHolds]
  have hloop := Prog.keeps_foldlP (I := J) (E := fun _ => E) (C := fun _ => C)
    (D := fun _ _ => True) (K := fun _ _ => True)
    (f := fun c item => ix.consume
      (plan.work.map fun item => (item.rel, hashRows t.tick.store item.rel)) c
      (ix.parse (plan.work.map fun item => (item.rel, hashRows t.tick.store item.rel)) item))
    (fun done rest c u => done ++ rest = ix.delivered plan.work ∧
      Consuming ix H (a.applyChanges plan.changes) t.report.tally done (ix.chunksOf done) c u) ?_
    (ix.delivered plan.work) _ t.tick ⟨rfl, U⟩ htick
  · have hconsumer : Prog.Keeps J (fun _ => E) (fun _ => C) (do
        let c ← .foldlP
          (ix.consume (plan.work.map fun item => (item.rel, hashRows t.tick.store item.rel)))
          ⟨t.tick.store.liveRows.filterMap fun row =>
            (t.tick.store.get row).map (·.contentHash), []⟩
          ((ix.delivered plan.work).map
            (ix.parse (plan.work.map fun item => (item.rel, hashRows t.tick.store item.rel))))
        ix.flushBatch c.pending) t.tick := by
      rw [Prog.foldlP_map]
      refine hloop.bind (consumeAll_wp (P := True) (ix.delivered plan.work) U hexist)
        fun c u hu hJ => ?_
      obtain ⟨b, docs', flushed, S', hp, hpend, -⟩ := hu
      obtain ⟨hnovel, hdistinct⟩ := pending_novel hp hpend
      refine V.flush (fun d hd => ?_) hnovel hdistinct S' hJ
      rw [consumed_eq, ← hpend]
      exact List.mem_append_right _ hd
    -- The scope may panic behind the consumer, whatever this has left.
    refine (wp_joinParsers (hconsumer.and (consumer_wp (P := True) U hexist)) (fun _ u hu => ?_)
      (fun _ _ h => h)).mono (fun _ _ h => h.2.2) (fun _ _ h => h) (fun _ _ h => h)
    obtain ⟨⟨b, docs', S', -⟩, hJ⟩ := hu
    exact V.failed S'.toHolds hJ
  · intro done item rest c u hu hJ
    obtain ⟨hwork, U⟩ := hu
    have hitem : item ∈ ix.delivered plan.work := hwork ▸ List.mem_append_right _ List.mem_cons_self
    have hwork : done ++ [item] ++ rest = ix.delivered plan.work := by
      rw [List.append_assoc]
      exact hwork
    constructor
    · refine V.consume U hJ (hexist item hitem) fun d hd => ?_
      rw [consumed_eq, ← hwork, chunksOf_append (done ++ [item])]
      exact taken_subset hd
    · exact (consume_wp (P := True) U (hexist item hitem)).mono (fun _ _ h => ⟨hwork, h⟩)
        (fun _ _ _ => trivial) (fun _ _ _ => trivial)

/-! ## Runs -/

theorem Working.finish (V : Working ix H plan a J E C) (S : Synced ix H b docs t) (hJ : J t)
    (dirty : Bool) : Prog.Keeps J (fun _ => E) (fun _ => C) (ix.finish dirty) t := by
  refine (V.recordCommit dirty S hJ).bind (recordCommit_wp (P := True) S dirty fun _ => trivial)
    fun commit u hu hJ => ?_
  have S' := hu.1.congr (u := { u with report := { u.report with commit } }) rfl rfl
  simp only [Prog.wp_bind, wp_report]
  refine ((V.compact S' (V.congr hJ rfl rfl)).and (maybeCompact_wp (P := True) S')).mono ?_
    (fun _ _ h => h) (fun _ _ h => h)
  intro _ v hv
  obtain ⟨⟨⟨b', docs', -, S''⟩, -⟩, hJ⟩ := hv
  have htick : J v.tick := V.congr hJ rfl rfl
  simp only [wp_mayFail, Prog.wp_get, Prog.wp_ite, Prog.wp_fail, Prog.wp_pure]
  exact ⟨fun _ => V.failed S''.tick htick,
    fun _ => ⟨fun _ => V.failed (S''.tick.congr rfl rfl) (V.congr htick rfl rfl),
      fun _ => V.congr htick rfl rfl⟩⟩

theorem Retiring.start (V : Retiring ix H I E C) (S : Holds ix.embedder H a docs t) (hI : I t) :
    Prog.Keeps I (fun _ => E) (fun _ => C) ix.start t := by
  have htick : I t.tick := V.congr hI rfl rfl
  simp only [Indexer.start, dirty, applyDirtyPolicy, Prog.wp_bind, wp_mayFail, Prog.wp_get,
    wp_report, Prog.wp_ofExcept]
  refine ⟨fun _ => V.failed S.tick htick, fun _ => ?_⟩
  cases ix.git.isDirty with
  | error e => exact V.failed (S.tick.congr rfl rfl) (V.congr htick rfl rfl)
  | ok dirty =>
    simp only [Except.mapError, Prog.wp_ite, Prog.wp_fail, Prog.wp_pure]
    exact ⟨fun _ => V.failed (S.tick.congr rfl rfl) (V.congr htick rfl rfl),
      fun _ => V.congr htick rfl rfl⟩

namespace Invariant

theorem processed_finish (V : Invariant ix H plan a I J E C)
    (S : Synced ix H (a.applyChanges plan.changes) docs t) (hI : I t) (dirty : Bool) :
    Prog.Keeps J (fun _ => E) (fun _ => C)
      (do ix.processWorkItems plan.work; ix.finish dirty) t := by
  refine (V.working.processWorkItems S (V.turn S hI)).bind
    (processWorkItems_wp S plan.work fun _ => trivial) fun _ u hu hJ => ?_
  obtain ⟨-, b, docs', S', -⟩ := hu
  exact V.working.finish S' hJ dirty

theorem indexAll (V : Invariant ix H ⟨[], ix.walked⟩ a I J E C) (S : Synced ix H a docs t)
    (hI : I t) : Prog.Keeps J (fun _ => E) (fun _ => C) ix.indexAll t := by
  refine (V.changing.start S.toHolds hI).bind (start_wp (P := True) S fun _ => trivial)
    fun dirty u hu hI => ?_
  obtain ⟨-, -, S', -⟩ := hu
  have htick : I u.tick := V.changing.congr hI rfl rfl
  simp only [Prog.wp_bind, wp_mayFail, Prog.wp_get, wp_report, collectAllFiles_snd]
  refine ⟨fun _ => V.changing.failed S'.tick.toHolds htick, fun _ => ?_⟩
  have Sw : Synced ix H a docs { u.tick with report := (ix.collectAllFiles u.tick.report).1 } :=
    S'.tick.congr rfl rfl
  exact Prog.wp_bind.mp (V.processed_finish Sw (V.changing.congr htick rfl rfl) dirty)

theorem updateSince {marker : String} (V : Invariant ix H (ix.plan .update (some marker)) a I J E C)
    (S : Synced ix H a docs t) (hI : I t) {dirty : Bool} (hd : ix.git.isDirty = .ok dirty) :
    Prog.Keeps J (fun _ => E) (fun _ => C) (ix.updateSince dirty marker) t := by
  refine (V.changing.dirtyWork S hI dirty).bind (dirtyWork_wp (P := True) S hd fun _ => trivial)
    fun items u hu hI => ?_
  obtain ⟨rfl, S', -⟩ := hu
  simp only [Prog.wp_bind, Prog.wp_ofExcept]
  cases hc : ix.changes marker with
  | error e => exact V.changing.failed S'.toHolds hI
  | ok changes =>
    have hplan : ix.plan .update (some marker) = ⟨changes, dedupWork []
        ((ix.statusPaths ++ changes.filterMap (·.target)).filterMap ix.itemAt)⟩ := by
      simp only [plan, hc, Except.toOption, Option.getD_some]
    rw [hplan] at V
    simp only [Except.mapError]
    refine ((V.changing.applyFileChanges S' hI _).and
      (applyFileChanges_wp (P := True) S' _ changes)).mono ?_ (fun _ _ h => h) (fun _ _ h => h)
    intro work v hv
    obtain ⟨⟨rfl, ⟨docs₁, S₁⟩, -⟩, hI⟩ := hv
    rw [← List.filterMap_append]
    exact Prog.wp_bind.mp (V.processed_finish S₁ hI dirty)

/-- A run of either kind. -/
theorem run {kind : RunKind} (V : Invariant ix H (ix.plan kind a.indexedCommit) a I J E C)
    (S : Synced ix H a docs t) (hI : I t) :
    Prog.Keeps J (fun _ => E) (fun _ => C) (ix.run kind) t := by
  cases kind with
  | indexAll =>
    rw [run_indexAll]
    exact V.indexAll S hI
  | update =>
    rw [run_update]
    refine (V.changing.start S.toHolds hI).bind (start_wp (P := True) S fun _ => trivial)
      fun dirty u hu hI => ?_
    obtain ⟨hd, -, S', -⟩ := hu
    have htick : I u.tick := V.changing.congr hI rfl rfl
    simp only [Prog.wp_bind, wp_mayFail, Prog.wp_get]
    refine ⟨fun _ => V.changing.failed S'.tick.toHolds htick, fun _ => ?_⟩
    rw [indexedCommit_eq S'.tick.toHolds]
    cases hm : a.indexedCommit with
    | none =>
      rw [hm] at V
      exact V.indexAll S'.tick htick
    | some marker =>
      rw [hm] at V
      exact V.updateSince S'.tick htick hd

end Invariant

end SiftMcp
