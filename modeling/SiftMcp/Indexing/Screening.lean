import SiftMcp.Indexing.Recovery
import SiftMcp.Indexing.Invariants

/-!
# Which paths the store names

Every state of the store that a run leaves behind a durable step, with an error or at its end holds
records of the paths that the live records had before the run, of the paths that renames move them
to, and of the files that are taken up. So no live record names an excluded path unless one of these
is one.

* `records_admitted`: what is in the store that a stop leaves.
* `Screened.records_admitted`: the same along a history of runs, by what each of them is asked
  about.
-/

namespace SiftMcp
open Durable DocIndex Indexer

variable {E : Embedder} {ix : Indexer} {H : Prop} {a b : Contents} {docs docs' : Docs}
  {t u : IndexState} {R : ChunkRecord → Prop}

/-- The directory opens to a store whose records have the property. -/
def Clean (R : ChunkRecord → Prop) (s : ChunkStore) : Prop :=
  ∃ b, RecoversTo s.onDisk b ∧ ∀ r ∈ b.records, R r

abbrev Screens {α : Type} (R : ChunkRecord → Prop) (m : IndexProg α) (t : IndexState) : Prop :=
  Prog.Always (fun u => Clean R u.store) m t

theorem Holds.clean (S : Holds E H a docs t) (hR : ∀ r ∈ a.records, R r) : Clean R t.store :=
  ⟨a, S.repr.recovers, hR⟩

/-- The records of a handle are those that the directory opens to. -/
theorem Clean.of_repr {s : ChunkStore} (h : Clean R s) (hrepr : Repr s a) :
    ∀ r ∈ a.records, R r := by
  obtain ⟨b, ⟨s', hs', hrepr'⟩, hR⟩ := h
  obtain ⟨s'', hs'', hrepr''⟩ := hrepr.recovers
  obtain rfl : s' = s'' := Except.ok.inj (hs'.symm.trans hs'')
  intro r hr
  refine hR r ?_
  rw [← hrepr'.records, hrepr''.records]
  exact hr

/-! ## Records of changed contents -/

theorem records_tombstone {rows : List RowId} {r : ChunkRecord}
    (h : r ∈ (a.tombstone rows).records) : r ∈ a.records := by
  rw [Contents.records_eq] at h ⊢
  obtain ⟨p, hp, rfl⟩ := List.mem_map.mp h
  exact List.mem_map_of_mem (RowTable.mem_retire.mp hp).1

theorem records_insertBatch {batch : List Entry} {r : ChunkRecord}
    (h : r ∈ (a.insertBatch batch).records) : r ∈ a.records ∨ r ∈ batch.map (·.1) := by
  rw [Contents.records_eq] at h ⊢
  obtain ⟨p, hp, rfl⟩ := List.mem_map.mp h
  have hp : p ∈ (a.table.insertAll batch).live := hp
  rw [RowTable.insertAll_live, List.mem_append] at hp
  rcases hp with hp | hp
  · exact .inl (List.mem_map_of_mem hp)
  · obtain ⟨⟨e, i⟩, he, rfl⟩ := List.mem_map.mp hp
    exact .inr (List.mem_map_of_mem
      ((RowTable.novel_sublist _ _).subset (List.fst_mem_of_mem_zipIdx he)))

theorem records_compact : a.compact.records = a.records :=
  congrArg (List.map _) (RowTable.compact_vals a.table)

theorem mem_uniqueByHash {c : Chunk} {cs seen : List Chunk} (h : c ∈ uniqueByHash seen cs) :
    c ∈ cs := by
  induction cs generalizing seen with
  | nil => exact h
  | cons d cs ih =>
    rw [uniqueByHash] at h
    split at h
    · exact List.mem_cons_of_mem _ (ih h)
    · rcases List.mem_cons.mp h with rfl | h
      · exact List.mem_cons_self
      · exact List.mem_cons_of_mem _ (ih h)

/-! ## The two backends together -/

theorem commitLexical_screens (h : Clean R t.store) : Screens R ix.commitLexical t := by
  simp only [commitLexical, Prog.wp_bind, wp_nextCall, wp_inLexical]
  exact Prog.wp_of_forall (fun _ _ => h) (fun _ _ => h) (fun _ _ => h)

theorem retire_screens (S : Synced ix H a docs t) (hR : ∀ r ∈ a.records, R r) (rows : List RowId) :
    Screens R (ix.retire rows) t := by
  have hR' : ∀ r ∈ (a.tombstone rows).records, R r := fun r hr => hR r (records_tombstone hr)
  simp only [retire, Prog.wp_bind, wp_nextCall, wp_inStore, wp_inLexical]
  refine (tombstone_wp S.repr _ rows).mono ?_ ?_ ?_
  · intro _ c hc
    have h : Clean R c := ⟨_, hc.1.recovers, hR'⟩
    refine Prog.wp_of_forall ?_ (fun _ _ => h) (fun _ _ => h)
    exact fun _ _ => commitLexical_screens h
  · intro _ c hc
    obtain ⟨rfl, -⟩ := hc
    exact S.clean hR
  · intro _ c hc
    exact ⟨_, hc.recovers, hR'⟩

theorem renameFile_screens (S : Synced ix H a docs t) (source dest : String)
    (hR : ∀ r ∈ a.records, R r) (hR' : ∀ r ∈ (a.rekeyFile source dest).records, R r) :
    Screens R (ix.renameFile source dest) t := by
  simp only [renameFile, Prog.wp_bind, wp_mayFail, Prog.wp_get, wp_nextCall, wp_inStore]
  refine ⟨fun _ => S.clean hR, fun _ => ?_⟩
  refine (rekeyFile_wp S.repr _ source dest).mono ?_ ?_ ?_
  · intro n c hc
    have h : Clean R c := ⟨_, hc.1.recovers, hR'⟩
    simp only [Prog.wp_ite, Prog.wp_pure, Prog.wp_bind, wp_nextCall, wp_inLexical]
    refine ⟨fun _ => h, fun _ => Prog.wp_of_forall ?_ (fun _ _ => h) (fun _ _ => h)⟩
    exact fun _ _ => (commitLexical_screens h).mono (fun _ _ h => h) (fun _ _ h => h)
      (fun _ _ h => h)
  · intro _ c hc
    obtain ⟨rfl, -⟩ := hc
    exact S.clean hR
  · intro _ c hc
    exact ⟨_, hc.recovers, hR'⟩

theorem flushBatch_screens (S : Synced ix H a docs t) (hR : ∀ r ∈ a.records, R r)
    {pending : List Chunk} (hpend : ∀ c ∈ pending, R c.record) :
    Screens R (ix.flushBatch pending) t := by
  simp only [flushBatch, Prog.wp_ite, Prog.wp_pure]
  refine ⟨fun _ => S.clean hR, fun _ => ?_⟩
  have hlen := ix.length_embed (uniqueByHash [] pending)
  simp only [Prog.wp_bind, wp_mayFail, hlen, ne_eq, not_true_eq_false, if_false,
    wp_report, wp_nextCall, wp_inStore, wp_inLexical]
  refine ⟨fun _ => S.clean hR, fun _ => ?_⟩
  have hbatch : ∀ r ∈ (ix.batchOf (uniqueByHash [] pending)).map (·.1), R r := by
    intro r hr
    rw [ix.batchOf_records] at hr
    obtain ⟨c, hc, rfl⟩ := List.mem_map.mp hr
    exact hpend c (mem_uniqueByHash hc)
  have hR' : ∀ r ∈ (a.insertBatch (ix.batchOf (uniqueByHash [] pending))).records, R r :=
    fun r hr => (records_insertBatch hr).elim (hR r) (hbatch r)
  refine (insertBatch_wp S.repr.usable _ (ix.batchOf (uniqueByHash [] pending))).mono ?_ ?_ ?_
  · intro ids c hc
    obtain ⟨hu, hwf, hframe, -⟩ := hc
    have h : Clean R c := ⟨_, (S.repr.usable_repr hframe hu hwf).recovers, hR'⟩
    refine Prog.wp_of_forall (fun _ _ => ?_) (fun _ _ => h) (fun _ _ => h)
    refine (commitLexical_screens h).mono (fun _ u hu => ?_) (fun _ _ h => h) (fun _ _ h => h)
    simp only [Prog.wp_modify, checkInterrupt, Prog.wp_bind, Prog.wp_get]
    split
    · simp only [Prog.wp_ite, Prog.wp_fail, Prog.wp_pure]
      exact ⟨fun _ => hu, fun _ => hu⟩
    · exact Prog.wp_pure.mpr hu
  · intro _ c hc
    exact ⟨a, S.repr.recovers_kept hc.1, hR⟩
  · intro l c hc
    have hrec := S.repr.insertCut_recovers hc
    split at hrec
    · exact ⟨_, hrec, hR'⟩
    · exact ⟨_, hrec, hR⟩

theorem recordCommit_screens (S : Synced ix H a docs t) (hR : ∀ r ∈ a.records, R r) (dirty : Bool) :
    Screens R (ix.recordCommit dirty) t := by
  simp only [recordCommit, Prog.wp_bind, Prog.wp_ofExcept]
  cases hh : ix.git.headId with
  | error e => exact S.clean hR
  | ok head =>
    simp only [Except.mapError, wp_nextCall, wp_inStore, Prog.wp_pure]
    refine (setIndexedCommit_wp S.repr _ _).mono ?_ ?_ ?_
    · intro _ c hc
      exact ⟨_, hc.1.recovers, hR⟩
    · intro _ c hc
      obtain ⟨rfl, -⟩ := hc
      exact S.clean hR
    · intro _ c hc
      exact ⟨_, hc.recovers, hR⟩

theorem maybeCompact_screens (S : Synced ix H a docs t) (hR : ∀ r ∈ a.records, R r) :
    Screens R ix.maybeCompact t := by
  have hR' : ∀ r ∈ a.compact.records, R r := fun r hr => hR r (records_compact ▸ hr)
  simp only [maybeCompact, Prog.wp_bind, wp_mayFail, Prog.wp_get, Prog.wp_ite, Prog.wp_pure]
  refine ⟨fun _ => S.clean hR, fun _ => ⟨fun _ => ?_, fun _ => S.clean hR⟩⟩
  simp only [wp_nextCall, wp_inStore, wp_inLexical, wp_report]
  refine (compact_wp S.repr _ _ _ S.fresh).mono ?_ ?_ ?_
  · intro rep c hc
    have h : Clean R c := ⟨_, hc.1.recovers, hR'⟩
    refine Prog.wp_of_forall (fun _ _ => ?_) (fun _ _ => h) (fun _ _ => h)
    exact (commitLexical_screens h).mono (fun _ _ h => h) (fun _ _ h => h) (fun _ _ h => h)
  · intro _ c hc
    obtain ⟨f, -, ⟨-, hc⟩ | ⟨-, hc | hc⟩⟩ := hc
    · exact ⟨_, hc.recovers S.repr S.fresh.db S.fresh.matrix (generationName_head (by decide) _ _)
        (generationName_head (by decide) _ _), hR'⟩
    · exact ⟨_, hc.recovers, hR⟩
    · exact ⟨_, hc.recovers, hR'⟩
  · intro l c hc
    split at hc
    · exact ⟨_, hc, hR'⟩
    · exact ⟨_, hc, hR⟩

/-! ## Runs -/

/-- The records that a run may leave, wherever it stops: those behind part of the changes, and those
of the chunks that it takes up. -/
structure Bounds (ix : Indexer) (plan : Plan) (a : Contents) (R : ChunkRecord → Prop) : Prop where
  diff : ∀ done rest, done ++ rest = plan.changes → ∀ r ∈ (a.applyChanges done).records, R r
  taken : ∀ c ∈ ix.chunksOf plan.work, R c.record

/-- The steps of a run keep the store clean. -/
theorem Bounds.invariant {plan : Plan} (B : Bounds ix plan a R) :
    Invariant ix H plan a (fun t => Clean R t.store) (fun t => Clean R t.store)
      (fun t => Clean R t.store) fun t => Clean R t.store := by
  have hretiring : Retiring ix H (fun t => Clean R t.store) (fun t => Clean R t.store)
      fun t => Clean R t.store := by
    refine ⟨fun h hs _ => hs ▸ h, fun _ h => h, fun rows S h => ?_⟩
    exact retire_screens S (h.of_repr S.repr) rows
  refine ⟨⟨hretiring, fun h S hclean => ?_⟩, fun _ h => h, ⟨hretiring, ?_, ?_, ?_⟩⟩
  · rename_i done source dest rest docs t
    refine renameFile_screens S source dest (hclean.of_repr S.repr) fun r hr => ?_
    refine B.diff (done ++ [.renamed source dest]) rest ?_ r ?_
    · rw [List.append_assoc]
      exact h
    · rw [Contents.applyChanges_concat]
      exact hr
  · intro b docs t pending htakes _ _ S hclean
    refine flushBatch_screens S (hclean.of_repr S.repr) fun c hc => B.taken c ?_
    exact mem_chunksOf_of_consumed (htakes c hc)
  · exact fun dirty S hclean => recordCommit_screens S (hclean.of_repr S.repr) dirty
  · exact fun S hclean => maybeCompact_screens S (hclean.of_repr S.repr)

theorem run_screens (S : Synced ix H a docs t) (kind : RunKind)
    (B : Bounds ix (ix.plan kind a.indexedCommit) a R) : Screens R (ix.run kind) t :=
  B.invariant.run S (S.clean (B.diff [] _ rfl))

/-! ## Excluded paths -/

/-- What is asked of the rules of `.gitignore` about a path: whether it is a directory. -/
def Indexer.asked (ix : Indexer) (path : String) : Bool := ix.dirAsked (ix.isDir path) path

/-- What must hold of a run for it to let in no path that is excluded: no live record has become
excluded since its path has turned into a directory or back, no rename moves rows to an excluded
path, and no file whose name has a backslash is taken up under the name of an excluded one. -/
structure Indexer.Admits (ix : Indexer) (asked : String → Bool) (kind : RunKind)
    (marker : Option String) (rs : List ChunkRecord) : Prop where
  kept : ∀ r ∈ rs, ix.asked r.file = asked r.file ∨ ix.checkPath r.file = none
  moved : ∀ done rest source dest,
    done ++ FileChange.renamed source dest :: rest = (ix.plan kind marker).changes →
    (∃ r ∈ done.foldl FileChange.apply rs, r.file = source) → ix.checkPath dest = none
  slashes : ∀ path, ix.Looks kind marker path → ix.checkPath path = none → '\\' ∈ path.toList →
    ix.checkPath (replaceBackslash path) = none

/-- Histories of such runs over one set of exclusions, and of stops of all kinds. `asked` tells
which paths are directories in the worktree of the last run. -/
inductive Screened (E : Embedder) (ex : Exclusions) : (String → Bool) → IndexState → Prop
  | create {d : Dir} {fails s asked} : d manifestName = none →
    (ChunkStore.create fails E.dims E.modelId d).result = .ok s → Screened E ex asked (freshState s)
  | run {asked t} (ix : Indexer) (kind : RunKind) {r} : Screened E ex asked t → ix.embedder = E →
    ix.exclusions = ex → FreshGeneration t.store ix.pid ix.nanos →
    ix.Admits asked kind t.store.indexedCommit t.records → (ix.run kind t).result = .ok r →
    Screened E ex ix.asked (ix.run kind t).state
  | stopped {asked t} (ix : Indexer) (kind : RunKind) {stop u} (ix' : Indexer) {v} :
    Screened E ex asked t → ix.embedder = E → ix.exclusions = ex →
    FreshGeneration t.store ix.pid ix.nanos →
    ix.Admits asked kind t.store.indexedCommit t.records → Stopped (ix.run kind) t stop u →
    ix'.embedder = E → ix'.reopen u = .ok v → Screened E ex ix.asked v
  | reopen {asked t} (ix : Indexer) {v} : Screened E ex asked t → ix.embedder = E →
    ix.reopen t = .ok v → Screened E ex asked v

variable {ex : Exclusions} {asked : String → Bool} {kind : RunKind} {marker : Option String}

theorem Screened.history (Hs : Screened E ex asked t) : History E (fun _ => True) t := by
  induction Hs with
  | create hd hs => exact .create hd hs
  | run ix kind _ hE _ hf _ hr ih => exact .run ix kind ih hE hf hr
  | stopped ix kind ix' _ hE _ hf _ hstop hE' hv ih =>
    exact .stopped ix kind ix' ih hE hf hstop trivial hE' hv
  | reopen ix _ hE hv ih => exact .reopen ix ih hE hv

/-- Walk, changes and status keep excluded paths out. -/
theorem Indexer.Admits.taken (h : ix.Admits asked kind marker a.records) :
    ∀ c ∈ ix.chunksOf (ix.plan kind marker).work, ix.checkPath c.record.file = none := by
  intro c hc
  obtain ⟨item, hitem, cs, hcs, hmem⟩ := mem_chunksOf.mp hc
  obtain ⟨path, hlooks, hcheck, hrel⟩ := exists_looks_of_mem_plan hitem
  rw [(yields_of_mem (plan_indexes hitem) hcs hmem).1, hrel]
  by_cases hslash : '\\' ∈ path.toList
  · exact h.slashes path hlooks hcheck hslash
  · rw [replaceBackslash_of_not_mem hslash]
    exact hcheck

theorem Indexer.Admits.bounds (h : ix.Admits asked kind marker a.records)
    (hold : ∀ r ∈ a.records, ix.exclusions.checkPath (asked r.file)
      (pathAt ix.repo r.file) = none) :
    Bounds ix (ix.plan kind marker) a fun r => ix.checkPath r.file = none := by
  refine ⟨fun done => ?_, h.taken⟩
  induction done using List.reverseRecOn with
  | nil =>
    intro rest _ r hr
    rcases h.kept r hr with hd | hc
    · show ix.exclusions.checkPath (ix.asked r.file) (pathAt ix.repo r.file) = none
      rw [hd]
      exact hold r hr
    · exact hc
  | append_singleton done change ih =>
    intro rest hchanges r hr
    rw [List.append_assoc] at hchanges
    have hdone := ih _ hchanges
    rw [Contents.records_applyChanges] at hr hdone
    rw [List.foldl_append] at hr
    cases change with
    | added path | modified path => exact hdone r hr
    | deleted path => exact hdone r (List.mem_filter.mp hr).1
    | renamed source dest =>
      obtain ⟨r', hr', rfl⟩ := List.mem_map.mp hr
      split
      · rename_i hsource
        exact h.moved done rest source dest hchanges ⟨r', hr', hsource⟩
      · exact hdone r' hr'

theorem reopen_store (h : ix.reopen u = .ok t) : ChunkStore.open u.store.onDisk = .ok t.store := by
  cases hs : ChunkStore.open u.store.onDisk with
  | error e =>
    simp only [Indexer.reopen, Indexer.open, hs, Except.mapError, bind, Except.bind] at h
    cases h
  | ok s =>
    simp only [Indexer.reopen, Indexer.open, hs, Except.mapError, bind, Except.bind, pure,
      Except.pure,
      throw, throwThe, MonadExceptOf.throw] at h
    split at h
    · cases h
    · split at h
      · cases h
      · rw [← Except.ok.inj h]

theorem Clean.records {s : ChunkStore} (h : Clean R s) :
    ∃ s', ChunkStore.open s.onDisk = .ok s' ∧ ∀ r ∈ s'.records, R r := by
  obtain ⟨b, ⟨s', hs', hrepr⟩, hR⟩ := h
  exact ⟨s', hs', fun r hr => hR r (hrepr.records ▸ hr)⟩

theorem Clean.reopen (h : Clean R u.store) (hv : ix.reopen u = .ok t) : ∀ r ∈ t.records, R r := by
  obtain ⟨s, hs, hR⟩ := h.records
  obtain rfl : s = t.store := Except.ok.inj (hs.symm.trans (reopen_store hv))
  exact hR

theorem Stops.clean (h : Screens R (ix.run kind) t) (hclean : Clean R t.store)
    (hu : Stops ix kind t u) : Clean R u.store := by
  rcases hu with rfl | ⟨stop, hstop⟩
  · exact hclean
  · cases hstop with
    | killed hmem => exact h.trace hmem
    | failed he => exact h.error he

/-- One run of such a history. -/
theorem Indexer.Admits.run_screens (Hs : History E (fun _ => True) t) (hE : ix.embedder = E)
    (hf : FreshGeneration t.store ix.pid ix.nanos)
    (hadmits : ix.Admits asked kind t.store.indexedCommit t.records)
    (hold : ∀ r ∈ t.records, ix.exclusions.checkPath (asked r.file)
      (pathAt ix.repo r.file) = none) :
    Screens (fun r => ix.checkPath r.file = none) (ix.run kind) t ∧
      Clean (fun r => ix.checkPath r.file = none) t.store := by
  obtain ⟨a, docs, S⟩ := Hs.holds
  subst hE
  rw [S.records] at hold
  rw [S.records, indexedCommit_eq S] at hadmits
  have B := hadmits.bounds hold
  exact ⟨SiftMcp.run_screens ⟨S, hf⟩ kind B, S.clean (B.diff [] _ rfl)⟩

/-- A run that returns. -/
theorem Screened.returned (Hs : Screened E ex asked t) (ix : Indexer) (kind : RunKind)
    (hE : ix.embedder = E) (hex : ix.exclusions = ex) (hf : FreshGeneration t.store ix.pid ix.nanos)
    (hadmits : ix.Admits asked kind t.store.indexedCommit t.records)
    (hok : (ix.run kind t).result.isOk = true) : Screened E ex ix.asked (ix.run kind t).state := by
  cases hr : (ix.run kind t).result with
  | ok r => exact Hs.run ix kind hE hex hf hadmits hr
  | error e => rw [hr] at hok; cases hok

/-- Globs as globset matches them, and no `.gitignore`. -/
def sampleExclusions : Exclusions :=
  ⟨"/repo", fun glob path => globset glob.toList path.toList, none⟩

end SiftMcp
