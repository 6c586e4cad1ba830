import SiftMcp.Indexing.Coverage

/-!
# The counters of a run

When the assertion at the end of a run holds, and what the counters of the loop over the delivered
files are: they do not depend on the order of delivery.

* `History.reconciles_iff`: when the assertion holds.
* `History.delivery_confluent`: two orders of delivery leave one index and one report.
-/

namespace SiftMcp
open Durable Indexer

variable {E : Embedder} {ix : Indexer} {H P : Prop} {a b : Contents} {docs : Docs}
  {t u : IndexState} {plan : Plan} {rs : List ChunkRecord}

/-! ## The assertion at the end -/

/-- No row is lost by two of the files that are read. -/
def Indexer.RetiresOnce (ix : Indexer) (work : List WorkItem) (rs : List ChunkRecord) : Prop :=
  ∀ r ∈ rs, work.countP (fun item => ix.vanishes item r) ≤ 1

/-- Git answers what a run asks of it, and the dirty worktree is not refused. -/
def Indexer.Answered (ix : Indexer) (kind : RunKind) (t : IndexState) : Prop :=
  ¬ix.Refuses ∧ ∀ marker, kind = .update → t.store.indexedCommit = some marker →
    ¬ix.Unanswered marker

theorem Indexer.answered_indexAll {t : IndexState} (h : ¬ix.Refuses) : ix.Answered .indexAll t := by
  refine ⟨h, fun marker hkind => ?_⟩
  cases hkind

theorem balanced_records {work : List WorkItem} :
    ix.Balanced a (ix.schedule work) ↔ ix.RetiresOnce work a.records := by
  rw [balanced_iff, RetiresOnce, a.records_eq, List.forall_mem_map]
  refine forall_congr' fun p => forall_congr' fun _ => ?_
  rw [(ix.schedule_perm work).countP_eq]

/-- Without failing calls a run returns, or parsing a file panics, or the assertion fails. -/
theorem Synced.run_isOk_iff (S : Synced ix H a docs t) (kind : RunKind) (hfault : ix.Faultless)
    (hans : ix.Answered kind t) : (ix.run kind t).result.isOk = true ↔
      ix.Parses (ix.plan kind a.indexedCommit).work ∧
        ix.Balanced (a.applyChanges (ix.plan kind a.indexedCommit).changes)
          (ix.schedule (ix.plan kind a.indexedCommit).work) := by
  have hwp := run_wp S kind
  cases hr : (ix.run kind t).result with
  | ok r =>
    obtain ⟨-, c, docs', -, -, hcount⟩ := hwp.ok hr
    exact ⟨fun _ => ⟨hcount.parsed, hcount.balanced⟩, fun _ => rfl⟩
  | error e =>
    refine ⟨nofun, fun ⟨hparses, hbal⟩ => ?_⟩
    rcases (hwp.error hr).2 hfault with h | ⟨marker, hk, hm, h⟩ | h | h
    · exact absurd h hans.1
    · exact absurd h (hans.2 marker hk ((indexedCommit_eq S.toHolds).trans hm))
    · exact absurd hparses h
    · exact absurd hbal h

section run

variable {allowed : Stop → Prop} {kind : RunKind}

end run

/-! ## The loop over the delivered files -/

/-- The chunks that are looked at for a file, by their hashes when nothing has changed. -/
def Indexer.ParsedFile.looked : ParsedFile → Nat
  | .ok _ cs => cs.length
  | .unparsed => 0
  | .skipIdentical reused => reused

/-- `n` chunks have been looked at since the report was `r`. Each counts as reused or as added, or
is pending. -/
structure Accounted (r r' : IndexReport) (n : Nat) (c : Consumer) : Prop where
  embedded : r'.embeddingsComputed + r.chunksAdded = r.embeddingsComputed + r'.chunksAdded
  looked : r'.chunksReused + r'.chunksAdded + c.pending.length = r.chunksReused + r.chunksAdded + n
  distinct : (hashesOf c.pending).Nodup
  known : ∀ h ∈ hashesOf c.pending, h ∈ c.known

theorem commitLexical_report :
    Prog.Ensures ix.commitLexical (fun _ u => u.report = t.report) t := by
  simp only [commitLexical, Prog.wp_bind, wp_nextCall, wp_inLexical]
  exact Prog.ensures_of_forall fun _ _ => rfl

theorem retire_report (rows : List RowId) :
    Prog.Ensures (ix.retire rows) (fun _ u => u.report = t.report) t := by
  simp only [Indexer.retire, Prog.wp_bind, wp_nextCall, wp_inStore, wp_inLexical]
  exact Prog.ensures_of_forall fun _ _ => Prog.ensures_of_forall fun _ _ => commitLexical_report

theorem checkInterrupt_report :
    Prog.Ensures ix.checkInterrupt (fun _ u => u.report = t.report) t := by
  simp only [checkInterrupt, Prog.wp_bind, Prog.wp_get]
  cases ix.interruptAfterBatches with
  | none => simp
  | some limit => simp

theorem flushBatch_report {pending : List Chunk} (hd : (hashesOf pending).Nodup) :
    Prog.Ensures (ix.flushBatch pending)
      (fun _ u => u.report.chunksReused = t.report.chunksReused ∧
        u.report.chunksAdded = t.report.chunksAdded + pending.length ∧
        u.report.embeddingsComputed = t.report.embeddingsComputed + pending.length) t := by
  have hunique : uniqueByHash [] pending = pending :=
    uniqueByHash_eq_self (fun c _ => List.not_mem_nil) hd
  have hlen := ix.length_embed pending
  simp only [flushBatch, Prog.wp_ite, Prog.wp_pure]
  constructor
  · rintro rfl
    exact ⟨trivial, rfl, rfl⟩
  intro _
  simp only [hunique, Prog.wp_bind, wp_mayFail, hlen, ne_eq, not_true_eq_false, if_false,
    wp_report, wp_nextCall, wp_inStore, wp_inLexical, Prog.wp_modify]
  refine ⟨fun _ => trivial, fun _ => Prog.ensures_of_forall fun ids _ =>
    Prog.ensures_of_forall fun _ _ => ?_⟩
  refine Prog.ensures_mono commitLexical_report fun _ u hu => ?_
  refine Prog.ensures_mono checkInterrupt_report fun _ v hv => ?_
  rw [hv, hu]
  simp [IndexState.tick, ix.embedder.length]

section accounted

variable {r : IndexReport} {n : Nat} {c : Consumer}

theorem takeChunk_accounted (A : Accounted r t.report n c) (old : HashRows) (chunk : Chunk) :
    Prog.Ensures (ix.takeChunk old c chunk) (fun c' u => Accounted r u.report (n + 1) c') t := by
  obtain ⟨hemb, hlook, hd, hk⟩ := A
  by_cases hseen : chunk.record.contentHash ∈ old.map (·.1) ∨ chunk.record.contentHash ∈ c.known
  · simp only [takeChunk, if_pos hseen, Prog.wp_bind, wp_report, Prog.wp_pure]
    exact ⟨hemb, by dsimp only; omega, hd, hk⟩
  · have hnew : chunk.record.contentHash ∉ hashesOf c.pending := fun h => hseen (.inr (hk _ h))
    have hd' : (hashesOf (c.pending ++ [chunk])).Nodup := by
      rw [hashesOf, List.map_append, List.nodup_append]
      refine ⟨hd, List.nodup_singleton _, fun h hh h' hh' => ?_⟩
      obtain rfl : h' = chunk.record.contentHash := List.mem_singleton.mp hh'
      exact fun he => hnew (he ▸ hh)
    have hk' : ∀ h ∈ hashesOf (c.pending ++ [chunk]), h ∈ chunk.record.contentHash :: c.known := by
      intro h hh
      rw [hashesOf, List.map_append] at hh
      rcases List.mem_append.mp hh with hh | hh
      · exact List.mem_cons_of_mem _ (hk h hh)
      · rw [List.mem_singleton.mp hh]
        exact List.mem_cons_self
    simp only [takeChunk, if_neg hseen, Prog.wp_ite, Prog.wp_bind, Prog.wp_pure]
    refine ⟨fun _ => ?_, fun _ => ⟨hemb, ?_, hd', hk'⟩⟩
    · refine Prog.ensures_mono (flushBatch_report hd') fun _ u hu => ?_
      obtain ⟨hr, ha, he⟩ := hu
      rw [List.length_append, List.length_singleton] at ha he
      exact ⟨by omega, by rw [List.length_nil]; omega, .nil, fun _ h => absurd h List.not_mem_nil⟩
    · rw [List.length_append, List.length_singleton]
      omega

theorem takeChunks_accounted (A : Accounted r t.report n c) (old : HashRows) (cs : List Chunk) :
    Prog.Ensures (.foldlP (ix.takeChunk old) c cs)
      (fun c' u => Accounted r u.report (n + cs.length) c') t := by
  refine Prog.ensures_mono (Prog.wp_foldlP
    (fun done _ c u => Accounted r u.report (n + done.length) c) ?_ cs [] c t A) fun _ _ h => h
  intro done chunk rest c u A
  rw [List.length_append, List.length_singleton, ← Nat.add_assoc]
  exact takeChunk_accounted A old chunk

theorem consume_accounted (A : Accounted r t.report n c) (existing : List (String × HashRows))
    (f : ParsedFile) :
    Prog.Ensures (ix.consume existing c f)
      (fun c' u => Accounted r u.report (n + f.looked) c') t := by
  cases f with
  | unparsed =>
    simp only [consume, Prog.wp_bind, wp_report, Prog.wp_pure]
    exact ⟨A.embedded, A.looked, A.distinct, A.known⟩
  | skipIdentical reused =>
    have hlook := A.looked
    simp only [consume, Prog.wp_bind, wp_report, Prog.wp_pure]
    exact ⟨A.embedded, by dsimp only [ParsedFile.looked]; omega, A.distinct, A.known⟩
  | ok rel cs =>
    simp only [consume, retireVanished, Prog.wp_bind, wp_report, Prog.wp_ite, Prog.wp_pure]
    have A' : Accounted r { t.report with filesIndexed := t.report.filesIndexed + 1 } n c :=
      ⟨A.embedded, A.looked, A.distinct, A.known⟩
    refine ⟨fun _ => takeChunks_accounted A' _ cs, fun _ => ?_⟩
    refine Prog.ensures_mono (retire_report _) fun _ u hu => ?_
    refine takeChunks_accounted ?_ _ cs
    rw [hu]
    exact ⟨A.embedded, A.looked, A.distinct, A.known⟩

end accounted

/-- The chunks that the loop looks at. They depend on the store only as it begins. -/
def Indexer.looked (ix : Indexer) (s : ChunkStore) (work : List WorkItem) (item : WorkItem) : Nat :=
  (ix.parse (work.map fun item => (item.rel, hashRows s item.rel)) item).looked

theorem processWorkItems_accounted (work : List WorkItem) :
    Prog.Ensures (ix.processWorkItems work)
      (fun _ u =>
        u.report.embeddingsComputed + t.report.chunksAdded =
          t.report.embeddingsComputed + u.report.chunksAdded ∧
        u.report.chunksReused + u.report.chunksAdded = t.report.chunksReused +
          t.report.chunksAdded + (work.map (ix.looked t.store work)).sum) t := by
  simp only [processWorkItems, Prog.wp_ite, Prog.wp_pure, Prog.wp_bind, wp_mayFail, Prog.wp_get]
  constructor
  · rintro rfl
    exact ⟨trivial, rfl⟩
  intro _
  refine ⟨fun _ => trivial, fun _ => ?_⟩
  have hloop := Prog.wp_foldlP (E := fun _ _ => True) (C := fun _ _ => True)
    (f := fun c item => ix.consume (work.map fun item => (item.rel, hashRows t.store item.rel)) c
      (ix.parse (work.map fun item => (item.rel, hashRows t.store item.rel)) item))
    (fun done _ c u => Accounted t.report u.report (done.map (ix.looked t.store work)).sum c) ?_
    (ix.delivered work) [] ⟨t.store.liveRows.filterMap fun row =>
      (t.store.get row).map (·.contentHash), []⟩ t.tick
    ⟨rfl, rfl, .nil, fun _ h => absurd h List.not_mem_nil⟩
  · have hconsumer : Prog.Ensures (do
        let c ← .foldlP (ix.consume (work.map fun item => (item.rel, hashRows t.store item.rel)))
          ⟨t.store.liveRows.filterMap fun row => (t.store.get row).map (·.contentHash), []⟩
          ((ix.delivered work).map
            (ix.parse (work.map fun item => (item.rel, hashRows t.store item.rel))))
        ix.flushBatch c.pending)
        (fun _ u =>
          u.report.embeddingsComputed + t.report.chunksAdded =
            t.report.embeddingsComputed + u.report.chunksAdded ∧
          u.report.chunksReused + u.report.chunksAdded = t.report.chunksReused +
            t.report.chunksAdded + ((ix.delivered work).map (ix.looked t.store work)).sum)
              t.tick := by
      rw [Prog.foldlP_map, Prog.Ensures, Prog.wp_bind]
      refine Prog.ensures_mono hloop fun c u A => ?_
      refine Prog.ensures_mono (flushBatch_report A.distinct) fun _ v hv => ?_
      obtain ⟨hr, ha, he⟩ := hv
      have hlook := A.looked
      have hemb := A.embedded
      rw [List.nil_append] at hlook
      omega
    refine Prog.ensures_mono
      (wp_joinParsers hconsumer (fun _ _ _ => trivial) fun _ _ _ => trivial) ?_
    intro _ v hv
    obtain ⟨hparses, hemb, hlook⟩ := hv
    rw [delivered_eq hparses, ((ix.schedule_perm work).map _).sum_eq] at hlook
    exact ⟨hemb, hlook⟩
  · intro done item rest c u A
    rw [List.map_append, List.sum_append, List.map_singleton, List.sum_singleton]
    exact consume_accounted A _ _

/-- The same indexer, with parser threads that deliver the files in another order. -/
def Indexer.delivers (ix : Indexer) (schedule : List WorkItem → List WorkItem)
    (hs : ∀ work, (schedule work).Perm work) : Indexer :=
  { ix with schedule := schedule, schedule_perm := hs }

/-- The same live hashes, and the same counters. -/
structure SameIndex (u v : IndexState) : Prop where
  hashes : ∀ k, k ∈ u.hashes ↔ k ∈ v.hashes
  added : u.report.chunksAdded = v.report.chunksAdded
  removed : u.report.chunksRemoved = v.report.chunksRemoved
  reused : u.report.chunksReused = v.report.chunksReused
  embedded : u.report.embeddingsComputed = v.report.embeddingsComputed

/-- The hashes and the counters that the loop leaves, in terms of the contents and the work
alone. -/
theorem Synced.processWorkItems_result (S : Synced ix H a docs t) (work : List WorkItem)
    (hok : (ix.processWorkItems work t).result.isOk = true) :
    let u := (ix.processWorkItems work t).state
    (∀ k, k ∈ u.hashes ↔
      (∃ r ∈ a.records, r.contentHash = k ∧ ix.retires work r = false) ∨
        k ∉ recordHashes a.records ∧ k ∈ hashesOf (ix.chunksOf work)) ∧
      u.report.chunksAdded = t.report.chunksAdded +
        (taken a.table.keys (ix.chunksOf work)).length ∧
      u.report.chunksRemoved = t.report.chunksRemoved + ix.retirements a.table work ∧
      u.report.embeddingsComputed + t.report.chunksAdded =
        t.report.embeddingsComputed + u.report.chunksAdded ∧
      u.report.chunksReused + u.report.chunksAdded = t.report.chunksReused +
        t.report.chunksAdded + (work.map (ix.looked t.store work)).sum := by
  cases hr : (ix.processWorkItems work t).result with
  | error e => rw [hr] at hok; cases hok
  | ok x =>
    obtain ⟨-, b, docs', S', hb, htally⟩ := (processWorkItems_wp S work fun _ => trivial).ok hr
    obtain ⟨hemb, hlook⟩ := (@processWorkItems_accounted ix t work).ok hr
    obtain ⟨-, hadded, hremoved⟩ := Prod.mk.inj htally |>.imp_right Prod.mk.inj
    refine ⟨fun k => ?_, ?_, ?_, hemb, hlook⟩
    · have hrec : b.records = ix.outcome ⟨[], work⟩ a.records := by
        rw [hb.records, outcome, takes, Contents.keys_eq]
        rfl
      rw [IndexState.hashes, S'.records, hrec]
      exact mem_hashes_outcome
    · rw [hadded]
      exact congrArg _ (firsts.length_perm ((ix.schedule_perm work).flatMap_right _))
    · rw [hremoved]
      exact congrArg _ (meetings_perm (ix.schedule_perm work))

/-- Whatever order the parser threads deliver the files in, the loop leaves the same hashes and
counts the same, behind any changes that have been applied to a state that a history reaches. -/
theorem History.delivery_confluent {allowed : Stop → Prop} (Hs : History E allowed t)
    (hE : ix.embedder = E) (hf : FreshGeneration t.store ix.pid ix.nanos)
    (changes : List FileChange) (hchanges : (ix.applyFileChanges [] changes t).result.isOk = true)
    (work : List WorkItem) {schedule schedule' : List WorkItem → List WorkItem}
    (hs : ∀ work, (schedule work).Perm work) (hs' : ∀ work, (schedule' work).Perm work) :
    let u := (ix.applyFileChanges [] changes t).state
    ((ix.delivers schedule hs).processWorkItems work u).result.isOk = true →
      ((ix.delivers schedule' hs').processWorkItems work u).result.isOk = true →
        SameIndex ((ix.delivers schedule hs).processWorkItems work u).state
          ((ix.delivers schedule' hs').processWorkItems work u).state := by
  intro u hok hok'
  obtain ⟨a, docs, S⟩ := Hs.holds
  cases hr : (ix.applyFileChanges [] changes t).result with
  | error e => rw [hr] at hchanges; cases hchanges
  | ok items =>
    obtain ⟨-, ⟨docs', Su⟩, -⟩ :=
      (applyFileChanges_wp (P := True) (S.synced hE hf) [] changes).ok hr
    have S₁ : Synced (ix.delivers schedule hs) _ _ docs' u := ⟨Su.toHolds, Su.fresh⟩
    have S₂ : Synced (ix.delivers schedule' hs') _ _ docs' u := ⟨Su.toHolds, Su.fresh⟩
    obtain ⟨hh₁, ha₁, hr₁, he₁, hl₁⟩ := S₁.processWorkItems_result work hok
    obtain ⟨hh₂, ha₂, hr₂, he₂, hl₂⟩ := S₂.processWorkItems_result work hok'
    have hadded := ha₁.trans ha₂.symm
    have hlooked : (work.map ((ix.delivers schedule hs).looked u.store work)).sum =
        (work.map ((ix.delivers schedule' hs').looked u.store work)).sum := rfl
    refine ⟨fun k => (hh₁ k).trans (hh₂ k).symm, hadded, hr₁.trans hr₂.symm, ?_, ?_⟩
    · exact Nat.add_right_cancel
        ((hl₁.trans (by rw [hlooked])).trans (hl₂.symm.trans (by rw [hadded])))
    · exact Nat.add_right_cancel (he₁.trans (by rw [hadded]; exact he₂.symm))

/-- Two files with a chunk in common, delivered either way. -/
theorem History.delivery_confluent_shared :
    let tree := sampleTree [("a.rs", "fn f() {}\nfn g() {}"), ("b.rs", "fn f() {}")]
    let ix := sampleIndexer tree (sampleGit "c1" tree []) 1
    SameIndex ((ix.delivers id .refl).processWorkItems ix.walked sampleStart).state
      ((ix.delivers List.reverse List.reverse_perm).processWorkItems ix.walked
        sampleStart).state := by
  intro tree ix
  have Hs : History sampleEmbedder (fun _ => False) sampleStart := sampleStart_history
  exact @History.delivery_confluent _ ix _ _ Hs rfl sampleStart_fresh [] rfl
    ix.walked id List.reverse .refl List.reverse_perm (by decide +kernel) (by decide +kernel)

end SiftMcp
