import SiftMcp.Indexing.Counters

/-!
# Indexing the same tree twice

The main result is `History.stays_iff`. A second full index over an unchanged tree finds every file
as it left it, exactly when the first one left all chunks of the tree in the store: then it only
sets the commit marker, and compacts rows that are numbered from zero on already.
-/

namespace SiftMcp
open Durable DocIndex Indexer

variable {E : Embedder} {ix : Indexer} {H P : Prop} {a b : Contents} {docs docs' : Docs}
  {t u : IndexState}

/-- The indexer at a later time: the same tree, with another order of delivery. -/
def Indexer.later (ix : Indexer) (schedule : List WorkItem → List WorkItem)
    (hs : ∀ work, (schedule work).Perm work) (pid nanos : Nat) (faults : Faults)
    (interrupt : Option Nat) : Indexer :=
  { ix with
    schedule := schedule
    schedule_perm := hs
    pid := pid
    nanos := nanos
    faults := faults
    interruptAfterBatches := interrupt }

/-- Nothing of the tree is new to the store, and nothing in the store has left its file. -/
structure Indexer.Idle (ix : Indexer) (work : List WorkItem) (rs : List ChunkRecord) : Prop where
  kept : ∀ r ∈ rs, ix.retires work r = false
  known : ∀ k ∈ hashesOf (ix.chunksOf work), k ∈ recordHashes rs

/-! ## A loop that finds nothing to do -/

/-- The same store and documents, and the same counters of chunks. -/
structure Untouched (t u : IndexState) : Prop where
  store : u.store = t.store
  lexical : u.lexical = t.lexical
  tally : u.report.tally = t.report.tally
  embedded : u.report.embeddingsComputed = t.report.embeddingsComputed

theorem Untouched.trans {v : IndexState} (h : Untouched t u) (h' : Untouched u v) : Untouched t v :=
  ⟨h'.store.trans h.store, h'.lexical.trans h.lexical, h'.tally.trans h.tally,
    h'.embedded.trans h.embedded⟩

theorem takeChunks_idle {old : HashRows} {c : Consumer} {cs : List Chunk}
    (h : ∀ d ∈ cs, d.record.contentHash ∈ c.known) :
    Prog.Ensures (.foldlP (ix.takeChunk old) c cs) (fun c' u => c' = c ∧ Untouched t u) t := by
  have hloop := Prog.wp_foldlP (E := fun _ _ => True) (C := fun _ _ => True) (f := ix.takeChunk old)
    (fun done rest c' u => done ++ rest = cs ∧ c' = c ∧ Untouched t u) ?_ cs [] c t
    ⟨rfl, rfl, rfl, rfl, rfl, rfl⟩
  · exact Prog.ensures_mono hloop fun _ _ h => h.2
  · intro done chunk rest c' u hu
    obtain ⟨hcs, rfl, hu⟩ := hu
    have hknown : chunk.record.contentHash ∈ c'.known :=
      h chunk (hcs ▸ List.mem_append_right _ List.mem_cons_self)
    simp only [takeChunk, if_pos (Or.inr hknown : _ ∈ old.map (·.1) ∨ _), Prog.wp_bind, wp_report,
      Prog.wp_pure]
    exact ⟨by rw [List.append_assoc]; exact hcs, trivial, hu.trans ⟨rfl, rfl, rfl, rfl⟩⟩

theorem consume_idle {existing : List (String × HashRows)}
    {c : Consumer} {item : WorkItem}
    (hexist : existing.lookup item.rel =
      some ((a.table.live.filter (·.2.1.file = item.rel)).map fun p => (p.2.hash, p.1)))
    (hkept : ∀ p ∈ a.table.live, ix.vanishes item p.2.1 = false)
    (hknown : ∀ cs, ix.chunks item = some cs → ∀ d ∈ cs, d.record.contentHash ∈ c.known) :
    Prog.Ensures (ix.consume existing c (ix.parse existing item))
      (fun c' u => c' = c ∧ Untouched t u) t := by
  cases hcs : ix.chunks item with
  | none =>
    simp only [parse, hcs, consume, Prog.wp_bind, wp_report, Prog.wp_pure]
    exact ⟨trivial, rfl, rfl, rfl, rfl⟩
  | some cs =>
    simp only [parse, hcs, hexist, Option.getD_some]
    split
    · simp only [consume, Prog.wp_bind, wp_report, Prog.wp_pure]
      exact ⟨trivial, rfl, rfl, rfl, rfl⟩
    · have hnone : (a.table.live.filter fun p => ix.vanishes item p.2.1).map (·.1) = [] := by
        rw [List.map_eq_nil_iff, List.filter_eq_nil_iff]
        intro p hp
        rw [hkept p hp]
        exact Bool.false_ne_true
      simp only [consume, hexist, Option.getD_some, vanished_rows hcs, hnone, retireVanished,
        if_true, Prog.wp_bind, wp_report, Prog.wp_pure]
      have hstart : Untouched t { t with report := { t.report with
          filesIndexed := t.report.filesIndexed + 1 } } := ⟨rfl, rfl, rfl, rfl⟩
      exact Prog.ensures_mono (takeChunks_idle (hknown cs hcs))
        fun c' u hu => ⟨hu.1, hstart.trans hu.2⟩

theorem processWorkItems_idle (S : Holds ix.embedder H a docs t) {work : List WorkItem}
    (hidle : ix.Idle work a.records) :
    Prog.Ensures (ix.processWorkItems work) (fun _ u => Untouched t u) t := by
  simp only [processWorkItems, Prog.wp_ite, Prog.wp_pure, Prog.wp_bind, wp_mayFail, Prog.wp_get]
  refine ⟨fun _ => ⟨rfl, rfl, rfl, rfl⟩, fun _ => ⟨fun _ => trivial, fun _ => ?_⟩⟩
  have hkeys := knownHashes_eq S.tick
  have hloop := Prog.wp_foldlP (E := fun _ _ => True) (C := fun _ _ => True)
    (f := fun c item => ix.consume
      (work.map fun item => (item.rel, hashRows t.tick.store item.rel)) c
      (ix.parse (work.map fun item => (item.rel, hashRows t.tick.store item.rel)) item))
    (fun done rest c u => done ++ rest = ix.delivered work ∧
      c = ⟨t.tick.store.liveRows.filterMap fun row =>
        (t.tick.store.get row).map (·.contentHash), []⟩ ∧
      Untouched t u) ?_
    (ix.delivered work) [] _ t.tick ⟨rfl, rfl, rfl, rfl, rfl, rfl⟩
  · have hconsumer : Prog.Ensures (do
        let c ← .foldlP
          (ix.consume (work.map fun item => (item.rel, hashRows t.tick.store item.rel)))
          ⟨t.tick.store.liveRows.filterMap fun row =>
            (t.tick.store.get row).map (·.contentHash), []⟩
          ((ix.delivered work).map
            (ix.parse (work.map fun item => (item.rel, hashRows t.tick.store item.rel))))
        ix.flushBatch c.pending) (fun _ u => Untouched t u) t.tick := by
      rw [Prog.foldlP_map, Prog.Ensures, Prog.wp_bind]
      refine Prog.ensures_mono hloop fun c u hu => ?_
      obtain ⟨-, rfl, hu⟩ := hu
      simpa [flushBatch] using hu
    exact Prog.ensures_mono (wp_joinParsers hconsumer (fun _ _ _ => trivial) fun _ _ _ => trivial)
      fun _ _ h => h.2
  · intro done item rest c u hu
    obtain ⟨hwork, rfl, hu⟩ := hu
    have hitem : item ∈ work :=
      delivered_subset (hwork ▸ List.mem_append_right _ List.mem_cons_self)
    have hexist := lookup_map (·.rel) (hashRows t.tick.store) hitem
    rw [hashRows_eq S.tick] at hexist
    refine Prog.ensures_mono (consume_idle hexist (fun p hp => ?_) fun cs hcs d hd => ?_)
      fun c' v hv => ⟨?_, hv.1, hu.trans hv.2⟩
    · have hkept := hidle.kept p.2.1 (a.records_eq ▸ List.mem_map_of_mem hp)
      exact Bool.eq_false_iff.mpr (List.any_eq_false.mp hkept item hitem)
    · have hmem : d ∈ ix.chunksOf work := mem_chunksOf.mpr ⟨item, hitem, cs, hcs, hd⟩
      have hk := hidle.known _ (List.mem_map_of_mem hmem)
      rw [hkeys, a.keys_eq]
      exact hk
    · rw [List.append_assoc]
      exact hwork

/-- A full index that finds nothing to do. -/
theorem indexAll_idle (S : Synced ix H a docs t) (hidle : ix.Idle ix.walked a.records) :
    Prog.Ensures ix.indexAll
      (fun r u => r.chunksAdded = 0 ∧ r.chunksRemoved = 0 ∧ r.embeddingsComputed = 0 ∧
        ∃ commit b docs', Compacted ix (a.setIndexedCommit commit) docs b docs' ∧
          Holds ix.embedder H b docs' u) t := by
  simp only [indexAll, Prog.wp_bind]
  refine (start_wp (P := True) S fun _ => trivial).mono ?_ (fun _ _ _ => trivial)
    (fun _ _ _ => trivial)
  intro dirty u hu
  obtain ⟨-, -, S', hreport⟩ := hu
  simp only [wp_mayFail, Prog.wp_get, wp_report, collectAllFiles_snd]
  refine ⟨fun _ => trivial, fun _ => ?_⟩
  have hfiles : FilesCounted u.tick.report (ix.collectAllFiles u.tick.report).1 :=
    collectAllFiles_report _
  obtain ⟨_, _, _, hwalk⟩ := hfiles
  have hreport : u.tick.report = emptyReport a.table.live.length := hreport
  have Sw : Synced ix H a docs { u.tick with report := (ix.collectAllFiles u.tick.report).1 } :=
    S'.tick.congr rfl rfl
  refine Prog.ensures_mono (processWorkItems_idle Sw.toHolds hidle) fun _ v hv => ?_
  refine (finish_wp (P := True) (Sw.congr hv.store hv.lexical) dirty fun _ => trivial).mono ?_
    (fun _ _ _ => trivial) (fun _ _ _ => trivial)
  intro r w hw
  obtain ⟨b, docs', S'', hfin⟩ := hw
  obtain ⟨head, -, hcomp⟩ := hfin.head
  have htally : r.tally = (a.table.live.length, 0, 0) := by
    rw [hfin.tally, hv.tally, hwalk, hreport]
    rfl
  obtain ⟨-, hadded, hremoved⟩ := Prod.mk.inj htally |>.imp_right Prod.mk.inj
  refine ⟨hadded, hremoved, ?_, _, b, docs', hcomp, S''⟩
  rw [hfin.embedded, hv.embedded, hwalk, hreport]
  rfl

/-- Compacting rows that are numbered from zero on moves nothing. -/
theorem Compacted.unmoved (h : Compacted ix a docs b docs') (hsettled : Settled ix a)
    (hagree : Agree a.table docs) :
    b.table.live = a.table.live ∧ docs'.Perm docs := by
  rcases h with ⟨-, rfl, rfl⟩ | ⟨hover, rfl, rfl⟩
  · exact ⟨rfl, .refl _⟩
  · have hrows : a.table.rows = List.range a.table.live.length := by
      refine hsettled.resolve_left fun h => ?_
      rw [hover] at h
      cases h
    refine ⟨RowTable.compact_live_eq_self hrows, moveAll_perm_self hagree.unique ?_ (.refl _)⟩
    intro m hm
    obtain ⟨⟨row, n⟩, hp, rfl⟩ := List.mem_map.mp hm
    rw [RowTable.mapping, hrows, List.mem_zipIdx_iff_getElem?, List.getElem?_eq_some_iff] at hp
    obtain ⟨hn, hrow⟩ := hp
    rw [List.getElem_range] at hrow
    exact ⟨hrow, rfl⟩

/-! ## The second index -/

/-- File, content hash and row of each live record. -/
def IndexState.liveKeys (t : IndexState) : List (String × ContentHash × RowId) :=
  t.store.conn.live.map fun c => (c.record.file, c.record.contentHash, c.rowid)

theorem Holds.liveKeys (S : Holds E H a docs t) :
    t.liveKeys = a.table.live.map fun p => (p.2.1.file, p.2.1.contentHash, p.1) := by
  have h := congrArg (List.map fun p : RowId × ChunkRecord => (p.2.file, p.2.contentHash, p.1))
    S.repr.pair.db.live
  rw [List.map_map, List.map_map] at h
  exact h

/-- The run returns. It has added, removed and embedded no chunk, and left all live rows and all
documents as they were. -/
structure Indexer.Stays (ix : Indexer) (t : IndexState) : Prop where
  report : ∃ r, (ix.run .indexAll t).result = .ok r ∧ r.chunksAdded = 0 ∧ r.chunksRemoved = 0 ∧
    r.embeddingsComputed = 0
  rows : (ix.run .indexAll t).state.liveKeys = t.liveKeys
  documents : (ix.run .indexAll t).state.lexical.reader.Perm t.lexical.reader

/-- What must hold of the records before a full index for it to leave nothing to the next one: no
row is retired whose hash is still in the tree, and no chunk is taken up that another file of the
same name lacks. -/
structure Indexer.Settles (ix : Indexer) (rs : List ChunkRecord) : Prop where
  gone : ∀ r ∈ rs, ix.retires ix.walked r = true → r.contentHash ∉ hashesOf (ix.chunksOf ix.walked)
  stay : ∀ c ∈ ix.takes ⟨[], ix.walked⟩ rs, ix.retires ix.walked c.record = false

theorem idle_outcome_iff {rs : List ChunkRecord} (hd : (recordHashes rs).Nodup) :
    ix.Idle ix.walked (ix.outcome ⟨[], ix.walked⟩ rs) ↔ ix.Settles rs := by
  have hcovers : (∀ k ∈ hashesOf (ix.chunksOf ix.walked),
      k ∈ recordHashes (ix.outcome ⟨[], ix.walked⟩ rs)) ↔
        Covers ix ⟨[], ix.walked⟩ rs (hashesOf (ix.chunksOf ix.walked)) :=
    @covers_iff ix ⟨[], ix.walked⟩ rs hd _
  have hleaves : (∀ r ∈ ix.outcome ⟨[], ix.walked⟩ rs, ix.retires ix.walked r = false) ↔
      Leaves ix ⟨[], ix.walked⟩ rs fun r => ix.retires ix.walked r = false := leaves_iff
  constructor
  · intro h
    exact ⟨(hcovers.mp h.known).retired, (hleaves.mp h.kept).taken⟩
  · intro h
    exact ⟨hleaves.mpr ⟨fun _ _ h => h, h.stay⟩, hcovers.mpr ⟨h.gone, fun _ h _ => h⟩⟩

/-- The counters of a full index tell whether it found anything to do. -/
theorem Counted.idle {c : Contents} {r : IndexReport} (h : Counted ix ⟨[], ix.walked⟩ a c r)
    (hadded : r.chunksAdded = 0) (hremoved : r.chunksRemoved = 0) :
    ix.Idle ix.walked a.records := by
  constructor
  · intro rec hrec
    have hzero : ix.retirements a.table (ix.schedule ix.walked) = 0 := by
      have h := h.removed
      rw [hremoved] at h
      exact Nat.add_left_cancel (h.symm.trans (Nat.add_comm 0 _))
    have hmet : a.table.live.countP (fun p => ix.retires (ix.schedule ix.walked) p.2.1) = 0 :=
      Nat.le_zero.mp (hzero ▸ met_le_meetings)
    obtain ⟨p, hp, rfl⟩ := List.mem_map.mp (a.records_eq ▸ hrec)
    rw [← retires_perm (ix.schedule_perm ix.walked)]
    exact Bool.eq_false_iff.mpr (List.countP_eq_zero.mp hmet p hp)
  · intro k hk
    have hnil := List.length_eq_zero_iff.mp (h.added.symm.trans hadded)
    by_contra hnew
    have hmem : k ∈ (taken a.table.keys (ix.chunksOf (ix.schedule ix.walked))).map
        (·.record.contentHash) := by
      refine firsts.mem_keys.mpr ⟨a.keys_eq ▸ hnew, ?_⟩
      exact (hashesOf_perm (ix.schedule_perm ix.walked) k).mpr hk
    rw [show taken a.table.keys _ = [] from hnil] at hmem
    cases hmem

section twice

variable {schedule : List WorkItem → List WorkItem} {hs : ∀ work, (schedule work).Perm work}
  {pid nanos : Nat} {faults : Faults} {interrupt : Option Nat}

theorem later_walked : (ix.later schedule hs pid nanos faults interrupt).walked = ix.walked :=
  @walked_same (ix.later schedule hs pid nanos faults interrupt) ix
    ⟨fun _ => rfl, fun _ => rfl, fun _ => rfl⟩ rfl

/-- A full index of a tree is run twice, and returns both times. The second run changes nothing,
exactly when the first retires no row whose hash is still in the tree, and takes up no chunk that a
second file of the same name lacks. -/
theorem History.stays_iff (Hs : History E (fun _ => False) t) (hE : ix.embedder = E)
    (hf : FreshGeneration t.store ix.pid ix.nanos) (hok : (ix.run .indexAll t).result.isOk = true)
    (hf' : FreshGeneration (ix.run .indexAll t).state.store pid nanos)
    (hok' : ((ix.later schedule hs pid nanos faults interrupt).run .indexAll
      (ix.run .indexAll t).state).result.isOk = true) :
    (ix.later schedule hs pid nanos faults interrupt).Stays (ix.run .indexAll t).state ↔
      ix.Settles t.records := by
  obtain ⟨a, docs, S⟩ := Hs.holds
  subst hE
  cases hr : (ix.run .indexAll t).result with
  | error e => rw [hr] at hok; cases hok
  | ok r =>
    obtain ⟨-, c, docs', S', hran, hcount⟩ := (run_wp ⟨S, hf⟩ .indexAll).ok hr
    have hd : (recordHashes a.records).Nodup := a.keys_eq ▸ a.table.distinct
    have hrecords : c.records = ix.outcome ⟨[], ix.walked⟩ a.records := hran.records
    have hwalked : (ix.later schedule hs pid nanos faults interrupt).walked = ix.walked :=
      later_walked
    rw [S.records, ← idle_outcome_iff hd, ← hrecords]
    have Sc : Synced (ix.later schedule hs pid nanos faults interrupt) _ c docs' _ := ⟨S', hf'⟩
    constructor
    · intro h
      obtain ⟨r', hr', hadded, hremoved, -⟩ := h.report
      obtain ⟨-, d, docs₁, -, -, hcount'⟩ := (run_wp Sc .indexAll).ok hr'
      have hidle := hcount'.idle hadded hremoved
      rw [hwalked] at hidle
      exact ⟨hidle.kept, hidle.known⟩
    · intro h
      cases hr' : ((ix.later schedule hs pid nanos faults interrupt).run .indexAll
          (ix.run .indexAll t).state).result with
      | error e => rw [hr'] at hok'; cases hok'
      | ok r' =>
        have hdoes := indexAll_idle Sc (hwalked.symm ▸ ⟨h.kept, h.known⟩)
        rw [← run_indexAll] at hdoes
        obtain ⟨hadded, hremoved, hembedded, commit, b, docs₁, hcomp, Sb⟩ := hdoes.ok hr'
        have hagree : Agree (c.setIndexedCommit commit).table docs' := S'.agree fun _ h => h.elim
        obtain ⟨hlive, hperm⟩ := hcomp.unmoved hcount.settled hagree
        refine ⟨⟨r', hr', hadded, hremoved, hembedded⟩, ?_, ?_⟩
        · rw [S'.liveKeys]
          exact Sb.liveKeys.trans (congrArg (List.map _) hlive)
        · rw [S'.lexical]
          exact Sb.lexical ▸ hperm

/-- A repository that is indexed for the first time, and again. -/
theorem History.stays_iff_first :
    let tree := sampleTree [("a.rs", "fn f() {}")]
    let ix := sampleIndexer tree (sampleGit "c1" tree []) 1
    (ix.later id (fun work => .refl work) 7 2 .none none).Stays
    (ix.run .indexAll sampleStart).state := by
  intro tree ix
  have Hs : History sampleEmbedder (fun _ => False) sampleStart := sampleStart_history
  apply Iff.mpr (History.stays_iff Hs rfl sampleStart_fresh
    (by decide +kernel) ⟨by decide +kernel, by decide +kernel⟩ (by decide +kernel))
  have hnone : sampleStart.records = [] := by decide +kernel
  constructor
  · rw [hnone]
    exact nofun
  · rw [hnone]
    decide +kernel

/-- A function is moved to another file. The first index retires its row for the file that has lost
it, and only the second takes it up for the other. -/
theorem indexAll_twice_adds_moved :
    let before := sampleTree [("a.rs", "fn f() {}\nfn g() {}"), ("b.rs", "fn h() {}")]
    let after := sampleTree [("a.rs", "fn g() {}"), ("b.rs", "fn h() {}\nfn f() {}")]
    let t := ((sampleIndexer before (sampleGit "c1" before []) 1).run .indexAll sampleStart).state
    let ix := sampleIndexer after (sampleGit "c2" after []) 2
    let again := ix.later id (fun work => .refl work) 7 3 .none none
    let u := (ix.run .indexAll t).state
    History sampleEmbedder (fun _ => False) t ∧ (ix.run .indexAll t).result.isOk = true ∧
      (again.run .indexAll u).result.toOption.map (·.chunksAdded) = some 1 ∧ ¬again.Stays u := by
  intro before after t ix again u
  have hadded : (again.run .indexAll u).result.toOption.map (·.chunksAdded) = some 1 := by
    decide +kernel
  refine ⟨sampleStart_history.returned _ .indexAll rfl sampleStart_fresh
    (by decide +kernel), by decide +kernel, hadded, fun h => ?_⟩
  obtain ⟨r, hr, hzero, -⟩ := h.report
  rw [hr] at hadded
  have hone : r.chunksAdded = 1 := Option.some.inj hadded
  rw [hzero] at hone
  cases hone

end twice

end SiftMcp
