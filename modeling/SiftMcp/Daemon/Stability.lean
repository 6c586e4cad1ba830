import SiftMcp.Daemon.Frozen
import SiftMcp.Daemon.Completion

/-!
# What the answers of a view are made of

A view is of the resident that the worker of the run has taken, and its records, bodies and vectors
stay what they were. Its reader moves on with the commits of the run.

`DaemonRun.frozen_stable` compares the answers of the view with those of the resident it has been
made from.
-/

namespace SiftMcp
open Durable

/-- What is found in the lexical index, at a commit with the documents `docs`, is what a resident
finds. -/
def Backends.SameHits (B : Backends) (r : Resident) (docs : List (RowId × LexicalDoc)) :
    Query → Prop
  | .search text _ | .searchSimilar text _ =>
    B.lexicalSearch docs text B.fusion.lexicalDepth =
      B.lexicalSearch r.lexical.reader text B.fusion.lexicalDepth
  | .getSymbol .. => True

/-- A view answers as the resident would have, and of the same lexical hits. -/
def Backends.Stable (B : Backends) (r : Resident) (f : FrozenSearch)
    (docs : List (RowId × LexicalDoc)) (host : Host) (q : Query) : Prop :=
  (f.seeing docs).answer B.retrieval host q = r.answer B.retrieval host q ∧ B.SameHits r docs q

variable {cfg : DaemonConfig} {R : Retrieval} {B : Backends} {s t : DaemonState} {e : Event}
  {es : List Event} {i w arc : Nat} {c : Client} {k : Worker} {r : Resident} {f : FrozenSearch}
  {q : Query} {host : Host} {docs : List (RowId × LexicalDoc)}

/-! ## Rows of residents -/

theorem ChunkStore.keyed_of_verify {store : ChunkStore} {n : Nat} (h : store.verify = .ok n) :
    store.liveRows.Nodup := by
  unfold verify at h
  dsimp only at h
  split at h
  · rename_i hempty
    obtain ⟨-, hmissing, hduplicates⟩ := hempty
    have htwice := (List.append_eq_nil_iff.mp hduplicates).1
    have hrows : (store.conn.chunks.map (·.rowid)).Nodup := by
      apply List.nodup_iff_count_le_one.mpr
      intro row
      by_cases hrow : row ∈ store.conn.chunks.map (·.rowid)
      · have hlt : row < store.matrix.rows := by
          have hnot := List.filter_eq_nil_iff.mp hmissing row hrow
          exact Nat.lt_of_not_le fun hle => hnot (decide_eq_true hle)
        have hcount := List.filter_eq_nil_iff.mp htwice row (List.mem_range.mpr hlt)
        have heq : (store.conn.chunks.map (·.rowid)).count row = store.conn.countRow row := by
          rw [Db.countRow, List.count, List.countP_map]
          rfl
        rw [heq]
        exact Nat.le_of_not_lt fun hlt => hcount (decide_eq_true hlt)
      · rw [List.count_eq_zero_of_not_mem hrow]
        exact Nat.zero_le _
    exact hrows.sublist (List.filter_sublist.map _)
  · cases h

theorem ChunkStore.keyed_of_open {d : Dir} {store : ChunkStore}
    (h : ChunkStore.open d = .ok store) : store.liveRows.Nodup := by
  unfold ChunkStore.open at h
  obtain ⟨paths, -, h⟩ := Except.bind_eq_ok.mp h
  obtain ⟨conn, -, h⟩ := Except.bind_eq_ok.mp h
  obtain ⟨version, -, h⟩ := Except.bind_eq_ok.mp h
  dsimp only at h
  split at h
  · cases h
  · obtain ⟨matrix, -, h⟩ := Except.bind_eq_ok.mp h
    obtain ⟨opened, -, h⟩ := Except.bind_eq_ok.mp h
    split at h
    · rename_i hverify
      obtain rfl := Except.ok.inj h
      exact keyed_of_verify hverify
    · cases h

theorem ChunkStore.keyed_of_create {fails : CreateStoreStep → Bool} {dims : Nat} {modelId : String}
    {d : Dir} {store : ChunkStore} (hd : d manifestName = none)
    (h : (ChunkStore.create fails dims modelId d).result = .ok store) : store.liveRows.Nodup := by
  have hrepr : Repr store (.none dims modelId) := (create_wp hd _ _ _).ok h
  have hrows : store.liveRows = RowTable.empty.rows := hrepr.pair.db.liveRows
  rw [hrows]
  exact RowTable.nodup_rows _

/-- What is opened has passed its check, and what is created is empty. -/
theorem Resident.keyed_of_load {env : LoadEnv} (h : Resident.load env cfg = .ok r) : r.Keyed := by
  unfold Resident.load at h
  dsimp only at h
  split at h
  all_goals
    obtain ⟨store, hstore, h⟩ := Except.mapError_bind_eq_ok.mp h
    obtain ⟨_, -, h⟩ := Except.bind_eq_ok.mp h
    obtain ⟨_, -, h⟩ := Except.bind_eq_ok.mp h
    obtain ⟨dense, -, h⟩ := Except.bind_eq_ok.mp h
    obtain ⟨identity, -, h⟩ := Except.bind_eq_ok.mp h
    obtain rfl := Except.ok.inj h
  · have hempty : (!(env.dir dbName).isSome && !(env.dir matrixName).isSome &&
        !(env.dir manifestName).isSome) = true := by assumption
    simp only [Bool.and_eq_true, Bool.not_eq_true', Option.isSome_eq_false_iff] at hempty
    exact ChunkStore.keyed_of_create (Option.isNone_iff_eq_none.mp hempty.2) hstore
  · exact ChunkStore.keyed_of_open hstore

theorem Resident.keyed_of_run {repo : RepoEnv} {embedder : Embedder} {repoDir : String}
    {store : ChunkStore} {docs : List (RowId × LexicalDoc)} {mode : IndexMode}
    {report : IndexReport}
    (hrun : runIndex repo embedder repoDir store docs mode = .ok (r.store, r.lexical, report)) :
    r.Keyed := by
  unfold runIndex at hrun
  obtain ⟨⟨ix, t⟩, -, hrun⟩ := Except.bind_eq_ok.mp hrun
  dsimp only at hrun
  split at hrun
  · cases hrun
  · cases hrun
  · split at hrun
    · cases hrun
    · split at hrun
      · rename_i hverify
        have hstore := (Prod.mk.inj (Except.ok.inj hrun)).1
        rw [Resident.Keyed, ← hstore]
        exact ChunkStore.keyed_of_verify hverify
      · cases hrun

/-! ## Where a view comes from -/

namespace DaemonStep

/-- What is served after a step: the same, a resident, a view of one, or nothing that answers. -/
theorem serving_cases (h : DaemonStep cfg R s e t) :
    t.serving = s.serving ∨ (∃ arc r, t.serving = .ready arc r ∧ r.Keyed) ∨
      (∃ w k r, t.serving = .indexing r.freeze ∧ s.Works w k ∧ k.phase = .taken r) ∨
      t.serving = .starting ∨ ∃ reason, t.serving = .stale reason := by
  cases h with
  | @loaded env =>
    rcases @DaemonState.loaded_serving s (Resident.load env cfg) with ⟨r, hload, hr⟩ |
      hstale | hsame
    · exact .inr (.inl ⟨_, r, hr, Resident.keyed_of_load hload⟩)
    · exact .inr (.inr (.inr (.inr hstale)))
    · exact .inl hsame
  | ready _ _ hend => exact .inr (.inl ⟨_, _, rfl, Resident.keyed_of_run (runEnd_built hend).1⟩)
  | split hw hphase hsplit =>
    obtain ⟨rfl, -, -⟩ := splitForIndex_ok hsplit
    exact .inr (.inr (.inl ⟨_, _, _, rfl, hw, hphase⟩))
  | returned | took => exact .inr (.inr (.inr (.inl rfl)))
  | stale => exact .inr (.inr (.inr (.inr ⟨_, rfl⟩)))
  | poll | pend | tick | loop | idle | shutdown | accept | closed | garbled | gated | passed
  | greeted | unwelcome | statusRequest | secondHello | shutdownRequest | turnedAway | borrowed
  | viewed | answered | answeredFrozen | refused | index | progressed | reported | vanished
  | gaveBack | notReady | splitFailed | panicked | cleared => exact .inl rfl

/-- What is put up is loaded, or built of a run. -/
theorem ready_cases (h : DaemonStep cfg R s e t) (ht : t.serving = .ready arc r) :
    s.serving = .ready arc r ∨ r.Keyed := by
  rcases h.serving_cases with hsame | ⟨_, _, hr, hkeyed⟩ | ⟨_, _, _, hf, -, -⟩ | hstarting |
    ⟨_, hstale⟩
  · exact .inl (hsame.symm.trans ht)
  · obtain ⟨-, rfl⟩ := ServingState.ready.inj (hr.symm.trans ht)
    exact .inr hkeyed
  · cases hf.symm.trans ht
  · cases hstarting.symm.trans ht
  · cases hstale.symm.trans ht

/-- A view is put up by the worker that has taken the resident. -/
theorem indexing_cases (h : DaemonStep cfg R s e t) (ht : t.serving = .indexing f) :
    s.serving = .indexing f ∨ ∃ w k r, s.Works w k ∧ k.phase = .taken r ∧ f = r.freeze := by
  rcases h.serving_cases with hsame | ⟨_, _, hr, -⟩ | ⟨w, k, r, hf, hw, hphase⟩ | hstarting |
    ⟨_, hstale⟩
  · exact .inl (hsame.symm.trans ht)
  · cases hr.symm.trans ht
  · exact .inr ⟨w, k, r, hw, hphase, (ServingState.indexing.inj (hf.symm.trans ht)).symm⟩
  · cases hstarting.symm.trans ht
  · cases hstale.symm.trans ht

theorem taken_cases (h : DaemonStep cfg R s e t) (hw : t.Works w k) (hk : k.phase = .taken r) :
    s.Works w k ∨ e = .took w ∧ ∃ arc, s.serving = .ready arc r := by
  -- The worker that takes the step goes on to something else.
  have hother : ∀ {u : DaemonState} {v : Nat} {k' : Worker}, u.workers =
      (s.setWorker v k').workers →
      u.Works w k → (∀ r', k'.phase ≠ .taken r') → s.Works w k := by
    intro u v k' hu hworks hnot
    rcases hworks.of_setWorker hu with ⟨-, rfl⟩ | ⟨-, hworks⟩
    · exact absurd hk (hnot r)
    · exact hworks
  cases h with
  | loaded => exact .inl (by rwa [DaemonState.Works, DaemonState.loaded_workers] at hw)
  | @took v k' arc r' hv hphase hserving hborrowed =>
    rcases hw.of_setWorker rfl with ⟨rfl, rfl⟩ | ⟨-, hw⟩
    · obtain rfl := WorkerPhase.taken.inj hk
      exact .inr ⟨rfl, arc, hserving⟩
    · exact .inl hw
  | index | gaveBack | notReady | split | splitFailed | ready | stale | panicked | cleared =>
    exact .inl (hother rfl hw fun _ => WorkerPhase.noConfusion)
  | poll | pend | tick | loop | idle | shutdown | returned | accept | closed | garbled | gated
  | passed | greeted | unwelcome | statusRequest | secondHello | shutdownRequest | turnedAway
  | borrowed | viewed | answered | answeredFrozen | refused | progressed | reported | vanished =>
    exact .inl hw

theorem viewing_cases (h : DaemonStep cfg R s e t) (hi : t.At i c)
    (hphase : c.phase = .viewing f q) :
    (∃ c', s.At i c' ∧ c'.phase = .viewing f q) ∨ s.serving = .indexing f := by
  rcases h.holding_cases hi (ClientPhase.holding_indexing.mpr hphase) with ⟨c', hi', hholding⟩ |
    hserving
  · exact .inl ⟨c', hi', ClientPhase.holding_indexing.mp hholding⟩
  · exact .inr hserving

end DaemonStep

/-- What is known of the residents, and where the views are from. -/
structure Views (cfg : DaemonConfig) (R : Retrieval) (es : List Event) (s : DaemonState) :
    Prop where
  run : DaemonRun cfg R .start es s
  keyed : ∀ arc r, s.serving = .ready arc r → r.Keyed
  taken : ∀ w k r, s.Works w k → k.phase = .taken r → Taken cfg R es s w r ∧ r.Keyed
  served : ∀ f, s.serving = .indexing f → ∃ w r, Taken cfg R es s w r ∧ r.Keyed ∧ f = r.freeze
  viewed : ∀ i c f q, s.At i c → c.phase = .viewing f q →
    ∃ w r, Taken cfg R es s w r ∧ r.Keyed ∧ f = r.freeze

namespace Views

theorem start : Views cfg R [] .start where
  run := .nil
  keyed _ _ := nofun
  taken _ _ _ := nofun
  served _ := nofun
  viewed _ _ _ _ := nofun

theorem step (h : Views cfg R es s) (hstep : DaemonStep cfg R s e t) :
    Views cfg R (es ++ [e]) t where
  run := h.run.append (.cons hstep .nil)
  keyed arc r ht := by
    rcases hstep.ready_cases ht with hs | hr
    · exact h.keyed arc r hs
    · exact hr
  taken w k r hw hk := by
    rcases hstep.taken_cases hw hk with hs | ⟨rfl, arc, hserving⟩
    · obtain ⟨htaken, hr⟩ := h.taken w k r hs hk
      exact ⟨htaken.step hstep, hr⟩
    · exact ⟨⟨es, [], s, t, arc, rfl, h.run, hserving, hstep, .nil⟩, h.keyed arc r hserving⟩
  served f ht := by
    rcases hstep.indexing_cases ht with hs | ⟨w, k, r, hw, hk, rfl⟩
    · obtain ⟨w, r, htaken, hr, hf⟩ := h.served f hs
      exact ⟨w, r, htaken.step hstep, hr, hf⟩
    · obtain ⟨htaken, hr⟩ := h.taken w k r hw hk
      exact ⟨w, r, htaken.step hstep, hr, rfl⟩
  viewed i c f q hi hphase := by
    have hs : ∃ w r, Taken cfg R es s w r ∧ r.Keyed ∧ f = r.freeze := by
      rcases hstep.viewing_cases hi hphase with ⟨c', hi', hphase'⟩ | hserving
      · exact h.viewed i c' f q hi' hphase'
      · exact h.served f hserving
    obtain ⟨w, r, htaken, hr, hf⟩ := hs
    exact ⟨w, r, htaken.step hstep, hr, hf⟩

end Views

theorem DaemonRun.views (h : DaemonRun cfg R .start es s) : Views cfg R es s :=
  h.invariant_labels (I := Views cfg R) (fun _ _ _ _ hs hstep => hs.step hstep) .start

/-! ## Answers while the run goes on -/

/-- Where the lexical hits are the same, the reader might as well not have moved. -/
theorem answer_seeing (hsame : B.SameHits r docs q) :
    (r.freeze.seeing docs).answer B.retrieval host q = r.freeze.answer B.retrieval host q := by
  have hseen : ∀ {text : String} {topK : Nat} {role : Role},
      B.lexicalSearch docs text B.fusion.lexicalDepth =
        B.lexicalSearch r.lexical.reader text B.fusion.lexicalDepth →
      searchWithParts B (r.freeze.seeing docs) role text topK =
        searchWithParts B r.freeze role text topK := by
    intro text topK role h
    have hparts := @searchWithParts_seeing B r role text topK r.lexical.reader
    rw [searchWithParts_seeing]
    refine Eq.trans ?_ hparts.symm
    unfold Backends.seen
    rw [h]
  have hsearch : ∀ {text : String} {topK : Nat} {role : Role},
      B.lexicalSearch docs text B.fusion.lexicalDepth =
        B.lexicalSearch r.lexical.reader text B.fusion.lexicalDepth →
      (r.freeze.seeing docs).search B.retrieval host role text topK =
        r.freeze.search B.retrieval host role text topK := by
    intro text topK role h
    have hparts : B.retrieval.searchWithParts (r.freeze.seeing docs) role text topK =
      B.retrieval.searchWithParts r.freeze role text topK := hseen h
    have hidentity : (r.freeze.seeing docs).identity = r.freeze.identity := rfl
    rw [FrozenSearch.search, FrozenSearch.search, hparts, hidentity]
  cases q with
  | search text topK => exact hsearch hsame
  | searchSimilar text topK => exact hsearch hsame
  | getSymbol file symbol => rfl

/-- What a view answers while an index runs, wherever its reader is: it is of the resident that the
worker of the run has taken, and answers as that would have, of the same hits, where the two ways to
search agree and what is found in the lexical index is the same. Where store and lexical index
agree, it is so only there. -/
theorem DaemonRun.frozen_stable (hB : B.Lawful) (h : DaemonRun cfg B.retrieval .start es s)
    (hi : s.At i c) (hphase : c.phase = .viewing f q) :
    ∃ w r, Taken cfg B.retrieval es s w r ∧ f = r.freeze ∧ ∀ host docs,
      (B.Agrees r host q → B.SameHits r docs q → B.Stable r f docs host q) ∧
        (r.Consistent → B.Stable r f docs host q → B.Agrees r host q ∧ B.SameHits r docs q) := by
  obtain ⟨w, r, htaken, hr, rfl⟩ := (DaemonRun.views h).viewed i c f q hi hphase
  refine ⟨w, r, htaken, rfl, fun host docs =>
    ⟨fun hagrees hsame => ?_, fun hconsistent hstable => ?_⟩⟩
  · exact ⟨(answer_seeing hsame).trans (FrozenSearch.answer_eq hB hr hagrees), hsame⟩
  · obtain ⟨hanswer, hsame⟩ := hstable
    exact ⟨FrozenSearch.agrees_of_answer_eq hB hconsistent
      ((answer_seeing hsame).symm.trans hanswer), hsame⟩

/-! ## A file that is indexed again -/

/-- What the commits of a run leave in the lexical index, one after the other. -/
def RepoEnv.commits (repo : RepoEnv) (embedder : Embedder) (repoDir : String) (store : ChunkStore)
    (docs : List (RowId × LexicalDoc)) (mode : IndexMode) : List (List (RowId × LexicalDoc)) :=
  match repo.openIndexer embedder repoDir store docs with
  | .error _ => []
  | .ok (ix, t) =>
    let out := match mode with
      | .full => ix.indexAll t
      | .update => ix.update t
    out.trace.filterMap fun p => if p.1 = .lexical then some p.2.lexical.durable else none

/-- A store of one function. -/
def sampleWritten : IndexState :=
  let tree := sampleTree [("a.rs", "fn f() {}")]
  ((sampleIndexer tree (sampleGit "c1" tree []) 1).run .indexAll sampleStart).state

def sampleReload : LoadEnv :=
  { sampleLoad with dir := sampleWritten.store.onDisk, docs := sampleWritten.lexical.durable }

def sampleIndexed : Resident :=
  match Resident.load sampleReload sampleConfig with
  | .ok r => r
  | .error _ => sampleResident

theorem sampleIndexed_loaded : Resident.load sampleReload sampleConfig = .ok sampleIndexed := by
  have hok : (Resident.load sampleReload sampleConfig).isOk = true := by decide +kernel
  unfold sampleIndexed
  split
  · assumption
  · rename_i fault hfault
    rw [hfault] at hok
    cases hok

/-- The repository has another function now. -/
def sampleEdited : RepoEnv :=
  let tree := sampleTree [("a.rs", "fn g() {}")]
  { sampleOutside with git := .ok (sampleGit "c2" tree []), worktree := tree }

/-- A client is accepted and greeted. -/
def DaemonState.greet (s : DaemonState) (i : Nat) (resp : Response) : DaemonState :=
  ({ s.setClient i ⟨false, .reading, 0, []⟩ with
    serve := .selecting false
    connectedClients := s.connectedClients + 1 }.setClient i
      ⟨false, .greeting (.hello 1 "client"), 1, []⟩).setClient i ⟨true, .reading, 1, [⟨1, resp⟩]⟩

/-- A resident has been loaded, an index of `elsewhere` is under way, and another client asks a
query. -/
def DaemonState.viewing (r : Resident) (q : Query) : DaemonState :=
  let hello : Response := .hello 1 r.embedder.modelId r.store.stats.live
  let s := ((DaemonState.start.loaded (.ok r)).greet 0 hello).greet 1 hello
  let s := { (s.setClient 0 ⟨true, .streaming 0, 2, [⟨1, hello⟩]⟩).setWorker 0
    ⟨.full, "elsewhere", .spawned⟩ with indexing := true }
  let s := { s.setWorker 0 ⟨.full, "elsewhere", .taken r⟩ with serving := .starting }
  let s := { s.setWorker 0 ⟨.full, "elsewhere", .running r.store r.lexical.durable r.embedder⟩ with
    serving := .indexing r.freeze }
  s.setClient 1 ⟨true, .viewing r.freeze q, 2, [⟨1, hello⟩]⟩

theorem viewing_run {env : LoadEnv} (hload : Resident.load env cfg = .ok r) :
    DaemonRun cfg R .start ([.loaded (.ok r), .poll, .accept 0, .loop, .gated 0 (.hello 1 "client"),
      .greeted 0] ++ ([.poll, .accept 1, .loop, .gated 1 (.hello 1 "client"), .greeted 1] ++
        [.index 0 0, .took 0, .split 0, .viewed 1 q])) (.viewing r q) := by
  let hello : Response := .hello 1 r.embedder.modelId r.store.stats.live
  let up := DaemonState.start.loaded (.ok r)
  have hloaded := @DaemonStep.loaded cfg R .start env rfl
  rw [hload] at hloaded
  have hfirst :
      DaemonRun cfg R up [.poll, .accept 0, .loop, .gated 0 (.hello 1 "client"), .greeted 0]
      (up.greet 0 hello) := greeted_run rfl rfl rfl rfl
  let two := (up.greet 0 hello).greet 1 hello
  have hsecond : DaemonRun cfg R (up.greet 0 hello)
      [.poll, .accept 1, .loop, .gated 1 (.hello 1 "client"), .greeted 1] two :=
        greeted_run rfl rfl rfl rfl
  let asked := { (two.setClient 0 ⟨true, .streaming 0, 2, [⟨1, hello⟩]⟩).setWorker 0
    ⟨.full, "elsewhere", .spawned⟩ with indexing := true }
  have hzero : two.At 0 ⟨true, .reading, 1, [⟨1, hello⟩]⟩ := rfl
  have hindex : DaemonStep cfg R two (.index 0 0) asked :=
    .index .full "elsewhere" hzero rfl rfl rfl rfl
  let taken := { asked.setWorker 0 ⟨.full, "elsewhere", .taken r⟩ with serving := .starting }
  have hspawned : asked.Works 0 ⟨.full, "elsewhere", .spawned⟩ := rfl
  have hfree : ¬asked.Borrowed 0 := by
    intro h
    obtain ⟨i, c, r, q, hi, hphase⟩ := h
    cases i with
    | zero =>
      obtain rfl := Option.some.inj hi
      cases hphase
    | succ i =>
      cases i with
      | zero =>
        obtain rfl := Option.some.inj hi
        cases hphase
      | succ i => cases hi
  have htook : DaemonStep cfg R asked (.took 0) taken := .took hspawned rfl rfl hfree
  let running :=
    { taken.setWorker 0 ⟨.full, "elsewhere", .running r.store r.lexical.durable r.embedder⟩ with
      serving := .indexing r.freeze }
  have htaken : taken.Works 0 ⟨.full, "elsewhere", .taken r⟩ := rfl
  have hsplit : DaemonStep cfg R taken (.split 0) running :=
    @DaemonStep.split _ _ _ _ _ _ (fun _ => none) _ _ _ _ htaken rfl rfl
  have hone : running.At 1 ⟨true, .reading, 1, [⟨1, hello⟩]⟩ := rfl
  have hviewed : DaemonStep cfg R running (.viewed 1 q) (.viewing r q) :=
    @DaemonStep.viewed _ _ _ _ _ 2 _ _ hone rfl rfl rfl
  exact .cons hloaded (hfirst.append (hsecond.append
    (.cons hindex (.cons htook (.cons hsplit (.cons hviewed .nil))))))

/-- A symbol is found as before, wherever the reader is. -/
theorem DaemonRun.frozen_stable_symbol : ∃ es w r,
    Taken sampleConfig sampleBackends.retrieval es (.viewing sampleIndexed sampleQuery) w r ∧
      sampleIndexed.freeze = r.freeze ∧ ∀ host docs,
        (sampleIndexed.freeze.seeing docs).answer sampleBackends.retrieval host sampleQuery =
          r.answer sampleBackends.retrieval host sampleQuery := by
  obtain ⟨w, r, htaken, hfreeze, hall⟩ :=
    DaemonRun.frozen_stable (i := 1) sampleBackends_lawful
      (viewing_run sampleIndexed_loaded) rfl rfl
  exact ⟨_, w, r, htaken, hfreeze, fun host docs => ((hall host docs).1 (.inr rfl) trivial).1⟩

/-- The run removes the function that the file had, adds the one that it has, and gives that the row
of the former when it compacts. A search for the new one then shows the record of the former as a
lexical hit. -/
theorem mixed_view_answers : ∃ es docs,
    DaemonRun sampleConfig sampleBackends.retrieval .start es
      (.viewing sampleIndexed (.search "g" 5)) ∧
    (DaemonState.viewing sampleIndexed (.search "g" 5)).Works 0
      ⟨.full, "elsewhere",
        .running sampleIndexed.store sampleIndexed.lexical.durable sampleIndexed.embedder⟩ ∧
    docs ∈ sampleEdited.commits sampleIndexed.embedder "elsewhere" sampleIndexed.store
      sampleIndexed.lexical.durable .full ∧
    (sampleIndexed.freeze.seeing docs).answer sampleBackends.retrieval sampleHost (.search "g" 5) ≠
      sampleIndexed.answer sampleBackends.retrieval sampleHost (.search "g" 5) := by
  have hany : ((sampleEdited.commits sampleIndexed.embedder "elsewhere" sampleIndexed.store
    sampleIndexed.lexical.durable
    .full).drop 2).any (fun docs =>
      decide ((sampleIndexed.freeze.seeing docs).answer sampleBackends.retrieval sampleHost
        (.search "g" 5) ≠ sampleIndexed.answer sampleBackends.retrieval sampleHost
        (.search "g" 5))) = true := by
    decide +kernel
  obtain ⟨docs, hdocs, hne⟩ := List.any_eq_true.mp hany
  exact ⟨_, docs, viewing_run sampleIndexed_loaded, rfl, List.mem_of_mem_drop hdocs,
    of_decide_eq_true hne⟩

end SiftMcp
