import SiftMcp.Daemon.Completion
import SiftMcp.Indexing.Coverage

/-!
# One repository per store

An Index request names the directory of a repository, and the run is given that directory. Nothing
that the store holds is compared with it, and neither is the directory that the resident was loaded
with. What is live in the store then comes from one repository as long as the requests name one.

`Served.unmixed` is the invariant of the sequences of requests that name one, and
`Served.unmixed_next` a sequence that names two.
-/

namespace SiftMcp
open Durable Indexer

def IndexMode.kind : IndexMode → RunKind
  | .full => .indexAll
  | .update => .update

/-- An Index request, with the repository that it meets behind its directory. -/
structure IndexRequest where
  mode : IndexMode
  repoDir : String
  repo : RepoEnv
  rebuild : RebuildEnv

namespace IndexRequest

variable (E : Embedder) (q : IndexRequest)

def Opens (ix : Indexer) : Prop :=
  ∃ store docs t, q.repo.openIndexer E q.repoDir store docs = .ok (ix, t)

/-- The request reads a file with this chunk. Its path may be another by now. -/
def Reads (x : ChunkRecord) : Prop :=
  ∃ ix marker, q.Opens E ix ∧
    ∃ c ∈ ix.chunksOf (ix.plan q.mode.kind marker).work, { c.record with file := x.file } = x

/-- The commit marker that the request leaves. -/
def Marks (marker : String) : Prop :=
  ∃ ix head dirty, q.Opens E ix ∧ ix.git.isDirty = .ok dirty ∧ ix.git.headId = .ok head ∧
    ix.commitMarker dirty head = marker

end IndexRequest

namespace Resident

/-- The live records. -/
def records (r : Resident) : List ChunkRecord := r.store.conn.live.map (·.record)

/-- The backends of the resident. -/
def backends (r : Resident) : IndexState := ⟨r.store, r.lexical, emptyReport 0, 0, 0⟩

end Resident

/-- The residents after sequences of Index requests that all succeed. The daemon begins without a
store. A failed request is not followed by another. -/
inductive Served (cfg : DaemonConfig)
    (allowed : List IndexRequest → Resident → IndexRequest → Prop) :
    List IndexRequest → Resident → Prop
  | loaded {env r} : env.dir dbName = none → env.dir matrixName = none →
    env.dir manifestName = none →
    env.docs = [] → Resident.load env cfg = .ok r → Served cfg allowed [] r
  | indexed {qs r q r' report} : Served cfg allowed qs r → allowed qs r q →
    FreshGeneration r.store q.repo.pid q.repo.nanos →
    runEnd q.repo q.rebuild cfg ⟨q.mode, q.repoDir, .spawned⟩ r.store r.lexical.durable r.embedder =
      .ready r' report →
    Served cfg allowed (qs ++ [q]) r'

/-- The live records and the commit marker are from requests that name the directory. -/
structure Sourced (E : Embedder) (qs : List IndexRequest) (dir : String) (r : Resident) : Prop where
  live : ∀ x ∈ r.records, ∃ p ∈ qs, p.repoDir = dir ∧ p.Reads E x
  marked : ∀ m, r.store.indexedCommit = some m → ∃ p ∈ qs, p.repoDir = dir ∧ p.Marks E m

/-- What is claimed of a request: what is live behind it is from one repository, what was live
before it is from its own, and so is the commit that an update compares with. -/
structure Unmixed (E : Embedder) (qs : List IndexRequest) (r : Resident) (q : IndexRequest)
    (r' : Resident) : Prop where
  live : ∃ dir, ∀ x ∈ r'.records, ∃ p ∈ qs ++ [q], p.repoDir = dir ∧ p.Reads E x
  touched : ∀ x ∈ r.records, ∃ p ∈ qs, p.repoDir = q.repoDir ∧ p.Reads E x
  diffed : q.mode = .update → ∀ m, r.store.indexedCommit = some m →
    ∃ p ∈ qs, p.repoDir = q.repoDir ∧ p.Marks E m

/-- The request names the directory of the last one, or it indexes a store without live rows as a
whole. -/
def Keeps (qs : List IndexRequest) (r : Resident) (q : IndexRequest) : Prop :=
  (∀ p ∈ qs.getLast?, p.repoDir = q.repoDir) ∨ q.mode = .full ∧ r.records = []

variable {cfg : DaemonConfig} {E : Embedder} {qs : List IndexRequest} {r r' : Resident}
  {q : IndexRequest} {report : IndexReport} {ix : Indexer} {t : IndexState}
  {allowed : List IndexRequest → Resident → IndexRequest → Prop}

/-! ## One request -/

/-- The indexer of a repository, as `Indexer::open` builds it. -/
def RepoEnv.indexer (env : RepoEnv) (embedder : Embedder) (git : RepoGit)
    (exclusions : Exclusions) : Indexer where
  chunker := env.chunker
  embedder
  worktree := env.worktree
  host := env.host
  git
  exclusions
  config := .default
  interruptAfterBatches := none
  schedule := env.schedule
  schedule_perm := env.schedule_perm
  outlives := env.outlives
  pid := env.pid
  nanos := env.nanos
  faults := env.faults

theorem openIndexer_ok {env : RepoEnv} {repoDir : String} {store : ChunkStore} {docs : Docs}
    (h : env.openIndexer E repoDir store docs = .ok (ix, t)) :
    t.store = store ∧ t.lexical = .open docs ∧ ∃ git exclusions, env.git = .ok git ∧
      Exclusions.forRepository env.globMatches env.gitignore repoDir = .ok exclusions ∧
        ix = env.indexer E git exclusions := by
  unfold RepoEnv.openIndexer at h
  obtain ⟨_, -, h⟩ := Except.mapError_bind_eq_ok.mp h
  cases herr : env.openError with
  | some e =>
    rw [herr] at h
    cases h
  | none =>
    rw [herr] at h
    dsimp only at h
    split at h
    · cases h
    · obtain ⟨git, hgit, h⟩ := Except.mapError_bind_eq_ok.mp h
      obtain ⟨exclusions, hexclusions, h⟩ := Except.mapError_bind_eq_ok.mp h
      obtain ⟨rfl, rfl⟩ := Prod.mk.inj (Except.ok.inj h)
      exact ⟨rfl, rfl, git, exclusions, hgit, hexclusions, rfl⟩

theorem runIndex_ok {env : RepoEnv} {repoDir : String} {store store' : ChunkStore} {docs : Docs}
    {lexical : LexicalIndex} {mode : IndexMode}
    (h : runIndex env E repoDir store docs mode = .ok (store', lexical, report)) :
    ∃ ix t, env.openIndexer E repoDir store docs = .ok (ix, t) ∧
      (ix.run mode.kind t).result = .ok report ∧ (ix.run mode.kind t).state.store = store' ∧
      (ix.run mode.kind t).state.lexical = lexical := by
  unfold runIndex at h
  obtain ⟨⟨ix, t⟩, hopen, h⟩ := Except.mapError_bind_eq_ok.mp h
  refine ⟨ix, t, hopen, ?_⟩
  cases mode
  all_goals
    simp only [IndexMode.kind, run_indexAll, run_update]
    dsimp only at h
    split at h
    · cases h
    · cases h
    · rename_i report' hres
      split at h
      · cases h
      · split at h
        · obtain ⟨rfl, hrest⟩ := Prod.mk.inj (Except.ok.inj h)
          obtain ⟨rfl, rfl⟩ := Prod.mk.inj hrest
          exact ⟨hres, rfl, rfl⟩
        · cases h

/-- What the backends of a served resident hold. -/
def Resident.Backed (E : Embedder) (r : Resident) : Prop :=
  r.embedder = E ∧ ∃ a docs, Holds E True a docs r.backends

/-- The run behind a successful request. -/
theorem runEnd_ran (hr : r.Backed E) (hfresh : FreshGeneration r.store q.repo.pid q.repo.nanos)
    (h : runEnd q.repo q.rebuild cfg ⟨q.mode, q.repoDir, .spawned⟩ r.store r.lexical.durable
      r.embedder =
      .ready r' report) :
    r'.Backed E ∧ ∃ ix, q.Opens E ix ∧
      let plan := ix.plan q.mode.kind r.store.indexedCommit
      r'.records = ix.outcome plan r.records ∧
      ∃ head dirty, ix.git.isDirty = .ok dirty ∧ ix.git.headId = .ok head ∧
        r'.store.indexedCommit = some (ix.commitMarker dirty head) := by
  obtain ⟨rfl, a, docs, S⟩ := hr
  obtain ⟨hrun, hembedder, -, -⟩ := runEnd_built h
  obtain ⟨ix, t, hopen, hres, hstore, hlexical⟩ := runIndex_ok hrun
  obtain ⟨hts, htl, git, exclusions, -, -, rfl⟩ := openIndexer_ok hopen
  have hdur : r.lexical.durable = docs := by
    rw [show r.lexical = .open docs from S.lexical]
    rfl
  have hS : Holds r.embedder True a docs t := S.congr hts (htl.trans (hdur ▸ S.lexical.symm))
  have hsync : Synced (q.repo.indexer r.embedder git exclusions) True a docs t :=
    ⟨hS, by rw [hts]; exact hfresh⟩
  obtain ⟨-, c, docs', S', hran, -⟩ := (run_wp hsync q.mode.kind).ok hres
  have hS' : Holds r.embedder True c docs' r'.backends := S'.congr hstore.symm hlexical.symm
  have hcommit : r.store.indexedCommit = a.indexedCommit := S.repr.pair.commit
  refine ⟨⟨hembedder, c, docs', hS'⟩, _, ⟨_, _, _, hopen⟩, ?_, ?_⟩
  · rw [hcommit, show r'.records = c.records from hS'.records, show r.records =
      a.records from S.records]
    exact hran.records
  · obtain ⟨b, head, dirty, hd, hh, -, hsame⟩ := hran
    exact ⟨head, dirty, hd, hh, hS'.repr.pair.commit.trans hsame.commit⟩

/-- A change of the plan moves a record to another path at most. -/
theorem mem_diff {plan : Plan} {rs : List ChunkRecord} {x : ChunkRecord} (h : x ∈ plan.diff rs) :
    ∃ y ∈ rs, { y with file := x.file } = x := by
  unfold Plan.diff at h
  generalize plan.changes = changes at h
  induction changes generalizing rs with
  | nil => exact ⟨x, h, rfl⟩
  | cons change changes ih =>
    obtain ⟨y, hy, hxy⟩ := ih h
    cases change with
    | added path | modified path => exact ⟨y, hy, hxy⟩
    | deleted path => exact ⟨y, (List.mem_filter.mp hy).1, hxy⟩
    | renamed source dest =>
      obtain ⟨z, hz, rfl⟩ := List.mem_map.mp hy
      refine ⟨z, hz, ?_⟩
      rw [← hxy]
      split <;> rfl

theorem reads_of_taken {marker : Option String} (hopen : q.Opens E ix) {rs : List ChunkRecord}
    {c : Chunk} (hc : c ∈ ix.takes (ix.plan q.mode.kind marker) rs) : q.Reads E c.record := by
  have hmem : c ∈ ix.chunksOf (ix.schedule (ix.plan q.mode.kind marker).work) :=
    firsts.sublist.subset hc
  obtain ⟨item, hitem, cs, hcs, hc⟩ := mem_chunksOf.mp hmem
  exact ⟨ix, marker, hopen, c,
    mem_chunksOf.mpr ⟨item, (ix.schedule_perm _).mem_iff.mp hitem, cs, hcs, hc⟩, rfl⟩

/-- Behind a request all is from one directory if all before it was. -/
theorem Sourced.indexed (hs : Sourced E qs q.repoDir r ∨ q.mode = .full ∧ r.records = [])
    (hr : r.Backed E) (hfresh : FreshGeneration r.store q.repo.pid q.repo.nanos)
    (h : runEnd q.repo q.rebuild cfg ⟨q.mode, q.repoDir, .spawned⟩ r.store r.lexical.durable
      r.embedder =
      .ready r' report) : Sourced E (qs ++ [q]) q.repoDir r' := by
  have hq : q ∈ qs ++ [q] := List.mem_append_right _ (List.mem_singleton_self q)
  obtain ⟨-, ix, hopen, hrec, head, dirty, hd, hh, hcommit⟩ := runEnd_ran hr hfresh h
  have hlive : ∀ x ∈ r.records, ∃ p ∈ qs, p.repoDir = q.repoDir ∧ p.Reads E x := by
    rcases hs with hs | ⟨-, hnil⟩
    · exact hs.live
    · intro x hx
      rw [hnil] at hx
      cases hx
  constructor
  · intro x hx
    rw [hrec, outcome] at hx
    rcases List.mem_append.mp hx with hx | hx
    · obtain ⟨y, hy, hxy⟩ := mem_diff (List.mem_filter.mp hx).1
      obtain ⟨p, hp, hdir, ix', marker, hopen', c, hc, hcy⟩ := hlive y hy
      refine ⟨p, List.mem_append_left _ hp, hdir, ix', marker, hopen', c, hc, ?_⟩
      rw [← hxy, ← hcy]
    · obtain ⟨c, hc, rfl⟩ := List.mem_map.mp hx
      exact ⟨q, hq, rfl, reads_of_taken hopen hc⟩
  · intro m hm
    rw [hcommit] at hm
    exact ⟨q, hq, rfl, ix, head, dirty, hopen, hd, hh, Option.some.inj hm⟩

/-! ## All requests -/

theorem Keeps.sourced (h : Keeps qs r q)
    (hs : (qs = [] ∧ r.records = [] ∧ r.store.indexedCommit = none) ∨
    ∃ p, qs.getLast? = some p ∧ Sourced E qs p.repoDir r) :
    Sourced E qs q.repoDir r ∨ q.mode = .full ∧ r.records = [] := by
  rcases h with hdir | hfull
  · rcases hs with ⟨-, hrecords, hcommit⟩ | ⟨p, hp, hs⟩
    · refine .inl ⟨fun x hx => ?_, fun m hm => ?_⟩
      · rw [hrecords] at hx
        cases hx
      · rw [hcommit] at hm
        cases hm
    · exact .inl (hdir p hp ▸ hs)
  · exact .inr hfull

/-- A daemon that begins without a store has created an empty one. -/
theorem backed_loaded {env : LoadEnv} (hdb : env.dir dbName = none)
    (hmatrix : env.dir matrixName = none) (hmanifest : env.dir manifestName = none)
    (hdocs : env.docs = []) (h : Resident.load env cfg = .ok r) :
    r.Backed cfg.embedder ∧ r.records = [] ∧ r.store.indexedCommit = none := by
  unfold Resident.load at h
  simp only [hdb, hmatrix, hmanifest, Option.isSome_none, Bool.not_false, Bool.and_self,
    if_true] at h
  obtain ⟨store, hstore, h⟩ := Except.mapError_bind_eq_ok.mp h
  obtain ⟨_, -, h⟩ := Except.bind_eq_ok.mp h
  obtain ⟨_, -, h⟩ := Except.bind_eq_ok.mp h
  obtain ⟨dense, -, h⟩ := Except.bind_eq_ok.mp h
  obtain ⟨identity, -, h⟩ := Except.bind_eq_ok.mp h
  obtain rfl := Except.ok.inj h
  have hrepr := (create_wp hmanifest _ _ _).ok hstore
  have S : Holds cfg.embedder True (.none cfg.embedder.dims cfg.embedder.modelId) []
      (freshState store) :=
    ⟨hrepr, rfl, rfl, rfl, fun _ => .empty⟩
  refine ⟨⟨rfl, _, [], S.congr rfl (by rw [hdocs]; rfl)⟩, ?_, ?_⟩
  · exact S.records
  · exact hrepr.pair.commit

theorem Served.backed (h : Served cfg allowed qs r) : r.Backed cfg.embedder := by
  induction h with
  | loaded hdb hmatrix hmanifest hdocs hload =>
    exact (backed_loaded hdb hmatrix hmanifest hdocs hload).1
  | indexed _ _ hfresh hrun ih => exact (runEnd_ran ih hfresh hrun).1

/-- With the requests that keep to a directory, all is from the directory of the last. -/
theorem Served.sourced (h : Served cfg Keeps qs r) :
    (qs = [] ∧ r.records = [] ∧ r.store.indexedCommit = none) ∨
      ∃ p, qs.getLast? = some p ∧ Sourced cfg.embedder qs p.repoDir r := by
  induction h with
  | loaded hdb hmatrix hmanifest hdocs hload =>
    exact .inl ⟨rfl, (backed_loaded hdb hmatrix hmanifest hdocs hload).2⟩
  | @indexed qs r q r' report hserved hkeeps hfresh hrun ih =>
    exact .inr ⟨q, List.getLast?_concat, .indexed (hkeeps.sourced ih) hserved.backed hfresh hrun⟩

/-! ## Sample requests -/

def sampleRequest (mode : IndexMode) (dir head : String) (files : List (String × String))
    (changes : List ChangeDetached) : IndexRequest :=
  let tree := sampleTree files
  ⟨mode, dir, { sampleOutside with git := .ok (sampleGit head tree changes), worktree := tree },
    sampleRebuild⟩

def RunEnd.resident : RunEnd → Option Resident
  | ready r _ => some r
  | stale .. | panic _ => none

theorem RunEnd.eq_ready {out : RunEnd} (h : out.isReady = true) (default : Resident) :
    ∃ report, out = .ready (out.resident.getD default) report := by
  cases out with
  | ready r report => exact ⟨report, rfl⟩
  | stale reason e => exact absurd h Bool.false_ne_true
  | panic detail => exact absurd h Bool.false_ne_true

/-- Two files. -/
def firstRequest : IndexRequest :=
  sampleRequest .full "first" "c1" [("a.rs", "fn f() {}"), ("c.rs", "fn h() {}")] []

/-- A file of the same name, in another repository. -/
def otherRequest : IndexRequest := sampleRequest .full "other" "c7" [("a.rs", "fn g() {}")] []

/-- The first repository again, with a change. -/
def nextRequest : IndexRequest :=
  sampleRequest .update "first" "c2" [("a.rs", "fn g() {}"), ("c.rs", "fn h() {}")]
    [.modification "a.rs".toUTF8.toList .blob .blob]

/-- The end of a request, over what a resident has. -/
def IndexRequest.end (q : IndexRequest) (r : Resident) : RunEnd :=
  runEnd q.repo q.rebuild sampleConfig ⟨q.mode, q.repoDir, .spawned⟩ r.store r.lexical.durable
    r.embedder

def firstResident : Resident := (firstRequest.end sampleResident).resident.getD sampleResident

theorem firstResident_served {allowed : List IndexRequest → Resident → IndexRequest → Prop}
    (h : allowed [] sampleResident firstRequest) :
    Served sampleConfig allowed [firstRequest] firstResident := by
  have hready : (firstRequest.end sampleResident).isReady = true := by decide +kernel
  obtain ⟨report, hrun⟩ := RunEnd.eq_ready hready sampleResident
  exact .indexed (.loaded rfl rfl rfl rfl sampleResident_loaded) h
    (.first (by decide +kernel) (by decide +kernel)) hrun

/-- In a sequence of requests that keep to a directory, no request meets or makes a mixture. -/
theorem Served.unmixed (h : Served cfg Keeps qs r) (hkeeps : Keeps qs r q)
    (hfresh : FreshGeneration r.store q.repo.pid q.repo.nanos)
    (hrun : runEnd q.repo q.rebuild cfg ⟨q.mode, q.repoDir, .spawned⟩ r.store r.lexical.durable
      r.embedder =
      .ready r' report) : Unmixed cfg.embedder qs r q r' := by
  have hbefore := hkeeps.sourced h.sourced
  refine ⟨⟨q.repoDir, (Sourced.indexed hbefore h.backed hfresh hrun).live⟩, ?_, ?_⟩
  · rcases hbefore with hs | ⟨-, hnil⟩
    · exact hs.live
    · intro x hx
      rw [hnil] at hx
      cases hx
  · intro hupdate
    rcases hbefore with hs | ⟨hfull, -⟩
    · exact hs.marked
    · rw [hfull] at hupdate
      cases hupdate

/-- The first repository is indexed, and updated. -/
theorem Served.unmixed_next :
    ∃ r', Unmixed sampleEmbedder [firstRequest] firstResident nextRequest r' := by
  have hready : (nextRequest.end firstResident).isReady = true := by decide +kernel
  obtain ⟨report, hrun⟩ := RunEnd.eq_ready hready sampleResident
  have hserved : Served sampleConfig Keeps [firstRequest] firstResident :=
    firstResident_served (.inl fun _ h => by cases h)
  have hkeeps : Keeps [firstRequest] firstResident nextRequest := by
    refine .inl fun p hp => ?_
    obtain rfl := Option.some.inj hp
    rfl
  have hfresh : FreshGeneration firstResident.store nextRequest.repo.pid nextRequest.repo.nanos :=
    .first (by decide +kernel) (by decide +kernel)
  exact ⟨_, Served.unmixed hserved hkeeps hfresh hrun⟩

/-- The repository of a sample request is read as it is. -/
theorem symbol_of_reads {q : IndexRequest} {x : ChunkRecord} {symbols : List String}
    (hmode : q.mode = .full) {git : RepoGit} (hgit : q.repo.git = .ok git) {exclusions : Exclusions}
    (hexclusions : Exclusions.forRepository q.repo.globMatches q.repo.gitignore q.repoDir =
      .ok exclusions)
    (hsymbols : ∀ c ∈ (q.repo.indexer E git exclusions).chunksOf
      (q.repo.indexer E git exclusions).walked, c.record.symbol ∈ symbols) (h : q.Reads E x) :
        x.symbol ∈ symbols := by
  obtain ⟨ix, marker, ⟨store, docs, t, hopen⟩, c, hc, hx⟩ := h
  obtain ⟨-, -, git', exclusions', hgit', hexclusions', rfl⟩ := openIndexer_ok hopen
  rw [hgit] at hgit'
  rw [hexclusions] at hexclusions'
  obtain rfl := Except.ok.inj hgit'
  obtain rfl := Except.ok.inj hexclusions'
  rw [hmode] at hc
  rw [← hx]
  exact hsymbols c hc

def otherResident : Resident := (otherRequest.end firstResident).resident.getD sampleResident

/-- Another repository is indexed into the store. Its `a.rs` retires the row of the first
repository, whose `c.rs` stays live beside it. -/
theorem requests_mixed : Served sampleConfig (fun _ _ _ => True) [firstRequest] firstResident ∧
    (∃ report, otherRequest.end firstResident = .ready otherResident report) ∧
    firstResident.records.map (fun x => (x.file, x.symbol)) = [("a.rs", "f"), ("c.rs", "h")] ∧
    otherResident.records.map (fun x => (x.file, x.symbol)) = [("c.rs", "h"), ("a.rs", "g")] ∧
    ¬Unmixed sampleEmbedder [firstRequest] firstResident otherRequest otherResident := by
  have hready : (otherRequest.end firstResident).isReady = true := by decide +kernel
  have hrecords : otherResident.records.map (fun x => (x.file, x.symbol)) =
    [("c.rs", "h"), ("a.rs", "g")] := by decide +kernel
  refine ⟨firstResident_served trivial, RunEnd.eq_ready hready sampleResident, by decide +kernel,
    hrecords, fun h => ?_⟩
  obtain ⟨dir, hdir⟩ := h.live
  have hfirst : ∀ x, firstRequest.Reads sampleEmbedder x → x.symbol ∈ ["f", "h"] := fun x =>
    symbol_of_reads rfl rfl rfl (by decide +kernel)
  have hother : ∀ x, otherRequest.Reads sampleEmbedder x → x.symbol ∈ ["g"] := fun x =>
    symbol_of_reads rfl rfl rfl (by decide +kernel)
  have hfrom : ∀ {file symbol}, (file, symbol) ∈ [("c.rs", "h"), ("a.rs", "g")] →
      (dir = "first" ∧ symbol ∈ ["f", "h"]) ∨ (dir = "other" ∧ symbol ∈ ["g"]) := by
    intro file symbol hmem
    obtain ⟨x, hx, hname⟩ := List.mem_map.mp (hrecords ▸ hmem)
    obtain ⟨-, rfl⟩ := Prod.mk.inj hname
    obtain ⟨p, hp, rfl, hreads⟩ := hdir x hx
    rcases List.mem_cons.mp hp with rfl | hp
    · exact .inl ⟨rfl, hfirst x hreads⟩
    · obtain rfl := List.mem_singleton.mp hp
      exact .inr ⟨rfl, hother x hreads⟩
  rcases hfrom List.mem_cons_self with ⟨hdir, -⟩ | ⟨-, hh⟩
  · rcases hfrom (List.mem_cons_of_mem _ List.mem_cons_self) with ⟨-, hg⟩ | ⟨hdir', -⟩
    · exact absurd hg (by decide)
    · rw [hdir] at hdir'
      exact absurd hdir' (by decide)
  · exact absurd hh (by decide)

end SiftMcp
