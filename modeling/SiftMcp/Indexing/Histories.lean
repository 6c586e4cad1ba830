import SiftMcp.Indexing.Passes
import SiftMcp.Storage.StoreRuns

/-!
# Histories of runs

A history begins with a fresh store and makes runs of both kinds, over any sequence of repository
states. A run succeeds, or it stops: the process is killed behind a durable step, or a call fails.
Then the directories are opened again, and the history goes on if `Indexer::open` allows it.
`allowed` says which stops a history may have.

* `History.documents_perm`: where no run is stopped, the documents are those of the live rows.
* `History.guard_sound_iff`: when a run that is stopped leaves an index that opens only if it is in
  step.
-/

namespace SiftMcp
open Durable DocIndex Indexer

inductive Stop
  | killed (l : RunStep)
  | failed (e : IndexFailure)

inductive Stopped {α : Type} (m : IndexProg α) (t : IndexState) : Stop → IndexState → Prop
  | killed {l u} : (l, u) ∈ (m t).trace → Stopped m t (.killed l) u
  | failed {e} : (m t).result = .error e → Stopped m t (.failed e) (m t).state

/-- `Indexer::open` on the directories that a state leaves. -/
def Indexer.reopen (ix : Indexer) (t : IndexState) : Except IndexFailure IndexState :=
  ix.open t.store.onDisk t.lexical.durable

/-- A new store, and a lexical index without documents. -/
def freshState (s : ChunkStore) : IndexState := ⟨s, .open [], emptyReport 0, 0, 0⟩

inductive History (E : Embedder) (allowed : Stop → Prop) : IndexState → Prop
  | create {d : Dir} {fails s} : d manifestName = none →
    (ChunkStore.create fails E.dims E.modelId d).result = .ok s → History E allowed (freshState s)
  | run {t} (ix : Indexer) (kind : RunKind) {r} : History E allowed t → ix.embedder = E →
    FreshGeneration t.store ix.pid ix.nanos → (ix.run kind t).result = .ok r →
    History E allowed (ix.run kind t).state
  | stopped {t} (ix : Indexer) (kind : RunKind) {stop u} (ix' : Indexer) {v} : History E allowed t →
    ix.embedder = E → FreshGeneration t.store ix.pid ix.nanos → Stopped (ix.run kind) t stop u →
    allowed stop → ix'.embedder = E → ix'.reopen u = .ok v → History E allowed v
  | reopen {t} (ix : Indexer) {v} : History E allowed t → ix.embedder = E → ix.reopen t = .ok v →
    History E allowed v

variable {E : Embedder} {ix : Indexer} {H : Prop} {a b : Contents} {docs : Docs}
  {t u v : IndexState}

/-- The guard compares counts. -/
theorem Indexer.open_eq {dir : Dir} {s : ChunkStore} (hs : ChunkStore.open dir = .ok s)
    (hrepr : Repr s b) (hm : b.modelId = ix.embedder.modelId) (docs : Docs) :
    ix.open dir docs =
      if b.table.live.length = docs.length then
        .ok ⟨s, .open docs, emptyReport b.table.live.length, 0, 0⟩
      else .error (.error (.lexicalOutOfSync b.table.live.length docs.length)) := by
  have hmodel : s.matrix.modelId = ix.embedder.modelId := by
    rw [← hm, ← hrepr.pair.modelId]
    exact congrArg (·.modelId) hrepr.matrix.header
  have hlive : s.stats.live = b.table.live.length := by
    rw [ChunkStore.stats, hrepr.pair.db.stats]
  have hcount : LexicalIndex.numDocs (.open docs) = docs.length := rfl
  simp only [Indexer.open, hs, Except.mapError, bind, Except.bind, pure, Except.pure, throw,
    throwThe, MonadExceptOf.throw, ChunkStore.requireModel, hmodel, hlive, hcount, ne_eq,
    not_true_eq_false, if_false, ite_not]

theorem Indexer.open_ok {dir : Dir} (hrec : RecoversTo dir b) (hm : b.modelId = ix.embedder.modelId)
    (docs : Docs) :
    ∃ s, Repr s b ∧ ix.open dir docs =
      if b.table.live.length = docs.length then
        .ok ⟨s, .open docs, emptyReport b.table.live.length, 0, 0⟩
      else .error (.error (.lexicalOutOfSync b.table.live.length docs.length)) := by
  obtain ⟨s, hs, hrepr⟩ := hrec
  exact ⟨s, hrepr, Indexer.open_eq hs hrepr hm docs⟩

theorem reopen_holds {H' : Prop} (hrec : RecoversTo u.store.onDisk b) (hd : b.dims = E.dims)
    (hm : b.modelId = E.modelId) (hE : ix.embedder = E) (hv : ix.reopen u = .ok v)
    (hagree : H' → b.table.live.length = u.lexical.durable.length →
      Agree b.table u.lexical.durable) :
    Holds E H' b u.lexical.durable v := by
  subst hE
  obtain ⟨s, hrepr, hopen⟩ := Indexer.open_ok hrec hm u.lexical.durable
  rw [Indexer.reopen, hopen] at hv
  split at hv
  · rename_i hlen
    obtain rfl := Except.ok.inj hv
    exact ⟨hrepr, rfl, hd, hm, fun h => hagree h hlen⟩
  · cases hv

/-- Only kills behind good steps. -/
def GoodStop : Stop → Prop
  | .killed l => l.Good
  | .failed _ => False

theorem Holds.synced (S : Holds E H a docs t) (hE : ix.embedder = E)
    (hf : FreshGeneration t.store ix.pid ix.nanos) : Synced ix H a docs t :=
  ⟨hE ▸ S, hf⟩

/-- The invariant of histories. The backends agree where all stops are good. -/
theorem History.holds {allowed : Stop → Prop} (Hs : History E allowed t) :
    ∃ a docs, Holds E (∀ stop, allowed stop → GoodStop stop) a docs t := by
  induction Hs with
  | create hd hs =>
    exact ⟨_, [], (create_wp hd _ _ _).ok hs, rfl, rfl, rfl, fun _ => .empty⟩
  | run ix kind _ hE hf hr ih =>
    obtain ⟨a, docs, S⟩ := ih
    obtain ⟨-, c, docs', S', -⟩ := (run_wp (S.synced hE hf) kind).ok hr
    exact ⟨c, docs', hE ▸ S'⟩
  | stopped ix kind ix' _ hE hf hstop hallowed hE' hv ih =>
    obtain ⟨a, docs, S⟩ := ih
    have hwp := run_wp (S.synced hE hf) kind
    cases hstop with
    | killed hmem =>
      obtain ⟨b, hrec, hd, hm, hg⟩ := hwp.trace hmem
      rw [hE] at hd hm
      exact ⟨b, _, reopen_holds hrec hd hm hE' hv fun h => (hg h).1 (h _ hallowed)⟩
    | failed he =>
      obtain ⟨b, hrec, hd, hm⟩ := (hwp.error he).1
      rw [hE] at hd hm
      exact ⟨b, _, reopen_holds hrec hd hm hE' hv fun h => (h _ hallowed).elim⟩
  | reopen ix _ hE hv ih =>
    obtain ⟨a, docs, S⟩ := ih
    have hdur : ∀ {x : IndexState}, x.lexical = .open docs → x.lexical.durable = docs := fun h => by
      rw [h]; rfl
    refine ⟨a, _, reopen_holds S.repr.recovers S.dims S.modelId hE hv fun h _ => ?_⟩
    rw [hdur S.lexical]
    exact S.agree h

/-! ## A sample repository -/

/-- One function on each line, as the chunker cuts it. -/
def sampleRecord (rel : String) (language : Language) (line : String × Nat) : ChunkRecord :=
  { repository := ""
    file := replaceBackslash rel
    language := language.asStr
    symbol := String.ofList ((line.1.toList.drop 3).takeWhile (· ≠ '('))
    symbolType := "function"
    signature := line.1
    docFirstLine := none
    lineStart := line.2
    lineEnd := line.2
    contentHash := ⟨BitVec.ofNat 256 (line.1.toList.foldl (fun n c => 256 * n + c.toNat) 0)⟩ }

def sampleLines (source : String) : List (String × Nat) :=
  (((source.toList.splitOn '\n').map String.ofList).zipIdx 1).filter (·.1 ≠ "")

def sampleChunker : Chunker where
  ready := true
  chunkFile rel language source :=
    some ⟨(sampleLines source).map fun line => ⟨sampleRecord rel language line, line.1⟩, []⟩
  file rel language source file hfile c hc := by
    obtain rfl := Option.some.inj hfile
    obtain ⟨line, -, rfl⟩ := List.mem_map.mp hc
    rfl

def sampleEmbedder : Embedder where
  dims := 2
  modelId := "model"
  embed texts := texts.map fun _ => ⟨[0, 0], false⟩
  length texts := List.length_map _
  vector texts e he := by
    obtain ⟨_, -, rfl⟩ := List.mem_map.mp he
    rfl

/-- A directory of files. -/
def sampleTree : List (String × String) → FsEntries
  | [] => .nil
  | (name, source) :: rest => .cons name (.file source.toUTF8) (sampleTree rest)

/-- A repository at a commit, with the changes since any other. -/
def sampleGit (head : String) (tree : FsEntries) (changes : List ChangeDetached) : RepoGit where
  headId := .ok head
  headTree := .ok tree
  revTree := fun _ => .ok .nil
  diffTrees := fun _ _ => .ok changes
  isDirty := .ok false
  status := .ok []

def sampleIndexer (worktree : FsEntries) (git : RepoGit) (nanos : Nat) : Indexer where
  chunker := sampleChunker
  embedder := sampleEmbedder
  worktree := worktree
  host := fun _ => none
  git := git
  exclusions := ⟨".", fun _ _ => false, none⟩
  config := ⟨32, fun s => s.dead * 5 > s.live + s.dead, .indexWorktree⟩
  interruptAfterBatches := none
  schedule := id
  schedule_perm work := .refl work
  outlives := fun _ _ => true
  pid := 7
  nanos := nanos
  faults := .none

def sampleStart : IndexState := freshState sampleStore

theorem sampleStart_history {allowed : Stop → Prop} : History sampleEmbedder allowed sampleStart :=
  .create rfl sampleStore_created

theorem sampleStart_fresh {pid nanos : Nat} : FreshGeneration sampleStart.store pid nanos :=
  .first (by decide +kernel) (by decide +kernel)

/-- A run that returns. -/
theorem History.returned {allowed : Stop → Prop} (Hs : History E allowed t) (ix : Indexer)
    (kind : RunKind) (hE : ix.embedder = E) (hf : FreshGeneration t.store ix.pid ix.nanos)
    (hok : (ix.run kind t).result.isOk = true) : History E allowed (ix.run kind t).state := by
  cases hr : (ix.run kind t).result with
  | ok r => exact Hs.run ix kind hE hf hr
  | error e => rw [hr] at hok; cases hok

/-- One file is indexed into the fresh store. -/
theorem sampleIndexed_history {allowed : Stop → Prop} :
    let tree := sampleTree [("a.rs", "fn f() {}")]
    History sampleEmbedder allowed
      ((sampleIndexer tree (sampleGit "c1" tree []) 1).run .indexAll sampleStart).state :=
  sampleStart_history.returned _ .indexAll rfl sampleStart_fresh (by decide +kernel)

theorem sampleIndexed_fresh {pid nanos : Nat} :
    let tree := sampleTree [("a.rs", "fn f() {}")]
    FreshGeneration ((sampleIndexer tree (sampleGit "c1" tree []) 1).run .indexAll
      sampleStart).state.store pid nanos :=
  .first (by decide +kernel) (by decide +kernel)

/-! ## The backends agree -/

/-- The documents, and what the store has for the same rows: row id, symbol, signature,
documentation line and file. -/
def IndexState.documents (t : IndexState) : List (RowId × Shown) :=
  t.lexical.reader.map fun p => (p.1, p.2.shown)

def IndexState.liveRecords (t : IndexState) : List (RowId × Shown) :=
  t.store.conn.live.map fun c => (c.rowid, c.record.shown)

theorem Holds.liveRecords (S : Holds E H a docs t) :
    t.liveRecords = a.table.live.map fun p => (p.1, p.2.1.shown) := by
  have := congrArg (List.map fun p : RowId × ChunkRecord => (p.1, p.2.shown)) S.repr.pair.db.live
  rw [List.map_map, List.map_map] at this
  exact this

theorem Holds.documents (S : Holds E H a docs t) :
    t.documents = docs.map fun p => (p.1, p.2.shown) := by
  rw [IndexState.documents, S.lexical]
  rfl

/-- The documents of the lexical index are those of the live rows of the store, one for each row. -/
def IndexState.Agrees (t : IndexState) : Prop :=
  t.documents.Perm t.liveRecords ∧ (t.documents.map (·.1)).Nodup

theorem Holds.agrees_iff (S : Holds E H a docs t) : t.Agrees ↔ Agree a.table docs := by
  have hkeys : (docs.map fun p => (p.1, p.2.shown)).map (·.1) = DocIndex.keys docs := by
    rw [List.map_map]
    rfl
  rw [IndexState.Agrees, S.documents, S.liveRecords, hkeys]
  constructor
  · intro h
    refine ⟨h.2, fun row d hd => ?_, fun row e he => ?_⟩
    · obtain ⟨⟨row', e⟩, he, heq⟩ := List.mem_map.mp (h.1.subset (List.mem_map_of_mem hd))
      obtain ⟨rfl, hs⟩ := Prod.mk.inj heq
      exact ⟨e, he, hs.symm⟩
    · obtain ⟨⟨row', d⟩, hd, heq⟩ := List.mem_map.mp (h.1.symm.subset (List.mem_map_of_mem he))
      obtain ⟨rfl, hs⟩ := Prod.mk.inj heq
      exact ⟨d, hd, hs⟩
  · intro h
    exact ⟨h.perm, h.unique⟩

/-- After any sequence of successful runs, the documents of the lexical index are those of the live
rows of the store, one for each row. -/
theorem History.documents_perm (Hs : History E (fun _ => False) t) :
    t.documents.Perm t.liveRecords ∧ (t.documents.map (·.1)).Nodup := by
  obtain ⟨a, docs, S⟩ := Hs.holds
  exact S.agrees_iff.mpr (S.agree fun _ h => h.elim)

/-- A file is indexed, then renamed. -/
theorem History.documents_perm_renamed :
    let before := sampleTree [("a.rs", "fn f() {}")]
    let after := sampleTree [("b.rs", "fn f() {}")]
    let t := ((sampleIndexer before (sampleGit "c1" before []) 1).run .indexAll sampleStart).state
    let u := ((sampleIndexer after (sampleGit "c2" after [.rewrite "a.rs".toUTF8.toList
      "b.rs".toUTF8.toList .blob .blob]) 2).run .update t).state
    u.documents.Perm u.liveRecords ∧ (u.documents.map (·.1)).Nodup := by
  intro before after t u
  have h1 : History sampleEmbedder (fun _ => False) t := sampleIndexed_history
  have h2 : History sampleEmbedder (fun _ => False) u :=
    h1.returned _ .update rfl sampleIndexed_fresh (by decide +kernel)
  exact History.documents_perm h2

/-! ## What the guard lets through -/

/-- The row ids of the documents are the live rows of the store, and each document has the symbol,
the signature and the file of the record with its row id. -/
def IndexState.InSync (t : IndexState) : Prop :=
  (∀ row, row ∈ t.lexical.reader.map (·.1) ↔ row ∈ t.store.conn.liveRows) ∧
    ∀ p ∈ t.lexical.reader, ∃ c ∈ t.store.conn.live, c.rowid = p.1 ∧ p.2.symbol = c.record.symbol ∧
      p.2.signature = c.record.signature ∧ p.2.file = c.record.file

theorem Holds.inSync_iff (S : Holds E H a docs t) : t.InSync ↔ Agree.Matches a.table docs := by
  have hreader : t.lexical.reader = docs := by rw [S.lexical]; rfl
  have hlive : ∀ {row : RowId} {r : ChunkRecord},
      (∃ c ∈ t.store.conn.live, c.rowid = row ∧ c.record = r) ↔
        ∃ v, (row, (r, v)) ∈ a.table.live := by
    intro row r
    have hl := S.repr.pair.db.live
    constructor
    · intro ⟨c, hc, hrow, hr⟩
      have : (c.rowid, c.record) ∈ a.table.live.map fun p => (p.1, p.2.1) :=
        hl ▸ List.mem_map_of_mem hc
      obtain ⟨⟨row', r', v⟩, hp, heq⟩ := List.mem_map.mp this
      obtain ⟨rfl, rfl⟩ := Prod.mk.inj heq
      exact ⟨v, hrow ▸ hr ▸ hp⟩
    · intro ⟨v, hp⟩
      have : (row, r) ∈ t.store.conn.live.map fun c => (c.rowid, c.record) :=
        hl.symm ▸ List.mem_map.mpr ⟨_, hp, rfl⟩
      obtain ⟨c, hc, heq⟩ := List.mem_map.mp this
      obtain ⟨hrow, hr⟩ := Prod.mk.inj heq
      exact ⟨c, hc, hrow, hr⟩
  rw [IndexState.InSync, hreader, S.repr.pair.db.liveRows]
  constructor
  · intro ⟨hrows, hfields⟩
    refine ⟨hrows, fun row d hd => ?_⟩
    obtain ⟨c, hc, hrow, hs⟩ := hfields _ hd
    obtain ⟨v, hv⟩ := hlive.mp ⟨c, hc, hrow, rfl⟩
    exact ⟨_, hv, hs⟩
  · intro hm
    refine ⟨hm.rows, fun p hp => ?_⟩
    obtain ⟨⟨r, v⟩, he, hs⟩ := hm.fields p.1 p.2 hp
    obtain ⟨c, hc, hrow, rfl⟩ := hlive.mpr ⟨v, he⟩
    exact ⟨c, hc, hrow, hs⟩

/-- A history may have any stops, failed runs and kills of all kinds. It goes on with a run, from a
state whose backends agree, and the run is killed. What `Indexer::open` lets through then has the
documents of its live rows, exactly when the kill is not right behind a re-key that moved rows to
another path, nor behind the publication of a compaction that renumbered rows. As long as all stops
of a history are such kills, the backends agree. -/
theorem History.guard_sound_iff (Hs : History E allowed t) (kind : RunKind)
    (hE : ix.embedder = E) (hf : FreshGeneration t.store ix.pid ix.nanos) {l : RunStep}
    (hu : (l, u) ∈ (ix.run kind t).trace) :
    ((∀ stop, allowed stop → GoodStop stop) → t.Agrees) ∧
      (t.Agrees →
        ((∀ (ix' : Indexer) (v : IndexState), ix'.embedder = E → ix'.reopen u = .ok v → v.InSync) ↔
          l.Good)) := by
  obtain ⟨a, docs, S⟩ := Hs.holds
  refine ⟨fun hgood => S.agrees_iff.mpr (S.agree hgood), fun hagrees => ?_⟩
  -- From here on the agreement at the start of the run is known, not one that a past without bad
  -- stops would give.
  have S' : Holds E True a docs t :=
    ⟨S.repr, S.lexical, S.dims, S.modelId, fun _ => S.agrees_iff.mp hagrees⟩
  obtain ⟨b, hrec, hd, hm, hg⟩ := (run_wp (S'.synced hE hf) kind).trace hu
  have hg := hg trivial
  rw [hE] at hd hm
  constructor
  · intro h
    apply hg.2
    intro hlen
    obtain ⟨s, -, hopen⟩ := Indexer.open_ok hrec (hE ▸ hm) u.lexical.durable
    rw [if_pos hlen] at hopen
    have hv : Holds E False b _ _ := reopen_holds hrec hd hm hE hopen fun h => h.elim
    exact hv.inSync_iff.mp (h ix _ hE hopen)
  · intro hgood ix' v hE' hv
    have hv := reopen_holds hrec hd hm hE' hv fun _ : True => hg.1 hgood
    exact hv.inSync_iff.mpr (hv.agree trivial).matches

/-- A run ends in an error behind its first batch. The directories are opened again, and the next
run is killed behind the commit of a batch. -/
theorem History.guard_sound_iff_resumed :
    let tree := sampleTree [("a.rs", "fn f() {}")]
    let later := sampleTree [("a.rs", "fn f() {}"), ("b.rs", "fn g() {}")]
    let stopping :=
      { sampleIndexer tree (sampleGit "c1" tree []) 1 with interruptAfterBatches := some 1 }
    let ix := sampleIndexer later (sampleGit "c2" later []) 2
    ∃ v u, (∃ e, (stopping.run .indexAll sampleStart).result = .error e) ∧
      stopping.reopen (stopping.run .indexAll sampleStart).state = .ok v ∧
      (RunStep.lexical, u) ∈ (ix.run .update v).trace ∧
      ∀ (ix' : Indexer) (w : IndexState), ix'.embedder = sampleEmbedder → ix'.reopen u = .ok w →
        w.InSync := by
  intro tree later stopping ix
  have hstops : (stopping.run .indexAll sampleStart).result.isOk = false := by decide +kernel
  have hopens : (stopping.reopen (stopping.run .indexAll sampleStart).state).toOption.any (fun v =>
      (ix.run .update v).trace.any (·.1 = .lexical) ∧ v.documents.Perm v.liveRecords ∧
        (v.documents.map (·.1)).Nodup ∧ v.store.dbPath = dbName ∧
        v.store.matrix.path = matrixName) = true := by
    decide +kernel
  cases he : (stopping.run .indexAll sampleStart).result with
  | ok r =>
    rw [he] at hstops
    cases hstops
  | error e =>
    cases hv : stopping.reopen (stopping.run .indexAll sampleStart).state with
    | error e' =>
      rw [hv] at hopens
      cases hopens
    | ok v =>
      rw [hv] at hopens
      obtain ⟨htrace, hperm, hnodup, hdb, hmatrix⟩ := of_decide_eq_true hopens
      obtain ⟨⟨l, u⟩, hu, hl⟩ := List.any_eq_true.mp htrace
      obtain rfl : l = .lexical := of_decide_eq_true hl
      have Hs : History sampleEmbedder (fun _ => True) v :=
        sampleStart_history.stopped stopping .indexAll stopping rfl sampleStart_fresh
          (.failed he) trivial rfl hv
      exact ⟨v, u, ⟨e, rfl⟩, rfl, hu,
        ((History.guard_sound_iff Hs .update rfl (.first hdb hmatrix) hu).2
        ⟨hperm, hnodup⟩).mpr trivial⟩

/-- A file is renamed, and the update is killed behind the re-key in the store. The counts agree,
and the document keeps the old name. -/
theorem guard_misses_rekey :
    let before := sampleTree [("a.rs", "fn f() {}")]
    let after := sampleTree [("b.rs", "fn f() {}")]
    let t := ((sampleIndexer before (sampleGit "c1" before []) 1).run .indexAll sampleStart).state
    let ix := sampleIndexer after (sampleGit "c2" after [.rewrite "a.rs".toUTF8.toList
      "b.rs".toUTF8.toList .blob .blob]) 2
    History sampleEmbedder GoodStop t ∧ ∃ l u v, (l, u) ∈ (ix.run .update t).trace ∧
      ix.reopen u = .ok v ∧ v.lexical.reader.map (·.2.file) = ["a.rs"] ∧
      v.store.conn.live.map (·.record.file) = ["b.rs"] ∧ ¬v.InSync := by
  intro before after t ix
  refine ⟨sampleIndexed_history, ?_⟩
  have htrace : (ix.run .update t).trace.any (fun p => match ix.reopen p.2 with
      | .ok v => v.lexical.reader.map (·.2.file) = ["a.rs"] ∧
          v.store.conn.live.map (·.record.file) = ["b.rs"]
      | .error _ => False) = true := by decide +kernel
  obtain ⟨⟨l, u⟩, hu, hp⟩ := List.any_eq_true.mp htrace
  cases hv : ix.reopen u with
  | error e => simp [hv] at hp
  | ok v =>
    simp only [hv, decide_eq_true_eq] at hp
    refine ⟨l, u, v, hu, hv, hp.1, hp.2, fun h => ?_⟩
    obtain ⟨p, hmem, hfile⟩ := List.mem_map.mp (hp.1 ▸ List.mem_singleton_self "a.rs")
    obtain ⟨c, hc, -, -, -, hcf⟩ := h.2 p hmem
    have hb : c.record.file ∈ ["b.rs"] := hp.2 ▸ List.mem_map_of_mem hc
    rw [← hcf, hfile] at hb
    exact absurd hb (by decide)

end SiftMcp
