import SiftMcp.Daemon.FailedIndex

/-!
# What the client of an index request is told

The task of the connection forwards the progress of the run, and then what became of it, all under
the id of the request. A worker that has succeeded puts the new resident up and clears the flag
before it says so.

`DaemonRun.index_completion` puts the two sides together: what a client is told last of its request,
and what the daemon is then.
-/

namespace SiftMcp

/-- What is written while a run goes on. -/
inductive Response.Progress : Response → Prop
  | mk (phase : IndexPhase) (done : Nat) (total : Option Nat) :
    Progress (.indexProgress phase done total)

/-- What is written at its end. -/
inductive Response.Terminal : Response → Prop
  | done (report : IndexReport) : Terminal (.indexDone (.from report))
  | error (e : DaemonError) : Terminal (.error e)

/-- A step, for the task of the connection `i` that waits for the worker `w`. -/
inductive StreamStep (s : DaemonState) (i w : Nat) (c : Client) : Event → Client → Prop
  | other {e} : StreamStep s i w c e c
  | progressed {r} : r.Progress → StreamStep s i w c (.progressed i) (c.write r)
  | closed : StreamStep s i w c (.closed i) c.close
  | reported {k done} : s.Works w k → k.phase = .finished done →
    StreamStep s i w c (.reported i) (c.reply (toResponse (done.map fun r => .indexDone (.from r))))
  | vanished {k} : s.Works w k → k.phase = .panicked →
    StreamStep s i w c (.vanished i) (c.reply (.error (.internal "index worker vanished")))

/-- The task of the connection `i` is at the index request `id`, waits for the worker `w`, and has
written `frames` since it had written `sent`. -/
structure DaemonState.Forwards (s : DaemonState) (i w id : Nat) (sent : List (Envelope Response))
    (frames : List Response) : Prop where
  at_streaming : ∃ c, s.At i c ∧ c.phase = .streaming w ∧ c.requestId = id ∧
    c.sent = sent ++ frames.map (⟨id, ·⟩)
  progress : ∀ r ∈ frames, r.Progress

/-- The task has done with the request. If it could write them, it has written `frames`. -/
inductive DaemonState.Done (i id : Nat) (sent : List (Envelope Response)) (frames : List Response) :
    Event → DaemonState → Prop
  | closed {t c} : t.At i c → c.phase = .closed → c.sent = sent ++ frames.map (⟨id, ·⟩) →
    Done i id sent frames (.closed i) t
  | terminal {e t c r} : e = .reported i ∨ e = .vanished i → r.Terminal → t.At i c →
    c.phase = .reading →
    c.sent = sent ++ frames.map (⟨id, ·⟩) ++ [⟨id, r⟩] → Done i id sent frames e t

/-- `r` is built of what a run of the request over the resident `taken` has left, and the run has
reported `report`: store and documents are those of the run, and the vectors those of the store. -/
structure Rebuilt (cfg : DaemonConfig) (mode : IndexMode) (repoDir : String) (taken : Resident)
    (report : IndexReport) (r : Resident) : Prop where
  run : ∃ repo, runIndex repo taken.embedder repoDir taken.store taken.lexical.durable mode =
    .ok (r.store, r.lexical, report)
  embedder : r.embedder = taken.embedder
  dense : DenseIndex.fromStore none r.store = .ok r.dense
  identity : ∃ host, StoreIdentity.capture host cfg.storeDir r.embedder.modelId = .ok r.identity

/-- The worker `w` has taken the resident `r`, which was being served. -/
def Taken (cfg : DaemonConfig) (R : Retrieval) (es : List Event) (s : DaemonState) (w : Nat)
    (r : Resident) : Prop :=
  ∃ es₁ es₂ m m' arc, es = es₁ ++ .took w :: es₂ ∧ DaemonRun cfg R .start es₁ m ∧
    m.serving = .ready arc r ∧ DaemonStep cfg R m (.took w) m' ∧ DaemonRun cfg R m' es₂ s

variable {cfg : DaemonConfig} {R : Retrieval} {s t : DaemonState} {e : Event} {es es' : List Event}
  {i j w id : Nat} {c c' : Client} {k k' : Worker} {r : Resident} {report : IndexReport}

/-! ## Frames -/

/-- A task forwards what its worker reports, until the worker has ended or the connection is
closed. -/
theorem DaemonStep.stream (h : DaemonStep cfg R s e t) (hi : s.At i c)
    (hc : c.phase = .streaming w) : ∃ c', t.At i c' ∧ StreamStep s i w c e c' := by
  have hsame : t.clients = s.clients → ∃ c', t.At i c' ∧ StreamStep s i w c e c' :=
    fun ht => ⟨c, by rwa [DaemonState.At, ht], .other⟩
  -- The task of a connection that is not waiting for a worker.
  have hother : ∀ {j : Nat} {d c' : Client} {p : ClientPhase}, s.At j d → d.phase = p →
      (∀ v, p ≠ .streaming v) → t.clients = (s.setClient j c').clients →
      ∃ c', t.At i c' ∧ StreamStep s i w c e c' := by
    intro j d c' p hj hd hp ht
    rcases hi.after hj ht with ⟨-, rfl, -⟩ | ⟨-, hi⟩
    · exact absurd (hd.symm.trans hc) (hp w)
    · exact ⟨c, hi, .other⟩
  -- That of a connection that waits for one, this connection or another.
  have hself : ∀ {j v : Nat} {d c' : Client}, s.At j d → d.phase = .streaming v →
      t.clients = (s.setClient j c').clients → (i = j → d = c → v = w → StreamStep s i w c e c') →
      ∃ c', t.At i c' ∧ StreamStep s i w c e c' := by
    intro j v d c' hj hd ht hstep
    rcases hi.after hj ht with ⟨hij, rfl, hi⟩ | ⟨-, hi⟩
    · exact ⟨c', hi, hstep hij rfl (ClientPhase.streaming.inj (hd.symm.trans hc))⟩
    · exact ⟨c, hi, .other⟩
  cases h with
  | poll | pend | tick | loop | idle | shutdown | returned | gaveBack | notReady | took | split
  | splitFailed | ready | stale | panicked | cleared => exact hsame rfl
  | loaded => exact hsame DaemonState.loaded_clients
  | accept _ hj => exact ⟨c, DaemonState.at_of_none hj rfl hi, .other⟩
  | garbled hj hphase | gated hj _ hphase | passed hj _ hphase | greeted hj hphase
  | unwelcome hj hphase | statusRequest hj _ hphase | secondHello hj _ hphase
  | shutdownRequest hj _ hphase | turnedAway hj _ hphase | borrowed hj _ hphase | viewed hj _ hphase
  | answered _ hj hphase | answeredFrozen _ hj hphase | refused hj _ hphase
  | index _ _ hj _ hphase => exact hother hj hphase (fun _ => ClientPhase.noConfusion) rfl
  | @closed j d hj =>
    have hclose : (s.closeClient j d).clients = (s.setClient j d.close).clients := rfl
    rcases hi.after hj hclose with ⟨rfl, rfl, hi⟩ | ⟨-, hi⟩
    · exact ⟨c.close, hi, .closed⟩
    · exact ⟨c, hi, .other⟩
  | progressed hj hphase =>
    refine hself hj hphase rfl fun hij hd hv => ?_
    subst hij hd
    exact .progressed (.mk ..)
  | reported hj hphase hw hk =>
    refine hself hj hphase rfl fun hij hd hv => ?_
    subst hij hd hv
    exact .reported hw hk
  | vanished hj hphase hw hk =>
    refine hself hj hphase rfl fun hij hd hv => ?_
    subst hij hd hv
    exact .vanished hw hk

namespace DaemonState.Forwards

variable {sent : List (Envelope Response)} {frames : List Response}

/-- It goes on with the request, or has done with it. -/
theorem step (h : s.Forwards i w id sent frames) (hstep : DaemonStep cfg R s e t) :
    (∃ frames, t.Forwards i w id sent frames) ∨ Done i id sent frames e t := by
  obtain ⟨c, hi, hc, hid, hsent⟩ := h.at_streaming
  obtain ⟨c', ht, hstream⟩ := hstep.stream hi hc
  cases hstream with
  | other => exact .inl ⟨frames, ⟨c, ht, hc, hid, hsent⟩, h.progress⟩
  | @progressed r hr =>
    refine .inl ⟨frames ++ [r], ⟨c.write r, ht, hc, hid, ?_⟩, ?_⟩
    · rw [Client.write, hsent, hid, List.map_append, List.append_assoc]
      rfl
    · intro r' hr'
      rcases List.mem_append.mp hr' with hr' | hr'
      · exact h.progress r' hr'
      · rw [List.mem_singleton.mp hr']
        exact hr
  | closed => exact .inr (.closed ht rfl hsent)
  | @reported k done hw hk =>
    refine .inr
      (.terminal (.inl rfl) (r := toResponse (done.map fun r => .indexDone (.from r))) ?_ ht rfl ?_)
    · cases done with
      | ok report => exact .done report
      | error e => exact .error e
    · rw [← hsent, ← hid]
      rfl
  | vanished hw hk =>
    refine .inr (.terminal (.inr rfl) (.error (.internal "index worker vanished")) ht rfl ?_)
    rw [← hsent, ← hid]
    rfl

/-- A run from where the request is being served: it still is, or there is a first moment at which
the task has done with it. -/
theorem run (h : s.Forwards i w id sent frames) (hrun : DaemonRun cfg R s es t) :
    (∃ frames, t.Forwards i w id sent frames) ∨
    ∃ es₁ e es₂ m m' frames, es = es₁ ++ e :: es₂ ∧ DaemonRun cfg R s es₁ m ∧
      DaemonStep cfg R m e m' ∧ DaemonRun cfg R m' es₂ t ∧ m.Forwards i w id sent frames ∧
        Done i id sent frames e m' := by
  induction hrun generalizing frames with
  | nil => exact .inl ⟨frames, h⟩
  | @cons s e m es t hstep hrun ih =>
    rcases h.step hstep with ⟨frames', h'⟩ | hdone
    · rcases ih h' with hstill | ⟨es₁, e', es₂, n, n', frames'', rfl, h₁, hn, h₂, hforwards, hdone⟩
      · exact .inl hstill
      · exact .inr
          ⟨e :: es₁, e', es₂, n, n', frames'', rfl, .cons hstep h₁, hn, h₂, hforwards, hdone⟩
    · exact .inr ⟨[], e, es, s, m, frames, rfl, .nil, hstep, hrun, h, hdone⟩

/-- When the worker has ended the terminal frame can be written. -/
theorem can_end (h : s.Forwards i w id sent frames) (hw : s.Works w k) (hk : ¬k.phase.Active) :
    ∃ e t, DaemonStep cfg R s e t ∧ (e = .reported i ∨ e = .vanished i) := by
  obtain ⟨c, hi, hc, -⟩ := h.at_streaming
  cases hphase : k.phase with
  | finished done => exact ⟨_, _, .reported hi hc hw hphase, .inl rfl⟩
  | panicked => exact ⟨_, _, .vanished hi hc hw hphase, .inr rfl⟩
  | spawned | taken | running | clearing =>
    rw [hphase] at hk
    exact absurd trivial hk

end DaemonState.Forwards

/-- An index request is accepted, and nothing has been written for it yet. -/
theorem DaemonStep.forwards_of_index (h : DaemonStep cfg R s (.index i w) t) :
    ∃ c id, s.At i c ∧ t.Forwards i w id c.sent [] := by
  cases h with
  | @index i c id w mode repoDir hi =>
    refine ⟨c, id, hi, ⟨_, DaemonState.at_setClient rfl, rfl, rfl, ?_⟩, nofun⟩
    exact (List.append_nil _).symm

/-! ## The resident after a run -/

theorem LiveMask.fromStore_ok {error : Option String} {store : ChunkStore} {live : LiveMask}
    (h : LiveMask.fromStore error store = .ok live) : LiveMask.fromStore none store = .ok live := by
  cases error with
  | none => exact h
  | some e => cases h

theorem DenseIndex.fromStore_ok {error : Option String} {store : ChunkStore} {dense : DenseIndex}
    (h : DenseIndex.fromStore error store = .ok dense) :
    DenseIndex.fromStore none store = .ok dense := by
  cases error with
  | none => exact h
  | some e => cases h

/-- To take up what one has already changes nothing. -/
theorem DenseIndex.refresh_fromStore {store : ChunkStore} {live : LiveMask}
    {dense dense' : DenseIndex} (hlive : LiveMask.fromStore none store = .ok live)
    (h : DenseIndex.fromStore none store = .ok dense)
    (hrefresh : dense.refresh store.matrix live = .ok dense') : dense' = dense := by
  have hprepare : DenseIndex.prepare store.matrix live = .ok dense := by
    rw [DenseIndex.fromStore, hlive] at h
    exact h
  rw [DenseIndex.prepare] at hprepare
  cases hslice : store.matrix.asSlice with
  | error e =>
    rw [hslice] at hprepare
    cases hprepare
  | ok slice =>
    rw [hslice] at hprepare
    have hprepare : DenseIndex.prepareSlice slice store.matrix.rows store.matrix.dims
        store.matrix.modelId live = .ok dense := hprepare
    rw [DenseIndex.prepareSlice] at hprepare
    by_cases hrows : store.matrix.rows ≠ live.length
    · rw [if_pos hrows] at hprepare
      cases hprepare
    · by_cases hlen : slice.length ≠ store.matrix.rows * store.matrix.dims
      · rw [if_neg hrows, if_pos hlen] at hprepare
        cases hprepare
      · rw [if_neg hrows, if_neg hlen] at hprepare
        obtain rfl := Except.ok.inj hprepare
        rw [not_not] at hlen
        rw [DenseIndex.refresh, if_neg (not_not.mpr rfl), if_neg (not_not.mpr rfl), if_neg hrows,
          if_neg (Nat.lt_irrefl _), hslice] at hrefresh
        have hdrop : slice.drop (store.matrix.rows * store.matrix.dims) = [] := by
          rw [← hlen, List.drop_length]
        rw [← hlen] at hrefresh
        simp only [bind, Except.bind, Nat.lt_irrefl, if_false, List.drop_length,
          List.append_nil] at hrefresh
        exact (Except.ok.inj hrefresh).symm

/-- What a resident is built of again. -/
theorem rebuildResident_ok {env : RebuildEnv} {store : ChunkStore} {lexical : LexicalIndex}
    {embedder : Embedder} {repoDir : String}
    (h : rebuildResident env cfg store lexical embedder repoDir = .ok r) :
    r.store = store ∧ r.lexical = lexical ∧ r.embedder = embedder ∧
      DenseIndex.fromStore none store = .ok r.dense ∧
      StoreIdentity.capture env.host cfg.storeDir embedder.modelId = .ok r.identity := by
  obtain ⟨live, hlive, h⟩ := Except.mapError_bind_eq_ok.mp h
  obtain ⟨dense, hdense, h⟩ := Except.mapError_bind_eq_ok.mp h
  obtain ⟨dense', hrefresh, h⟩ := Except.mapError_bind_eq_ok.mp h
  obtain ⟨identity, hidentity, h⟩ := Except.mapError_bind_eq_ok.mp h
  obtain rfl := Except.ok.inj h
  have hdense := DenseIndex.fromStore_ok hdense
  refine ⟨rfl, rfl, rfl, ?_, hidentity⟩
  rw [DenseIndex.refresh_fromStore (LiveMask.fromStore_ok hlive) hdense hrefresh]
  exact hdense

theorem runEnd_built {repo : RepoEnv} {rebuild : RebuildEnv} {store : ChunkStore}
    {docs : List (RowId × LexicalDoc)} {embedder : Embedder}
    (h : runEnd repo rebuild cfg k store docs embedder = .ready r report) :
    runIndex repo embedder k.repoDir store docs k.mode = .ok (r.store, r.lexical, report) ∧
      r.embedder = embedder ∧ DenseIndex.fromStore none r.store = .ok r.dense ∧
      StoreIdentity.capture rebuild.host cfg.storeDir embedder.modelId = .ok r.identity := by
  unfold runEnd at h
  split at h
  · cases h
  · cases h
  · rename_i store' lexical' report' hrun
    split at h
    · rename_i r' hrebuild
      obtain ⟨rfl, rfl⟩ := RunEnd.ready.inj h
      obtain ⟨rfl, rfl, hembedder, hdense, hidentity⟩ := rebuildResident_ok hrebuild
      exact ⟨hrun, hembedder, hdense, hidentity⟩
    · cases h
    · cases h

theorem runEnd_ready {repo : RepoEnv} {rebuild : RebuildEnv} {taken : Resident}
    (h : runEnd repo rebuild cfg k taken.store taken.lexical.durable taken.embedder =
      .ready r report) :
    Rebuilt cfg k.mode k.repoDir taken report r := by
  obtain ⟨hrun, hembedder, hdense, hidentity⟩ := runEnd_built h
  rw [← hembedder] at hidentity
  exact ⟨⟨repo, hrun⟩, hembedder, hdense, ⟨rebuild.host, hidentity⟩⟩

/-! ## What a worker has taken -/

namespace Taken

theorem step (h : Taken cfg R es s w r) (hstep : DaemonStep cfg R s e t) :
    Taken cfg R (es ++ [e]) t w r := by
  obtain ⟨es₁, es₂, m, m', arc, rfl, hrun, hserving, htook, hrest⟩ := h
  refine ⟨es₁, es₂ ++ [e], m, m', arc, ?_, hrun, hserving, htook, hrest.append (.cons hstep .nil)⟩
  rw [List.append_assoc, List.cons_append]

theorem of_took {arc : Nat} (hs : DaemonRun cfg R .start es s) (hserving : s.serving = .ready arc r)
    (hstep : DaemonStep cfg R s (.took w) t) : Taken cfg R (es ++ [.took w]) t w r :=
  ⟨es, [], s, t, arc, rfl, hs, hserving, hstep, .nil⟩

end Taken

/-! ## Slot and flag after a run -/

/-- A worker keeps its request. -/
theorem DaemonStep.keeps_request (h : DaemonStep cfg R s e t) (hw : s.Works w k) :
    ∃ k', t.Works w k' ∧ k'.mode = k.mode ∧ k'.repoDir = k.repoDir := by
  have hworker : ∀ {u : DaemonState} {v : Nat} {kv : Worker} {p : WorkerPhase}, s.Works v kv →
      u.workers = (s.setWorker v { kv with phase := p }).workers →
      ∃ k', u.Works w k' ∧ k'.mode = k.mode ∧ k'.repoDir = k.repoDir := by
    intro u v kv p hv hu
    by_cases hwv : w = v
    · subst hwv
      obtain rfl : k = kv := Option.some.inj (hw.symm.trans hv)
      exact ⟨{ k with phase := p }, DaemonState.works_setWorker hu, rfl, rfl⟩
    · exact ⟨k, DaemonState.works_of_ne hwv hu hw, rfl, rfl⟩
  cases h with
  | loaded => exact ⟨k, by rwa [DaemonState.Works, DaemonState.loaded_workers], rfl, rfl⟩
  | poll | pend | tick | loop | idle | shutdown | returned | accept | closed | garbled | gated
  | passed | greeted | unwelcome | statusRequest | secondHello | shutdownRequest | turnedAway
  | borrowed | viewed | answered | answeredFrozen | refused | progressed | reported | vanished =>
    exact ⟨k, hw, rfl, rfl⟩
  | @index i c id v mode repoDir hi hhello hphase hflag hv =>
    refine ⟨k, DaemonState.works_of_ne (fun hwv => ?_) rfl hw, rfl, rfl⟩
    subst hwv
    cases hv.symm.trans hw
  | gaveBack hv | notReady hv | took hv | split hv | splitFailed hv | ready hv | stale hv
  | panicked hv | cleared hv => exact hworker hv rfl

/-- The loader has ended, and what is being served has been built of a run of the request that
reported `report`, over a resident that the worker has taken. -/
def DaemonState.PutUp (cfg : DaemonConfig) (mode : IndexMode) (repoDir : String)
    (took : Resident → Prop) (report : IndexReport) (s : DaemonState) : Prop :=
  s.loading = false ∧ ∃ arc r taken, s.serving = .ready arc r ∧ took taken ∧
    Rebuilt cfg mode repoDir taken report r

/-- What holds of the state while the worker of a request is in a phase. -/
def DaemonState.Published (cfg : DaemonConfig) (mode : IndexMode) (repoDir : String)
    (took : Resident → Prop) (s : DaemonState) : WorkerPhase → Prop
  | .taken r => s.loading = false ∧ took r
  | .running store docs embedder => s.loading = false ∧ ∃ r, took r ∧ store = r.store ∧
    docs = r.lexical.durable ∧ embedder = r.embedder
  | .clearing (.ok report) => s.PutUp cfg mode repoDir took report
  | .finished (.ok report) => s.PutUp cfg mode repoDir took report ∧ s.indexing = false
  | .spawned | .clearing (.error _) | .finished (.error _) | .panicked => True

/-- `w` is the last worker that was started, and the others have ended. -/
structure DaemonState.Last (s : DaemonState) (w : Nat) (k : Worker) : Prop where
  works : s.Works w k
  others : ∀ v k', s.Works v k' → k'.phase.Active → v = w

namespace DaemonState

variable {mode : IndexMode} {repoDir : String} {took took' : Resident → Prop} {p p' : WorkerPhase}

theorem PutUp.congr (h : s.PutUp cfg mode repoDir took report) (htook : ∀ r, took r → took' r)
    (hserving : t.serving = s.serving) (hloading : t.loading = s.loading) :
    t.PutUp cfg mode repoDir took' report := by
  obtain ⟨hl, arc, r, taken, hr, htaken, hbuilt⟩ := h
  exact ⟨hloading.trans hl, arc, r, taken, hserving.trans hr, htook _ htaken, hbuilt⟩

theorem Published.congr (h : s.Published cfg mode repoDir took p) (htook : ∀ r, took r → took' r)
    (hserving : t.serving = s.serving) (hindexing : t.indexing = s.indexing)
    (hloading : t.loading = s.loading) : t.Published cfg mode repoDir took' p := by
  cases p with
  | spawned | panicked => trivial
  | taken r => exact ⟨hloading.trans h.1, htook r h.2⟩
  | running =>
    obtain ⟨hl, r, htaken, hrun⟩ := h
    exact ⟨hloading.trans hl, r, htook r htaken, hrun⟩
  | clearing done =>
    cases done with
    | error e => trivial
    | ok report => exact PutUp.congr h htook hserving hloading
  | finished done =>
    cases done with
    | error e => trivial
    | ok report => exact ⟨h.1.congr htook hserving hloading, hindexing.trans h.2⟩

theorem Published.of_loading (h : s.Published cfg mode repoDir took p) (hloads : s.loading = true) :
    t.Published cfg mode repoDir took' p := by
  have hnot : s.loading ≠ false := by
    rw [hloads]
    exact Bool.true_eq_false_eq_False
  cases p with
  | spawned | panicked => trivial
  | taken | running => exact absurd h.1 hnot
  | clearing done =>
    cases done with
    | error e => trivial
    | ok report => exact absurd h.1 hnot
  | finished done =>
    cases done with
    | error e => trivial
    | ok report => exact absurd h.1.1 hnot

/-- A worker takes what is being served, puts the resident up, and then clears the flag. -/
theorem Published.worker (h : s.Published cfg mode repoDir took p) (hex : s.Exclusive)
    (hstep : WorkerStep cfg s w p e t.serving t.indexing p') (hl : t.loading = s.loading)
    (htook : ∀ r, took r → took' r)
    (htakes : ∀ {arc r}, e = .took w → s.serving = .ready arc r → took' r)
    (hrebuilt : ∀ {arc r report taken}, e = .ended w →
      p = .running taken.store taken.lexical.durable taken.embedder → t.serving = .ready arc r →
        p' = .clearing (.ok report) →
        Rebuilt cfg mode repoDir taken report r) : t.Published cfg mode repoDir took' p' := by
  generalize hserving : t.serving = serving at hstep
  generalize hindexing : t.indexing = flag at hstep
  cases hstep with
  | gaveBack | notReady | splitFailed | stale | panicked => trivial
  | took hready => exact ⟨hl.trans (hex.not_loading hready), htakes rfl hready⟩
  | @split r => exact ⟨hl.trans h.1, r, htook r h.2, rfl, rfl, rfl⟩
  | ready =>
    obtain ⟨hloading, taken, htaken, rfl, rfl, rfl⟩ := h
    exact ⟨hl.trans hloading, _, _, taken, hserving, htook _ htaken, hrebuilt rfl rfl hserving rfl⟩
  | @cleared done =>
    cases done with
    | error e => trivial
    | ok report => exact ⟨PutUp.congr h htook hserving hl, hindexing⟩

end DaemonState

theorem DaemonStep.rebuilt {arc : Nat} {taken : Resident} (h : DaemonStep cfg R s (.ended w) t)
    (hw : s.Works w k) (hw' : t.Works w k')
    (hrunning : k.phase = .running taken.store taken.lexical.durable taken.embedder)
    (hserving : t.serving = .ready arc r) (hk : k'.phase = .clearing (.ok report)) :
    Rebuilt cfg k.mode k.repoDir taken report r := by
  cases h with
  | ready hv hphase hend =>
    obtain rfl := Option.some.inj (hw.symm.trans hv)
    obtain ⟨-, rfl⟩ := ServingState.ready.inj hserving
    obtain rfl := Option.some.inj (hw'.symm.trans (DaemonState.works_setWorker rfl))
    obtain rfl := Except.ok.inj (WorkerPhase.clearing.inj hk)
    obtain ⟨rfl, rfl, rfl⟩ := WorkerPhase.running.inj (hrunning.symm.trans hphase)
    exact runEnd_ready hend
  | stale hv hphase hend => cases hserving

namespace DaemonState

/-- No other index request is accepted, and `serve` does not return. -/
theorem Published.step (h : s.Published cfg k.mode k.repoDir (Taken cfg R es s w) k.phase)
    (hs : DaemonRun cfg R .start es s) (hlast : s.Last w k) (hstep : DaemonStep cfg R s e t)
    (haside : e.Aside) :
    ∃ k', t.Last w k' ∧ k'.mode = k.mode ∧ k'.repoDir = k.repoDir ∧ (k.phase.Active ∨ k' = k) ∧
      t.Published cfg k.mode k.repoDir (Taken cfg R (es ++ [e]) t w) k'.phase := by
  have hsame : t.workers = s.workers → t.Last w k := by
    intro hworkers
    have hworks : ∀ {v k'}, t.Works v k' ↔ s.Works v k' := by
      intro v k'
      rw [Works, Works, hworkers]
    exact ⟨hworks.mpr hlast.works, fun v k' hv => hlast.others v k' (hworks.mp hv)⟩
  have htaken : ∀ r, Taken cfg R es s w r → Taken cfg R (es ++ [e]) t w r := fun r h => h.step hstep
  obtain ⟨k', hw', hmode, hdir⟩ := hstep.keeps_request hlast.works
  have heffect := hstep.effect
  cases heffect with
  | loaded hloads =>
    exact ⟨k, hsame DaemonState.loaded_workers, rfl, rfl, .inr rfl, h.of_loading hloads⟩
  | index | returned => cases haside
  | outer _ hserving hindexing hloading hworkers =>
    exact ⟨k, hsame hworkers, rfl, rfl, .inr rfl, h.congr htaken hserving hindexing hloading⟩
  | @worker v kv k'' _ _ hv hworker hworkers hl =>
    obtain rfl := hlast.others v kv hv hworker.active
    obtain rfl : k = kv := Option.some.inj (hlast.works.symm.trans hv)
    obtain rfl : k' = k'' := Option.some.inj (hw'.symm.trans (works_setWorker hworkers))
    refine ⟨k', ⟨hw', fun u ku hu hactive => ?_⟩, hmode, hdir, .inl hworker.active,
      h.worker (DaemonRun.exclusive hs) hworker hl htaken ?_ ?_⟩
    · rcases hu.of_setWorker hworkers with ⟨huv, -⟩ | ⟨-, hu⟩
      · exact huv
      · exact hlast.others u ku hu hactive
    · intro arc r he hserving
      subst he
      exact .of_took hs hserving hstep
    · intro arc r report taken he hrunning hserving hphase
      subst he
      exact hstep.rebuilt hv hw' hrunning hserving hphase

/-- A run. -/
theorem Published.run (h : s.Published cfg k.mode k.repoDir (Taken cfg R es s w) k.phase)
    (hs : DaemonRun cfg R .start es s) (hlast : s.Last w k) (hrun : DaemonRun cfg R s es' t)
    (haside : ∀ e ∈ es', e.Aside) :
    ∃ k', t.Last w k' ∧ k'.mode = k.mode ∧ k'.repoDir = k.repoDir ∧
      t.Published cfg k.mode k.repoDir (Taken cfg R (es ++ es') t w) k'.phase := by
  induction hrun generalizing k es with
  | nil => exact ⟨k, hlast, rfl, rfl, by rwa [List.append_nil]⟩
  | @cons s e m es' t hstep _ ih =>
    obtain ⟨he, hes⟩ := List.forall_mem_cons.mp haside
    obtain ⟨k₁, hlast₁, hmode₁, hdir₁, -, h₁⟩ := h.step hs hlast hstep he
    rw [← hmode₁, ← hdir₁] at h₁
    obtain ⟨k', hlast', hmode', hdir', h'⟩ := ih h₁ (hs.append (.cons hstep .nil)) hlast₁ hes
    rw [hmode₁, hdir₁, List.append_assoc, List.singleton_append] at h'
    exact ⟨k', hlast', hmode'.trans hmode₁, hdir'.trans hdir₁, h'⟩

/-- A run from where the worker has ended. -/
theorem Published.run_ended (h : s.Published cfg k.mode k.repoDir (Taken cfg R es s w) k.phase)
    (hs : DaemonRun cfg R .start es s) (hlast : s.Last w k) (hk : ¬k.phase.Active)
    (hrun : DaemonRun cfg R s es' t) (haside : ∀ e ∈ es', e.Aside) :
    t.Published cfg k.mode k.repoDir (Taken cfg R (es ++ es') t w) k.phase := by
  induction hrun generalizing es with
  | nil => rwa [List.append_nil]
  | @cons s e m es' t hstep _ ih =>
    obtain ⟨he, hes⟩ := List.forall_mem_cons.mp haside
    obtain ⟨k₁, hlast₁, -, -, hsame, h₁⟩ := h.step hs hlast hstep he
    obtain rfl := hsame.resolve_left hk
    have h' := ih h₁ (hs.append (.cons hstep .nil)) hlast₁ hes
    rwa [List.append_assoc, List.singleton_append] at h'

/-- An index request is accepted only when every worker has ended. -/
theorem Exclusive.last_of_index (h : Exclusive s) (hstep : DaemonStep cfg R s (.index i w) t) :
    ∃ mode repoDir, t.Last w ⟨mode, repoDir, .spawned⟩ := by
  cases hstep with
  | @index i c id w mode repoDir hi hhello hphase hflag hw =>
    exact ⟨mode, repoDir, works_setWorker rfl, fun v k' => h.ended_of_ne hflag rfl⟩

end DaemonState

/-! ## Open connections -/

theorem DaemonStep.keeps_closed (h : DaemonStep cfg R s e t) (hi : s.At i c)
    (hc : c.phase = .closed) : t.At i c := by
  have hother : ∀ {j : Nat} {d c' : Client} {p : ClientPhase}, s.At j d → d.phase = p →
      p ≠ .closed → t.clients = (s.setClient j c').clients → t.At i c := by
    intro j d c' p hj hd hp ht
    rcases hi.after hj ht with ⟨-, rfl, -⟩ | ⟨-, hi⟩
    · exact absurd (hd.symm.trans hc) hp
    · exact hi
  cases h with
  | poll | pend | tick | loop | idle | shutdown | returned | gaveBack | notReady | took | split
  | splitFailed | ready | stale | panicked | cleared => exact hi
  | loaded => rwa [DaemonState.At, DaemonState.loaded_clients]
  | accept _ hj => exact DaemonState.at_of_none hj rfl hi
  | garbled hj hphase | gated hj _ hphase | passed hj _ hphase | greeted hj hphase
  | unwelcome hj hphase | statusRequest hj _ hphase | secondHello hj _ hphase
  | shutdownRequest hj _ hphase | turnedAway hj _ hphase | borrowed hj _ hphase | viewed hj _ hphase
  | answered _ hj hphase | answeredFrozen _ hj hphase | refused hj _ hphase
  | index _ _ hj _ hphase | progressed hj hphase | reported hj hphase | vanished hj hphase =>
    exact hother hj hphase ClientPhase.noConfusion rfl
  | closed hj hphase =>
    rcases hphase with hphase | ⟨req, hphase⟩ | ⟨w, hphase⟩
    · exact hother hj hphase ClientPhase.noConfusion rfl
    · exact hother hj hphase ClientPhase.noConfusion rfl
    · exact hother hj hphase ClientPhase.noConfusion rfl

/-- The task of one connection takes a step at most. -/
theorem DaemonStep.clients_cases (h : DaemonStep cfg R s e t) :
    t.clients = s.clients ∨ ∃ j c', t.clients = (s.setClient j c').clients := by
  cases h with
  | poll | pend | tick | loop | idle | shutdown | returned | gaveBack | notReady | took | split
  | splitFailed | ready | stale | panicked | cleared => exact .inl rfl
  | loaded => exact .inl DaemonState.loaded_clients
  | accept | garbled | gated | passed | greeted | unwelcome | statusRequest | secondHello
  | shutdownRequest | turnedAway | borrowed | viewed | answered | answeredFrozen | refused | index
  | progressed | reported | vanished | closed => exact .inr ⟨_, _, rfl⟩

theorem DaemonStep.keeps_client (h : DaemonStep cfg R s e t) (hi : s.At i c) : ∃ c', t.At i c' := by
  rcases h.clients_cases with hsame | ⟨j, c', hset⟩
  · exact ⟨c, by rwa [DaemonState.At, hsame]⟩
  · by_cases hij : i = j
    · subst hij
      exact ⟨c', DaemonState.at_setClient hset⟩
    · exact ⟨c, DaemonState.at_of_ne hij hset hi⟩

theorem DaemonRun.keeps_closed (h : DaemonRun cfg R s es t) (hi : s.At i c)
    (hc : c.phase = .closed) : t.At i c := by
  induction h with
  | nil => exact hi
  | cons hstep _ ih => exact ih (hstep.keeps_closed hi hc)

/-- `serve` does not return while a connection is open. -/
theorem DaemonRun.returned_not_mem (h : DaemonRun cfg R s es t) (hi : s.At i c) (ht : t.At i c')
    (hc' : c'.phase ≠ .closed) : .returned ∉ es := by
  induction h generalizing c with
  | nil => exact List.not_mem_nil
  | @cons s e m es t hstep hrun ih =>
    obtain ⟨d, hm⟩ := hstep.keeps_client hi
    rw [List.mem_cons, not_or]
    refine ⟨fun he => ?_, ih hm ht⟩
    subst he
    cases hstep with
    | returned _ hall =>
      have hend := DaemonRun.keeps_closed hrun hi (hall i c hi)
      obtain rfl : c = c' := Option.some.inj (hend.symm.trans ht)
      exact hc' (hall i c hi)

theorem Event.aside_of_ne (hindex : ∀ j v, e ≠ .index j v) (hreturned : e ≠ .returned) :
    e.Aside := by
  cases e with
  | index j v => exact absurd rfl (hindex j v)
  | returned => exact absurd rfl hreturned
  | _ => trivial

/-- Who is told that the index is done is told so by the worker. -/
theorem DaemonState.Forwards.reported {sent : List (Envelope Response)} {frames : List Response}
    {wire : IndexReportWire} (h : s.Forwards i w id sent frames) (hstep : DaemonStep cfg R s e t)
    (hi : t.At i c') (hsent : c'.sent = sent ++ frames.map (⟨id, ·⟩) ++ [⟨id, .indexDone wire⟩]) :
    ∃ k report, s.Works w k ∧ k.phase = .finished (.ok report) ∧ wire = .from report := by
  obtain ⟨c, hc, hphase, hid, hc'⟩ := h.at_streaming
  obtain ⟨d, hd, hstream⟩ := hstep.stream hc hphase
  obtain rfl : c' = d := Option.some.inj (hi.symm.trans hd)
  have hlast : ∀ r, c'.sent = c.sent ++ [⟨id, r⟩] → r = .indexDone wire := by
    intro r hr
    rw [hsent, ← hc'] at hr
    obtain rfl := Envelope.mk.inj (List.singleton_inj.mp (List.append_cancel_left hr)) |>.2
    rfl
  have hmore : c'.sent ≠ c.sent := by
    rw [hsent, ← hc']
    simp
  cases hstream with
  | other => exact absurd rfl hmore
  | @progressed r hr =>
    obtain rfl := hlast r (by rw [← hid]; rfl)
    cases hr
  | closed => exact absurd rfl hmore
  | @reported k done hw hk =>
    have hdone := hlast (toResponse (done.map fun r => .indexDone (.from r))) (by rw [← hid]; rfl)
    cases done with
    | error e => cases hdone
    | ok report => exact ⟨k, report, hw, hk, (Response.indexDone.inj hdone).symm⟩
  | vanished hw hk => cases hlast (.error (.internal "index worker vanished")) (by rw [← hid]; rfl)

/-! ## The whole request -/

/-- An index request is accepted, and `sent` is what had been written on its connection before. What
is written for it are frames of progress, then a terminal frame unless a write fails, all under one
id, and the terminal frame can be written once the worker has ended. When that frame says that the
index is done, then until another index request is accepted, and as long as the connection is open,
what is being served is the resident built of this run, the worker's own over the resident that it
has taken and the directory that was asked for, and no index request is refused as another in
progress. -/
theorem DaemonRun.index_completion {s₁ : DaemonState} (hs : DaemonRun cfg R .start es s)
    (hindex : DaemonStep cfg R s (.index i w) s₁) :
    ∃ c id mode repoDir, s.At i c ∧ s₁.Works w ⟨mode, repoDir, .spawned⟩ ∧
      s₁.Forwards i w id c.sent [] ∧
        (∀ es t, DaemonRun cfg R s₁ es t → (∃ frames, t.Forwards i w id c.sent frames) ∨
        ∃ es₁ e es₂ m m' frames, es = es₁ ++ e :: es₂ ∧ DaemonRun cfg R s₁ es₁ m ∧
          DaemonStep cfg R m e m' ∧ DaemonRun cfg R m' es₂ t ∧ m.Forwards i w id c.sent frames ∧
          DaemonState.Done i id c.sent frames e m') ∧
      (∀ t frames k', t.Forwards i w id c.sent frames → t.Works w k' → ¬k'.phase.Active →
        ∃ e u, DaemonStep cfg R t e u ∧ (e = .reported i ∨ e = .vanished i)) ∧
      ∀ es₁ m frames e m' d wire es₂ t, DaemonRun cfg R s₁ es₁ m → m.Forwards i w id c.sent frames →
        DaemonStep cfg R m e m' → m'.At i d →
        d.sent = c.sent ++ frames.map (⟨id, ·⟩) ++ [⟨id, .indexDone wire⟩] →
        DaemonRun cfg R m' es₂ t →
        (∀ e' ∈ es₁ ++ e :: es₂, ∀ j v, e' ≠ .index j v) → (∃ d', t.At i d' ∧ d'.phase ≠ .closed) →
        ∃ arc r taken report, wire = .from report ∧
          Taken cfg R (es ++ .index i w :: es₁ ++ e :: es₂) t w taken ∧
          Rebuilt cfg mode repoDir taken report r ∧ t.serving = .ready arc r ∧
          t.indexing = false ∧ (∀ host q, t.serving.answer R host q = r.answer R host q) ∧
          ∀ j u, ¬DaemonStep cfg R t (.refused j) u := by
  obtain ⟨c, id, hi, hforwards⟩ := hindex.forwards_of_index
  obtain ⟨mode, repoDir, hlast⟩ := (DaemonRun.exclusive hs).last_of_index hindex
  refine ⟨c, id, mode, repoDir, hi, hlast.works, hforwards, fun es t hrun => hforwards.run hrun,
    fun t frames k' hf hw hk => hf.can_end hw hk, ?_⟩
  intro es₁ m frames e m' d wire es₂ t hrun₁ hm hstep hd hsent hrun₂ hnone hopen
  obtain ⟨d', ht, hd'⟩ := hopen
  obtain ⟨c₁, hc₁, -⟩ := hforwards.at_streaming
  have hreturned := DaemonRun.returned_not_mem (hrun₁.append (.cons hstep hrun₂)) hc₁ ht hd'
  have haside : ∀ e' ∈ es₁ ++ e :: es₂, e'.Aside := by
    intro e' he'
    refine Event.aside_of_ne (hnone e' he') fun hret => ?_
    subst hret
    exact hreturned he'
  obtain ⟨haside₁, haside₂⟩ := List.forall_mem_append.mp haside
  have hs₁ : DaemonRun cfg R .start (es ++ [.index i w]) s₁ := hs.append (.cons hindex .nil)
  have hpublished : s₁.Published cfg mode repoDir (Taken cfg R (es ++ [.index i w]) s₁ w)
      .spawned := trivial
  obtain ⟨k', hlast', hmode, hdir, hm'⟩ :=
    DaemonState.Published.run (k := ⟨mode, repoDir, .spawned⟩) hpublished hs₁ hlast hrun₁ haside₁
  obtain ⟨k'', report, hw, hphase, rfl⟩ := hm.reported hstep hd hsent
  obtain rfl : k' = k'' := Option.some.inj (hlast'.works.symm.trans hw)
  have hended : ¬k'.phase.Active := by
    rw [hphase]
    exact fun h => h
  have hmode : k'.mode = mode := hmode
  have hdir : k'.repoDir = repoDir := hdir
  rw [← hmode, ← hdir] at hm'
  have hend := hm'.run_ended (hs₁.append hrun₁) hlast' hended (.cons hstep hrun₂) haside₂
  rw [hphase, hmode, hdir] at hend
  obtain ⟨⟨-, arc, r, taken, hserving, htaken, hbuilt⟩, hflag⟩ := hend
  refine ⟨arc, r, taken, report, rfl, ?_, hbuilt, hserving, hflag, fun host q => ?_,
    fun j u hrefused => ?_⟩
  · rwa [List.append_assoc es, List.singleton_append] at htaken
  · rw [hserving]
    rfl
  · cases hrefused with
    | refused _ _ _ hset =>
      rw [hflag] at hset
      cases hset

/-! ## A run that succeeds -/

/-- A repository with one file, and nothing that fails. -/
def sampleInside : RepoEnv :=
  let tree := sampleTree [("a.rs", "fn f() {}")]
  { sampleOutside with git := .ok (sampleGit "c1" tree []), worktree := tree }

def sampleRebuild : RebuildEnv := ⟨sampleHost, none, none⟩

def RunEnd.isReady : RunEnd → Bool
  | ready .. => true
  | stale .. | panic _ => false

theorem RunEnd.ready_of_isReady {out : RunEnd} (h : out.isReady = true) :
    ∃ r report, out = .ready r report := by
  cases out with
  | ready r report => exact ⟨r, report, rfl⟩
  | stale reason e => exact absurd h Bool.false_ne_true
  | panic detail => exact absurd h Bool.false_ne_true

theorem runEnd_inside : ∃ r report, runEnd sampleInside sampleRebuild sampleConfig
    ⟨.full, "elsewhere", .running sampleStore [] sampleEmbedder⟩ sampleStore [] sampleEmbedder =
      .ready r report := by
  apply RunEnd.ready_of_isReady
  decide +kernel

/-- The new resident is up, the flag has been cleared, and the client has been told. -/
def sampleDone (r : Resident) (report : IndexReport) : DaemonState :=
  let s := (sampleRunning.setWorker 0 ⟨.full, "elsewhere", .clearing (.ok report)⟩).putUp r
  let s := { s.setWorker 0 ⟨.full, "elsewhere", .finished (.ok report)⟩ with indexing := false }
  s.setClient 0 ⟨true, .reading, 2, sampleGreeted ++ [⟨2, .indexDone (.from report)⟩]⟩

/-- The client that is told so finds the new resident there. -/
theorem DaemonRun.index_completion_inside : ∃ r report,
    DaemonRun sampleConfig sampleRetrieval sampleReady
      [.index 0 0, .took 0, .split 0, .ended 0, .cleared 0, .reported 0] (sampleDone r report) ∧
    ∃ arc r' report', IndexReportWire.from report = .from report' ∧
      (∃ taken, Rebuilt sampleConfig .full "elsewhere" taken report' r') ∧
      (sampleDone r report).serving = .ready arc r' ∧ (sampleDone r report).indexing = false ∧
      ∀ host q, (sampleDone r report).serving.answer sampleRetrieval host q =
        r'.answer sampleRetrieval host q := by
  obtain ⟨r, report, hend⟩ := runEnd_inside
  have hrunning : sampleRunning.Works 0
    ⟨.full, "elsewhere", .running sampleStore [] sampleEmbedder⟩ := rfl
  let up := (sampleRunning.setWorker 0 ⟨.full, "elsewhere", .clearing (.ok report)⟩).putUp r
  have hready : DaemonStep sampleConfig sampleRetrieval sampleRunning (.ended 0) up :=
    .ready hrunning rfl hend
  have hclearing : up.Works 0 ⟨.full, "elsewhere", .clearing (.ok report)⟩ := rfl
  let clear :=
    { up.setWorker 0 ⟨.full, "elsewhere", .finished (.ok report)⟩ with indexing := false }
  have hcleared : DaemonStep sampleConfig sampleRetrieval up (.cleared 0) clear :=
    .cleared hclearing rfl
  have hstreaming : clear.At 0 ⟨true, .streaming 0, 2, sampleGreeted⟩ := rfl
  have hfinished : clear.Works 0 ⟨.full, "elsewhere", .finished (.ok report)⟩ := rfl
  have hreported : DaemonStep sampleConfig sampleRetrieval clear (.reported 0)
      (sampleDone r report) :=
    .reported hstreaming rfl hfinished rfl
  have hrun : DaemonRun sampleConfig sampleRetrieval sampleAsked
      [.took 0, .split 0, .ended 0, .cleared 0] clear :=
        .cons sampleTaken_step (.cons sampleRunning_step (.cons hready (.cons hcleared .nil)))
  refine ⟨r, report, .cons sampleAsked_step (hrun.append (.cons hreported .nil)), ?_⟩
  obtain ⟨c, id, mode, repoDir, hi, hw, hforwards, -, -, hvisible⟩ :=
    DaemonRun.index_completion sampleReady_run sampleAsked_step
  obtain rfl := Option.some.inj hi
  obtain ⟨rfl, rfl, -⟩ := Worker.mk.inj (Option.some.inj hw)
  obtain ⟨d, hd, -, rfl, -⟩ := hforwards.at_streaming
  obtain rfl := Option.some.inj hd
  have hclear : clear.Forwards 0 0 2 sampleGreeted [] := ⟨⟨_, hstreaming, rfl, rfl, rfl⟩, nofun⟩
  have hnone : ∀ e ∈ [Event.took 0, .split 0, .ended 0, .cleared 0] ++ .reported 0 :: [],
      ∀ j v, e ≠ .index j v := by
    intro e he j v h
    subst h
    simp at he
  have htold : (sampleDone r report).At 0
    ⟨true, .reading, 2, sampleGreeted ++ [⟨2, .indexDone (.from report)⟩]⟩ := rfl
  obtain ⟨arc, r', taken, report', hreport, -, hbuilt, hserving, hflag, hanswer, -⟩ :=
    hvisible _ _ _ _ _ _ _ _ _ hrun hclear hreported htold rfl .nil hnone ⟨_, htold, nofun⟩
  exact ⟨arc, r', report', hreport, ⟨taken, hbuilt⟩, hserving, hflag, hanswer⟩

end SiftMcp
