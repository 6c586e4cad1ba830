import SiftMcp.Daemon.Client

/-!
# A store that is deleted or replaced

The directory at the path of the store, and what becomes of it while the daemon runs. A query is
checked against the directory that is there then. An index request is not: its worker splits the
resident, and the run opens the lexical index by its path again.

`WorldRun.replaced_untouched` is about the runs in which no worker does so: nothing at the path is
changed there, and no new request succeeds.
-/

namespace SiftMcp

/-! ## The directory of the store -/

structure Disk where
  /-- What the path of the store resolves to. -/
  path : String
  /-- Device and inode of the directory that is there. -/
  dir : Option (Nat × Nat)
  /-- The documents of the lexical index there, if the directory is another than that of the
  store. -/
  foreign : Option (List (RowId × LexicalDoc))
  /-- The daemon has created or changed something at the path, since the directory was last
  replaced. -/
  touched : Bool

namespace Disk

/-- It is asked for the directory of the store only. -/
def host (d : Disk) : Host where
  canonicalize _ := match d.dir with
    | some _ => .ok d.path
    | none => .error "No such file or directory (os error 2)"
  metadata _ := match d.dir with
    | some dir => .ok dir
    | none => .error "No such file or directory (os error 2)"

/-- The directory is deleted, or another one comes to be at its path, with a lexical index or
without. -/
def replacedBy (d : Disk) (other : Option ((Nat × Nat) × List (RowId × LexicalDoc))) : Disk :=
  { d with
    dir := other.map (·.1)
    foreign := some ((other.map (·.2)).getD [])
    touched := false }

/-- `LexicalIndex::open` creates its directory, and what is missing above it. -/
def opened (d : Disk) (made : Nat × Nat) : Disk :=
  { d with dir := some (d.dir.getD made), foreign := none, touched := true }

/-- What a run leaves of the directory. `Indexer::open` opens the lexical index as soon as the model
has been checked. -/
inductive Run (repo : RepoEnv) (embedder : Embedder) (store : ChunkStore) : Disk → Disk → Prop
  | unopened {d} : (∃ e, store.requireModel embedder.modelId = .error e) ∨ repo.openError ≠ none →
    Run repo embedder store d d
  | opened {d} (made : Nat × Nat) : store.requireModel embedder.modelId = .ok () →
    Run repo embedder store d (d.opened made)

end Disk

/-! ## Steps -/

/-- The daemon, and the directory of its store. -/
structure World where
  daemon : DaemonState
  disk : Disk

inductive WorldEvent
  | daemon (e : Event)
  | replaced (other : Option ((Nat × Nat) × List (RowId × LexicalDoc)))

/-- The step does not depend on the directory, and leaves it alone. -/
def Event.Inward : Event → Prop
  | .loaded _ | .answered _ | .split _ | .ended _ | .panicked _ => False
  | _ => True

/-- The step with which a run ends. -/
def RunEnd.event (w : Nat) : RunEnd → Event
  | .ready .. | .stale .. => .ended w
  | .panic _ => .panicked w

/-- The worker at the end of its run. -/
def DaemonState.finish (s : DaemonState) (w : Nat) (k : Worker) : RunEnd → DaemonState
  | .ready r report => (s.setWorker w { k with phase := .clearing (.ok report) }).putUp r
  | .stale reason e => { s.setWorker w { k with phase := .clearing (.error e) } with
      serving := .stale reason }
  | .panic _ => s.setWorker w { k with phase := .panicked }

/-- The steps of the daemon, on the directory as it is then. It is replaced only when no index
worker is active. -/
inductive WorldStep (cfg : DaemonConfig) (R : Retrieval) : World → WorldEvent → World → Prop
  | replaced {s d} other : (∀ w k, s.Works w k → ¬k.phase.Active) →
    WorldStep cfg R ⟨s, d⟩ (.replaced other) ⟨s, d.replacedBy other⟩
  | inward {s d e t} : e.Inward → DaemonStep cfg R s e t → WorldStep cfg R ⟨s, d⟩ (.daemon e) ⟨t, d⟩
  -- The loader creates what is missing, unless it fails before.
  | loaded {s d d' env} : s.loading = true → (d' = d ∨ ∃ made, d' = d.opened made) →
    env.host = d'.host →
    WorldStep cfg R ⟨s, d⟩ (.daemon (.loaded (Resident.load env cfg)))
      ⟨s.loaded (Resident.load env cfg), d'⟩
  | answered {s d i c serving q docs} : s.At i c → c.phase.holding = some (serving, q) →
    WorldStep cfg R ⟨s, d⟩ (.daemon (.answered i))
      ⟨s.setClient i (c.reply (toResponse ((serving.seeing docs).answer R d.host q))), d⟩
  -- The documents that the run is going to find are those at the path.
  | split {s d w k r fails f store repoDir embedder} : s.Works w k → k.phase = .taken r →
    splitForIndex fails r = .ok (f, store, repoDir, embedder) →
    WorldStep cfg R ⟨s, d⟩ (.daemon (.split w)) ⟨{ s.setWorker w { k with
      phase := .running store (d.foreign.getD r.lexical.durable) embedder } with
      serving := .indexing f }, d⟩
  | ended {s d d' w k store docs embedder repo rebuild out} : s.Works w k →
    k.phase = .running store docs embedder → Disk.Run repo embedder store d d' →
    rebuild.host = d'.host →
    runEnd repo rebuild cfg k store docs embedder = out →
    WorldStep cfg R ⟨s, d⟩ (.daemon (out.event w)) ⟨s.finish w k out, d'⟩

abbrev WorldRun (cfg : DaemonConfig) (R : Retrieval) : World → List WorldEvent → World → Prop :=
  Trace (WorldStep cfg R)

/-! ## Identities on record -/

def ServingState.identity : ServingState → Option StoreIdentity
  | ready _ r => some r.identity
  | indexing f => some f.identity
  | starting | stale _ => none

/-- A query can be checked against the identity: it is that of what is being served, or of what a
task holds. -/
def DaemonState.Records (s : DaemonState) (id : StoreIdentity) : Prop :=
  s.serving.identity = some id ∨
    ∃ i c serving q, s.At i c ∧ c.phase.holding = some (serving, q) ∧ serving.identity = some id

/-- The step splits no resident, and a directory that it brings to the path has another device or
inode than those on record. -/
def World.Spares (w : World) : WorldEvent → Prop
  | .replaced other => ∀ id, w.daemon.Records id → other.map (·.1) ≠ some (id.dirDev, id.dirIno)
  | .daemon (.split _) => False
  | .daemon _ => True

def SparingStep (cfg : DaemonConfig) (R : Retrieval) (w : World) (e : WorldEvent) (w' : World) :
    Prop :=
  WorldStep cfg R w e w' ∧ w.Spares e

abbrev SparingRun (cfg : DaemonConfig) (R : Retrieval) : World → List WorldEvent → World → Prop :=
  Trace (SparingStep cfg R)

/-- What a request for a search, a symbol or an index is answered with when it succeeds. -/
inductive Response.Success : Response → Prop
  | search resp : Success (.search resp)
  | symbol file symbol language signature lines body :
    Success (.symbol file symbol language signature lines body)
  | indexDone report : Success (.indexDone report)

/-- The step writes the response to the connection `i`. -/
def DaemonState.Writes (s t : DaemonState) (i : Nat) (resp : Response) : Prop :=
  ∃ c c' id, s.At i c ∧ t.At i c' ∧ c'.sent = c.sent ++ [⟨id, resp⟩]

variable {cfg : DaemonConfig} {R : Retrieval} {s s₀ t : DaemonState} {e : Event} {i j v w : Nat}
  {c c' : Client} {k : Worker} {r : Resident} {q : Query} {id : StoreIdentity} {d d' : Disk}
  {resp : Response} {docs : List (RowId × LexicalDoc)} {serving : ServingState}

/-! ## Queries on another directory -/

theorem StoreIdentity.checkStillValid_differs (h : d.dir ≠ some (id.dirDev, id.dirIno)) :
    ∃ e, id.checkStillValid d.host = .error e := by
  unfold checkStillValid Disk.host
  cases hdir : d.dir with
  | none => exact ⟨_, rfl⟩
  | some there =>
    obtain ⟨dev, ino⟩ := there
    by_cases hsame : dev = id.dirDev ∧ ino = id.dirIno
    · obtain ⟨rfl, rfl⟩ := hsame
      exact absurd hdir h
    · exact ⟨_, if_pos (not_and_or.mp hsame)⟩

theorem ServingState.answer_differs
    (h : ∀ id, serving.identity = some id → d.dir ≠ some (id.dirDev, id.dirIno)) :
    ∃ e, (serving.seeing docs).answer R d.host q = .error e := by
  cases serving with
  | starting => exact ⟨_, rfl⟩
  | stale reason => exact ⟨_, rfl⟩
  | ready arc r =>
    obtain ⟨e, he⟩ := StoreIdentity.checkStillValid_differs (h r.identity rfl)
    exact ⟨e, Resident.answer_stale he⟩
  | indexing f =>
    obtain ⟨e, he⟩ := StoreIdentity.checkStillValid_differs (h f.identity rfl)
    exact ⟨e, FrozenSearch.answer_stale he⟩

/-- Nothing is put on record but by the loader, and by a worker that splits a resident or ends its
run. -/
theorem DaemonStep.records (h : DaemonStep cfg R s e t) (hl : s.loading = false)
    (hsplit : ∀ w, e ≠ .split w) (hended : ∀ w, e ≠ .ended w) (ht : t.Records id) :
    s.Records id := by
  have hserving : t.serving.identity = some id → s.serving.identity = some id := by
    intro hid
    cases h.effect with
    | loaded hloads =>
      rw [hl] at hloads
      cases hloads
    | outer _ hs => rwa [hs] at hid
    | index => exact hid
    | returned => cases hid
    | @worker w k k' _ _ _ hstep =>
      generalize hp : k.phase = p at hstep
      generalize hp' : k'.phase = p' at hstep
      generalize hserves : t.serving = serving at hstep hid
      generalize hflag : t.indexing = flag at hstep
      cases hstep with
      | gaveBack | notReady | splitFailed | panicked | cleared => exact hid
      | took | stale => cases hid
      | split => exact absurd rfl (hsplit w)
      | ready => exact absurd rfl (hended w)
  rcases ht with hid | ⟨i, c, serving, q, hi, hholding, hid⟩
  · exact .inl (hserving hid)
  · rcases h.holding_cases hi hholding with ⟨c', hi', hholding'⟩ | hs
    · exact .inr ⟨i, c', serving, q, hi', hholding', hid⟩
    · exact .inl (by rwa [hs])

/-! ## Requests that succeed -/

theorem sent_ne {sent : List (Envelope Response)} {f : Envelope Response} : sent ≠ sent ++ [f] :=
  fun h => List.cons_ne_nil _ _ (List.append_right_eq_self.mp h.symm)

namespace DaemonState.Writes

theorem clients_ne (h : s.Writes t i resp) : t.clients ≠ s.clients := by
  intro ht
  obtain ⟨c, c', id, hi, hi', hsent⟩ := h
  rw [At, ht] at hi'
  obtain rfl := Option.some.inj (hi.symm.trans hi')
  exact sent_ne hsent

/-- It is the connection that takes the step. -/
theorem setClient (h : s.Writes t i resp) (hj : s.At j c)
    (ht : t.clients = (s.setClient j c').clients) :
    i = j ∧ ∃ id, c'.sent = c.sent ++ [⟨id, resp⟩] := by
  obtain ⟨d, d', id, hi, hi', hsent⟩ := h
  rcases hi'.of_setClient ht with ⟨rfl, rfl⟩ | ⟨-, hi'⟩
  · obtain rfl := Option.some.inj (hi.symm.trans hj)
    exact ⟨rfl, id, hsent⟩
  · obtain rfl := Option.some.inj (hi.symm.trans hi')
    exact absurd hsent sent_ne

theorem eq {n : Nat} {resp' : Response} (h : s.Writes t i resp) (hj : s.At j c)
    (ht : t.clients = (s.setClient j c').clients) (hsent : c'.sent = c.sent ++ [⟨n, resp'⟩]) :
    i = j ∧ resp = resp' := by
  obtain ⟨hij, id, hsent'⟩ := h.setClient hj ht
  rw [hsent] at hsent'
  exact ⟨hij, congrArg Envelope.payload (List.cons.inj (List.append_cancel_left hsent'.symm)).1⟩

end DaemonState.Writes

/-- A request succeeds with the answer to a query, or with the report of a worker that has
finished. -/
theorem DaemonStep.success_cases (h : DaemonStep cfg R s e t) (hwrites : s.Writes t i resp)
    (hsuccess : resp.Success) : e = .answered i ∨
      ∃ c w k report, s.At i c ∧ c.phase = .streaming w ∧ s.Works w k ∧
        k.phase = .finished (.ok report) := by
  have hsilent : ∀ {j : Nat} {c c' : Client}, s.At j c → t.clients = (s.setClient j c').clients →
      c'.sent = c.sent → False := by
    intro j c c' hj ht hsent
    obtain ⟨-, id, hsent'⟩ := hwrites.setClient hj ht
    exact sent_ne (hsent.symm.trans hsent')
  have hfailed : ∀ {j n : Nat} {c c' : Client} {e : DaemonError}, s.At j c →
      t.clients = (s.setClient j c').clients → c'.sent = c.sent ++ [⟨n, .error e⟩] → False := by
    intro j n c c' e hj ht hsent
    rw [(hwrites.eq hj ht hsent).2] at hsuccess
    cases hsuccess
  cases h with
  | poll | pend | tick | loop | idle | shutdown | returned | gaveBack | notReady | took | split
  | splitFailed | ready | stale | panicked | cleared => exact absurd rfl hwrites.clients_ne
  | loaded => exact absurd DaemonState.loaded_clients hwrites.clients_ne
  | accept _ hj =>
    obtain ⟨c, c', id, hi, hi', hsent⟩ := hwrites
    obtain rfl := Option.some.inj ((DaemonState.at_of_none hj rfl hi).symm.trans hi')
    exact absurd hsent sent_ne
  | closed hj | passed hj | borrowed hj | viewed hj | index _ _ hj =>
    exact (hsilent hj rfl rfl).elim
  | garbled hj | secondHello hj | turnedAway hj | refused hj | vanished hj =>
    exact (hfailed hj rfl rfl).elim
  | gated hj _ _ hgate =>
    obtain ⟨-, rfl⟩ := hwrites.eq hj rfl rfl
    rcases DaemonState.gate_cases hgate with ⟨e, rfl⟩ | ⟨status, rfl⟩
    · cases hsuccess
    · cases hsuccess
  | greeted hj _ hwelcome =>
    obtain ⟨-, rfl⟩ := hwrites.eq hj rfl rfl
    obtain ⟨v, m, n, rfl⟩ := DaemonState.welcome_cases.1 hwelcome
    cases hsuccess
  | unwelcome hj _ hwelcome =>
    obtain ⟨-, rfl⟩ := hwrites.eq hj rfl rfl
    obtain ⟨e, rfl⟩ := DaemonState.welcome_cases.2 hwelcome
    cases hsuccess
  | statusRequest hj | shutdownRequest hj | progressed hj =>
    obtain ⟨-, rfl⟩ := hwrites.eq hj rfl rfl
    cases hsuccess
  | answered _ hj | answeredFrozen _ hj =>
    obtain ⟨rfl, -⟩ := hwrites.setClient hj rfl
    exact .inl rfl
  | @reported j d w k done hj hstreaming hw hfinished =>
    cases done with
    | error e => exact (hfailed hj rfl rfl).elim
    | ok report =>
      obtain ⟨rfl, -⟩ := hwrites.setClient hj rfl
      exact .inr ⟨d, w, k, report, hj, hstreaming, hw, hfinished⟩

/-! ## Steps of the daemon -/

theorem DaemonState.finish_step {store : ChunkStore} {embedder : Embedder} {repo : RepoEnv}
    {rebuild : RebuildEnv} (hw : s.Works w k) (hphase : k.phase = .running store docs embedder) :
    DaemonStep cfg R s ((runEnd repo rebuild cfg k store docs embedder).event w)
      (s.finish w k (runEnd repo rebuild cfg k store docs embedder)) := by
  cases hend : runEnd repo rebuild cfg k store docs embedder with
  | ready r report => exact .ready hw hphase hend
  | stale reason e => exact .stale hw hphase hend
  | panic detail => exact .panicked hw hphase hend

theorem DaemonState.answered_step {host : Host} (hi : s.At i c)
    (hholding : c.phase.holding = some (serving, q)) :
    DaemonStep cfg R s (.answered i)
      (s.setClient i (c.reply (toResponse ((serving.seeing docs).answer R host q)))) := by
  cases hphase : c.phase with
  | borrowing arc r q' =>
    rw [hphase] at hholding
    obtain ⟨rfl, rfl⟩ := Prod.mk.inj (Option.some.inj hholding)
    exact .answered host hi hphase
  | viewing f q' =>
    rw [hphase] at hholding
    obtain ⟨rfl, rfl⟩ := Prod.mk.inj (Option.some.inj hholding)
    exact .answeredFrozen host hi hphase
  | reading | greeting | streaming | closed =>
    rw [hphase] at hholding
    cases hholding

namespace WorldStep

/-- While the directory is that of the store, or unless a resident is split, the step is one of the
daemon. -/
theorem daemon {w w' : World} (h : WorldStep cfg R w (.daemon e) w')
    (hsame : w.disk.foreign = none ∨ ∀ v, e ≠ .split v) :
    DaemonStep cfg R w.daemon e w'.daemon := by
  cases h with
  | inward _ hstep => exact hstep
  | loaded hloads => exact .loaded hloads
  | answered hi hholding => exact DaemonState.answered_step hi hholding
  | split hw hphase hsplit =>
    rcases hsame with hforeign | hsplits
    · dsimp only at hforeign
      rw [hforeign]
      exact .split hw hphase hsplit
    · exact absurd rfl (hsplits _)
  | ended hw hphase _ _ hend =>
    subst hend
    exact DaemonState.finish_step hw hphase

theorem foreign {w w' : World} (h : WorldStep cfg R w (.daemon e) w')
    (hsame : w.disk.foreign = none) : w'.disk.foreign = none := by
  cases h with
  | inward | answered | split => exact hsame
  | loaded _ hmade =>
    rcases hmade with rfl | ⟨made, rfl⟩
    · exact hsame
    · rfl
  | ended _ _ hrun =>
    cases hrun with
    | unopened => exact hsame
    | opened => rfl

end WorldStep

/-- Until the directory is replaced, the daemon runs as it does on any other. -/
theorem WorldRun.daemon {w w' : World} {es : List Event} (h : WorldRun cfg R w (es.map .daemon) w')
    (hsame : w.disk.foreign = none) : DaemonRun cfg R w.daemon es w'.daemon := by
  generalize hes : es.map WorldEvent.daemon = es' at h
  induction h generalizing es with
  | nil =>
    obtain rfl := List.map_eq_nil_iff.mp hes
    exact .nil
  | cons hstep _ ih =>
    obtain ⟨e, es, rfl, rfl, rfl⟩ := List.map_eq_cons_iff.mp hes
    exact .cons (hstep.daemon (.inl hsame)) (ih (hstep.foreign hsame) rfl)

/-! ## Runs that split no resident -/

/-- The worker has not split the resident, and has nothing to report but an error. -/
def WorkerPhase.Unsplit : WorkerPhase → Prop
  | spawned | taken _ | finished (.error _) => True
  | _ => False

theorem WorkerStep.unsplit {p p' : WorkerPhase} {flag : Bool}
    (h : WorkerStep cfg s w p e serving flag p') (hp : p.Unsplit) (hsplit : ∀ v, e ≠ .split v) :
    p'.Unsplit := by
  cases h with
  | gaveBack | notReady | took | splitFailed => trivial
  | split => exact absurd rfl (hsplit w)
  | ready | stale | panicked | cleared => exact hp.elim

/-- Nothing on record is of the directory that is there, and the workers spawned since the state
`s₀` have split no resident. -/
structure World.Severed (s₀ : DaemonState) (w : World) : Prop where
  loaded : w.daemon.loading = false
  untouched : w.disk.touched = false
  differs : ∀ id, w.daemon.Records id → w.disk.dir ≠ some (id.dirDev, id.dirIno)
  workers : ∀ v k, w.daemon.Works v k → k.phase.Unsplit ∨ s₀.Works v k ∧ ¬k.phase.Active
  keeps : ∀ v k, s₀.Works v k → ∃ k', w.daemon.Works v k'
  streams : ∀ i c v k, w.daemon.At i c → c.phase = .streaming v → s₀.Works v k →
    ∃ c₀, s₀.At i c₀ ∧ c₀.phase = .streaming v

namespace DaemonStep

theorem stays_loaded (h : DaemonStep cfg R s e t) (hl : s.loading = false) : t.loading = false := by
  cases h.effect with
  | loaded hloads =>
    rw [hl] at hloads
    cases hloads
  | outer _ _ _ ht => rwa [ht]
  | worker _ _ _ ht => rwa [ht]
  | index | returned => exact hl

theorem stays_unsplit (h : DaemonStep cfg R s e t) (hl : s.loading = false)
    (hsplit : ∀ w, e ≠ .split w) (hs : ∀ v k, s.Works v k → k.phase.Unsplit ∨ s₀.Works v k ∧
      ¬k.phase.Active) (ht : t.Works v k) :
    k.phase.Unsplit ∨ s₀.Works v k ∧ ¬k.phase.Active := by
  cases h.effect with
  | loaded hloads =>
    rw [hl] at hloads
    cases hloads
  | outer _ _ _ _ hworkers =>
    rw [DaemonState.Works, hworkers] at ht
    exact hs v k ht
  | @index j c w k' _ _ hspawned =>
    rcases ht.of_setWorker rfl with ⟨-, rfl⟩ | ⟨-, hw⟩
    · rw [hspawned]
      exact .inl trivial
    · exact hs v k hw
  | @worker w k₀ k' _ _ hw hstep hworkers =>
    rcases ht.of_setWorker hworkers with ⟨-, rfl⟩ | ⟨-, hv⟩
    · rcases hs w k₀ hw with hunsplit | ⟨-, hended⟩
      · exact .inl (hstep.unsplit hunsplit hsplit)
      · exact absurd hstep.active hended
    · exact hs v k hv
  | returned => exact hs v k ht

end DaemonStep

namespace World.Severed

variable {w w' : World} {we : WorldEvent}

theorem not_running {store : ChunkStore} {embedder : Embedder} (h : w.Severed s₀)
    (hw : w.daemon.Works v k) : k.phase ≠ .running store docs embedder := by
  intro hphase
  rcases h.workers v k hw with hunsplit | ⟨-, hended⟩
  · rw [hphase] at hunsplit
    exact hunsplit
  · rw [hphase] at hended
    exact hended trivial

/-- The directory is left alone, and no run ends. -/
theorem idle (h : w.Severed s₀) (hstep : WorldStep cfg R w (.daemon e) w') :
    w'.disk = w.disk ∧ ∀ v, e ≠ .ended v := by
  cases hstep with
  | inward he =>
    refine ⟨rfl, fun v hv => ?_⟩
    subst hv
    exact he
  | answered | split => exact ⟨rfl, fun v => nofun⟩
  | loaded hloads =>
    have hl := h.loaded
    rw [hloads] at hl
    cases hl
  | ended hw hphase => exact absurd hphase (h.not_running hw)

theorem step (h : w.Severed s₀) (hstep : SparingStep cfg R w we w') : w'.Severed s₀ := by
  obtain ⟨hstep, hspares⟩ := hstep
  cases we with
  | replaced other =>
    cases hstep with
    | replaced other hidle => exact ⟨h.loaded, rfl, hspares, h.workers, h.keeps, h.streams⟩
  | daemon e =>
    have hsplit : ∀ v, e ≠ .split v := by
      intro v hv
      subst hv
      exact hspares
    obtain ⟨hdisk, hended⟩ := h.idle hstep
    have hdaemon := hstep.daemon (.inr hsplit)
    refine ⟨hdaemon.stays_loaded h.loaded, by rw [hdisk]; exact h.untouched, fun id hid => ?_,
      fun v k => ?_, fun v k hw => ?_, fun i c v k hi hstreaming hw => ?_⟩
    · rw [hdisk]
      exact h.differs id (hdaemon.records h.loaded hsplit hended hid)
    · exact hdaemon.stays_unsplit h.loaded hsplit h.workers
    · obtain ⟨k₁, hw₁⟩ := h.keeps v k hw
      obtain ⟨k₂, hw₂, -⟩ := hdaemon.keeps_request hw₁
      exact ⟨k₂, hw₂⟩
    · obtain ⟨k₁, hw₁⟩ := h.keeps v k hw
      rcases hdaemon.streaming_cases hi hstreaming with ⟨c', hi', hstreaming'⟩ | hnone
      · exact h.streams i c' v k hi' hstreaming' hw
      · cases hnone.symm.trans hw₁

/-- Only an index request succeeds, and one that has been waiting for its worker since the state
`s₀`. -/
theorem success (h : w.Severed s₀) (hstep : SparingStep cfg R w we w')
    (hwrites : w.daemon.Writes w'.daemon i resp) (hsuccess : resp.Success) :
    ∃ c c₀ v, w.daemon.At i c ∧ c.phase = .streaming v ∧ s₀.At i c₀ ∧ c₀.phase = .streaming v := by
  obtain ⟨hstep, hspares⟩ := hstep
  cases hstep with
  | replaced => exact absurd rfl hwrites.clients_ne
  | inward he hdaemon =>
    rcases hdaemon.success_cases hwrites hsuccess with rfl |
      ⟨c, v, k, report, hi, hstreaming, hw, hfinished⟩
    · exact he.elim
    · rcases h.workers v k hw with hunsplit | ⟨hw₀, -⟩
      · rw [hfinished] at hunsplit
        exact hunsplit.elim
      · obtain ⟨c₀, hi₀, hstreaming₀⟩ := h.streams i c v k hi hstreaming hw₀
        exact ⟨c, c₀, v, hi, hstreaming, hi₀, hstreaming₀⟩
  | @answered s d j c serving q docs hj hholding =>
    have hdiffers : ∀ id, serving.identity = some id → d.dir ≠ some (id.dirDev, id.dirIno) :=
      fun id hid => h.differs id (.inr ⟨j, c, serving, q, hj, hholding, hid⟩)
    obtain ⟨e, he⟩ := @ServingState.answer_differs R q d docs serving hdiffers
    obtain ⟨-, rfl⟩ := hwrites.eq hj rfl rfl
    rw [he] at hsuccess
    cases hsuccess
  | loaded hloads =>
    have hl := h.loaded
    rw [hloads] at hl
    cases hl
  | split => exact hspares.elim
  | ended hw hphase => exact absurd hphase (h.not_running hw)

end World.Severed

/-- The store has been loaded, and its directory is deleted or replaced while no index worker is
active. As long as no resident is split, and nothing at the path can be taken for the directory that
it was, the daemon creates and changes nothing there, and no request succeeds that comes in: one
that does is an index request that was waiting for its worker already. -/
theorem WorldRun.replaced_untouched {w w₁ w₂ : World} {es : List WorldEvent}
    {other : Option ((Nat × Nat) × List (RowId × LexicalDoc))} (hloaded : w.daemon.loading = false)
    (hreplaced : SparingStep cfg R w (.replaced other) w₁) (hrun : SparingRun cfg R w₁ es w₂) :
    w₂.disk.touched = false ∧ ∀ e w₃ i resp, SparingStep cfg R w₂ e w₃ →
      w₂.daemon.Writes w₃.daemon i resp → resp.Success →
        ∃ c c₀ v, w₂.daemon.At i c ∧ c.phase = .streaming v ∧
          w.daemon.At i c₀ ∧ c₀.phase = .streaming v := by
  have hsevered : w₁.Severed w.daemon := by
    obtain ⟨hstep, hspares⟩ := hreplaced
    cases hstep with
    | replaced other hidle =>
      exact ⟨hloaded, rfl, hspares, fun v k hw => .inr ⟨hw, hidle v k hw⟩, fun v k hw => ⟨k, hw⟩,
        fun i c v k hi hstreaming hw => ⟨c, hi, hstreaming⟩⟩
  have hsevered := hrun.invariant (fun _ _ _ h hstep => h.step hstep) hsevered
  exact ⟨hsevered.untouched, fun e w₃ i resp hstep => hsevered.success hstep⟩

/-! ## A directory that is deleted -/

/-- Steps that do not depend on the directory are taken on any. -/
theorem WorldRun.of_inward {es : List Event} (h : DaemonRun cfg R s es t)
    (hes : ∀ e ∈ es, e.Inward) : WorldRun cfg R ⟨s, d⟩ (es.map .daemon) ⟨t, d⟩ := by
  induction h with
  | nil => exact .nil
  | cons hstep _ ih =>
    obtain ⟨he, hes⟩ := List.forall_mem_cons.mp hes
    exact .cons (.inward he hstep) (ih hes)

theorem Resident.load_host {env : LoadEnv} {host : Host}
    (h : StoreIdentity.capture host cfg.storeDir cfg.embedder.modelId =
      StoreIdentity.capture env.host cfg.storeDir cfg.embedder.modelId) :
    Resident.load { env with host } cfg = Resident.load env cfg := by
  simp only [Resident.load, h]

/-- The store is there, as the loader has created it. -/
def sampleDisk : Disk := Disk.opened ⟨"store", none, none, false⟩ (1, 1)

theorem sampleDisk_run : ∃ es, WorldRun sampleConfig sampleRetrieval
    ⟨.start, ⟨"store", none, none, false⟩⟩ es ⟨sampleReady, sampleDisk⟩ := by
  have hload : Resident.load { sampleLoad with host := sampleDisk.host } sampleConfig =
      .ok sampleResident :=
    (Resident.load_host rfl).trans sampleResident_loaded
  have hloaded := @WorldStep.loaded sampleConfig sampleRetrieval .start ⟨"store", none, none, false⟩
    sampleDisk { sampleLoad with host := sampleDisk.host } rfl (.inr ⟨(1, 1), rfl⟩) rfl
  rw [hload] at hloaded
  have hgreeted :
      DaemonRun sampleConfig sampleRetrieval (DaemonState.start.loaded (.ok sampleResident))
      [.poll, .accept 0, .loop, .gated 0 (.hello 1 "client"), .greeted 0] sampleReady :=
    greeted_run rfl rfl rfl rfl
  refine ⟨_, .cons hloaded (WorldRun.of_inward hgreeted fun e he => ?_)⟩
  simp only [List.mem_cons, List.not_mem_nil, or_false] at he
  rcases he with rfl | rfl | rfl | rfl | rfl
  all_goals trivial

theorem sampleDisk_deleted : SparingStep sampleConfig sampleRetrieval ⟨sampleReady, sampleDisk⟩
    (.replaced none) ⟨sampleReady, sampleDisk.replacedBy none⟩ := by
  refine ⟨.replaced none fun w k hw => ?_, fun id hid => nofun⟩
  cases hw

/-- The client asks for a symbol then. It is not told of one, nor is anything else done. -/
theorem WorldRun.replaced_untouched_deleted : ∃ w,
    SparingRun sampleConfig sampleRetrieval ⟨sampleReady, sampleDisk.replacedBy none⟩
      [.daemon (.borrowed 0 sampleQuery)] w ∧
    w.disk.touched = false ∧ ∀ e w' i resp, SparingStep sampleConfig sampleRetrieval w e w' →
      w.daemon.Writes w'.daemon i resp → ¬resp.Success := by
  have hi : sampleReady.At 0 ⟨true, .reading, 1, sampleGreeted⟩ := rfl
  have hborrowed : DaemonStep sampleConfig sampleRetrieval sampleReady
      (.borrowed 0 sampleQuery) _ :=
    @DaemonStep.borrowed _ _ _ _ _ 2 _ _ _ hi rfl rfl rfl
  have hrun : SparingRun sampleConfig sampleRetrieval ⟨sampleReady, sampleDisk.replacedBy none⟩
      [.daemon (.borrowed 0 sampleQuery)] _ := .cons ⟨.inward trivial hborrowed, trivial⟩ .nil
  obtain ⟨huntouched, hsuccess⟩ := WorldRun.replaced_untouched rfl sampleDisk_deleted hrun
  refine ⟨_, hrun, huntouched, fun e w' i resp hstep hwrites hresp => ?_⟩
  obtain ⟨c, c₀, v, -, -, hi₀, hstreaming⟩ := hsuccess e w' i resp hstep hwrites hresp
  cases i with
  | zero =>
    obtain rfl := Option.some.inj hi₀
    cases hstreaming
  | succ i => cases hi₀

/-- The directory of the run that makes it again. -/
def sampleRemade : Disk := (sampleDisk.replacedBy none).opened (1, 2)

theorem runEnd_remade : ∃ r report, runEnd sampleInside ⟨sampleRemade.host, none, none⟩ sampleConfig
    ⟨.full, "elsewhere", .running sampleStore [] sampleEmbedder⟩ sampleStore [] sampleEmbedder =
      .ready r report := by
  apply RunEnd.ready_of_isReady
  decide +kernel

/-- The client asks for an index. The run makes the directory again, and the client is told that it
is done. -/
theorem sampleRemade_run {report : IndexReport}
    (hend : runEnd sampleInside ⟨sampleRemade.host, none, none⟩ sampleConfig
      ⟨.full, "elsewhere", .running sampleStore [] sampleEmbedder⟩ sampleStore [] sampleEmbedder =
        .ready r report) :
    WorldRun sampleConfig sampleRetrieval ⟨sampleReady, sampleDisk.replacedBy none⟩
      ([.index 0 0, .took 0, .split 0, .ended 0, .cleared 0, .reported 0].map .daemon)
      ⟨sampleDone r report, sampleRemade⟩ := by
  have htaken : sampleTaken.Works 0 ⟨.full, "elsewhere", .taken sampleResident⟩ := rfl
  have hsplit : WorldStep sampleConfig sampleRetrieval ⟨sampleTaken, sampleDisk.replacedBy none⟩
      (.daemon (.split 0)) ⟨sampleRunning, sampleDisk.replacedBy none⟩ :=
    @WorldStep.split _ _ _ (sampleDisk.replacedBy none) _ _ _ (fun _ => none) _ _ _ _ htaken rfl rfl
  have hrunning : sampleRunning.Works 0
    ⟨.full, "elsewhere", .running sampleStore [] sampleEmbedder⟩ := rfl
  have hmodel : sampleStore.requireModel sampleEmbedder.modelId = .ok () := by decide +kernel
  have hended :=
    @WorldStep.ended sampleConfig sampleRetrieval sampleRunning (sampleDisk.replacedBy none)
    sampleRemade 0 _ sampleStore [] sampleEmbedder sampleInside ⟨sampleRemade.host, none, none⟩ _
    hrunning rfl (.opened (1, 2) hmodel) rfl hend
  let up := (sampleRunning.setWorker 0 ⟨.full, "elsewhere", .clearing (.ok report)⟩).putUp r
  have hclearing : up.Works 0 ⟨.full, "elsewhere", .clearing (.ok report)⟩ := rfl
  let clear :=
    { up.setWorker 0 ⟨.full, "elsewhere", .finished (.ok report)⟩ with indexing := false }
  have hcleared : DaemonStep sampleConfig sampleRetrieval up (.cleared 0) clear :=
    .cleared hclearing rfl
  have hstreaming : clear.At 0 ⟨true, .streaming 0, 2, sampleGreeted⟩ := rfl
  have hfinished : clear.Works 0 ⟨.full, "elsewhere", .finished (.ok report)⟩ := rfl
  have hreported : DaemonStep sampleConfig sampleRetrieval clear (.reported 0)
      (sampleDone r report) :=
    .reported hstreaming rfl hfinished rfl
  exact .cons (.inward trivial sampleAsked_step) (.cons (.inward trivial sampleTaken_step)
    (.cons hsplit (.cons hended (.cons (.inward trivial hcleared)
      (.cons (.inward trivial hreported) .nil)))))

/-- The directory is deleted, and then an index is asked for. The run makes the directory again and
succeeds, and the daemon searches what it has built of it. -/
theorem deleted_store_indexed : ∃ es w report w' resp, WorldRun sampleConfig sampleRetrieval
      ⟨.start, ⟨"store", none, none, false⟩⟩ es ⟨sampleReady, sampleDisk⟩ ∧
    sampleReady.loading = false ∧
    WorldStep sampleConfig sampleRetrieval ⟨sampleReady, sampleDisk⟩ (.replaced none)
      ⟨sampleReady, sampleDisk.replacedBy none⟩ ∧
    WorldRun sampleConfig sampleRetrieval ⟨sampleReady, sampleDisk.replacedBy none⟩
      ([.index 0 0, .took 0, .split 0, .ended 0, .cleared 0, .reported 0].map .daemon) w ∧
    w.disk.touched = true ∧ sampleReady.Writes w.daemon 0 (.indexDone report) ∧
    WorldRun sampleConfig sampleRetrieval w
      ([.borrowed 0 (.search "text" 5), .answered 0].map .daemon) w' ∧
    w.daemon.Writes w'.daemon 0 (.search resp) := by
  obtain ⟨r, report, hend⟩ := runEnd_remade
  obtain ⟨es, hrun⟩ := sampleDisk_run
  have hfirst : sampleReady.At 0 ⟨true, .reading, 1, sampleGreeted⟩ := rfl
  let told : List (Envelope Response) := sampleGreeted ++ [⟨2, .indexDone (.from report)⟩]
  have hdone : (sampleDone r report).At 0 ⟨true, .reading, 2, told⟩ := rfl
  have hborrowed : DaemonStep sampleConfig sampleRetrieval (sampleDone r report)
      (.borrowed 0 (.search "text" 5)) _ :=
    @DaemonStep.borrowed _ _ _ _ _ 3 _ _ _ hdone rfl rfl rfl
  let borrowing : Client := ⟨true, .borrowing 1 r (.search "text" 5), 3, told⟩
  have hholding : ((sampleDone r report).setClient 0 borrowing).At 0 borrowing := rfl
  have hanswered :=
    @WorldStep.answered sampleConfig sampleRetrieval _ sampleRemade 0 borrowing _ _ [] hholding rfl
  -- The resident that the run has built is of the directory that it has made.
  have hidentity : r.identity.checkStillValid sampleRemade.host = .ok () := by
    obtain ⟨-, -, -, hcapture⟩ := runEnd_built hend
    have hmade := Except.ok.inj hcapture
    rw [← hmade]
    rfl
  have hfound : r.answer sampleRetrieval sampleRemade.host (.search "text" 5) =
      .ok (.search ⟨[], ⟨true, true, none, none⟩⟩) := by
    rw [Resident.answer, Resident.search, hidentity]
    rfl
  refine ⟨es, _, _, _, ⟨[], ⟨true, true, none, none⟩⟩, hrun, rfl, sampleDisk_deleted.1,
    sampleRemade_run hend, rfl, ⟨_, _, 2, hfirst, hdone, rfl⟩,
      .cons (.inward trivial hborrowed) (.cons hanswered .nil),
    ⟨_, _, 3, hdone, rfl, ?_⟩⟩
  show told ++ [⟨3, toResponse (r.answer sampleRetrieval sampleRemade.host (.search "text" 5))⟩] = _
  rw [hfound]
  rfl

end SiftMcp
