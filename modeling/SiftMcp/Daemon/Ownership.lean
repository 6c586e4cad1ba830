import SiftMcp.Daemon.Effects
import SiftMcp.Indexing.Histories

/-!
# Who owns the store

The store moves from the loader into the serving slot, from there to the worker that takes the
resident, and back. The flag keeps a second worker from starting while one is active, and a worker
takes only a resident that no request holds.

The invariant is `Exclusive`; `DaemonRun.single_writer` reads off it that two workers never own the
store at once.
-/

namespace SiftMcp

variable {cfg : DaemonConfig} {R : Retrieval} {s t : DaemonState} {e : Event} {es : List Event}
  {i w : Nat} {k k' : Worker}

namespace DaemonState

/-- At most one worker is active, and the flag is set for it. While the loader runs nothing is being
served, and while a worker owns the store nothing that others could hold is. What a query holds is
what is being served. -/
structure Exclusive (s : DaemonState) : Prop where
  flagged : ∀ w k, s.Works w k → k.phase.Active → s.indexing = true
  alone : ∀ w w' k k', s.Works w k → s.Works w' k' → k.phase.Active → k'.phase.Active → w = w'
  owned : ∀ w k, s.Works w k → k.phase.Owns →
    s.loading = false ∧ (s.serving = .starting ∨ ∃ f, s.serving = .indexing f)
  loading : s.loading = true → s.serving = .starting
  held : ∀ i arc r, s.Holds i arc r → s.serving = .ready arc r

namespace Exclusive

theorem start : Exclusive .start := by
  have hworks : ∀ {w k}, ¬DaemonState.start.Works w k := fun h => by cases h
  constructor
  · intro w k hw
    exact absurd hw hworks
  · intro w w' k k' hw
    exact absurd hw hworks
  · intro w k hw
    exact absurd hw hworks
  · intro _
    rfl
  · intro i arc r hi
    obtain ⟨c, hi, -⟩ := hi
    cases hi

/-- Steps of connections and of the accept loop. -/
theorem of_clients (h : Exclusive s) (hserving : t.serving = s.serving)
    (hindexing : t.indexing = s.indexing) (hloading : t.loading = s.loading)
    (hworkers : t.workers = s.workers)
    (hheld : ∀ i arc r, t.Holds i arc r → s.serving = .ready arc r) : Exclusive t := by
  have hworks : ∀ {w k}, t.Works w k → s.Works w k := fun hw => by rwa [Works, ← hworkers]
  constructor
  · intro w k hw hactive
    rw [hindexing]
    exact h.flagged w k (hworks hw) hactive
  · intro w w' k k' hw hw'
    exact h.alone w w' k k' (hworks hw) (hworks hw')
  · intro w k hw howns
    rw [hloading, hserving]
    exact h.owned w k (hworks hw) howns
  · intro hl
    rw [hserving]
    exact h.loading (hloading ▸ hl)
  · intro i arc r hi
    rw [hserving]
    exact hheld i arc r hi

/-- Steps of the active worker: it alone can be concerned. -/
theorem of_worker (h : Exclusive s) (hw : s.Works w k) (hactive : k.phase.Active)
    (hworkers : t.workers = (s.setWorker w k').workers) (hclients : t.clients = s.clients)
    (hl : t.loading = s.loading) (hflag : k'.phase.Active → t.indexing = true)
    (howned : k'.phase.Owns → s.loading = false ∧
      (t.serving = .starting ∨ ∃ f, t.serving = .indexing f))
    (hloading : s.loading = true → t.serving = .starting)
    (hheld : ∀ i arc r, s.Holds i arc r → t.serving = .ready arc r) : Exclusive t := by
  have hworks : ∀ {v kv}, t.Works v kv → kv.phase.Active → v = w ∧ kv = k' := by
    intro v kv hv hkv
    rcases hv.of_setWorker hworkers with hself | ⟨hvw, hv⟩
    · exact hself
    · exact absurd (h.alone v w kv k hv hw hkv hactive) hvw
  constructor
  · intro v kv hv hkv
    obtain ⟨-, rfl⟩ := hworks hv hkv
    exact hflag hkv
  · intro v v' kv kv' hv hv' hkv hkv'
    rw [(hworks hv hkv).1, (hworks hv' hkv').1]
  · intro v kv hv howns
    obtain ⟨-, rfl⟩ := hworks hv howns.active
    rw [hl]
    exact howned howns
  · intro hloads
    exact hloading (hl ▸ hloads)
  · intro i arc r hi
    obtain ⟨c, hi, hholds⟩ := hi
    exact hheld i arc r ⟨c, by rwa [At, ← hclients], hholds⟩

/-- A worker that owns the store leaves no query holding a resident. -/
theorem not_holds {arc : Nat} {r : Resident} (h : Exclusive s) (hw : s.Works w k)
    (howns : k.phase.Owns) : ¬s.Holds i arc r := by
  intro hi
  obtain ⟨-, hserving⟩ := h.owned w k hw howns
  rw [h.held i arc r hi] at hserving
  rcases hserving with hserving | ⟨f, hserving⟩
  · cases hserving
  · cases hserving

/-- The loader puts up what it has loaded, or why it could not. -/
theorem loaded (h : Exclusive s) (hloads : s.loading = true) (outcome : Except Fault Resident) :
    Exclusive (s.loaded outcome) := by
  have hnone : ∀ {i arc r}, ¬s.Holds i arc r := fun hi => by
    have hserving := h.loading hloads
    rw [h.held _ _ _ hi] at hserving
    cases hserving
  have howned : ∀ {w k}, s.Works w k → ¬k.phase.Owns := fun hw howns => by
    have hl := (h.owned _ _ hw howns).1
    rw [hloads] at hl
    cases hl
  -- Whatever is put up, no worker and no query depends on it.
  have hput : ∀ t : DaemonState, t.workers = s.workers → t.clients = s.clients →
      t.indexing = s.indexing → t.loading = false → Exclusive t := by
    intro t hworkers hclients hindexing hl
    have hworks : ∀ {w k}, t.Works w k → s.Works w k := fun hw => by rwa [Works, ← hworkers]
    constructor
    · intro w k hw hactive
      rw [hindexing]
      exact h.flagged w k (hworks hw) hactive
    · intro w w' k k' hw hw'
      exact h.alone w w' k k' (hworks hw) (hworks hw')
    · intro w k hw howns
      exact absurd howns (howned (hworks hw))
    · intro hl'
      rw [hl] at hl'
      cases hl'
    · intro i arc r hi
      obtain ⟨c, hi, hholds⟩ := hi
      exact absurd ⟨c, by rwa [At, ← hclients], hholds⟩ hnone
  cases outcome with
  | ok r => exact hput _ rfl rfl rfl rfl
  | error fault =>
    cases fault with
    | error e => exact hput _ rfl rfl rfl rfl
    | panic detail => exact hput _ rfl rfl rfl rfl

/-- With the flag clear, every worker has ended. -/
theorem ended (h : Exclusive s) (hflag : s.indexing = false) (hw : s.Works w k) :
    ¬k.phase.Active := by
  intro hactive
  have hset := h.flagged w k hw hactive
  rw [hflag] at hset
  cases hset

theorem ended_of_ne {v : Nat} (h : Exclusive s) (hflag : s.indexing = false)
    (ht : t.workers = (s.setWorker w k).workers) (hv : t.Works v k') (hactive : k'.phase.Active) :
    v = w := by
  rcases hv.of_setWorker ht with ⟨hvw, -⟩ | ⟨-, hv⟩
  · exact hvw
  · exact absurd hactive (h.ended hflag hv)

/-- Another worker is spawned, the flag being clear until then. -/
theorem spawn (h : Exclusive s) (hflag : s.indexing = false) (hphase : k.phase = .spawned) :
    Exclusive { s.setWorker w k with indexing := true } := by
  have hworks : ∀ {v kv}, (s.setWorker w k).Works v kv → kv.phase.Active → v = w ∧ kv = k := by
    intro v kv hv hactive
    rcases hv.of_setWorker rfl with hself | ⟨-, hv⟩
    · exact hself
    · exact absurd hactive (h.ended hflag hv)
  constructor
  · exact fun _ _ _ _ => rfl
  · intro v v' kv kv' hv hv' hactive hactive'
    rw [(hworks hv hactive).1, (hworks hv' hactive').1]
  · intro v kv hv howns
    obtain ⟨-, rfl⟩ := hworks hv howns.active
    rw [hphase] at howns
    cases howns
  · exact h.loading
  · exact h.held

theorem not_loading {arc : Nat} {r : Resident} (h : Exclusive s)
    (hready : s.serving = .ready arc r) : s.loading = false := by
  by_contra hl
  have hstarting := h.loading (by simpa using hl)
  rw [hready] at hstarting
  cases hstarting

/-- The worker goes on. -/
theorem worker (h : Exclusive s) (hw : s.Works w k)
    (hstep : WorkerStep cfg s w k.phase e t.serving t.indexing k'.phase)
    (hworkers : t.workers = (s.setWorker w k').workers) (hl : t.loading = s.loading)
    (hclients : t.clients = s.clients) : Exclusive t := by
  refine h.of_worker hw hstep.active hworkers hclients hl ?_ ?_ ?_ ?_
  · intro hactive
    rw [hstep.flag_eq hactive]
    exact h.flagged w k hw hstep.active
  · intro howns
    obtain ⟨hserving, hp | ⟨arc, r, hready⟩⟩ := hstep.owns howns
    · exact ⟨(h.owned w k hw hp).1, hserving⟩
    · exact ⟨h.not_loading hready, hserving⟩
  · intro hloads
    have hstarting := h.loading hloads
    have hp : ¬k.phase.Owns := by
      intro hp
      rw [(h.owned w k hw hp).1] at hloads
      cases hloads
    rcases hstep.slot hp with hsame | ⟨arc, r, hready, -⟩
    · rw [hsame]
      exact hstarting
    · rw [hready] at hstarting
      cases hstarting
  · intro i arc r hi
    have hready := h.held i arc r hi
    rcases hstep.slot fun hp => h.not_holds hw hp hi with hsame | ⟨arc', r', hready', hborrowed⟩
    · rw [hsame]
      exact hready
    · rw [hready] at hready'
      obtain ⟨rfl, rfl⟩ := ServingState.ready.inj hready'
      exact absurd (borrowed_iff.mpr ⟨i, r, hi⟩) hborrowed

theorem step (h : Exclusive s) (hstep : DaemonStep cfg R s e t) : Exclusive t := by
  cases hstep.effect with
  | loaded hloads => exact h.loaded hloads _
  | outer _ hserving hindexing hloading hworkers hheld =>
    refine h.of_clients hserving hindexing hloading hworkers fun i arc r hi => ?_
    exact (hheld i arc r hi).elim (h.held i arc r) id
  | @index i c w k hflag hnone hphase hholds =>
    have hset : Exclusive (s.setClient i c) := by
      refine h.of_clients rfl rfl rfl rfl fun j arc r hi => ?_
      rcases hi.of_setClient with hheld | hi
      · rw [hholds] at hheld
        cases hheld
      · exact h.held j arc r hi
    exact hset.spawn hflag hphase
  | worker hw hstep hworkers hl hclients => exact h.worker hw hstep hworkers hl hclients
  | returned hclosed =>
    have hnone : ∀ {i arc r}, ¬s.Holds i arc r := by
      intro i arc r hi
      obtain ⟨c, hi, hholds⟩ := hi
      rw [hclosed _ c hi] at hholds
      cases hholds
    constructor
    · exact h.flagged
    · exact h.alone
    · intro w k hw howns
      exact ⟨(h.owned w k hw howns).1, .inl rfl⟩
    · intro _
      rfl
    · intro i arc r hi
      exact absurd hi hnone

end Exclusive

end DaemonState

variable {cfg : DaemonConfig} {R : Retrieval} {s : DaemonState} {es : List Event}

theorem DaemonRun.exclusive (h : DaemonRun cfg R .start es s) : s.Exclusive :=
  h.invariant (fun _ _ _ h hstep => h.step hstep) .start

/-- However the tasks interleave: at most one worker owns the store, and while one does, the loader
has ended, the slot is empty or holds a frozen view, and no query holds a resident. -/
theorem DaemonRun.single_writer (h : DaemonRun cfg R .start es s) :
    (∀ w w' k k', s.Works w k → s.Works w' k' → k.phase.Owns → k'.phase.Owns → w = w') ∧
      ∀ w k, s.Works w k → k.phase.Owns → s.loading = false ∧
        (s.serving = .starting ∨ ∃ f, s.serving = .indexing f) ∧
        ∀ i c, s.At i c → c.phase.holds = none := by
  have hex := DaemonRun.exclusive h
  constructor
  · intro w w' k k' hw hw' howns howns'
    exact hex.alone w w' k k' hw hw' howns.active howns'.active
  · intro w k hw howns
    obtain ⟨hl, hserving⟩ := hex.owned w k hw howns
    refine ⟨hl, hserving, fun i c hi => ?_⟩
    cases hholds : c.phase.holds with
    | none => rfl
    | some held => exact absurd ⟨c, hi, hholds⟩ (hex.not_holds hw howns)

/-! ## A sample daemon -/

def sampleHost : Host := ⟨.ok, fun _ => .ok (1, 1)⟩

def sampleConfig : DaemonConfig := ⟨"store", "repo", sampleEmbedder⟩

/-- A directory without a store. -/
def sampleLoad : LoadEnv := ⟨sampleHost, Dir.empty, fun _ => false, [], none, none⟩

def sampleRetrieval : Retrieval where
  run _ _ _ _ _ _ _ := .ok ⟨[], ⟨true, true, none, none⟩⟩
  searchWithParts _ _ _ _ := .ok ⟨[], ⟨true, true, none, none⟩⟩
  mapOrder := id
  mapOrder_perm entries := .refl entries

def sampleResident : Resident where
  store := sampleStore
  lexical := .open []
  dense := ⟨[], 0, 2, "model", []⟩
  embedder := sampleEmbedder
  identity := ⟨"store", 1, "model", 1, 1⟩
  repoDir := "repo"

theorem sampleResident_loaded : Resident.load sampleLoad sampleConfig = .ok sampleResident := by
  have hstore : (ChunkStore.create sampleLoad.createFails sampleConfig.embedder.dims
    sampleConfig.embedder.modelId sampleLoad.dir).result = .ok sampleStore := sampleStore_created
  have hmodel : sampleStore.requireModel sampleConfig.embedder.modelId = .ok () := by decide +kernel
  have hdense : DenseIndex.fromStore sampleLoad.liveError sampleStore =
      .ok ⟨[], 0, 2, "model", []⟩ := by
    decide +kernel
  have hempty : sampleLoad.dir = Dir.empty := rfl
  rw [Resident.load, hstore, hempty]
  simp only [Dir.empty, Option.isSome_none, Bool.not_false, Bool.and_self, if_true, Except.mapError,
    hmodel, hdense, bind, Except.bind]
  rfl

def sampleGreeted : List (Envelope Response) := [⟨1, .hello 1 "model" sampleStore.stats.live⟩]

/-- A client is accepted and greeted. -/
theorem greeted_run {resp : Response} (hserve : s.serve = .selecting false)
    (hi : s.clients i = none) (hgate : s.gate (.hello 1 "client") = none)
    (hwelcome : s.welcome (.hello 1 "client") = .ok resp) :
    DaemonRun cfg R s [.poll, .accept i, .loop, .gated i (.hello 1 "client"), .greeted i]
      (({ s.setClient i ⟨false, .reading, 0, []⟩ with
        serve := .selecting false
        connectedClients := s.connectedClients + 1 }.setClient i
          ⟨false, .greeting (.hello 1 "client"), 1, []⟩).setClient i
            ⟨true, .reading, 1, [⟨1, resp⟩]⟩) := by
  have hpoll : DaemonStep cfg R s .poll { s with serve := .polled false } := .poll hserve
  let accepted := { s.setClient i ⟨false, .reading, 0, []⟩ with
    serve := .accepted
    connectedClients := s.connectedClients + 1 }
  have haccept : DaemonStep cfg R { s with serve := .polled false } (.accept i) accepted :=
    .accept rfl hi
  let waiting := { accepted with serve := .selecting false }
  have hloop : DaemonStep cfg R accepted .loop waiting := .loop (.inl rfl)
  have hwaiting : waiting.At i ⟨false, .reading, 0, []⟩ := Function.update_self ..
  let greeting := waiting.setClient i ⟨false, .greeting (.hello 1 "client"), 1, []⟩
  have hpassed : DaemonStep cfg R waiting (.gated i (.hello 1 "client")) greeting :=
    .passed hwaiting rfl rfl hgate
  have hgreeting : greeting.At i ⟨false, .greeting (.hello 1 "client"), 1, []⟩ :=
    Function.update_self ..
  exact .cons hpoll (.cons haccept (.cons hloop (.cons hpassed
    (.cons (.greeted hgreeting rfl hwelcome) .nil))))

/-- The store is loaded, and one client has been greeted. -/
def sampleReady : DaemonState :=
  let s := DaemonState.start.loaded (.ok sampleResident)
  let s := { s.setClient 0 ⟨false, .reading, 0, []⟩ with
    serve := .accepted
    connectedClients := s.connectedClients + 1 }
  let s := { s with serve := .selecting false }
  let s := s.setClient 0 ⟨false, .greeting (.hello 1 "client"), 1, []⟩
  s.setClient 0 ⟨true, .reading, 1, sampleGreeted⟩

theorem sampleReady_run : DaemonRun sampleConfig sampleRetrieval .start
    [.loaded (.ok sampleResident), .poll, .accept 0, .loop, .gated 0 (.hello 1 "client"),
      .greeted 0]
    sampleReady := by
  have hload := @DaemonStep.loaded sampleConfig sampleRetrieval .start sampleLoad rfl
  rw [sampleResident_loaded] at hload
  exact .cons hload (greeted_run rfl rfl rfl rfl)

/-- The client asks for an index of a directory. -/
def sampleAsked : DaemonState :=
  { (sampleReady.setClient 0 ⟨true, .streaming 0, 2, sampleGreeted⟩).setWorker 0
      ⟨.full, "elsewhere", .spawned⟩ with indexing := true }

theorem sampleAsked_step :
    DaemonStep sampleConfig sampleRetrieval sampleReady (.index 0 0) sampleAsked := by
  have hi : sampleReady.At 0 ⟨true, .reading, 1, sampleGreeted⟩ := rfl
  exact .index .full "elsewhere" hi rfl rfl rfl rfl

/-- The worker has taken the resident. -/
def sampleTaken : DaemonState :=
  { sampleAsked.setWorker 0 ⟨.full, "elsewhere", .taken sampleResident⟩ with serving := .starting }

theorem sampleTaken_step :
    DaemonStep sampleConfig sampleRetrieval sampleAsked (.took 0) sampleTaken := by
  have hw : sampleAsked.Works 0 ⟨.full, "elsewhere", .spawned⟩ := rfl
  refine .took hw rfl rfl fun ⟨i, c, r, q, hi, hphase⟩ => ?_
  cases i with
  | zero =>
    obtain rfl := Option.some.inj hi
    cases hphase
  | succ i => cases hi

/-- The worker owns the store then, and nothing is being served. -/
theorem DaemonRun.single_writer_taken :
    sampleTaken.Works 0 ⟨.full, "elsewhere", .taken sampleResident⟩ ∧ sampleTaken.loading = false ∧
      (sampleTaken.serving = .starting ∨ ∃ f, sampleTaken.serving = .indexing f) ∧
      ∀ i c, sampleTaken.At i c → c.phase.holds = none := by
  have hrun := sampleReady_run.append (.cons sampleAsked_step (.cons sampleTaken_step .nil))
  exact ⟨rfl, (DaemonRun.single_writer hrun).2 0 _ rfl trivial⟩

end SiftMcp
