import SiftMcp.Daemon.Resident
import SiftMcp.Lib.Traces
import Mathlib.Logic.Function.Basic

/-!
# The server

The state that the tasks of the daemon share, and the steps they take on it: the loader, the accept
loop, one task for each connection and one thread for each accepted index request. A step is what a
task does between two moments at which another could see or change something of what it uses. The
serving state is read and written under its lock, the indexing flag is atomic, and a resident is
taken apart only by the last who holds it. The permits that bound the number of searches are left
out; they only delay requests.
-/

namespace SiftMcp

/-! ## State -/

/-- `arc` tells the residents apart that are put up one after the other: a request that holds a
clone holds it of one of them. -/
inductive ServingState
  | starting
  | ready (arc : Nat) (r : Resident)
  | indexing (f : FrozenSearch)
  | stale (reason : String)

/-- How far an index worker has come. From `taken` to the end of `running` the store is its own.
When it is `clearing`, it has put up what comes after, and is about to clear the flag. -/
inductive WorkerPhase
  | spawned
  | taken (r : Resident)
  | running (store : ChunkStore) (docs : List (RowId × LexicalDoc)) (embedder : Embedder)
  | clearing (done : Except DaemonError IndexReport)
  | finished (done : Except DaemonError IndexReport)
  | panicked

structure Worker where
  mode : IndexMode
  repoDir : String
  phase : WorkerPhase

/-- The thread has not ended. -/
def WorkerPhase.Active : WorkerPhase → Prop
  | spawned | taken _ | running .. | clearing _ => True
  | finished _ | panicked => False

/-- The thread owns the store. -/
def WorkerPhase.Owns : WorkerPhase → Prop
  | taken _ | running .. => True
  | _ => False

theorem WorkerPhase.Owns.active : ∀ {p : WorkerPhase}, p.Owns → p.Active
  | taken _, _ | running .., _ => trivial

/-- What the task of a connection is at. `borrowing` holds a clone of a resident, `viewing` one of a
frozen view. -/
inductive ClientPhase
  | reading
  | greeting (req : Request)
  | borrowing (arc : Nat) (r : Resident) (q : Query)
  | viewing (f : FrozenSearch) (q : Query)
  | streaming (worker : Nat)
  | closed

structure Client where
  helloDone : Bool
  phase : ClientPhase
  /-- The id of the request last read. -/
  requestId : Nat
  /-- The frames written, newest last. -/
  sent : List (Envelope Response)

/-- Read a request. -/
def Client.read (c : Client) (id : Nat) : Client := { c with requestId := id }

/-- Write a response under the id of the request. -/
def Client.write (c : Client) (r : Response) : Client :=
  { c with sent := c.sent ++ [⟨c.requestId, r⟩] }

@[simp] theorem Client.write_phase (c : Client) (r : Response) : (c.write r).phase = c.phase := rfl

/-- Write a response, and wait for the next request. -/
def Client.reply (c : Client) (r : Response) : Client := { c.write r with phase := .reading }

def Client.close (c : Client) : Client := { c with phase := .closed }

/-- The accept loop. It waits for a shutdown, for its periodic check, or for a connection; the
future of the shutdown lives only while it waits. Where it is `polled`, that future has been found
not to be ready, and the other two are looked at. -/
inductive ServePhase
  | selecting (notified : Bool)
  | polled (notified : Bool)
  | accepted
  | checking
  | draining
  | returned

structure DaemonState where
  serving : ServingState
  indexing : Bool
  loading : Bool
  serve : ServePhase
  connectedClients : Nat
  clients : Nat → Option Client
  workers : Nat → Option Worker
  /-- The next resident to be put up. -/
  arcs : Nat

namespace DaemonState

/-- `SharedState::new`, with the loader and the accept loop started. -/
def start : DaemonState where
  serving := .starting
  indexing := false
  loading := true
  serve := .selecting false
  connectedClients := 0
  clients := fun _ => none
  workers := fun _ => none
  arcs := 0

def setClient (s : DaemonState) (i : Nat) (c : Client) : DaemonState :=
  { s with clients := Function.update s.clients i (some c) }

def setWorker (s : DaemonState) (w : Nat) (k : Worker) : DaemonState :=
  { s with workers := Function.update s.workers w (some k) }

/-- The task of a connection ends. -/
def closeClient (s : DaemonState) (i : Nat) (c : Client) : DaemonState :=
  { s.setClient i c.close with connectedClients := s.connectedClients - 1 }

/-- Put a resident up. -/
def putUp (s : DaemonState) (r : Resident) : DaemonState :=
  { s with serving := .ready s.arcs r, arcs := s.arcs + 1 }

/-- `notify_waiters`: only a future that exists is woken. -/
def notify (s : DaemonState) : DaemonState :=
  { s with serve := match s.serve with
      | .selecting _ => .selecting true
      | .polled _ => .polled true
      | serve => serve }

def status (s : DaemonState) : DaemonStatus :=
  match s.serving with
  | .ready _ r =>
    ⟨r.embedder.modelId, r.store.stats.live, r.store.stats.dead, r.store.indexedCommit, false, 0⟩
  | .indexing f => ⟨f.modelId, f.chunksLive, f.chunksDead, f.indexedCommit, true, 0⟩
  | .starting | .stale _ => ⟨"", 0, 0, none, false, 0⟩

/-- The loader ends. -/
def loaded (s : DaemonState) : Except Fault Resident → DaemonState
  | .ok r => { s.putUp r with loading := false }
  | .error (.error e) =>
    { s with serving := .stale s!"load failed: {e.debug}", loading := false }
  | .error (.panic _) => { s with loading := false }

/-- What is answered at once to a request before Hello, if anything is. -/
def gate (s : DaemonState) (req : Request) : Option Response :=
  match s.serving with
  | .stale reason => some (.error (.storeStale reason))
  | .starting =>
    match req with
    | .hello .. => none
    | .status => some (.status s.status)
    | _ => some (.error .starting)
  | _ => none

/-- The answer to a first request that has passed the gate. -/
def welcome (s : DaemonState) (req : Request) : Except Response Response :=
  match s.serving with
  | .ready _ r => handleHello req r.embedder.modelId r.store.stats.live
  | .indexing f => handleHello req f.modelId f.chunksLive
  | .starting | .stale _ => handleHello req "" 0

/-- Whether a request holds a clone of the resident. -/
def Borrowed (s : DaemonState) (arc : Nat) : Prop :=
  ∃ i c r q, s.clients i = some c ∧ c.phase = .borrowing arc r q

end DaemonState

/-- The answer to a query, by what is being served. -/
def ServingState.answer (R : Retrieval) (host : Host) :
    ServingState → Query → Except DaemonError Response
  | .starting, _ => .error .starting
  | .stale reason, _ => .error (.storeStale reason)
  | .ready _ r, q => r.answer R host q
  | .indexing f, q => f.answer R host q

def toResponse : Except DaemonError Response → Response
  | .ok r => r
  | .error e => .error e

/-- What a worker puts up at the end of its run. -/
inductive RunEnd
  | ready (r : Resident) (report : IndexReport)
  | stale (reason : String) (e : DaemonError)
  | panic (detail : String)

def runEnd (repo : RepoEnv) (rebuild : RebuildEnv) (cfg : DaemonConfig) (k : Worker)
    (store : ChunkStore) (docs : List (RowId × LexicalDoc)) (embedder : Embedder) : RunEnd :=
  match runIndex repo embedder k.repoDir store docs k.mode with
  | .error (.error e) => .stale s!"index: {e.debug}" e
  | .error (.panic detail) => .panic detail
  | .ok (store, lexical, report) =>
    match rebuildResident rebuild cfg store lexical embedder k.repoDir with
    | .ok r => .ready r report
    | .error (.error e) => .stale s!"rebuild: {e.debug}" e
    | .error (.panic detail) => .panic detail

/-! ## Steps -/

inductive Event
  /-- The loader ends. -/
  | loaded (outcome : Except Fault Resident)
  /-- The accept loop finds no shutdown, and nothing else either; it accepts a connection, begins
  its periodic check, goes round, leaves for want of clients, leaves on a shutdown, and `serve`
  returns. -/
  | poll | pend | accept (i : Nat) | tick | loop | idle | shutdown | returned
  /-- A connection is closed, or its task stops on a failed write. -/
  | closed (i : Nat)
  /-- A frame that is no request is answered with an error. -/
  | garbled (i : Nat)
  /-- A request before Hello: at the gate, and past it. -/
  | gated (i : Nat) (req : Request)
  | greeted (i : Nat)
  /-- Status, a second Hello, a shutdown request. -/
  | statusRequest (i : Nat) | secondHello (i : Nat) | shutdownRequest (i : Nat)
  /-- A query: there is nothing to answer from, or it takes hold of what is being served, and
  answers. -/
  | turnedAway (i : Nat) (q : Query) | borrowed (i : Nat) (q : Query) | viewed (i : Nat) (q : Query)
  | answered (i : Nat)
  /-- An index request: another is in progress, or a worker is spawned. -/
  | refused (i : Nat) | index (i w : Nat)
  /-- What the task of an index request writes while it waits, and at the end. -/
  | progressed (i : Nat) | reported (i : Nat) | vanished (i : Nat)
  /-- A worker finds the resident borrowed, finds none, or takes it. -/
  | gaveBack (w : Nat) | notReady (w : Nat) | took (w : Nat)
  | split (w : Nat) | splitFailed (w : Nat)
  /-- The run ends: what comes of it is put up, or the thread panics. -/
  | ended (w : Nat) | panicked (w : Nat)
  | cleared (w : Nat)

/-- `i` is a connection, at `c`. -/
def DaemonState.At (s : DaemonState) (i : Nat) (c : Client) : Prop := s.clients i = some c

/-- `w` is a worker, at `k`. -/
def DaemonState.Works (s : DaemonState) (w : Nat) (k : Worker) : Prop := s.workers w = some k

open DaemonState in
inductive DaemonStep (cfg : DaemonConfig) (R : Retrieval) : DaemonState → Event → DaemonState → Prop
  | loaded {s env} : s.loading = true →
    DaemonStep cfg R s (.loaded (Resident.load env cfg)) (s.loaded (Resident.load env cfg))
  -- The accept loop. The arms are polled in their order: one that has not been found ready is not
  -- looked at again before the others, even if it becomes ready meanwhile.
  | poll {s} : s.serve = .selecting false →
    DaemonStep cfg R s .poll { s with serve := .polled false }
  | pend {s n} : s.serve = .polled n → DaemonStep cfg R s .pend { s with serve := .selecting n }
  | accept {s i n} : s.serve = .polled n → s.clients i = none →
    DaemonStep cfg R s (.accept i) { s.setClient i ⟨false, .reading, 0, []⟩ with
      serve := .accepted
      connectedClients := s.connectedClients + 1 }
  | tick {s n} : s.serve = .polled n → DaemonStep cfg R s .tick { s with serve := .checking }
  | loop {s} : s.serve = .accepted ∨ s.serve = .checking →
    DaemonStep cfg R s .loop { s with serve := .selecting false }
  | idle {s} : s.serve = .checking → s.connectedClients = 0 → s.serving ≠ .starting →
    DaemonStep cfg R s .idle { s with serve := .draining }
  | shutdown {s} : s.serve = .selecting true →
    DaemonStep cfg R s .shutdown { s with serve := .draining }
  | returned {s} : s.serve = .draining → (∀ i c, s.At i c → c.phase = .closed) →
    DaemonStep cfg R s .returned { s with serve := .returned, serving := .starting }
  -- Connections. A task that is answering a query does not stop before it has.
  | closed {s i c} : s.At i c → (c.phase = .reading ∨ (∃ req, c.phase = .greeting req) ∨
      ∃ w, c.phase = .streaming w) → DaemonStep cfg R s (.closed i) (s.closeClient i c)
  -- What is no request is answered under the id 0.
  | garbled {s i c e} : s.At i c → c.phase = .reading →
    DaemonStep cfg R s (.garbled i) (s.setClient i ((c.read 0).reply (.error e)))
  | gated {s i c id req resp} : s.At i c → c.helloDone = false → c.phase = .reading →
    s.gate req = some resp →
      DaemonStep cfg R s (.gated i req) (s.setClient i ((c.read id).reply resp))
  | passed {s i c id req} : s.At i c → c.helloDone = false → c.phase = .reading →
    s.gate req = none →
    DaemonStep cfg R s (.gated i req) (s.setClient i { c.read id with phase := .greeting req })
  | greeted {s i c req resp} : s.At i c → c.phase = .greeting req → s.welcome req = .ok resp →
    DaemonStep cfg R s (.greeted i) (s.setClient i { c.reply resp with helloDone := true })
  | unwelcome {s i c req resp} : s.At i c → c.phase = .greeting req → s.welcome req = .error resp →
    DaemonStep cfg R s (.greeted i) (s.closeClient i (c.reply resp))
  | statusRequest {s i c id} : s.At i c → c.helloDone = true → c.phase = .reading →
    DaemonStep cfg R s (.statusRequest i) (s.setClient i ((c.read id).reply (.status s.status)))
  | secondHello {s i c id} : s.At i c → c.helloDone = true → c.phase = .reading →
    DaemonStep cfg R s (.secondHello i)
      (s.setClient i ((c.read id).reply (.error (.malformed "duplicate Hello"))))
  | shutdownRequest {s i c id} : s.At i c → c.helloDone = true → c.phase = .reading →
    DaemonStep cfg R s (.shutdownRequest i)
      (s.closeClient i ((c.read id).reply (.status s.status))).notify
  -- Queries.
  | turnedAway {s i c id q e} : s.At i c → c.helloDone = true → c.phase = .reading →
    (s.serving = .starting ∧ e = .starting ∨ ∃ reason, s.serving = .stale reason ∧
      e = .storeStale reason) →
    DaemonStep cfg R s (.turnedAway i q) (s.setClient i ((c.read id).reply (.error e)))
  | borrowed {s i c id q arc r} : s.At i c → c.helloDone = true → c.phase = .reading →
    s.serving = .ready arc r →
    DaemonStep cfg R s (.borrowed i q)
      (s.setClient i { c.read id with phase := .borrowing arc r q })
  | viewed {s i c id q f} : s.At i c → c.helloDone = true → c.phase = .reading →
    s.serving = .indexing f →
    DaemonStep cfg R s (.viewed i q) (s.setClient i { c.read id with phase := .viewing f q })
  | answered {s i c arc r q} (host : Host) : s.At i c → c.phase = .borrowing arc r q →
    DaemonStep cfg R s (.answered i) (s.setClient i (c.reply (toResponse (r.answer R host q))))
  -- The reader of a view moves on with the commits of the run.
  | answeredFrozen {s i c f q docs} (host : Host) : s.At i c → c.phase = .viewing f q →
    DaemonStep cfg R s (.answered i)
      (s.setClient i (c.reply (toResponse ((f.seeing docs).answer R host q))))
  -- Index requests. The flag is compared and set in one.
  | refused {s i c id} : s.At i c → c.helloDone = true → c.phase = .reading → s.indexing = true →
    DaemonStep cfg R s (.refused i) (s.setClient i ((c.read id).reply (.error .indexInProgress)))
  | index {s i c id w} (mode : IndexMode) (repoDir : String) : s.At i c → c.helloDone = true →
    c.phase = .reading → s.indexing = false → s.workers w = none →
    DaemonStep cfg R s (.index i w)
      { (s.setClient i { c.read id with phase := .streaming w }).setWorker w
        ⟨mode, repoDir, .spawned⟩ with
        indexing := true }
  | progressed {s i c w phase done total} : s.At i c → c.phase = .streaming w →
    DaemonStep cfg R s (.progressed i)
      (s.setClient i (c.write (.indexProgress phase done total)))
  | reported {s i c w k done} : s.At i c → c.phase = .streaming w → s.Works w k →
    k.phase = .finished done →
    DaemonStep cfg R s (.reported i) (s.setClient i (c.reply
      (toResponse (done.map fun report => .indexDone (.from report)))))
  | vanished {s i c w k} : s.At i c → c.phase = .streaming w → s.Works w k → k.phase = .panicked →
    DaemonStep cfg R s (.vanished i)
      (s.setClient i (c.reply (.error (.internal "index worker vanished"))))
  -- Workers. The slot is looked at and emptied under the lock, and filled again where the resident
  -- cannot be taken.
  | gaveBack {s w k arc r} : s.Works w k → k.phase = .spawned → s.serving = .ready arc r →
    s.Borrowed arc →
    DaemonStep cfg R s (.gaveBack w) { s.setWorker w { k with
      phase := .finished (.error (.internal "resident still borrowed")) } with indexing := false }
  | notReady {s w k} : s.Works w k → k.phase = .spawned → (∀ arc r, s.serving ≠ .ready arc r) →
    DaemonStep cfg R s (.notReady w) { s.setWorker w { k with
      phase := .finished (.error (.internal "not ready for index")) } with indexing := false }
  | took {s w k arc r} : s.Works w k → k.phase = .spawned → s.serving = .ready arc r →
    ¬s.Borrowed arc →
    DaemonStep cfg R s (.took w) { s.setWorker w { k with phase := .taken r } with
      serving := .starting }
  | split {s w k r fails f store repoDir embedder} : s.Works w k → k.phase = .taken r →
    splitForIndex fails r = .ok (f, store, repoDir, embedder) →
    DaemonStep cfg R s (.split w) { s.setWorker w { k with
      phase := .running store r.lexical.durable embedder } with serving := .indexing f }
  | splitFailed {s w k r fails e} : s.Works w k → k.phase = .taken r →
    splitForIndex fails r = .error e →
    DaemonStep cfg R s (.splitFailed w)
      { s.setWorker w { k with phase := .finished (.error e) } with
      indexing := false }
  | ready {s w k store docs embedder repo rebuild r report} : s.Works w k →
    k.phase = .running store docs embedder →
    runEnd repo rebuild cfg k store docs embedder = .ready r report →
    DaemonStep cfg R s (.ended w)
      ((s.setWorker w { k with phase := .clearing (.ok report) }).putUp r)
  | stale {s w k store docs embedder repo rebuild reason e} : s.Works w k →
    k.phase = .running store docs embedder →
    runEnd repo rebuild cfg k store docs embedder = .stale reason e →
    DaemonStep cfg R s (.ended w) { s.setWorker w { k with phase := .clearing (.error e) } with
      serving := .stale reason }
  | panicked {s w k store docs embedder repo rebuild detail} : s.Works w k →
    k.phase = .running store docs embedder →
    runEnd repo rebuild cfg k store docs embedder = .panic detail →
    DaemonStep cfg R s (.panicked w) (s.setWorker w { k with phase := .panicked })
  | cleared {s w k done} : s.Works w k → k.phase = .clearing done →
    DaemonStep cfg R s (.cleared w) { s.setWorker w { k with phase := .finished done } with
      indexing := false }

/-- The runs of the daemon. -/
abbrev DaemonRun (cfg : DaemonConfig) (R : Retrieval) :
    DaemonState → List Event → DaemonState → Prop :=
  Trace (DaemonStep cfg R)

end SiftMcp
