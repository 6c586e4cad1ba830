import SiftMcp.Daemon.Server
import SiftMcp.Lib.ExceptSteps

/-!
# What a step does to slot, flag and workers

Most steps concern a connection or the accept loop alone. What is left are the end of the loader, an
index request that is accepted, the steps of its worker, and the return of `serve`. The invariants
of the daemon follow from these five kinds of steps.

* `DaemonStep.effect`: the kinds of steps, of all.
* `WorkerStep.active`, `WorkerStep.owns`: what a step of a worker does to flag and slot.
-/

namespace SiftMcp

/-- The resident that the task of a connection holds a clone of. -/
def ClientPhase.holds : ClientPhase → Option (Nat × Resident)
  | borrowing arc r _ => some (arc, r)
  | _ => none

def DaemonState.Holds (s : DaemonState) (i arc : Nat) (r : Resident) : Prop :=
  ∃ c, s.At i c ∧ c.phase.holds = some (arc, r)

/-! ## The five kinds of steps -/

/-- Steps of connections, and of the accept loop until it returns. -/
def Event.Outer : Event → Prop
  | .loaded _ | .index .. | .returned | .gaveBack _ | .notReady _ | .took _ | .split _
  | .splitFailed _ | .ended _ | .panicked _ | .cleared _ => False
  | _ => True

/-- A step of the worker `w`: its phase before it, and slot, flag and phase after it. -/
inductive WorkerStep (cfg : DaemonConfig) (s : DaemonState) (w : Nat) :
    WorkerPhase → Event → ServingState → Bool → WorkerPhase → Prop
  | gaveBack {arc r e} : s.serving = .ready arc r → s.Borrowed arc →
    WorkerStep cfg s w .spawned (.gaveBack w) s.serving false (.finished (.error e))
  | notReady {e} : (∀ arc r, s.serving ≠ .ready arc r) →
    WorkerStep cfg s w .spawned (.notReady w) s.serving false (.finished (.error e))
  | took {arc r} : s.serving = .ready arc r → ¬s.Borrowed arc →
    WorkerStep cfg s w .spawned (.took w) .starting s.indexing (.taken r)
  | split {r} :
    WorkerStep cfg s w (.taken r) (.split w) (.indexing r.freeze) s.indexing
      (.running r.store r.lexical.durable r.embedder)
  | splitFailed {r e} :
    WorkerStep cfg s w (.taken r) (.splitFailed w) s.serving false (.finished (.error e))
  | ready {store docs embedder arc r report} :
    WorkerStep cfg s w (.running store docs embedder) (.ended w) (.ready arc r) s.indexing
      (.clearing (.ok report))
  | stale {store docs embedder repo rebuild k reason e} :
    runEnd repo rebuild cfg k store docs embedder = .stale reason e →
    WorkerStep cfg s w (.running store docs embedder) (.ended w) (.stale reason) s.indexing
      (.clearing (.error e))
  | panicked {store docs embedder} :
    WorkerStep cfg s w (.running store docs embedder) (.panicked w) s.serving s.indexing .panicked
  | cleared {done} :
    WorkerStep cfg s w (.clearing done) (.cleared w) s.serving false (.finished done)

/-- A step of one of the five kinds. -/
inductive Effect (cfg : DaemonConfig) (s : DaemonState) : Event → DaemonState → Prop
  | loaded {env} : s.loading = true →
    Effect cfg s (.loaded (Resident.load env cfg)) (s.loaded (Resident.load env cfg))
  | outer {e t} : e.Outer → t.serving = s.serving → t.indexing = s.indexing →
    t.loading = s.loading →
    t.workers = s.workers →
    (∀ i arc r, t.Holds i arc r → s.Holds i arc r ∨ s.serving = .ready arc r) → Effect cfg s e t
  | index {i c w k} : s.indexing = false → s.workers w = none → k.phase = .spawned →
    c.phase.holds = none →
    Effect cfg s (.index i w) { (s.setClient i c).setWorker w k with indexing := true }
  | worker {w k k' e t} : s.Works w k →
    WorkerStep cfg s w k.phase e t.serving t.indexing k'.phase →
    t.workers = (s.setWorker w k').workers → t.loading = s.loading → t.clients = s.clients →
    Effect cfg s e t
  | returned : (∀ i c, s.At i c → c.phase = .closed) →
    Effect cfg s .returned { s with serve := .returned, serving := .starting }

variable {cfg : DaemonConfig} {R : Retrieval} {s t : DaemonState} {e : Event} {i w : Nat}
  {c : Client} {k : Worker} {r : Resident}

/-! ## Connections and workers -/

namespace DaemonState

@[simp] theorem setClient_at {j : Nat} {c' : Client} :
    (s.setClient i c).At j c' ↔ if j = i then c' = c else s.At j c' := by
  show Function.update s.clients i (some c) j = some c' ↔ _
  rw [Function.update_apply]
  split
  · rw [Option.some.injEq, eq_comm]
  · rfl

@[simp] theorem setWorker_works {v : Nat} {k' : Worker} :
    (s.setWorker w k).Works v k' ↔ if v = w then k' = k else s.Works v k' := by
  show Function.update s.workers w (some k) v = some k' ↔ _
  rw [Function.update_apply]
  split
  · rw [Option.some.injEq, eq_comm]
  · rfl

theorem at_setClient (ht : t.clients = (s.setClient i c).clients) : t.At i c := by
  rw [At, ht]
  exact setClient_at.mpr (by rw [if_pos rfl])

/-- The task of one connection leaves the others alone. -/
theorem at_of_ne {j : Nat} {c' : Client} (hij : i ≠ j) (ht : t.clients = (s.setClient j c').clients)
    (hi : s.At i c) : t.At i c := by
  rw [At, ht]
  exact setClient_at.mpr (by rwa [if_neg hij])

theorem at_of_none {j : Nat} {c' : Client} (hj : s.clients j = none)
    (ht : t.clients = (s.setClient j c').clients) (hi : s.At i c) : t.At i c := by
  refine at_of_ne (fun hij => ?_) ht hi
  subst hij
  cases hi.symm.trans hj

theorem At.of_setClient {j : Nat} {c' : Client} (hi : t.At i c)
    (ht : t.clients = (s.setClient j c').clients) : i = j ∧ c = c' ∨ i ≠ j ∧ s.At i c := by
  rw [At, ht] at hi
  have hset := setClient_at.mp hi
  split at hset
  · exact .inl ⟨by assumption, hset⟩
  · exact .inr ⟨by assumption, hset⟩

/-- The connection whose task takes a step, and any other. -/
theorem At.after {j : Nat} {d c' : Client} (hi : s.At i c) (hj : s.At j d)
    (ht : t.clients = (s.setClient j c').clients) : i = j ∧ c = d ∧ t.At i c' ∨ i ≠ j ∧
      t.At i c := by
  by_cases hij : i = j
  · subst hij
    exact .inl ⟨rfl, Option.some.inj (hi.symm.trans hj), at_setClient ht⟩
  · exact .inr ⟨hij, at_of_ne hij ht hi⟩

theorem works_setWorker (ht : t.workers = (s.setWorker w k).workers) : t.Works w k := by
  rw [Works, ht]
  exact setWorker_works.mpr (by rw [if_pos rfl])

theorem works_of_ne {v : Nat} {k' : Worker} (hvw : v ≠ w)
    (ht : t.workers = (s.setWorker w k).workers) (hv : s.Works v k') : t.Works v k' := by
  rw [Works, ht]
  exact setWorker_works.mpr (by rwa [if_neg hvw])

theorem Works.of_setWorker {v : Nat} {k' : Worker} (hv : t.Works v k')
    (ht : t.workers = (s.setWorker w k).workers) : v = w ∧ k' = k ∨ v ≠ w ∧ s.Works v k' := by
  rw [Works, ht] at hv
  have hset := setWorker_works.mp hv
  split at hset
  · exact .inl ⟨by assumption, hset⟩
  · exact .inr ⟨by assumption, hset⟩

@[simp] theorem loaded_clients {outcome : Except Fault Resident} :
    (s.loaded outcome).clients = s.clients := by
  cases outcome with
  | ok r => rfl
  | error fault =>
    cases fault with
    | error e => rfl
    | panic detail => rfl

@[simp] theorem loaded_workers {outcome : Except Fault Resident} :
    (s.loaded outcome).workers = s.workers := by
  cases outcome with
  | ok r => rfl
  | error fault =>
    cases fault with
    | error e => rfl
    | panic detail => rfl

@[simp] theorem loaded_serve {outcome : Except Fault Resident} :
    (s.loaded outcome).serve = s.serve := by
  cases outcome with
  | ok r => rfl
  | error fault =>
    cases fault with
    | error e => rfl
    | panic detail => rfl

@[simp] theorem loaded_connectedClients {outcome : Except Fault Resident} :
    (s.loaded outcome).connectedClients = s.connectedClients := by
  cases outcome with
  | ok r => rfl
  | error fault =>
    cases fault with
    | error e => rfl
    | panic detail => rfl

/-- What is served when the loader has ended. -/
theorem loaded_serving {outcome : Except Fault Resident} :
    (∃ r, outcome = .ok r ∧ (s.loaded outcome).serving = .ready s.arcs r) ∨
      (∃ reason, (s.loaded outcome).serving = .stale reason) ∨
      (s.loaded outcome).serving = s.serving := by
  cases outcome with
  | ok r => exact .inl ⟨r, rfl, rfl⟩
  | error fault =>
    cases fault with
    | error e => exact .inr (.inl ⟨_, rfl⟩)
    | panic detail => exact .inr (.inr rfl)

/-- A request that borrows a resident holds it. -/
theorem borrowed_iff {arc : Nat} : s.Borrowed arc ↔ ∃ i r, s.Holds i arc r := by
  constructor
  · intro h
    obtain ⟨i, c, r, q, hi, hphase⟩ := h
    exact ⟨i, r, c, hi, by rw [hphase]; rfl⟩
  · intro h
    obtain ⟨i, r, c, hi, hholds⟩ := h
    cases hphase : c.phase with
    | borrowing arc' r' q =>
      rw [hphase] at hholds
      obtain ⟨rfl, rfl⟩ := Prod.mk.inj (Option.some.inj hholds)
      exact ⟨i, c, r', q, hi, hphase⟩
    | reading | greeting | viewing | streaming | closed =>
      rw [hphase] at hholds
      cases hholds

theorem Holds.of_setClient {j arc : Nat} (h : (s.setClient i c).Holds j arc r) :
    c.phase.holds = some (arc, r) ∨ s.Holds j arc r := by
  obtain ⟨c', hj, hholds⟩ := h
  rcases hj.of_setClient rfl with ⟨-, rfl⟩ | ⟨-, hj⟩
  · exact .inl hholds
  · exact .inr ⟨c', hj, hholds⟩

end DaemonState

theorem failWith_bind {α : Type} {context : String} {text : Option String}
    {m : Except DaemonError α} {a : α} (h : (do failWith context text; m) = .ok a) : m = .ok a := by
  cases text with
  | none => exact h
  | some text => cases h

theorem splitForIndex_ok {fails : SplitCall → Option String} {f : FrozenSearch} {store : ChunkStore}
    {repoDir : String} {embedder : Embedder}
    (h : splitForIndex fails r = .ok (f, store, repoDir, embedder)) :
    f = r.freeze ∧ store = r.store ∧ embedder = r.embedder := by
  have h := failWith_bind (failWith_bind (failWith_bind (failWith_bind h)))
  obtain ⟨hf, hrest⟩ := Prod.mk.inj (Except.ok.inj h)
  obtain ⟨hstore, hrest⟩ := Prod.mk.inj hrest
  exact ⟨hf.symm, hstore.symm, (Prod.mk.inj hrest).2.symm⟩

/-! ## Effects -/

namespace WorkerStep

variable {p p' : WorkerPhase} {serving : ServingState} {flag : Bool}

theorem active (h : WorkerStep cfg s w p e serving flag p') : p.Active := by
  cases h <;> trivial

theorem not_outer (h : WorkerStep cfg s w p e serving flag p') : ¬e.Outer := by
  cases h <;> exact id

/-- The flag is cleared by the last step only. -/
theorem flag_eq (h : WorkerStep cfg s w p e serving flag p') (hp : p'.Active) :
    flag = s.indexing := by
  cases h with
  | gaveBack | notReady | splitFailed | cleared | panicked => cases hp
  | took | split | ready | stale => rfl

/-- A worker that does not own the store leaves the slot alone, or takes what no query holds. -/
theorem slot (h : WorkerStep cfg s w p e serving flag p') (hp : ¬p.Owns) :
    serving = s.serving ∨ ∃ arc r, s.serving = .ready arc r ∧ ¬s.Borrowed arc := by
  cases h with
  | gaveBack | notReady | cleared => exact .inl rfl
  | took hserving hborrowed => exact .inr ⟨_, _, hserving, hborrowed⟩
  | split | splitFailed | ready | stale | panicked => exact absurd trivial hp

/-- A worker that owns the store has taken it from the slot, where there is nothing that others
could hold since. -/
theorem owns (h : WorkerStep cfg s w p e serving flag p') (hp : p'.Owns) :
    (serving = .starting ∨ ∃ f, serving = .indexing f) ∧
      (p.Owns ∨ ∃ arc r, s.serving = .ready arc r) := by
  cases h with
  | took hserving hborrowed => exact ⟨.inl rfl, .inr ⟨_, _, hserving⟩⟩
  | split => exact ⟨.inr ⟨_, rfl⟩, .inl trivial⟩
  | gaveBack | notReady | splitFailed | ready | stale | panicked | cleared => cases hp

end WorkerStep

namespace Effect

/-- A connection goes on to something other than holding a resident. -/
theorem setClient (he : e.Outer) (hc : c.phase.holds = none) :
    Effect cfg s e (s.setClient i c) := by
  refine .outer he rfl rfl rfl rfl fun j arc r h => ?_
  rcases h.of_setClient with hholds | h
  · rw [hc] at hholds
    cases hholds
  · exact .inl h

/-- The accept loop does not look into the connections. -/
theorem congr {u : DaemonState} (h : Effect cfg s e t) (he : e.Outer)
    (hserving : u.serving = t.serving) (hindexing : u.indexing = t.indexing)
    (hloading : u.loading = t.loading) (hworkers : u.workers = t.workers)
    (hclients : u.clients = t.clients) : Effect cfg s e u := by
  cases h with
  | outer _ hs hi hl hw hh =>
    refine .outer he (hserving.trans hs) (hindexing.trans hi) (hloading.trans hl)
      (hworkers.trans hw) ?_
    intro i arc r h
    obtain ⟨c, hi, hholds⟩ := h
    exact hh i arc r ⟨c, by rwa [DaemonState.At, ← hclients], hholds⟩
  | loaded | index | returned => cases he
  | worker hw hstep => exact absurd he hstep.not_outer

theorem closeClient (he : e.Outer) : Effect cfg s e (s.closeClient i c) := by
  have hset : Effect cfg s e (s.setClient i c.close) := setClient he rfl
  exact hset.congr he rfl rfl rfl rfl rfl

end Effect

/-- Every step is of one of the five kinds. -/
theorem DaemonStep.effect (h : DaemonStep cfg R s e t) : Effect cfg s e t := by
  cases h with
  | loaded hloads => exact .loaded hloads
  | @accept i n hserve hi =>
    have hset : Effect cfg s (.accept i) (s.setClient i ⟨false, .reading, 0, []⟩) :=
      .setClient trivial rfl
    exact hset.congr trivial rfl rfl rfl rfl rfl
  | poll | pend | tick | loop | idle | shutdown =>
    exact .outer trivial rfl rfl rfl rfl fun _ _ _ h => .inl h
  | returned hserve hclosed => exact .returned hclosed
  | closed | unwelcome => exact .closeClient trivial
  | @shutdownRequest i c id hi hhello hphase =>
    have hclose : Effect cfg s (.shutdownRequest i)
        (s.closeClient i ((c.read id).reply (.status s.status))) := .closeClient trivial
    exact hclose.congr trivial rfl rfl rfl rfl rfl
  | garbled | gated | passed | greeted | statusRequest | secondHello | turnedAway | viewed
  | answered | answeredFrozen | refused | reported | vanished => exact .setClient trivial rfl
  | progressed hi hphase => exact .setClient trivial (by rw [Client.write_phase, hphase]; rfl)
  | @borrowed i c id q arc r hi hhello hphase hserving =>
    refine .outer trivial rfl rfl rfl rfl fun j arc' r' h => ?_
    rcases h.of_setClient with hholds | h
    · obtain ⟨rfl, rfl⟩ := Prod.mk.inj (Option.some.inj hholds)
      exact .inr hserving
    · exact .inl h
  | index mode repoDir hi hhello hphase hflag hw => exact .index hflag hw rfl rfl
  | gaveBack hw hphase hserving hborrowed =>
    refine .worker hw ?_ rfl rfl rfl
    rw [hphase]
    exact .gaveBack hserving hborrowed
  | notReady hw hphase hserving =>
    refine .worker hw ?_ rfl rfl rfl
    rw [hphase]
    exact .notReady hserving
  | took hw hphase hserving hborrowed =>
    refine .worker hw ?_ rfl rfl rfl
    rw [hphase]
    exact .took hserving hborrowed
  | split hw hphase hsplit =>
    refine .worker hw ?_ rfl rfl rfl
    obtain ⟨rfl, rfl, rfl⟩ := splitForIndex_ok hsplit
    rw [hphase]
    exact .split
  | splitFailed hw hphase hsplit =>
    refine .worker hw ?_ rfl rfl rfl
    rw [hphase]
    exact .splitFailed
  | ready hw hphase hend =>
    refine .worker hw ?_ rfl rfl rfl
    rw [hphase]
    exact .ready
  | stale hw hphase hend =>
    refine .worker hw ?_ rfl rfl rfl
    rw [hphase]
    exact .stale hend
  | panicked hw hphase hend =>
    refine .worker hw ?_ rfl rfl rfl
    rw [hphase]
    exact .panicked
  | cleared hw hphase =>
    refine .worker hw ?_ rfl rfl rfl
    rw [hphase]
    exact .cleared

/-! ## The check of the store -/

theorem Resident.answer_stale {host : Host} {q : Query} {e : DaemonError}
    (h : r.identity.checkStillValid host = .error e) : r.answer R host q = .error e := by
  cases q with
  | search | searchSimilar =>
    rw [answer, search, h]
    rfl
  | getSymbol =>
    rw [answer, getSymbol, h]
    rfl

theorem FrozenSearch.answer_stale {f : FrozenSearch} {host : Host} {q : Query} {e : DaemonError}
    (h : f.identity.checkStillValid host = .error e) : f.answer R host q = .error e := by
  cases q with
  | search | searchSimilar =>
    rw [answer, search, h]
    rfl
  | getSymbol =>
    rw [answer, getSymbol, h]
    rfl

end SiftMcp
