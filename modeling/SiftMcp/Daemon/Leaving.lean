import SiftMcp.Daemon.Completion
import Mathlib.Data.Finset.Card

/-!
# How the daemon comes to an end

The accept loop leaves when it finds that a shutdown has been notified, or for want of clients;
`serve` returns when the task of every connection has ended. A notification is lost that finds the
loop anywhere but waiting, and nothing waits for a worker whose connection has been closed.

* `DaemonRun.shutdown_observed_iff`: in which states of the loop a shutdown is found.
* `DaemonRun.waits_for_workers`: in which runs `serve` returns only behind its workers.
-/

namespace SiftMcp

def DaemonState.Open (s : DaemonState) (i : Nat) : Prop := ∃ c, s.At i c ∧ c.phase ≠ .closed

/-- What a step does to the connections. When `serve` returns there is none. -/
inductive Connects (s t : DaemonState) : Prop
  | same : t.connectedClients = s.connectedClients → (∀ j, t.Open j ↔ s.Open j) →
    (t.serve = .returned → s.serve = .returned ∨ ∀ j, ¬s.Open j) → Connects s t
  | opened {i} : ¬s.Open i → t.connectedClients = s.connectedClients + 1 →
    (∀ j, t.Open j ↔ j = i ∨ s.Open j) → t.serve ≠ .returned → Connects s t
  | closed {i} : s.Open i → t.connectedClients = s.connectedClients - 1 →
    (∀ j, t.Open j ↔ j ≠ i ∧ s.Open j) → (t.serve = .returned → s.serve = .returned) → Connects s t

variable {cfg : DaemonConfig} {R : Retrieval} {s t : DaemonState} {e : Event} {es : List Event}
  {i j w : Nat} {c c' : Client} {k k' : Worker}

/-! ## The accept loop -/

namespace ServePhase

def Left : ServePhase → Prop
  | draining | returned => True
  | _ => False

/-- The loop is suspended in its select. -/
def Waits : ServePhase → Prop
  | selecting _ => True
  | _ => False

end ServePhase

/-- What the loop itself goes through. -/
inductive ServeStep : ServePhase → ServePhase → Prop
  | poll : ServeStep (.selecting false) (.polled false)
  | pend {n} : ServeStep (.polled n) (.selecting n)
  | accept {n} : ServeStep (.polled n) .accepted
  | tick {n} : ServeStep (.polled n) .checking
  | accepted : ServeStep .accepted (.selecting false)
  | checked : ServeStep .checking (.selecting false)
  | idle : ServeStep .checking .draining
  | shutdown : ServeStep (.selecting true) .draining
  | returned : ServeStep .draining .returned

/-- All others leave it alone, or notify it. -/
theorem DaemonStep.serve_cases (h : DaemonStep cfg R s e t) : t.serve = s.serve ∨
    t.serve = s.notify.serve ∧ (∃ i, e = .shutdownRequest i) ∨ ServeStep s.serve t.serve := by
  cases h with
  | poll hserve => exact .inr (.inr (hserve ▸ .poll))
  | pend hserve => exact .inr (.inr (hserve ▸ .pend))
  | accept hserve => exact .inr (.inr (hserve ▸ .accept))
  | tick hserve => exact .inr (.inr (hserve ▸ .tick))
  | loop hserve =>
    rcases hserve with hserve | hserve
    · exact .inr (.inr (hserve ▸ .accepted))
    · exact .inr (.inr (hserve ▸ .checked))
  | idle hserve => exact .inr (.inr (hserve ▸ .idle))
  | shutdown hserve => exact .inr (.inr (hserve ▸ .shutdown))
  | returned hserve => exact .inr (.inr (hserve ▸ .returned))
  | @shutdownRequest i => exact .inr (.inl ⟨rfl, i, rfl⟩)
  | loaded => exact .inl DaemonState.loaded_serve
  | closed | garbled | gated | passed | greeted | unwelcome | statusRequest | secondHello
  | turnedAway | borrowed | viewed | answered | answeredFrozen | refused | index | progressed
  | reported | vanished | gaveBack | notReady | took | split | splitFailed | ready | stale
  | panicked | cleared =>
    exact .inl rfl

namespace DaemonState

/-- Whatever happens, the loop has left, or the next thing it does is to leave. -/
def Leaves (cfg : DaemonConfig) (R : Retrieval) (s : DaemonState) : Prop :=
  ∀ es t, DaemonRun cfg R s es t → t.serve.Left ∨ ∃ u, DaemonStep cfg R t .shutdown u

/-- The notification has reached the loop. -/
def Notified (s : DaemonState) : Prop := s.serve = .selecting true ∨ s.serve.Left

theorem Notified.step (h : s.Notified) (hstep : DaemonStep cfg R s e t) : t.Notified := by
  unfold Notified at h ⊢
  rcases hstep.serve_cases with hserve | ⟨hserve, -⟩ | hserve
  · rwa [hserve]
  · rw [hserve, notify]
    rcases h with h | h
    · rw [h]
      exact .inl rfl
    · revert h
      cases s.serve with
      | draining | returned => exact .inr
      | selecting | polled | accepted | checking => exact False.elim
  · revert h
    generalize s.serve = p at hserve
    generalize t.serve = p' at hserve
    intro h
    cases hserve with
    | poll => exact absurd h (by simp [ServePhase.Left])
    | pend | accept | tick | accepted | checked | idle => exact absurd h (by simp [ServePhase.Left])
    | shutdown | returned => exact .inr trivial

theorem Notified.leaves (h : s.Notified) : s.Leaves cfg R := by
  intro es t hrun
  rcases hrun.invariant (fun _ _ _ h hstep => h.step hstep) h with hserve | hleft
  · exact .inr ⟨_, .shutdown hserve⟩
  · exact .inl hleft

/-- A loop that gets to wait with nothing notified does not leave on account of what was before. -/
theorem not_leaves_of_run (h : DaemonRun cfg R s es t) (hserve : t.serve = .selecting false) :
    ¬s.Leaves cfg R := by
  intro hleaves
  rcases hleaves es t h with hleft | ⟨u, hstep⟩
  · rw [hserve] at hleft
    exact hleft
  · cases hstep with
    | shutdown hnotified =>
      rw [hserve] at hnotified
      cases hnotified

end DaemonState

/-! ## Connections -/

namespace DaemonState

theorem At.open (h : s.At i c) (hc : c.phase ≠ .closed) : s.Open i := ⟨c, h, hc⟩

theorem open_congr (h : t.clients = s.clients) : t.Open j ↔ s.Open j := by
  simp only [Open, At, h]

theorem open_setClient : (s.setClient i c).Open j ↔ j = i ∧ c.phase ≠ .closed ∨ j ≠ i ∧
    s.Open j := by
  unfold Open
  by_cases hj : j = i
  · simp [hj]
  · simp [hj]

theorem notify_returned : s.notify.serve = .returned ↔ s.serve = .returned := by
  rw [notify]
  cases s.serve with
  | selecting | polled => exact ⟨nofun, nofun⟩
  | accepted | checking | draining | returned => exact .rfl

/-- A task goes on. -/
theorem open_setClient_of_open (hi : s.Open i) (hc : c.phase ≠ .closed) :
    (s.setClient i c).Open j ↔ s.Open j := by
  rw [open_setClient]
  by_cases hj : j = i
  · subst hj
    simp [hc, hi]
  · simp [hj]

theorem open_closeClient : (s.closeClient i c).Open j ↔ j ≠ i ∧ s.Open j := by
  have hsame : (s.closeClient i c).Open j ↔ (s.setClient i c.close).Open j := .rfl
  rw [hsame, open_setClient]
  simp [Client.close]

end DaemonState

/-- A task that goes on to something else. -/
theorem Connects.setClient (hi : s.At i c) (hc : c.phase ≠ .closed) (hc' : c'.phase ≠ .closed) :
    Connects s (s.setClient i c') :=
  .same rfl (fun _ => DaemonState.open_setClient_of_open (hi.open hc) hc') .inl

theorem Connects.closeClient (hi : s.At i c) (hc : c.phase ≠ .closed) :
    Connects s (s.closeClient i c') :=
  .closed (hi.open hc) rfl (fun _ => DaemonState.open_closeClient) id

theorem DaemonStep.connects (h : DaemonStep cfg R s e t) : Connects s t := by
  have hopen : ∀ {c : Client} {p : ClientPhase}, c.phase = p → p ≠ .closed → c.phase ≠ .closed :=
    fun h hp => h ▸ hp
  -- The loop goes on.
  have hloop : ∀ p : ServePhase, p ≠ .returned → Connects s { s with serve := p } :=
    fun p hp => .same rfl (fun _ => .rfl) fun h => absurd h hp
  cases h with
  | poll | pend | tick | loop | idle | shutdown => exact hloop _ ServePhase.noConfusion
  | returned _ hclosed =>
    refine .same rfl (fun _ => .rfl) fun _ => .inr fun j hj => ?_
    obtain ⟨c, hj, hc⟩ := hj
    exact hc (hclosed j c hj)
  | @accept i n _ hi =>
    refine .opened (i := i) (fun hi' => ?_) rfl (fun j => ?_) ServePhase.noConfusion
    · obtain ⟨c, hi', -⟩ := hi'
      rw [DaemonState.At, hi] at hi'
      cases hi'
    · have hset : (s.setClient i ⟨false, .reading, 0, []⟩).Open j ↔ j = i ∨ s.Open j := by
        rw [DaemonState.open_setClient]
        by_cases hj : j = i
        · simp [hj]
        · simp [hj]
      exact (DaemonState.open_congr rfl).trans hset
  | loaded =>
    refine .same DaemonState.loaded_connectedClients (fun j => ?_) fun h => .inl ?_
    · exact DaemonState.open_congr DaemonState.loaded_clients
    · rwa [DaemonState.loaded_serve] at h
  | shutdownRequest hi hhello hphase =>
    refine .closed (hi.open (hopen hphase ClientPhase.noConfusion)) rfl
      (fun _ => ?_) DaemonState.notify_returned.mp
    exact (DaemonState.open_congr rfl).trans DaemonState.open_closeClient
  | closed hi hphase =>
    apply Connects.closeClient hi
    rcases hphase with hphase | ⟨req, hphase⟩ | ⟨w, hphase⟩
    · exact hopen hphase ClientPhase.noConfusion
    · exact hopen hphase ClientPhase.noConfusion
    · exact hopen hphase ClientPhase.noConfusion
  | unwelcome hi hphase => exact .closeClient hi (hopen hphase ClientPhase.noConfusion)
  | garbled hi hphase | gated hi _ hphase | passed hi _ hphase | greeted hi hphase
  | statusRequest hi _ hphase | secondHello hi _ hphase | turnedAway hi _ hphase
  | borrowed hi _ hphase | viewed hi _ hphase | answered _ hi hphase | answeredFrozen _ hi hphase
  | refused hi _ hphase | reported hi hphase | vanished hi hphase =>
    exact .setClient hi (hopen hphase ClientPhase.noConfusion) ClientPhase.noConfusion
  | progressed hi hphase =>
    exact .setClient hi (hopen hphase ClientPhase.noConfusion)
      (hopen hphase ClientPhase.noConfusion)
  | index _ _ hi _ hphase =>
    exact .same rfl
      (fun _ => DaemonState.open_setClient_of_open (hi.open (hopen hphase ClientPhase.noConfusion))
      ClientPhase.noConfusion) .inl
  | gaveBack | notReady | took | split | splitFailed | ready | stale | panicked | cleared =>
    exact .same rfl (fun _ => .rfl) .inl

namespace DaemonState

/-- The count is that of the connections, and there are none any more when `serve` returns. -/
structure Counted (s : DaemonState) : Prop where
  count : ∃ conns : Finset Nat, conns.card = s.connectedClients ∧ ∀ i, i ∈ conns ↔ s.Open i
  returned : s.serve = .returned → ∀ i, ¬s.Open i

namespace Counted

theorem start : Counted .start := by
  have hnone : ∀ i, ¬DaemonState.start.Open i := by
    intro i hi
    obtain ⟨c, hi, -⟩ := hi
    cases hi
  exact ⟨⟨∅, rfl, fun i => by simp [hnone i]⟩, fun _ => hnone⟩

theorem step (h : Counted s) (hstep : DaemonStep cfg R s e t) : Counted t := by
  obtain ⟨conns, hcard, hconns⟩ := h.count
  cases hstep.connects with
  | same hcount hopen hserve =>
    refine ⟨⟨conns, hcard.trans hcount.symm, fun j => (hconns j).trans (hopen j).symm⟩,
      fun ht j hj => ?_⟩
    rcases hserve ht with hs | hnone
    · exact h.returned hs j ((hopen j).mp hj)
    · exact hnone j ((hopen j).mp hj)
  | @opened i hi hcount hopen hserve =>
    refine ⟨⟨insert i conns, ?_, fun j => ?_⟩, fun ht => absurd ht hserve⟩
    · rw [Finset.card_insert_of_notMem (mt (hconns i).mp hi), hcard, hcount]
    · rw [Finset.mem_insert, hconns, hopen]
  | @closed i hi hcount hopen hserve =>
    refine ⟨⟨conns.erase i, ?_, fun j => ?_⟩, fun ht j hj => ?_⟩
    · rw [Finset.card_erase_of_mem ((hconns i).mpr hi), hcard, hcount]
    · rw [Finset.mem_erase, hconns, hopen]
    · exact h.returned (hserve ht) j ((hopen j).mp hj).2

theorem closed_of_none (h : Counted s) (hcount : s.connectedClients = 0) (hi : s.At i c) :
    c.phase = .closed := by
  by_contra hc
  obtain ⟨conns, hcard, hconns⟩ := h.count
  have hmem := (hconns i).mpr (hi.open hc)
  rw [Finset.card_eq_zero.mp (hcard.trans hcount)] at hmem
  exact absurd hmem (Finset.notMem_empty i)

end Counted

end DaemonState

theorem DaemonRun.counted (h : DaemonRun cfg R .start es s) : s.Counted :=
  h.invariant (fun _ _ _ h hstep => h.step hstep) .start

/-- A shutdown is acknowledged. Whatever happens after that, the accept loop leaves on account of
it, if and only if it is suspended in its select at that moment, or has left before. -/
theorem DaemonRun.shutdown_observed_iff (hs : DaemonRun cfg R .start es s)
    (h : DaemonStep cfg R s (.shutdownRequest i) t) :
    t.Leaves cfg R ↔ s.serve.Waits ∨ s.serve = .draining := by
  have hserve : t.serve = s.notify.serve := by
    cases h with
    | shutdownRequest => rfl
  have hcounted := DaemonRun.counted hs
  cases hphase : s.serve with
  | selecting n =>
    have hnotified : t.Notified := .inl (by rw [hserve, DaemonState.notify, hphase])
    exact iff_of_true hnotified.leaves (.inl trivial)
  | draining =>
    have hnotified : t.Notified := by
      right
      rw [hserve, DaemonState.notify, hphase]
      trivial
    exact iff_of_true hnotified.leaves (.inr rfl)
  | polled n =>
    have hpolled : t.serve = .polled true := by rw [hserve, DaemonState.notify, hphase]
    have htick : DaemonStep cfg R t .tick { t with serve := .checking } := .tick hpolled
    have hloop : DaemonStep cfg R { t with serve := .checking } .loop
        { t with serve := .selecting false } :=
      .loop (.inr rfl)
    have hlost := DaemonState.not_leaves_of_run (.cons htick (.cons hloop .nil)) rfl
    exact iff_of_false hlost (by simp [ServePhase.Waits])
  | accepted =>
    have haccepted : t.serve = .accepted := by rw [hserve, DaemonState.notify, hphase]
    have hloop : DaemonStep cfg R t .loop { t with serve := .selecting false } :=
      .loop (.inl haccepted)
    exact iff_of_false (DaemonState.not_leaves_of_run (.cons hloop .nil) rfl)
      (by simp [ServePhase.Waits])
  | checking =>
    have hchecking : t.serve = .checking := by rw [hserve, DaemonState.notify, hphase]
    have hloop : DaemonStep cfg R t .loop { t with serve := .selecting false } :=
      .loop (.inr hchecking)
    exact iff_of_false (DaemonState.not_leaves_of_run (.cons hloop .nil) rfl)
      (by simp [ServePhase.Waits])
  | returned =>
    cases h with
    | @shutdownRequest i c id hi hhello hreading =>
      have hopen : s.Open i := hi.open (by rw [hreading]; nofun)
      exact absurd hopen (hcounted.returned hphase i)

/-- The greeted client asks for a shutdown. -/
def sampleStopped (s : DaemonState) : DaemonState :=
  (s.closeClient 0 (Client.reply ⟨true, .reading, 2, sampleGreeted⟩ (.status s.status))).notify

theorem sampleStopped_step (hi : s.At 0 ⟨true, .reading, 1, sampleGreeted⟩) :
    DaemonStep sampleConfig sampleRetrieval s (.shutdownRequest 0) (sampleStopped s) :=
  .shutdownRequest hi rfl rfl

/-- The loop waits when the client asks. -/
theorem DaemonRun.shutdown_observed_iff_waiting :
    (sampleStopped sampleReady).Leaves sampleConfig sampleRetrieval :=
  (DaemonRun.shutdown_observed_iff sampleReady_run (sampleStopped_step rfl)).mpr (.inl trivial)

/-- The loop is at its periodic check when the client asks. It answers, and waits on. -/
theorem shutdown_lost : ∃ es s t u, DaemonRun sampleConfig sampleRetrieval .start es s ∧
    DaemonStep sampleConfig sampleRetrieval s (.shutdownRequest 0) t ∧
    t.At 0 ⟨true, .closed, 2, sampleGreeted ++ [⟨2, .status s.status⟩]⟩ ∧
    DaemonRun sampleConfig sampleRetrieval t [.loop] u ∧ u.serve = .selecting false ∧
    ¬t.Leaves sampleConfig sampleRetrieval := by
  have hpoll : DaemonStep sampleConfig sampleRetrieval sampleReady .poll
      { sampleReady with serve := .polled false } := .poll rfl
  have htick :
      DaemonStep sampleConfig sampleRetrieval { sampleReady with serve := .polled false } .tick
      { sampleReady with serve := .checking } := .tick rfl
  have hrun := sampleReady_run.append (.cons hpoll (.cons htick .nil))
  have hloop : DaemonStep sampleConfig sampleRetrieval
      (sampleStopped { sampleReady with serve := .checking }) .loop
      { sampleStopped { sampleReady with serve := .checking } with serve := .selecting false } :=
    .loop (.inr rfl)
  have hwaits := Trace.cons hloop .nil
  exact ⟨_, _, _, _, hrun, sampleStopped_step rfl, rfl, hwaits, rfl,
    DaemonState.not_leaves_of_run hwaits rfl⟩

/-! ## Workers and their connections -/

namespace DaemonState

/-- A task forwards what its worker reports, until the worker has ended or the connection is
closed. -/
theorem streams (hstep : DaemonStep cfg R s e t) (hi : s.At i c) (hc : c.phase = .streaming w) :
    (∃ c, t.At i c ∧ c.phase = .streaming w) ∨ e = .closed i ∨ ∃ k, s.Works w k ∧
      ¬k.phase.Active := by
  obtain ⟨c', ht, hstream⟩ := hstep.stream hi hc
  cases hstream with
  | other => exact .inl ⟨c, ht, hc⟩
  | progressed => exact .inl ⟨_, ht, hc⟩
  | closed => exact .inr (.inl rfl)
  | @reported k done hw hk =>
    refine .inr (.inr ⟨k, hw, ?_⟩)
    rw [hk]
    exact fun h => h
  | @vanished k hw hk =>
    refine .inr (.inr ⟨k, hw, ?_⟩)
    rw [hk]
    exact fun h => h

theorem streams_index (hstep : DaemonStep cfg R s (.index i w) t) :
    ∃ c, t.At i c ∧ c.phase = .streaming w := by
  cases hstep with
  | index => exact ⟨_, at_setClient rfl, rfl⟩

/-- Every active worker has a connection whose task waits for it. -/
def Attended (s : DaemonState) : Prop :=
  ∀ w k, s.Works w k → k.phase.Active → ∃ i c, s.At i c ∧ c.phase = .streaming w

/-- A connection is closed only when the worker of its index request has ended. -/
def Keeps (s : DaemonState) (e : Event) : Prop :=
  ∀ i c w k, e = .closed i → s.At i c → c.phase = .streaming w → s.Works w k → ¬k.phase.Active

namespace Attended

theorem start : Attended .start := by
  intro w k hw
  cases hw

theorem step (h : Attended s) (hstep : DaemonStep cfg R s e t) (hkeeps : s.Keeps e) :
    Attended t := by
  -- A worker that was active is still waited for.
  have hstays : ∀ {w k}, s.Works w k → k.phase.Active → ∃ i c, t.At i c ∧
      c.phase = .streaming w := by
    intro w k hw hactive
    obtain ⟨i, c, hi, hc⟩ := h w k hw hactive
    rcases streams hstep hi hc with hstill | hclosed | ⟨k', hw', hended⟩
    · exact ⟨i, hstill⟩
    · exact absurd hactive (hkeeps i c w k hclosed hi hc hw)
    · obtain rfl : k = k' := Option.some.inj (hw.symm.trans hw')
      exact absurd hactive hended
  intro v kv hv hactive
  cases hstep.effect with
  | @loaded env hloads =>
    rw [Works, loaded_workers] at hv
    exact hstays hv hactive
  | outer _ _ _ _ hworkers =>
    rw [Works, hworkers] at hv
    exact hstays hv hactive
  | returned => exact hstays hv hactive
  | @worker w k k' _ _ hw hworker hworkers =>
    rcases hv.of_setWorker hworkers with ⟨rfl, -⟩ | ⟨-, hv⟩
    · exact hstays hw hworker.active
    · exact hstays hv hactive
  | @index i c w k hflag hnone hphase hholds =>
    rcases hv.of_setWorker rfl with ⟨rfl, -⟩ | ⟨-, hv⟩
    · exact ⟨i, streams_index hstep⟩
    · exact hstays hv hactive

end Attended

end DaemonState

/-- Runs in which no connection is closed whose worker is active. -/
abbrev AttendedRun (cfg : DaemonConfig) (R : Retrieval) :
    DaemonState → List Event → DaemonState → Prop :=
  Trace fun s e t => DaemonStep cfg R s e t ∧ s.Keeps e

theorem AttendedRun.toDaemonRun (h : AttendedRun cfg R s es t) : DaemonRun cfg R s es t :=
  h.mono fun _ _ _ hstep => hstep.1

theorem DaemonRun.toAttendedRun (h : DaemonRun cfg R s es t) (hes : ∀ e ∈ es, ∀ i, e ≠ .closed i) :
    AttendedRun cfg R s es t := by
  induction h with
  | nil => exact .nil
  | cons hstep _ ih =>
    obtain ⟨he, hes⟩ := List.forall_mem_cons.mp hes
    exact .cons ⟨hstep, fun i _ _ _ hclosed => absurd hclosed (he i)⟩ (ih hes)

/-- Where no connection is closed before the worker of its index request has ended, there is no
active worker any more when `serve` returns. And in no run does the accept loop leave for want of
clients while there is one. -/
theorem DaemonRun.waits_for_workers :
    (∀ es s, AttendedRun cfg R .start es s → s.serve = .returned →
      ∀ w k, s.Works w k → ¬k.phase.Active) ∧
    ∀ es s t, DaemonRun cfg R .start es s → DaemonStep cfg R s .idle t →
      ∀ i c, s.At i c → c.phase = .closed := by
  constructor
  · intro es s h hreturned w k hw hactive
    have hattended : s.Attended :=
      h.invariant (fun _ _ _ h hstep => h.step hstep.1 hstep.2) .start
    obtain ⟨i, c, hi, hc⟩ := hattended w k hw hactive
    have hcounted := DaemonRun.counted (AttendedRun.toDaemonRun h)
    exact hcounted.returned hreturned i (hi.open (by rw [hc]; nofun))
  · intro es s t h hidle i c hi
    cases hidle with
    | idle hserve hcount => exact (DaemonRun.counted h).closed_of_none hcount hi

def sampleTold : List (Envelope Response) := sampleGreeted ++ [⟨2, .error sampleError⟩]

/-- The index request of the client has failed, it is told so, and asks for a shutdown. -/
def sampleLeft : DaemonState :=
  let s := sampleFailed.setClient 0 ⟨true, .reading, 2, sampleTold⟩
  let s := (s.closeClient 0 ⟨true, .closed, 3, sampleTold ++ [⟨3, .status s.status⟩]⟩).notify
  { s with serve := .returned, serving := .starting }

theorem sampleLeft_run : DaemonRun sampleConfig sampleRetrieval sampleFailed
    [.reported 0, .shutdownRequest 0, .shutdown, .returned] sampleLeft := by
  let told := sampleFailed.setClient 0 ⟨true, .reading, 2, sampleTold⟩
  have hstreaming : sampleFailed.At 0 ⟨true, .streaming 0, 2, sampleGreeted⟩ := rfl
  have hw : sampleFailed.Works 0 ⟨.full, "elsewhere", .finished (.error sampleError)⟩ := rfl
  have hreported : DaemonStep sampleConfig sampleRetrieval sampleFailed (.reported 0) told :=
    .reported hstreaming rfl hw rfl
  let stopped := (told.closeClient 0 (Client.reply ⟨true, .reading, 3, sampleTold⟩
    (.status told.status))).notify
  have htold : told.At 0 ⟨true, .reading, 2, sampleTold⟩ := rfl
  have hstop : DaemonStep sampleConfig sampleRetrieval told (.shutdownRequest 0) stopped :=
    .shutdownRequest htold rfl rfl
  have hleave : DaemonStep sampleConfig sampleRetrieval stopped .shutdown
      { stopped with serve := .draining } := .shutdown rfl
  have hreturned : DaemonStep sampleConfig sampleRetrieval { stopped with serve := .draining }
      .returned sampleLeft := by
    refine .returned rfl fun i c hi => ?_
    cases i with
    | zero =>
      obtain rfl := Option.some.inj hi
      rfl
    | succ i => cases hi
  exact .cons hreported (.cons hstop (.cons hleave (.cons hreturned .nil)))

/-- The worker has ended when `serve` returns. -/
theorem DaemonRun.waits_for_workers_reported :
    sampleLeft.serve = .returned ∧ ∀ w k, sampleLeft.Works w k → ¬k.phase.Active := by
  have hrun := sampleReady_run.append (sampleFailed_run.append sampleLeft_run)
  have hattended := DaemonRun.toAttendedRun hrun fun e he i hclosed => by
    subst hclosed
    simp at he
  exact ⟨rfl, DaemonRun.waits_for_workers.1 _ _ hattended rfl⟩

/-- The client disconnects while the index runs. The daemon finds itself idle, and `serve`
returns. -/
theorem returns_under_index : ∃ es s, DaemonRun sampleConfig sampleRetrieval .start es s ∧
    s.serve = .returned ∧
    s.Works 0 ⟨.full, "elsewhere", .running sampleStore [] sampleEmbedder⟩ := by
  have hstreaming : sampleRunning.At 0 ⟨true, .streaming 0, 2, sampleGreeted⟩ := rfl
  let gone := sampleRunning.closeClient 0 ⟨true, .streaming 0, 2, sampleGreeted⟩
  have hclosed : DaemonStep sampleConfig sampleRetrieval sampleRunning (.closed 0) gone :=
    .closed hstreaming (.inr (.inr ⟨0, rfl⟩))
  have hpoll : DaemonStep sampleConfig sampleRetrieval gone .poll
      { gone with serve := .polled false } :=
    .poll rfl
  have htick : DaemonStep sampleConfig sampleRetrieval { gone with serve := .polled false } .tick
      { gone with serve := .checking } := .tick rfl
  have hidle : DaemonStep sampleConfig sampleRetrieval { gone with serve := .checking } .idle
      { gone with serve := .draining } := .idle rfl rfl nofun
  have hreturned : DaemonStep sampleConfig sampleRetrieval { gone with serve := .draining }
      .returned { gone with serve := .returned, serving := .starting } := by
    refine .returned rfl fun i c hi => ?_
    cases i with
    | zero =>
      obtain rfl := Option.some.inj hi
      rfl
    | succ i => cases hi
  have hrun := sampleReady_run.append (sampleRunning_run.append (.cons hclosed (.cons hpoll
    (.cons htick (.cons hidle (.cons hreturned .nil))))))
  exact ⟨_, _, hrun, rfl, rfl⟩

end SiftMcp
