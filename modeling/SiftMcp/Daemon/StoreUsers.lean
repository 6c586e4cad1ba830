import SiftMcp.Daemon.SingleInstance

/-!
# Who uses the store, over all processes

The daemon inside each process runs as it does alone, so what holds of every daemon holds of each.
Two of them use the store at once only when one has dropped the lock file with its loader or an
index worker still at work, and such a one has returned from `serve`: nothing there waits for these
threads.

`RuntimeRun.users` says who these are in any run. Where none is left at work, there is one at most
(`OrderlyRun.user`).
-/

namespace SiftMcp

variable {cfg : Nat → DaemonConfig} {R : Retrieval} {s t : RuntimeState} {e : RuntimeEvent}
  {es : List RuntimeEvent} {p q : Nat} {ph ph' : ProcessPhase} {v v' : LeavePhase}
  {d d' : DaemonState} {c : DaemonConfig} {pe : ProcessEvent} {g g' : RuntimeDir}
  {leftover : Option Bool}

/-! ## The daemon inside -/

theorem DaemonStep.returned_of_returned {de : Event} (h : DaemonStep c R d de d')
    (hd : d.serve = .returned) : d'.serve = .returned := by
  rcases h.serve_cases with hserve | ⟨hserve, -⟩ | hserve
  · exact hserve.trans hd
  · rw [hserve, DaemonState.notify_returned]
    exact hd
  · rw [hd] at hserve
    cases hserve

/-- The daemon inside a process is in a state that it can reach by itself, and has returned from
`serve` where the process has gone on. -/
def ProcessPhase.Runs (c : DaemonConfig) (R : Retrieval) : ProcessPhase → Prop
  | serving v d => (∃ des, DaemonRun c R .start des d) ∧ (v = .listening ∨ d.serve = .returned)
  | _ => True

theorem ProcessStep.runs (h : ProcessStep c R p ph g pe ph' g') (hruns : ph.Runs c R) :
    ph'.Runs c R := by
  cases h with
  | served => exact ⟨⟨[], .nil⟩, .inl rfl⟩
  | inner hstep =>
    obtain ⟨⟨des, hrun⟩, hv⟩ := hruns
    exact ⟨⟨_, hrun.append (.cons hstep .nil)⟩, hv.imp_right hstep.returned_of_returned⟩
  | removed hserve | kept hserve => exact ⟨hruns.1, .inr hserve⟩
  | unlocked | dropped => exact ⟨hruns.1, .inr (hruns.2.resolve_left (fun h => nomatch h))⟩
  | opened | locked | lockHeld | found | absent | unlinked | bound | tightened | exited | killed
  | lockClosed | listenerClosed | gone => trivial

namespace RuntimeState

theorem At.of_setProc (h : (s.setProc q ph').At p ph) : p = q ∧ ph = ph' ∨ p ≠ q ∧ s.At p ph := by
  have h : Function.update s.procs q (some ph') p = some ph := h
  rw [Function.update_apply] at h
  split at h
  · exact .inl ⟨by assumption, (Option.some.inj h).symm⟩
  · exact .inr ⟨by assumption, h⟩

/-- What a process has become of: it starts, or has taken a step, or it was there before. -/
theorem at_cases (hstep : RuntimeStep cfg R s e t) (hp : t.At p ph) : ph = .binding .started ∨
    (∃ ph₀ pe, e = .process p pe ∧ s.At p ph₀ ∧ ProcessStep (cfg p) R p ph₀ s.dir pe ph t.dir) ∨
      s.At p ph := by
  cases hstep with
  | launched hq =>
    rcases hp.of_setProc with ⟨-, rfl⟩ | ⟨-, hp⟩
    · exact .inl rfl
    · exact .inr (.inr hp)
  | @spawned j k q hj hphase hspawned hq =>
    have hp : (s.setProc q (.binding .started)).At p ph := hp
    rcases hp.of_setProc with ⟨-, rfl⟩ | ⟨-, hp⟩
    · exact .inl rfl
    · exact .inr (.inr hp)
  | @process q ph₀ pe ph' g hq hprocess =>
    have hp : (s.setProc q ph').At p ph := hp
    rcases hp.of_setProc with ⟨rfl, rfl⟩ | ⟨-, hp⟩
    · exact .inr (.inl ⟨ph₀, pe, rfl, hq, hprocess⟩)
    · exact .inr (.inr hp)
  | called | probed | connected | gaveUp => exact .inr (.inr hp)

end RuntimeState

/-- What every process is at is preserved if each step of a process preserves it. -/
theorem RuntimeRun.each {I : Nat → ProcessPhase → Prop}
    (h : RuntimeRun cfg R (.start leftover) es s) (hstart : ∀ p, I p (.binding .started))
    (hstep : ∀ p ph g pe ph' g', ProcessStep (cfg p) R p ph g pe ph' g' → I p ph → I p ph')
    (hp : s.At p ph) : I p ph := by
  refine h.invariant (I := fun s => ∀ p ph, s.At p ph → I p ph) (fun s e t hs ht p ph hp => ?_)
    (fun p ph hp => nomatch hp) p ph hp
  rcases RuntimeState.at_cases ht hp with rfl | ⟨ph₀, pe, -, hp₀, hprocess⟩ | hp
  · exact hstart p
  · exact hstep p ph₀ _ pe ph _ hprocess (hs p ph₀ hp₀)
  · exact hs p ph hp

/-- The daemon goes on, the process stays where it is. -/
theorem DaemonRun.toProcessRun {des : List Event} (h : DaemonRun c R d des d') :
    ProcessRun c R p (.serving v d, g) (des.map .inner) (.serving v d', g) := by
  induction h with
  | nil => exact .nil
  | cons hstep _ ih => exact .cons (.inner hstep) ih

theorem RuntimeRun.runs (h : RuntimeRun cfg R (.start leftover) es s) (hp : s.At p ph) :
    ph.Runs (cfg p) R :=
  h.each (I := fun p ph => ph.Runs (cfg p) R) (fun _ => trivial)
    (fun _ _ _ _ _ _ hprocess hruns => hprocess.runs hruns) hp

/-! ## Users -/

namespace DaemonState

/-- The daemon reads or writes the store: it loads it, indexes into it, or answers a query. -/
inductive Uses (d : DaemonState) : Prop
  | loads : d.loading = true → Uses d
  | owns {w k} : d.Works w k → k.phase.Owns → Uses d
  | borrows {i c arc r q} : d.At i c → c.phase = .borrowing arc r q → Uses d
  | views {i c f q} : d.At i c → c.phase = .viewing f q → Uses d

/-- `serve` has returned over a thread that is at work on the store. -/
structure Lingers (d : DaemonState) : Prop where
  returned : d.serve = .returned
  closed : ∀ i c, d.At i c → c.phase = .closed
  works : d.loading = true ∨ ∃ w k, d.Works w k ∧ k.phase.Owns

/-- Neither loader nor worker is active. -/
structure Quiet (d : DaemonState) : Prop where
  loaded : d.loading = false
  ended : ∀ w k, d.Works w k → ¬k.phase.Active

theorem Uses.lingers (h : d.Uses) (hcounted : d.Counted) (hd : d.serve = .returned) :
    d.Lingers := by
  have hclosed : ∀ i c, d.At i c → c.phase = .closed := by
    intro i c hi
    by_contra hc
    exact hcounted.returned hd i (hi.open hc)
  have hnot : ∀ {i c} {p : ClientPhase}, d.At i c → c.phase = p → p = .closed := fun hi hc =>
    hc.symm.trans (hclosed _ _ hi)
  refine ⟨hd, hclosed, ?_⟩
  cases h with
  | loads hl => exact .inl hl
  | owns hw howns => exact .inr ⟨_, _, hw, howns⟩
  | borrows hi hc | views hi hc => cases hnot hi hc

theorem Quiet.not_lingers (h : d.Quiet) : ¬d.Lingers := by
  intro hl
  rcases hl.works with hloads | ⟨w, k, hw, howns⟩
  · rw [h.loaded] at hloads
    cases hloads
  · exact h.ended w k hw howns.active

/-- When `serve` has returned and no thread is active, nothing happens any more. -/
theorem Quiet.rests {de : Event} (h : d.Quiet) (hcounted : d.Counted) (hd : d.serve = .returned) :
    ¬DaemonStep c R d de d' := by
  intro hstep
  have hclosed : ∀ {i c}, d.At i c → c.phase = .closed := by
    intro i c hi
    by_contra hc
    exact hcounted.returned hd i (hi.open hc)
  have hclient : ∀ {i c} {p : ClientPhase}, d.At i c → c.phase = p →
      p ≠ .closed → False := fun hi hc hp =>
    hp (hc.symm.trans (hclosed hi))
  have hworker : ∀ {w k} {p : WorkerPhase}, d.Works w k → k.phase = p →
      p.Active → False := fun hw hk hp =>
    h.ended _ _ hw (hk ▸ hp)
  have hserve : ∀ {p : ServePhase}, d.serve = p → p ≠ .returned → False := fun hp hne =>
    hne (hp.symm.trans hd)
  cases hstep with
  | loaded hloads =>
    rw [h.loaded] at hloads
    cases hloads
  | poll hp | pend hp | accept hp | tick hp | idle hp | shutdown hp | returned hp =>
    exact hserve hp ServePhase.noConfusion
  | loop hp => exact hp.elim (hserve · ServePhase.noConfusion) (hserve · ServePhase.noConfusion)
  | closed hi hc =>
    rcases hc with hc | ⟨req, hc⟩ | ⟨w, hc⟩
    · exact hclient hi hc ClientPhase.noConfusion
    · exact hclient hi hc ClientPhase.noConfusion
    · exact hclient hi hc ClientPhase.noConfusion
  | garbled hi hc | gated hi _ hc | passed hi _ hc | greeted hi hc | unwelcome hi hc
  | statusRequest hi _ hc | secondHello hi _ hc | shutdownRequest hi _ hc | turnedAway hi _ hc
  | borrowed hi _ hc | viewed hi _ hc | answered _ hi hc | answeredFrozen _ hi hc | refused hi _ hc
  | index _ _ hi _ hc | progressed hi hc | reported hi hc | vanished hi hc =>
    exact hclient hi hc ClientPhase.noConfusion
  | gaveBack hw hk | notReady hw hk | took hw hk | split hw hk | splitFailed hw hk | ready hw hk
  | stale hw hk | panicked hw hk | cleared hw hk => exact hworker hw hk trivial

end DaemonState

/-- However the processes interleave, and wherever they are killed: when two daemons use the store
at once, one of them has dropped the lock file, has returned from `serve`, and has its loader or a
worker still at work. -/
theorem RuntimeRun.users (h : RuntimeRun cfg R (.start leftover) es s) (hpq : p ≠ q)
    (hp : s.At p (.serving v d)) (hq : s.At q (.serving v' d')) (hd : d.Uses) (hd' : d'.Uses) :
    v.locks = false ∧ d.Lingers ∨ v'.locks = false ∧ d'.Lingers := by
  have hsound := RuntimeRun.sound h
  -- Who has dropped the lock file has returned.
  have hlingers : ∀ {p v d}, s.At p (.serving v d) → d.Uses → v.locks = false → d.Lingers := by
    intro p v d hp hd hv
    obtain ⟨⟨des, hrun⟩, hserve⟩ := h.runs hp
    refine hd.lingers (DaemonRun.counted hrun) (hserve.resolve_left ?_)
    rintro rfl
    cases hv
  cases hv : v.locks with
  | false => exact .inl ⟨rfl, hlingers hp hd hv⟩
  | true =>
    cases hv' : v'.locks with
    | false => exact .inr ⟨rfl, hlingers hq hd' hv'⟩
    | true => exact absurd (hsound.unique hp hv hq hv') hpq

/-- A client is greeted while the store is being loaded, and asks for a shutdown. -/
theorem returns_under_loader : ∃ des d, DaemonRun sampleConfig sampleRetrieval .start des d ∧
    d.serve = .returned ∧ d.loading = true := by
  have hgreeted :=
    @greeted_run 0 sampleConfig sampleRetrieval .start (.hello 1 "" 0) rfl rfl rfl rfl
  let greeting := { DaemonState.start.setClient 0 ⟨false, .reading, 0, []⟩ with
    serve := .selecting false
    connectedClients := 1 }.setClient 0 ⟨false, .greeting (.hello 1 "client"), 1, []⟩
  let asks := greeting.setClient 0 ⟨true, .reading, 1, [⟨1, .hello 1 "" 0⟩]⟩
  have hasks : asks.At 0 ⟨true, .reading, 1, [⟨1, .hello 1 "" 0⟩]⟩ := rfl
  let stopped := (asks.closeClient 0
    (Client.reply ⟨true, .reading, 2, [⟨1, .hello 1 "" 0⟩]⟩ (.status asks.status))).notify
  have hstop : DaemonStep sampleConfig sampleRetrieval asks (.shutdownRequest 0) stopped :=
    .shutdownRequest hasks rfl rfl
  have hleave : DaemonStep sampleConfig sampleRetrieval stopped .shutdown
      { stopped with serve := .draining } := .shutdown rfl
  have hreturned : DaemonStep sampleConfig sampleRetrieval { stopped with serve := .draining }
      .returned { stopped with serve := .returned, serving := .starting } := by
    refine .returned rfl fun i c hi => ?_
    cases i with
    | zero =>
      obtain rfl := Option.some.inj hi
      rfl
    | succ i => cases hi
  exact ⟨_, _, hgreeted.append (.cons hstop (.cons hleave (.cons hreturned .nil))), rfl, rfl⟩

/-- Then its process drops the lock file, another process comes up, and both load the store. -/
theorem RuntimeRun.users_loading : ∃ es s d, RuntimeRun (fun _ => sampleConfig) sampleRetrieval
      (.start (some false)) es s ∧
    s.At 0 (.serving .unlocked d) ∧ d.Uses ∧ s.At 1 (.serving .listening .start) ∧ d.Lingers := by
  obtain ⟨des, d, hd, hreturned, hloading⟩ := returns_under_loader
  have hleaves := (hd.toProcessRun (p := 0) (v := .listening)
    (g := ⟨some 0, some ⟨some 0, true⟩⟩)).append (ProcessRun.cons (.removed hreturned)
      (.cons .unlocked .nil))
  have hleft := sampleServed_run.append
    (@ProcessRun.toRuntimeRun (fun _ => sampleConfig) _ sampleServed _ _ _ _ hleaves rfl rfl)
  let left := sampleServed.moved 0 (.serving .unlocked d) ⟨none, none⟩
  have hlaunched : RuntimeStep (fun _ => sampleConfig) sampleRetrieval left (.launched 1)
      (left.setProc 1 (.binding .started)) := .launched rfl
  have hup := ProcessRun.comes_up (c := sampleConfig) (R := sampleRetrieval) (p := 1) none
  have hrun := hleft.append (.cons hlaunched (@ProcessRun.toRuntimeRun (fun _ => sampleConfig) _
    (left.setProc 1 (.binding .started)) _ _ _ _ hup rfl rfl))
  have hstart : DaemonState.start.Uses := .loads rfl
  have hlingers :=
    RuntimeRun.users (p := 0) (q := 1) hrun (by decide) rfl rfl (.loads hloading) hstart
  refine ⟨_, _, d, hrun, rfl, .loads hloading, rfl, hlingers.elim (·.2) fun h => ?_⟩
  cases h.1

/-- Loader and workers have ended when the lock file is dropped. -/
def RuntimeState.Orderly (s : RuntimeState) (e : RuntimeEvent) : Prop :=
  ∀ p d, e = .process p .unlocked → s.At p (.serving .removed d) → d.Quiet

/-- A process that has dropped the lock file is at rest. -/
def ProcessPhase.Rests : ProcessPhase → Prop
  | serving v d => v.locks = false → d.Quiet
  | _ => True

/-- Runs in which no daemon drops the lock file under its loader or a worker. -/
abbrev OrderlyRun (cfg : Nat → DaemonConfig) (R : Retrieval) :
    RuntimeState → List RuntimeEvent → RuntimeState → Prop :=
  Trace fun s e t => RuntimeStep cfg R s e t ∧ s.Orderly e

theorem OrderlyRun.toRuntimeRun (h : OrderlyRun cfg R s es t) : RuntimeRun cfg R s es t :=
  h.mono fun _ _ _ hstep => hstep.1

theorem RuntimeRun.toOrderlyRun (h : RuntimeRun cfg R s es t)
    (hes : ∀ p, .process p .unlocked ∉ es) : OrderlyRun cfg R s es t := by
  induction h with
  | nil => exact .nil
  | cons hstep _ ih =>
    refine .cons ⟨hstep, fun p d he => ?_⟩ (ih fun p hp => hes p (List.mem_cons_of_mem _ hp))
    exact absurd (he ▸ List.mem_cons_self) (hes p)

/-- In such runs one daemon at most uses the store, and it holds the lock. -/
theorem OrderlyRun.user (h : OrderlyRun cfg R (.start leftover) es s)
    (hp : s.At p (.serving v d)) (hd : d.Uses) :
    s.dir.lock = some p ∧ ∀ q v' d', s.At q (.serving v' d') → d'.Uses → q = p := by
  have hsound := RuntimeRun.sound h.toRuntimeRun
  have hrests : ∀ p ph, s.At p ph → ph.Runs (cfg p) R ∧ ph.Rests := by
    refine h.invariant (I := fun s => ∀ p ph, s.At p ph → ph.Runs (cfg p) R ∧ ph.Rests)
      (fun s e t hs ht p ph hp => ?_) (fun p ph hp => nomatch hp)
    rcases RuntimeState.at_cases ht.1 hp with rfl | ⟨ph₀, pe, rfl, hp₀, hprocess⟩ | hp
    · exact ⟨trivial, trivial⟩
    · obtain ⟨hruns, hrests⟩ := hs p ph₀ hp₀
      refine ⟨hprocess.runs hruns, ?_⟩
      revert hprocess
      generalize s.dir = g, t.dir = g'
      intro hprocess
      cases hprocess with
      | opened | locked | lockHeld | found | absent | unlinked | bound | tightened | exited | killed
      | lockClosed | listenerClosed | gone => trivial
      | served | removed | kept => exact fun hv => nomatch hv
      | unlocked => exact fun _ => ht.2 p _ rfl hp₀
      | dropped => exact fun _ => hrests rfl
      | @inner v d de d' _ hstep =>
        intro hv
        obtain ⟨⟨des, hdrun⟩, hserve⟩ := hruns
        have hreturned : d.serve = .returned := hserve.resolve_left fun hlistening => by
          subst hlistening
          cases hv
        exact absurd hstep ((hrests hv).rests (DaemonRun.counted hdrun) hreturned)
    · exact hs p ph hp
  -- So who uses the store has the lock.
  have hholds : ∀ {p v d}, s.At p (.serving v d) → d.Uses → v.locks = true := by
    intro p v d hp hd
    by_contra hv
    rw [Bool.not_eq_true] at hv
    obtain ⟨⟨⟨des, hdrun⟩, hserve⟩, hquiet⟩ := hrests p _ hp
    have hreturned : d.serve = .returned := hserve.resolve_left fun hlistening => by
      subst hlistening
      cases hv
    exact (hquiet hv).not_lingers (hd.lingers (DaemonRun.counted hdrun) hreturned)
  exact ⟨(hsound.held p _ hp (hholds hp hd)).1, fun q v' d' hq hd' =>
    hsound.unique hq (hholds hq hd') hp (hholds hp hd)⟩

/-- The daemon that has come up loads the store. -/
theorem OrderlyRun.user_served : sampleServed.dir.lock = some 0 ∧
    ∀ q v d, sampleServed.At q (.serving v d) → d.Uses → q = 0 := by
  have horderly := RuntimeRun.toOrderlyRun sampleServed_run fun p => by simp [comingUp]
  have hstart : DaemonState.start.Uses := .loads rfl
  exact OrderlyRun.user (v := .listening) horderly rfl hstart

end SiftMcp
