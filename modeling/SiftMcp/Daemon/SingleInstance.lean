import SiftMcp.Daemon.Instances

/-!
# One daemon at a time

All that changes the path of the socket is done by the process that holds the lock. So a daemon that
has bound the socket stays the one that clients connect to, until it removes the socket or dies, and
what a killed daemon leaves behind keeps no other from taking its place.

* `RuntimeRun.incumbent`: of two processes, one at most serves the socket.
* `RuntimeRun.stays`: it goes on to do so until it ends.
* `RuntimeRun.reopens`: behind it another can be started.
-/

namespace SiftMcp

variable {cfg : Nat → DaemonConfig} {R : Retrieval} {s t : RuntimeState} {e : RuntimeEvent}
  {es es' : List RuntimeEvent} {p q j : Nat} {ph ph' : ProcessPhase} {leftover : Option Bool}

/-! ## What the holder of the lock relies on -/

/-- What a process knows of the path of the socket. -/
def ProcessPhase.Sees (p : Nat) : ProcessPhase → Option SocketFile → Prop
  | binding .stale, f => f ≠ none
  | binding .prepared, f => f = none
  | binding .bound, f => ∃ only, f = some ⟨some p, only⟩
  | binding .tightened, f | serving .listening _, f => f = some ⟨some p, true⟩
  | _, _ => True

namespace ProcessPhase

theorem Published.locks (h : ph.Published) : ph.locks = true := by
  unfold Published at h
  split at h
  · rfl
  · rfl
  · rfl
  · exact h.elim

theorem Published.listens (h : ph.Published) : ph.listens = true := by
  unfold Published at h
  split at h
  · rfl
  · rfl
  · rfl
  · exact h.elim

theorem Published.socket {f : Option SocketFile} (h : ph.Published) (hsees : ph.Sees p f) :
    ∃ only, f = some ⟨some p, only⟩ := by
  unfold Published at h
  split at h
  · exact hsees
  · exact ⟨true, hsees⟩
  · exact ⟨true, hsees⟩
  · exact h.elim

end ProcessPhase

namespace ProcessStep

variable {c : DaemonConfig} {g g' : RuntimeDir} {pe : ProcessEvent}

theorem lockStep (h : ProcessStep c R p ph g pe ph' g') :
    LockStep ProcessPhase.locks p ph g ph' g' := by
  -- Where the lock is kept or not had, as before.
  have hsame : ∀ {a b : ProcessPhase} {g : RuntimeDir}, b.locks = a.locks →
      LockStep ProcessPhase.locks p a g b g := by
    intro a b g hb
    cases ha : a.locks with
    | true => exact .inside ha (hb.trans ha)
    | false => exact .outside ha (hb.trans ha)
  cases h with
  | locked => exact .acquired rfl rfl
  | unlocked | lockClosed => exact .released rfl rfl
  | unlinked | bound | tightened | removed => exact .inside rfl rfl
  | opened | lockHeld | found | absent | served | kept | dropped | inner | killed | listenerClosed
  | gone | exited => exact hsame rfl

theorem sees (h : ProcessStep c R p ph g pe ph' g') (hsees : ph.locks = true → ph.Sees p g.shared)
    (hlocks : ph'.locks = true) : ph'.Sees p g'.shared := by
  cases h with
  | opened | lockHeld | unlocked | dropped | exited | lockClosed | gone => cases hlocks
  | locked | killed | listenerClosed | removed | kept => trivial
  | found => exact Option.some_ne_none _
  | absent | unlinked => rfl
  | @bound l only => exact ⟨only, rfl⟩
  | tightened =>
    obtain ⟨only, hf⟩ := hsees rfl
    obtain rfl := Option.some.inj hf
    rfl
  | served => exact hsees rfl
  | @inner v => cases v <;> exact hsees hlocks

end ProcessStep

namespace RuntimeState

/-- Lock, path and processes fit. -/
abbrev Sound (s : RuntimeState) : Prop :=
  s.dir.Sound ProcessPhase.locks (fun p ph f => ph.Sees p f) s.procs

theorem Sound.start : (start leftover).Sound :=
  ⟨fun _ _ h => (nomatch h), fun _ h => (nomatch h)⟩

theorem Sound.step (h : s.Sound) (hstep : RuntimeStep cfg R s e t) : t.Sound := by
  cases hstep with
  | launched hp => exact h.join hp rfl
  | spawned _ _ _ hp => exact h.join hp rfl
  | process hp hprocess => exact LockGuarded.Sound.step h hp hprocess.lockStep hprocess.sees
  | called | probed | connected | gaveUp => exact h

end RuntimeState

theorem RuntimeRun.sound (h : RuntimeRun cfg R (.start leftover) es s) : s.Sound :=
  h.invariant (fun _ _ _ h hstep => h.step hstep) .start

/-! ## Coming up -/

/-- What one process goes through while no other touches lock and path. -/
abbrev ProcessRun (c : DaemonConfig) (R : Retrieval) (p : Nat) :
    ProcessPhase × RuntimeDir → List ProcessEvent → ProcessPhase × RuntimeDir → Prop :=
  Trace fun a e b => ProcessStep c R p a.1 a.2 e b.1 b.2

theorem RuntimeState.moved_moved {a b : ProcessPhase} {g g' : RuntimeDir} :
    (s.moved p a g).moved p b g' = s.moved p b g' := by
  simp only [moved, setProc, Function.update_idem]

theorem ProcessRun.toRuntimeRun {a b : ProcessPhase × RuntimeDir} {pes : List ProcessEvent}
    (h : ProcessRun (cfg p) R p a pes b) (hp : s.At p a.1) (hdir : s.dir = a.2) :
    RuntimeRun cfg R s (pes.map (.process p)) (s.moved p b.1 b.2) := by
  induction h generalizing s with
  | @nil a =>
    have hself : s.moved p a.1 a.2 = s := by
      have hprocs : Function.update s.procs p (some a.1) = s.procs :=
        Function.update_eq_self_iff.mpr hp.symm
      rw [RuntimeState.moved, RuntimeState.setProc, hprocs, ← hdir]
    rw [hself]
    exact .nil
  | @cons a e b pes c hstep _ ih =>
    have hfirst : RuntimeStep cfg R s (.process p e) (s.moved p b.1 b.2) := by
      refine .process hp ?_
      rw [hdir]
      exact hstep
    have hrest := ih (s := s.moved p b.1 b.2) (Function.update_self ..) rfl
    rw [RuntimeState.moved_moved] at hrest
    exact .cons hfirst hrest

theorem ProcessRun.cons {c : DaemonConfig} {a b : ProcessPhase} {g g' : RuntimeDir}
    {z : ProcessPhase × RuntimeDir} {pe : ProcessEvent} {pes : List ProcessEvent}
    (hstep : ProcessStep c R p a g pe b g') (h : ProcessRun c R p (b, g') pes z) :
    ProcessRun c R p (a, g) (pe :: pes) z :=
  Trace.cons (t := (b, g')) hstep h

/-- The steps of a process that comes up. -/
def comingUp : Option SocketFile → List ProcessEvent
  | none => [.opened, .locked, .absent, .bound, .tightened, .served]
  | some _ => [.opened, .locked, .found, .unlinked, .bound, .tightened, .served]

/-- A process gets the lock, whatever is at the path, and comes to serve. -/
theorem ProcessRun.comes_up {c : DaemonConfig} (f : Option SocketFile) :
    ProcessRun c R p (.binding .started, ⟨none, f⟩) (comingUp f)
      (.serving .listening .start, ⟨some p, some ⟨some p, true⟩⟩) := by
  have hbind : ProcessRun c R p (.binding .prepared, ⟨some p, none⟩) [.bound, .tightened, .served]
      (.serving .listening .start, ⟨some p, some ⟨some p, true⟩⟩) :=
    .cons (@ProcessStep.bound c R p _ false) (.cons .tightened (.cons (.served rfl) .nil))
  cases f with
  | none => exact .cons .opened (.cons .locked (.cons .absent hbind))
  | some f => exact .cons .opened (.cons .locked (.cons .found (.cons .unlinked hbind)))

/-- A client finds a socket that was left behind, and the daemon that it spawns comes to serve. -/
def sampleServed : RuntimeState :=
  let s := (RuntimeState.start (some false)).setCaller 0 ⟨none, .probing⟩
  let s := (s.setProc 0 (.binding .started)).setCaller 0 ⟨some 0, .probing⟩
  s.moved 0 (.serving .listening .start) ⟨some 0, some ⟨some 0, true⟩⟩

theorem sampleServed_run : RuntimeRun (fun _ => sampleConfig) sampleRetrieval (.start (some false))
    (.called 0 :: .spawned 0 0 :: (comingUp (some ⟨none, false⟩)).map (.process 0))
      sampleServed := by
  let s := (RuntimeState.start (some false)).setCaller 0 ⟨none, .probing⟩
  let t := (s.setProc 0 (.binding .started)).setCaller 0 ⟨some 0, .probing⟩
  have hcalled : RuntimeStep (fun _ => sampleConfig) sampleRetrieval (.start (some false))
      (.called 0) s :=
    .called rfl
  have hspawned : RuntimeStep (fun _ => sampleConfig) sampleRetrieval s (.spawned 0 0) t :=
    .spawned (c := ⟨none, .probing⟩) rfl rfl rfl rfl
  have hup :=
    ProcessRun.comes_up (c := sampleConfig) (R := sampleRetrieval) (p := 0) (some ⟨none, false⟩)
  exact .cons hcalled
    (.cons hspawned (@ProcessRun.toRuntimeRun (fun _ => sampleConfig) _ t _ _ _ _ hup rfl rfl))

/-! ## The incumbent -/

namespace RuntimeState

theorem Sound.published (h : s.Sound) (hp : s.Published p) : s.dir.lock = some p ∧ s.Reaches p := by
  obtain ⟨ph, hph, hpub⟩ := hp
  obtain ⟨hlock, hsees⟩ := h.held p ph hph hpub.locks
  exact ⟨hlock, hpub.socket hsees, ph, hph, hpub.listens⟩

/-- There is one way to take the path. -/
theorem Reaches.unique (hp : s.Reaches p) (hq : s.Reaches q) : p = q := by
  obtain ⟨⟨only, hp⟩, -⟩ := hp
  obtain ⟨⟨only', hq⟩, -⟩ := hq
  exact Option.some.inj (SocketFile.mk.inj (Option.some.inj (hp.symm.trans hq))).1

theorem Sound.reaches_iff (h : s.Sound) (hp : s.Published p) : s.Reaches q ↔ q = p := by
  have hreaches := (h.published hp).2
  constructor
  · intro hq
    exact hq.unique hreaches
  · rintro rfl
    exact hreaches

end RuntimeState

/-- At every moment: one process at most has bound the socket and not yet come to remove it, and who
connects is connected to it; from when it serves the socket keeps all but its owner out. A process
that is about to remove what it has found at the path finds it there, and it is no such daemon's;
one that is about to bind finds the path free. -/
theorem RuntimeRun.incumbent (h : RuntimeRun cfg R (.start leftover) es s) :
    (∀ p q, s.Published p → s.Published q → p = q) ∧
    (∀ p q, s.Published p → (s.Reaches q ↔ q = p)) ∧
    (∀ p d, s.At p (.serving .listening d) → s.dir.shared = some ⟨some p, true⟩) ∧
    (∀ p, s.At p (.binding .stale) → s.dir.shared ≠ none ∧ ∀ q, ¬s.Published q) ∧
    ∀ p, s.At p (.binding .prepared) → s.dir.shared = none := by
  have hsound := RuntimeRun.sound h
  have hunique : ∀ {p q}, s.dir.lock = some p → s.Published q → p = q := fun hp hq =>
    Option.some.inj (hp.symm.trans (hsound.published hq).1)
  refine ⟨fun p q hp hq => ?_, fun p q hp => hsound.reaches_iff hp, fun p d hp => ?_,
    fun p hp => ?_, fun p hp => ?_⟩
  · exact hunique (hsound.published hp).1 hq
  · exact (hsound.held p _ hp rfl).2
  · obtain ⟨hlock, hsees⟩ := hsound.held p _ hp rfl
    refine ⟨hsees, fun q hq => ?_⟩
    obtain rfl := hunique hlock hq
    obtain ⟨ph, hph, hpub⟩ := hq
    obtain rfl := Option.some.inj (hp.symm.trans hph)
    exact hpub
  · exact (hsound.held p _ hp rfl).2

theorem RuntimeRun.incumbent_served : sampleServed.Published 0 ∧ ∀ q, sampleServed.Reaches q ↔
    q = 0 := by
  have hpub : sampleServed.Published 0 := ⟨_, rfl, trivial⟩
  exact ⟨hpub, fun q => (RuntimeRun.incumbent sampleServed_run).2.1 0 q hpub⟩

/-! ## How long it stays -/

/-- What ends the time for which a daemon can be connected to. -/
def ProcessEvent.Ends : ProcessEvent → Prop
  | removed | kept | killed => True
  | _ => False

def RuntimeEvent.Ends (p : Nat) : RuntimeEvent → Prop
  | process q e => q = p ∧ e.Ends
  | _ => False

theorem ProcessStep.published {c : DaemonConfig} {g g' : RuntimeDir} {pe : ProcessEvent}
    (h : ProcessStep c R p ph g pe ph' g') (hpub : ph.Published) (he : ¬pe.Ends) :
    ph'.Published := by
  cases h with
  | bound | tightened | served => trivial
  | @inner v => cases v <;> exact hpub
  | removed | kept | killed => exact absurd trivial he
  | opened | locked | lockHeld | found | absent | unlinked | unlocked | dropped | exited
  | lockClosed | listenerClosed | gone => exact hpub.elim

namespace RuntimeState

theorem Published.setProc_of_none (h : s.Published p) (hq : s.procs q = none) :
    (s.setProc q ph).Published p := by
  obtain ⟨ph', hp, hpub⟩ := h
  have hpq : p ≠ q := by
    rintro rfl
    cases hq.symm.trans hp
  exact ⟨ph', (Function.update_of_ne hpq ..).trans hp, hpub⟩

theorem Published.step (h : s.Published p) (hstep : RuntimeStep cfg R s e t) (he : ¬e.Ends p) :
    t.Published p := by
  cases hstep with
  | launched hq => exact h.setProc_of_none hq
  | spawned _ _ _ hq => exact h.setProc_of_none hq
  | called | probed | connected | gaveUp => exact h
  | @process q ph pe ph' g hq hprocess =>
    obtain ⟨ph₀, hp, hpub⟩ := h
    by_cases hpq : p = q
    · subst hpq
      obtain rfl := Option.some.inj (hp.symm.trans hq)
      exact ⟨ph', Function.update_self .., hprocess.published hpub fun hends => he ⟨rfl, hends⟩⟩
    · exact ⟨ph₀, (Function.update_of_ne hpq ..).trans hp, hpub⟩

theorem Calls.of_setCaller {i : Nat} {c d : Caller} (h : (s.setCaller i d).Calls j c) :
    j = i ∧ c = d ∨ j ≠ i ∧ s.Calls j c := by
  have h : Function.update s.callers i (some d) j = some c := h
  rw [Function.update_apply] at h
  split at h
  · exact .inl ⟨by assumption, (Option.some.inj h).symm⟩
  · exact .inr ⟨by assumption, h⟩

/-- A client that has been connected meanwhile. -/
theorem connected_cases {c : Caller} (hstep : RuntimeStep cfg R s e t) (hj : t.Calls j c)
    (hc : c.phase = .connected q) : s.Reaches q ∨ ∃ c', s.Calls j c' ∧ c'.phase = .connected q := by
  -- A step of one client leaves the others alone.
  have hset : ∀ {i : Nat} {d : Caller}, (s.setCaller i d).Calls j c →
      (d.phase = .connected q → s.Reaches q) →
      s.Reaches q ∨ ∃ c', s.Calls j c' ∧ c'.phase = .connected q := by
    intro i d hj hd
    rcases hj.of_setCaller with ⟨-, rfl⟩ | ⟨-, hj⟩
    · exact .inl (hd hc)
    · exact .inr ⟨c, hj, hc⟩
  cases hstep with
  | launched | process => exact .inr ⟨c, hj, hc⟩
  | called => exact hset hj (fun h => nomatch h)
  | probed | gaveUp => exact hset hj (fun h => nomatch h)
  | @spawned i d p hi hphase =>
    refine hset (d := { d with spawned := some p }) hj fun h => ?_
    cases hphase.symm.trans h
  | @connected i d p hi hphase hreaches =>
    refine hset hj fun h => ?_
    obtain rfl := CallerPhase.connected.inj h
    exact hreaches

end RuntimeState

/-- A daemon that has bound the socket stays the one that clients connect to, whatever other
processes and clients do, until it comes to remove the socket or is killed. So all who are connected
meanwhile are connected to it. -/
theorem RuntimeRun.stays (h : RuntimeRun cfg R (.start leftover) es s) (hp : s.Published p)
    (hrun : RuntimeRun cfg R s es' t) (hes : ∀ e ∈ es', ¬e.Ends p) :
    t.Published p ∧ (∀ q, t.Reaches q ↔ q = p) ∧
      ∀ j c q, t.Calls j c → c.phase = .connected q →
        q = p ∨ ∃ c', s.Calls j c' ∧ c'.phase = .connected q := by
  have hsound := RuntimeRun.sound h
  -- The three hold along the run.
  have hinv : t.Sound ∧ t.Published p ∧ ∀ j c q, t.Calls j c → c.phase = .connected q →
      q = p ∨ ∃ c', s.Calls j c' ∧ c'.phase = .connected q := by
    refine hrun.invariant_of (I := fun u => u.Sound ∧ u.Published p ∧ ∀ j c q, u.Calls j c →
      c.phase = .connected q → q = p ∨ ∃ c', s.Calls j c' ∧ c'.phase = .connected q) ?_ hes
      ⟨hsound, hp, fun j c q hj hc => .inr ⟨c, hj, hc⟩⟩
    intro u e v he ⟨hu, hpub, hconnected⟩ hstep
    refine ⟨hu.step hstep, hpub.step hstep he, fun j c q hj hc => ?_⟩
    rcases RuntimeState.connected_cases hstep hj hc with hreaches | ⟨c', hj', hc'⟩
    · exact .inl ((hu.reaches_iff hpub).mp hreaches)
    · exact hconnected j c' q hj' hc'
  obtain ⟨hsound, hpub, hconnected⟩ := hinv
  exact ⟨hpub, fun q => hsound.reaches_iff hpub, hconnected⟩

/-- Another daemon comes, finds the lock held and goes, while the client is connected. -/
theorem RuntimeRun.stays_served :
    ∃ es t, RuntimeRun (fun _ => sampleConfig) sampleRetrieval sampleServed es t ∧
    t.At 1 (.dying false false) ∧ t.Calls 0 ⟨some 0, .connected 0⟩ ∧ t.Published 0 := by
  have hpub : sampleServed.Published 0 := ⟨_, rfl, trivial⟩
  let s₁ := sampleServed.setCaller 0 ⟨some 0, .found⟩
  let s₂ := s₁.setProc 1 (.binding .started)
  let s₃ := s₂.moved 1 (.binding .opened) s₂.dir
  let s₄ := s₃.setCaller 0 ⟨some 0, .connected 0⟩
  let s₅ := s₄.moved 1 (.dying false false) s₄.dir
  have hreaches : sampleServed.Reaches 0 := ⟨⟨true, rfl⟩, _, rfl, rfl⟩
  have hreaches' : s₃.Reaches 0 := ⟨⟨true, rfl⟩, _, rfl, rfl⟩
  have h₁ : RuntimeStep (fun _ => sampleConfig) sampleRetrieval sampleServed (.probed 0) s₁ :=
    .probed (c := ⟨some 0, .probing⟩) rfl rfl hreaches
  have h₂ : RuntimeStep (fun _ => sampleConfig) sampleRetrieval s₁ (.launched 1) s₂ := .launched rfl
  have h₃ : RuntimeStep (fun _ => sampleConfig) sampleRetrieval s₂ (.process 1 .opened) s₃ :=
    .process rfl .opened
  have h₄ : RuntimeStep (fun _ => sampleConfig) sampleRetrieval s₃ (.connected 0) s₄ :=
    .connected (c := ⟨some 0, .found⟩) rfl rfl hreaches'
  have h₅ : RuntimeStep (fun _ => sampleConfig) sampleRetrieval s₄ (.process 1 .lockHeld) s₅ :=
    .process rfl .lockHeld
  have hrun' := Trace.cons h₁ (.cons h₂ (.cons h₃ (.cons h₄ (.cons h₅ .nil))))
  refine ⟨_, s₅, hrun', rfl, rfl, (RuntimeRun.stays sampleServed_run hpub hrun' fun e he => ?_).1⟩
  simp only [List.mem_cons, List.not_mem_nil, or_false] at he
  rcases he with rfl | rfl | rfl | rfl | rfl <;> simp [RuntimeEvent.Ends, ProcessEvent.Ends]

/-! ## After a crash -/

/-- The holder of the lock is killed, if there is one. -/
theorem RuntimeState.Sound.vacated (h : s.Sound) :
    ∃ es' t, RuntimeRun cfg R s es' t ∧ t.dir.lock = none ∧ t.dir.shared = s.dir.shared ∧
    (∀ e ∈ es', ∃ q pe, e = .process q pe ∧ s.dir.lock = some q) ∧
    ∀ q, s.dir.lock ≠ some q → t.procs q = s.procs q := by
  cases hlock : s.dir.lock with
  | none => exact ⟨[], s, .nil, hlock, rfl, nofun, fun _ _ => rfl⟩
  | some q =>
    obtain ⟨ph, hq, hlocks⟩ := h.holder q hlock
    have hclose : ∀ {b}, ProcessRun (cfg q) R q (.dying true b, s.dir) [.lockClosed]
        (.dying false b, ⟨none, s.dir.shared⟩) := .cons .lockClosed .nil
    have hrun : ∃ pes b, ProcessRun (cfg q) R q (ph, s.dir) pes
        (.dying false b, ⟨none, s.dir.shared⟩) := by
      cases ph with
      | binding b =>
        have hkilled : ProcessStep (cfg q) R q (.binding b) s.dir .killed
          (.dying (ProcessPhase.binding b).locks b.listens) s.dir := .killed trivial
        rw [hlocks] at hkilled
        exact ⟨_, b.listens, .cons hkilled hclose⟩
      | serving v d =>
        have hkilled : ProcessStep (cfg q) R q (.serving v d) s.dir .killed
          (.dying (ProcessPhase.serving v d).locks v.listens) s.dir := .killed trivial
        rw [hlocks] at hkilled
        exact ⟨_, v.listens, .cons hkilled hclose⟩
      | dying locks listens =>
        obtain rfl : locks = true := hlocks
        exact ⟨_, listens, hclose⟩
      | exited => cases hlocks
    obtain ⟨pes, b, hrun⟩ := hrun
    refine ⟨_, _, hrun.toRuntimeRun hq rfl, rfl, rfl, fun e he => ?_, fun q' hq' => ?_⟩
    · obtain ⟨pe, -, rfl⟩ := List.mem_map.mp he
      exact ⟨q, pe, rfl, rfl⟩
    · exact Function.update_of_ne (fun h => hq' (congrArg some h.symm)) ..

/-- Whatever has happened, no state keeps daemons out for good: once the holder of the lock is dead,
a process that is started comes to serve, and to be the one that clients connect to, with no other
process doing anything. -/
theorem RuntimeRun.reopens (h : RuntimeRun cfg R (.start leftover) es s) (hp : s.procs p = none) :
    ∃ es' t, RuntimeRun cfg R s es' t ∧ t.At p (.serving .listening .start) ∧
      (∀ q, t.Reaches q ↔ q = p) ∧
      (∀ e ∈ es', e = .launched p ∨ ∃ q pe, e = .process q pe ∧ (q = p ∨ s.dir.lock = some q)) ∧
      ∀ q, q ≠ p → s.dir.lock ≠ some q → t.procs q = s.procs q := by
  have hsound := RuntimeRun.sound h
  obtain ⟨es₁, m, hm, hlock, hshared, hes₁, hothers⟩ := @RuntimeState.Sound.vacated cfg R s hsound
  have hmp : m.procs p = none := by
    rw [hothers p fun hlock => ?_, hp]
    obtain ⟨ph, hph, -⟩ := hsound.holder p hlock
    cases hp.symm.trans hph
  have hpes := ProcessRun.comes_up (c := cfg p) (R := R) (p := p) m.dir.shared
  have hlaunch : RuntimeStep cfg R m (.launched p) (m.setProc p (.binding .started)) :=
    .launched hmp
  have hdir : (m.setProc p (.binding .started)).dir = ⟨none, m.dir.shared⟩ := by
    rw [← hlock]
    rfl
  have hrun := hm.append (.cons hlaunch (hpes.toRuntimeRun (Function.update_self ..) hdir))
  refine ⟨_, _, hrun, Function.update_self .., fun q => ?_, fun e he => ?_, fun q hqp hq => ?_⟩
  · have hsound' := RuntimeRun.sound (h.append hrun)
    exact hsound'.reaches_iff ⟨_, Function.update_self .., trivial⟩
  · rcases List.mem_append.mp he with he | he
    · obtain ⟨q, pe, rfl, hq⟩ := hes₁ e he
      exact .inr ⟨q, pe, rfl, .inr hq⟩
    · rcases List.mem_cons.mp he with rfl | he
      · exact .inl rfl
      · obtain ⟨pe, -, rfl⟩ := List.mem_map.mp he
        exact .inr ⟨p, pe, rfl, .inl rfl⟩
  · refine (Function.update_of_ne hqp ..).trans
      ((Function.update_of_ne hqp ..).trans (hothers q hq))

/-- The daemon that serves is killed, and another is started. -/
theorem RuntimeRun.reopens_served :
    ∃ es t, RuntimeRun (fun _ => sampleConfig) sampleRetrieval sampleServed es t ∧
    t.At 1 (.serving .listening .start) ∧ ∀ q, t.Reaches q ↔ q = 1 := by
  obtain ⟨es', t, hrun', hserving, hreaches, -⟩ := RuntimeRun.reopens (p := 1) sampleServed_run rfl
  exact ⟨es', t, hrun', hserving, hreaches⟩

end SiftMcp
