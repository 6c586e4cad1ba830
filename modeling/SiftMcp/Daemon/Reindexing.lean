import SiftMcp.Daemon.Leaving

/-!
# Asking for the index again

A client that is told that the store is stale is advised to index it again. It connects, says Hello
and asks for a full index. Whether it can succeed depends on the serving slot: the index worker
takes the store from a resident that is ready and that no query holds.

`DaemonState.reindexes_iff` says in which states it can.
-/

namespace SiftMcp

/-! ## The client and what happens beside it -/

/-- The connection `i` carries a Hello and the index request of the worker `w`, and nothing else.
Nobody else asks for an index or takes hold of the resident meanwhile, the resident can be split,
the thread does not panic, and `serve` does not return. -/
def Event.Beside (i w : Nat) : Event → Prop
  | .index j v => j = i ∧ v = w
  | .gated j req => j = i → ∃ client, req = .hello protocolVersion client
  | .closed j | .garbled j | .statusRequest j | .secondHello j | .shutdownRequest j
  | .turnedAway j _ | .viewed j _ => j ≠ i
  | .borrowed .. | .splitFailed _ | .panicked _ | .returned => False
  | _ => True

/-- The index is a full one, and the run and what comes after it do not fail. -/
def DaemonState.Succeeds (s : DaemonState) (w : Nat) : Prop :=
  ∀ k, s.Works w k → k.mode = .full ∧ ∀ e, k.phase ≠ .clearing (.error e)

abbrev ReindexRun (cfg : DaemonConfig) (R : Retrieval) (i w : Nat) :
    DaemonState → List Event → DaemonState → Prop :=
  Trace fun s e t => DaemonStep cfg R s e t ∧ e.Beside i w ∧ t.Succeeds w

def Client.NoError (c : Client) : Prop := ∀ f ∈ c.sent, ∀ e, f.payload ≠ .error e

def Client.NotDone (c : Client) : Prop := ∀ f ∈ c.sent, ∀ wire, f.payload ≠ .indexDone wire

/-- Whatever happens beside it, the client is never refused, and when it is told that the index is
done the daemon is ready. And if the run and what comes after it succeed on the store of the
resident, it is told so. -/
structure DaemonState.Reindexes (cfg : DaemonConfig) (R : Retrieval) (s : DaemonState) (i w : Nat) :
    Prop where
  granted : ∀ es t c, ReindexRun cfg R i w s es t → t.At i c →
    c.NoError ∧ (¬c.NotDone → ∃ arc r, t.serving = .ready arc r)
  completes : ∀ arc r repo rebuild repoDir r' report, s.serving = .ready arc r →
    runEnd repo rebuild cfg ⟨.full, repoDir, .running r.store r.lexical.durable r.embedder⟩ r.store
      r.lexical.durable r.embedder = .ready r' report →
    ∃ es t c, ReindexRun cfg R i w s es t ∧ t.At i c ∧ ¬c.NotDone

/-- The loop has not found a reason to leave. -/
def ServePhase.Accepts : ServePhase → Prop
  | selecting notified => notified = false
  | polled _ | accepted | checking => True
  | draining | returned => False

/-! ## As long as the store can be had -/

/-- The slot, by the phase of the worker. -/
def DaemonState.Slot (s : DaemonState) : Option WorkerPhase → Prop
  | none => (∃ arc r, s.serving = .ready arc r ∧ ¬s.Borrowed arc) ∧ s.indexing = false
  | some .spawned => ∃ arc r, s.serving = .ready arc r ∧ ¬s.Borrowed arc
  | some (.taken _) | some (.running ..) => True
  | some (.clearing (.ok _)) => ∃ arc r, s.serving = .ready arc r
  | some (.finished (.ok _)) => (∃ arc r, s.serving = .ready arc r) ∧ s.indexing = false
  | some (.clearing (.error _)) | some (.finished (.error _)) | some .panicked => False

/-- The client, by the phase of the worker. -/
def Conversing (w : Nat) : Option WorkerPhase → Option Client → Prop
  | none, none => True
  | none, some c => c.NoError ∧ c.NotDone ∧
    (c.phase = .reading ∨ ∃ client, c.phase = .greeting (.hello protocolVersion client))
  | some _, none => False
  | some (.finished _), some c => c.NoError ∧ c.helloDone = true ∧
    (c.phase = .reading ∨ c.phase = .streaming w)
  | some _, some c => c.NoError ∧ c.NotDone ∧ c.helloDone = true ∧ c.phase = .streaming w

structure Reindexing (i w : Nat) (s : DaemonState) (p : Option WorkerPhase) : Prop where
  loading : s.loading = false
  phase : (s.workers w).map (·.phase) = p
  others : ∀ v k, s.Works v k → k.phase.Active → v = w
  slot : s.Slot p
  talk : Conversing w p (s.clients i)

variable {cfg : DaemonConfig} {R : Retrieval} {s t : DaemonState} {e : Event} {es : List Event}
  {i j w arc : Nat} {c c' : Client} {k k' : Worker} {p p' : Option WorkerPhase} {r : Resident}

theorem Client.NoError.write {resp : Response} (h : c.NoError) (hr : ∀ e, resp ≠ .error e) :
    (c.write resp).NoError := by
  intro f hf e
  rcases List.mem_append.mp hf with hf | hf
  · exact h f hf e
  · rw [List.mem_singleton.mp hf]
    exact hr e

theorem Client.NotDone.write {resp : Response} (h : c.NotDone)
    (hr : ∀ wire, resp ≠ .indexDone wire) : (c.write resp).NotDone := by
  intro f hf wire
  rcases List.mem_append.mp hf with hf | hf
  · exact h f hf wire
  · rw [List.mem_singleton.mp hf]
    exact hr wire

/-- A Hello of the version of the daemon is welcome. -/
theorem handleHello_current {modelId client : String} {chunks : Nat} :
    handleHello (.hello protocolVersion client) modelId chunks =
      .ok (.hello protocolVersion modelId chunks) := by
  rw [handleHello, if_neg (not_not.mpr rfl)]

theorem DaemonState.welcome_current {client : String} : ∃ modelId chunks,
    s.welcome (.hello protocolVersion client) = .ok (.hello protocolVersion modelId chunks) := by
  unfold welcome
  cases s.serving with
  | ready | indexing | starting | stale => exact ⟨_, _, handleHello_current⟩

/-- Steps of connections and of the loop. -/
theorem DaemonStep.quiet (h : DaemonStep cfg R s e t) (he : e.Outer)
    (hb : ∀ j q, e ≠ .borrowed j q) :
    t.serving = s.serving ∧ t.indexing = s.indexing ∧ t.loading = s.loading ∧
      t.workers = s.workers ∧ ∀ arc, t.Borrowed arc → s.Borrowed arc := by
  have hset : ∀ {u : DaemonState} {j : Nat} {c' : Client}, u.clients = (s.setClient j c').clients →
      c'.phase.holds = none → ∀ arc, u.Borrowed arc → s.Borrowed arc := by
    intro u j c' hu hholds arc hborrowed
    have hborrowed : (s.setClient j c').Borrowed arc := by
      simpa only [DaemonState.Borrowed, hu] using hborrowed
    obtain ⟨i, r, hi⟩ := DaemonState.borrowed_iff.mp hborrowed
    rcases hi.of_setClient with hheld | hi
    · rw [hholds] at hheld
      cases hheld
    · exact DaemonState.borrowed_iff.mpr ⟨i, r, hi⟩
  cases h with
  | loaded | index | returned | gaveBack | notReady | took | split | splitFailed | ready | stale
  | panicked | cleared => cases he
  | poll | pend | tick | loop | idle | shutdown => exact ⟨rfl, rfl, rfl, rfl, fun _ h => h⟩
  | accept | closed | garbled | gated | passed | greeted | unwelcome | statusRequest | secondHello
  | shutdownRequest | turnedAway | viewed | answered | answeredFrozen | refused | reported
  | vanished =>
    exact ⟨rfl, rfl, rfl, rfl, hset rfl rfl⟩
  | progressed hi hphase =>
    exact ⟨rfl, rfl, rfl, rfl, hset rfl (by rw [Client.write_phase, hphase]; rfl)⟩
  | @borrowed j c id q => exact absurd rfl (hb j q)

theorem DaemonState.Slot.congr (h : s.Slot p) (hserving : t.serving = s.serving)
    (hindexing : t.indexing = s.indexing) (hb : ∀ arc, t.Borrowed arc → s.Borrowed arc) :
    t.Slot p := by
  have hready : (∃ arc r, s.serving = .ready arc r ∧ ¬s.Borrowed arc) →
      ∃ arc r, t.serving = .ready arc r ∧ ¬t.Borrowed arc := by
    intro h
    obtain ⟨arc, r, hs, hnot⟩ := h
    exact ⟨arc, r, hserving.trans hs, mt (hb arc) hnot⟩
  cases p with
  | none => exact ⟨hready h.1, hindexing.trans h.2⟩
  | some phase =>
    cases phase with
    | spawned => exact hready h
    | taken | running => trivial
    | panicked => exact h
    | clearing done =>
      cases done with
      | error e => exact h
      | ok report =>
        obtain ⟨arc, r, hs⟩ := h
        exact ⟨arc, r, hserving.trans hs⟩
    | finished done =>
      cases done with
      | error e => exact h
      | ok report =>
        obtain ⟨⟨arc, r, hs⟩, hflag⟩ := h
        exact ⟨⟨arc, r, hserving.trans hs⟩, hindexing.trans hflag⟩

/-! ## One step -/

theorem Conversing.streams {q : WorkerPhase} (hno : c.NoError) (hhello : c.helloDone = true)
    (hphase : c.phase = .streaming w) (hnot : c.NotDone ∨ ∃ done, q = .finished done) :
    Conversing w (some q) (some c) := by
  cases q with
  | finished done => exact ⟨hno, hhello, .inr hphase⟩
  | spawned | taken | running | clearing | panicked =>
    refine ⟨hno, hnot.resolve_right fun h => ?_, hhello, hphase⟩
    obtain ⟨done, h⟩ := h
    cases h

theorem Conversing.of_active {q : WorkerPhase} {o : Option Client} (h : Conversing w (some q) o)
    (hq : q.Active) : ∃ c, o = some c ∧ c.NoError ∧ c.NotDone ∧ c.helloDone = true ∧
      c.phase = .streaming w := by
  cases o with
  | none => cases q <;> cases h
  | some c =>
    cases q with
    | finished | panicked => cases hq
    | spawned | taken | running | clearing => exact ⟨c, rfl, h⟩

namespace Reindexing

/-- A client that is reading is at its beginning, or has been told that the index is done. -/
theorem reading (h : Reindexing i w s p) (hi : s.At i c) (hphase : c.phase = .reading) :
    c.NoError ∧ s.indexing = false ∧ (p = none ∧ c.NotDone ∨ c.helloDone = true ∧
      ∃ report, p = some (.finished (.ok report))) := by
  have htalk := h.talk
  have hslot := h.slot
  rw [hi] at htalk
  cases p with
  | none => exact ⟨htalk.1, hslot.2, .inl ⟨rfl, htalk.2.1⟩⟩
  | some phase =>
    cases phase with
    | finished done =>
      cases done with
      | error e => cases hslot
      | ok report => exact ⟨htalk.1, hslot.2, .inr ⟨htalk.2.1, report, rfl⟩⟩
    | spawned | taken | running | clearing | panicked =>
      have hstreaming := htalk.2.2.2
      rw [hphase] at hstreaming
      cases hstreaming

theorem greeting {req : Request} (h : Reindexing i w s p) (hi : s.At i c)
    (hphase : c.phase = .greeting req) :
    p = none ∧ c.NoError ∧ c.NotDone ∧ ∃ client, req = .hello protocolVersion client := by
  have htalk := h.talk
  rw [hi] at htalk
  cases p with
  | none =>
    obtain ⟨hno, hnot, hreading | ⟨client, hgreeting⟩⟩ := htalk
    · rw [hphase] at hreading
      cases hreading
    · exact ⟨rfl, hno, hnot, client, ClientPhase.greeting.inj (hphase.symm.trans hgreeting)⟩
  | some phase =>
    cases phase with
    | finished done =>
      rcases htalk.2.2 with hreading | hstreaming
      · rw [hphase] at hreading
        cases hreading
      · rw [hphase] at hstreaming
        cases hstreaming
    | spawned | taken | running | clearing | panicked =>
      have hstreaming := htalk.2.2.2
      rw [hphase] at hstreaming
      cases hstreaming

/-- A client that waits for a worker waits for `w`. -/
theorem streaming {v : Nat} (h : Reindexing i w s p) (hi : s.At i c)
    (hphase : c.phase = .streaming v) : v = w ∧ c.NoError ∧ c.helloDone = true ∧
      ∃ k, s.Works w k ∧ p = some k.phase ∧ (c.NotDone ∨ ∃ done, k.phase = .finished done) := by
  have htalk := h.talk
  have hworks := h.phase
  rw [hi] at htalk
  cases p with
  | none =>
    rcases htalk.2.2 with hreading | ⟨client, hgreeting⟩
    · rw [hphase] at hreading
      cases hreading
    · rw [hphase] at hgreeting
      cases hgreeting
  | some phase =>
    obtain ⟨k, hw, rfl⟩ := Option.map_eq_some_iff.mp hworks
    cases hk : k.phase with
    | finished done =>
      rw [hk] at htalk
      rcases htalk.2.2 with hreading | hstreaming
      · rw [hphase] at hreading
        cases hreading
      · exact ⟨ClientPhase.streaming.inj (hphase.symm.trans hstreaming), htalk.1, htalk.2.1, k, hw,
          by rw [hk], .inr ⟨done, hk⟩⟩
    | spawned | taken | running | clearing | panicked =>
      rw [hk] at htalk
      exact ⟨ClientPhase.streaming.inj (hphase.symm.trans htalk.2.2.2), htalk.1, htalk.2.2.1, k, hw,
        by rw [hk], .inl htalk.2.1⟩

/-- A client that holds nothing of what is being served. -/
theorem not_holding (h : Reindexing i w s p) (hi : s.At i c) :
    (∀ arc r q, c.phase ≠ .borrowing arc r q) ∧ ∀ f q, c.phase ≠ .viewing f q := by
  have htalk := h.talk
  rw [hi] at htalk
  have hphase : c.phase = .reading ∨
      (∃ client, c.phase = .greeting (.hello protocolVersion client)) ∨
      c.phase = .streaming w := by
    cases p with
    | none => exact htalk.2.2.imp_right .inl
    | some phase =>
      cases phase with
      | finished done => exact htalk.2.2.imp_right .inr
      | spawned | taken | running | clearing | panicked => exact .inr (.inr htalk.2.2.2)
  rcases hphase with hphase | ⟨client, hphase⟩ | hphase
  · rw [hphase]
    exact ⟨nofun, nofun⟩
  · rw [hphase]
    exact ⟨nofun, nofun⟩
  · rw [hphase]
    exact ⟨nofun, nofun⟩

theorem gate_none {req : Request} (h : Reindexing i w s none) : s.gate req = none := by
  obtain ⟨⟨arc, r, hserving, -⟩, -⟩ := h.slot
  unfold DaemonState.gate
  rw [hserving]

/-- What the client is at after a step of a connection or of the loop. -/
theorem talk_outer (h : Reindexing i w s p) (hstep : DaemonStep cfg R s e t) (he : e.Outer)
    (hbeside : e.Beside i w) : Conversing w p (t.clients i) := by
  have htalk := h.talk
  have hset : ∀ {u : DaemonState} {j : Nat} {c' : Client}, u.clients = (s.setClient j c').clients →
      (j = i → Conversing w p (some c')) → Conversing w p (u.clients i) := by
    intro u j c' hu hc'
    rw [hu]
    show Conversing w p (Function.update s.clients j (some c') i)
    by_cases hij : i = j
    · subst hij
      rw [Function.update_self]
      exact hc' rfl
    · rw [Function.update_of_ne hij]
      exact htalk
  cases hstep with
  | loaded | index | returned | gaveBack | notReady | took | split | splitFailed | ready | stale
  | panicked | cleared => cases he
  | borrowed => cases hbeside
  | poll | pend | tick | loop | idle | shutdown => exact htalk
  | closed | garbled | statusRequest | secondHello | shutdownRequest | turnedAway | viewed =>
    exact hset rfl fun hij => absurd hij hbeside
  | @accept j n _ hj =>
    refine hset rfl fun hij => ?_
    subst hij
    rw [hj] at htalk
    cases p with
    | none => exact ⟨nofun, nofun, .inl rfl⟩
    | some phase => cases htalk
  | @gated j c id req resp hj hhello hphase hgate =>
    refine hset rfl fun hij => ?_
    subst hij
    obtain ⟨-, -, ⟨rfl, -⟩ | ⟨hdone, -⟩⟩ := h.reading hj hphase
    · rw [h.gate_none] at hgate
      cases hgate
    · rw [hhello] at hdone
      cases hdone
  | @passed j c id req hj hhello hphase hgate =>
    refine hset rfl fun hij => ?_
    subst hij
    obtain ⟨client, rfl⟩ := hbeside rfl
    obtain ⟨hno, -, ⟨rfl, hnot⟩ | ⟨hdone, -⟩⟩ := h.reading hj hphase
    · exact ⟨hno, hnot, .inr ⟨client, rfl⟩⟩
    · rw [hhello] at hdone
      cases hdone
  | @greeted j c req resp hj hphase hwelcome =>
    refine hset rfl fun hij => ?_
    subst hij
    obtain ⟨rfl, hno, hnot, client, rfl⟩ := h.greeting hj hphase
    obtain ⟨modelId, chunks, hcurrent⟩ := @DaemonState.welcome_current s client
    obtain rfl := Except.ok.inj (hwelcome.symm.trans hcurrent)
    exact ⟨hno.write nofun, hnot.write nofun, .inl rfl⟩
  | @unwelcome j c req resp hj hphase hwelcome =>
    refine hset rfl fun hij => ?_
    subst hij
    obtain ⟨rfl, hno, hnot, client, rfl⟩ := h.greeting hj hphase
    obtain ⟨modelId, chunks, hcurrent⟩ := @DaemonState.welcome_current s client
    cases hwelcome.symm.trans hcurrent
  | answered _ hj hphase =>
    refine hset rfl fun hij => ?_
    subst hij
    exact absurd hphase ((h.not_holding hj).1 _ _ _)
  | answeredFrozen _ hj hphase =>
    refine hset rfl fun hij => ?_
    subst hij
    exact absurd hphase ((h.not_holding hj).2 _ _)
  | refused hj hhello hphase hflag =>
    refine hset rfl fun hij => ?_
    subst hij
    obtain ⟨-, hclear, -⟩ := h.reading hj hphase
    rw [hflag] at hclear
    cases hclear
  | @progressed j c v phase done total hj hphase =>
    refine hset rfl fun hij => ?_
    subst hij
    obtain ⟨rfl, hno, hhello, k, hw, rfl, hnot⟩ := h.streaming hj hphase
    refine .streams (hno.write nofun) hhello hphase (hnot.imp_left fun hnot => hnot.write nofun)
  | @reported j c v k done hj hphase hw hk =>
    refine hset rfl fun hij => ?_
    subst hij
    obtain ⟨rfl, hno, hhello, k', hw', rfl, -⟩ := h.streaming hj hphase
    obtain rfl : k = k' := Option.some.inj (hw.symm.trans hw')
    have hslot := h.slot
    rw [hk] at hslot ⊢
    cases done with
    | error e => cases hslot
    | ok report => exact ⟨hno.write nofun, hhello, .inl rfl⟩
  | @vanished j c v k hj hphase hw hk =>
    refine hset rfl fun hij => ?_
    subst hij
    obtain ⟨rfl, hno, hhello, k', hw', rfl, -⟩ := h.streaming hj hphase
    obtain rfl : k = k' := Option.some.inj (hw.symm.trans hw')
    have hslot := h.slot
    rw [hk] at hslot
    cases hslot

/-- Steps of the worker. -/
theorem slot_worker {q q' : WorkerPhase} (hslot : s.Slot (some q)) (hbeside : e.Beside i w)
    (hstep : WorkerStep cfg s w q e t.serving t.indexing q')
    (hok : ∀ e, q' ≠ .clearing (.error e)) : t.Slot (some q') := by
  generalize hserving : t.serving = serving at hstep
  generalize hindexing : t.indexing = flag at hstep
  cases hstep with
  | gaveBack hready hborrowed =>
    obtain ⟨arc, r, hs, hnot⟩ := hslot
    obtain ⟨rfl, -⟩ := ServingState.ready.inj (hready.symm.trans hs)
    exact absurd hborrowed hnot
  | notReady hready =>
    obtain ⟨arc, r, hs, -⟩ := hslot
    exact absurd hs (hready arc r)
  | took | split => trivial
  | splitFailed | panicked => cases hbeside
  | ready => exact ⟨_, _, hserving⟩
  | stale => exact absurd rfl (hok _)
  | @cleared done =>
    cases done with
    | error e => cases hslot
    | ok report =>
      obtain ⟨arc, r, hs⟩ := hslot
      exact ⟨⟨arc, r, hserving.trans hs⟩, hindexing⟩

theorem step_index (h : Reindexing i w s p) (hstep : DaemonStep cfg R s (.index i w) t) :
    Reindexing i w t (some .spawned) := by
  cases hstep with
  | @index i c id w mode repoDir hi hhello hphase hflag hw =>
    have hp := h.phase
    rw [hw] at hp
    subst hp
    obtain ⟨hno, -, ⟨-, hnot⟩ | ⟨-, report, hp⟩⟩ := h.reading hi hphase
    · obtain ⟨⟨arc, r, hserving, hborrowed⟩, -⟩ := h.slot
      refine ⟨h.loading, ?_, fun v k hv hactive => ?_,
        ⟨arc, r, hserving, fun hb => hborrowed ?_⟩, ?_⟩
      · show (Function.update s.workers w _ w).map _ = _
        rw [Function.update_self]
        rfl
      · rcases hv.of_setWorker rfl with ⟨hvw, -⟩ | ⟨-, hv⟩
        · exact hvw
        · exact h.others v k hv hactive
      · obtain ⟨j, r', hj⟩ := DaemonState.borrowed_iff.mp hb
        have hj : (s.setClient i { c.read id with phase := .streaming w }).Holds j arc r' := hj
        rcases hj.of_setClient with hheld | hj
        · cases hheld
        · exact DaemonState.borrowed_iff.mpr ⟨j, r', hj⟩
      · show Conversing w _ (Function.update s.clients i _ i)
        rw [Function.update_self]
        exact ⟨hno, hnot, hhello, rfl⟩
    · cases hp

theorem step (h : Reindexing i w s p) (hstep : DaemonStep cfg R s e t) (hbeside : e.Beside i w)
    (hok : t.Succeeds w) : ∃ p', Reindexing i w t p' := by
  have heffect := hstep.effect
  cases heffect with
  | @loaded env hloads =>
    rw [h.loading] at hloads
    cases hloads
  | returned => cases hbeside
  | index =>
    obtain ⟨rfl, rfl⟩ := hbeside
    exact ⟨_, h.step_index hstep⟩
  | outer houter =>
    have hb : ∀ j q, e ≠ .borrowed j q := by
      intro j q he
      subst he
      exact hbeside
    obtain ⟨hserving, hindexing, hloading, hworkers, hborrowed⟩ := hstep.quiet houter hb
    refine ⟨p, hloading.trans h.loading, hworkers ▸ h.phase, fun v k hv => ?_,
      h.slot.congr hserving hindexing hborrowed, h.talk_outer hstep houter hbeside⟩
    rw [DaemonState.Works, hworkers] at hv
    exact h.others v k hv
  | @worker v k k' _ _ hv hworker hworkers hl hclients =>
    obtain rfl := h.others v k hv hworker.active
    have hp : some k.phase = p := by
      rw [← h.phase, hv]
      rfl
    subst hp
    have hw' : t.Works v k' := DaemonState.works_setWorker hworkers
    refine ⟨some k'.phase, hl.trans h.loading, ?_, fun u ku hu hactive => ?_,
      slot_worker h.slot hbeside hworker (hok k' hw').2, ?_⟩
    · rw [hw']
      rfl
    · rcases hu.of_setWorker hworkers with ⟨huv, -⟩ | ⟨-, hu⟩
      · exact huv
      · exact h.others u ku hu hactive
    · rw [hclients]
      obtain ⟨c, hc, hno, hnot, hhello, hphase⟩ := h.talk.of_active hworker.active
      rw [hc]
      exact .streams hno hhello hphase (.inl hnot)

theorem run (h : Reindexing i w s p) (hrun : ReindexRun cfg R i w s es t) :
    ∃ p', Reindexing i w t p' := by
  induction hrun generalizing p with
  | nil => exact ⟨p, h⟩
  | cons hstep _ ih =>
    obtain ⟨p', h'⟩ := h.step hstep.1 hstep.2.1 hstep.2.2
    exact ih h'

/-- The client has not been refused, and the daemon is ready when it has been told that the index is
done. -/
theorem granted (h : Reindexing i w s p) (hi : s.At i c) :
    c.NoError ∧ (¬c.NotDone → ∃ arc r, s.serving = .ready arc r) := by
  have htalk := h.talk
  have hslot := h.slot
  rw [hi] at htalk
  cases p with
  | none => exact ⟨htalk.1, fun hdone => absurd htalk.2.1 hdone⟩
  | some phase =>
    cases phase with
    | finished done =>
      cases done with
      | error e => cases hslot
      | ok report => exact ⟨htalk.1, fun _ => hslot.1⟩
    | spawned | taken | running | clearing | panicked =>
      exact ⟨htalk.1, fun hdone => absurd htalk.2.1 hdone⟩

end Reindexing

/-! ## Runs of the client -/

namespace DaemonState

theorem Succeeds.of_none (hw : s.workers w = none) : s.Succeeds w := by
  intro k hk
  cases hw.symm.trans hk

theorem Succeeds.of_works (hw : s.Works w k) (hmode : k.mode = .full)
    (hphase : ∀ e, k.phase ≠ .clearing (.error e)) : s.Succeeds w := by
  intro k' hk'
  obtain rfl : k = k' := Option.some.inj (hw.symm.trans hk')
  exact ⟨hmode, hphase⟩

/-- The client has been accepted, and all else is as it was. -/
def connected (s : DaemonState) (i : Nat) : DaemonState :=
  { s.setClient i ⟨false, .reading, 0, []⟩ with
    serve := .accepted
    connectedClients := s.connectedClients + 1 }

theorem connected_at : (s.connected i).At i ⟨false, .reading, 0, []⟩ := Function.update_self ..

/-- It has been greeted. -/
def welcomed (s : DaemonState) (i : Nat) (resp : Response) : DaemonState :=
  ((s.connected i).setClient i
    ⟨false, .greeting (.hello protocolVersion "client"), 1, []⟩).setClient i
    ⟨true, .reading, 1, [⟨1, resp⟩]⟩

theorem welcomed_at {resp : Response} : (s.welcomed i resp).At i ⟨true, .reading, 1, [⟨1, resp⟩]⟩ :=
  Function.update_self ..

theorem welcomed_other {resp : Response} (hij : j ≠ i) :
    (s.welcomed i resp).clients j = s.clients j := by
  show Function.update (Function.update (Function.update s.clients i _) i _) i _ j = _
  rw [Function.update_of_ne hij, Function.update_of_ne hij, Function.update_of_ne hij]

end DaemonState

/-- The loop accepts the client. -/
theorem connected_run (haccepts : s.serve.Accepts) (hi : s.clients i = none)
    (hw : s.workers w = none) : ∃ es, ReindexRun cfg R i w s es (s.connected i) := by
  have hpolled : ∃ es n, ReindexRun cfg R i w s es { s with serve := .polled n } := by
    have hpoll : ∀ u : DaemonState, u.serve = .selecting false → u.workers = s.workers →
        ReindexRun cfg R i w u [.poll] { u with serve := .polled false } := fun u hu hworkers =>
      .cons ⟨.poll hu, trivial, .of_none (by rw [← hw, ← hworkers])⟩ .nil
    cases hserve : s.serve with
    | selecting n =>
      rw [hserve] at haccepts
      obtain rfl : n = false := haccepts
      exact ⟨_, _, hpoll s hserve rfl⟩
    | polled n =>
      have hs : s = { s with serve := .polled n } := by rw [← hserve]
      exact ⟨[], n, hs ▸ .nil⟩
    | accepted =>
      have hloop : DaemonStep cfg R s .loop { s with serve := .selecting false } :=
        .loop (.inl hserve)
      exact ⟨_, _, .cons ⟨hloop, trivial, .of_none hw⟩ (hpoll _ rfl rfl)⟩
    | checking =>
      have hloop : DaemonStep cfg R s .loop { s with serve := .selecting false } :=
        .loop (.inr hserve)
      exact ⟨_, _, .cons ⟨hloop, trivial, .of_none hw⟩ (hpoll _ rfl rfl)⟩
    | draining | returned =>
      rw [hserve] at haccepts
      cases haccepts
  obtain ⟨es, n, hpolled⟩ := hpolled
  have haccept : DaemonStep cfg R { s with serve := .polled n } (.accept i) (s.connected i) :=
    .accept rfl hi
  exact ⟨_, hpolled.append (.cons ⟨haccept, trivial, .of_none hw⟩ .nil)⟩

/-- It is greeted, unless the store is stale. -/
theorem welcomed_run (haccepts : s.serve.Accepts) (hi : s.clients i = none)
    (hw : s.workers w = none) (hstale : ∀ reason, s.serving ≠ .stale reason) :
    ∃ es modelId chunks, ReindexRun cfg R i w s es
      (s.welcomed i (.hello protocolVersion modelId chunks)) := by
  obtain ⟨es, hconnected⟩ := connected_run haccepts hi hw
  have hgate : (s.connected i).gate (.hello protocolVersion "client") = none := by
    have hsame : (s.connected i).serving = s.serving := rfl
    unfold DaemonState.gate
    rw [hsame]
    cases hserving : s.serving with
    | stale reason => exact absurd hserving (hstale reason)
    | starting | ready | indexing => rfl
  have hpassed : DaemonStep cfg R (s.connected i) (.gated i (.hello protocolVersion "client"))
      ((s.connected i).setClient i ⟨false, .greeting (.hello protocolVersion "client"), 1, []⟩) :=
    .passed DaemonState.connected_at rfl rfl hgate
  obtain ⟨modelId, chunks, hwelcome⟩ := @DaemonState.welcome_current ((s.connected i).setClient i
    ⟨false, .greeting (.hello protocolVersion "client"), 1, []⟩) "client"
  have hgreeting : ((s.connected i).setClient i
      ⟨false, .greeting (.hello protocolVersion "client"), 1, []⟩).At i
      ⟨false, .greeting (.hello protocolVersion "client"), 1, []⟩ := Function.update_self ..
  have hgreeted := @DaemonStep.greeted cfg R _ i _ _ _ hgreeting rfl hwelcome
  refine ⟨_, modelId, chunks, hconnected.append (.cons ⟨hpassed, fun _ => ⟨_, rfl⟩, .of_none hw⟩
    (.cons ⟨hgreeted, trivial, .of_none hw⟩ .nil))⟩

/-- Its index request is accepted, unless another is in progress. -/
theorem asked_run (repoDir : String) (haccepts : s.serve.Accepts) (hi : s.clients i = none)
    (hw : s.workers w = none) (hstale : ∀ reason, s.serving ≠ .stale reason)
    (hflag : s.indexing = false) :
    ∃ es t sent, ReindexRun cfg R i w s es t ∧ t.At i ⟨true, .streaming w, 2, sent⟩ ∧
      t.Works w ⟨.full, repoDir, .spawned⟩ ∧ t.serving = s.serving ∧
      ∀ j, j ≠ i → t.clients j = s.clients j := by
  obtain ⟨es, modelId, chunks, hwelcomed⟩ := @welcomed_run cfg R s i w haccepts hi hw hstale
  let u := s.welcomed i (.hello protocolVersion modelId chunks)
  let sent : List (Envelope Response) := [⟨1, .hello protocolVersion modelId chunks⟩]
  let asked :=
    { (u.setClient i ⟨true, .streaming w, 2, sent⟩).setWorker w ⟨.full, repoDir, .spawned⟩ with
    indexing := true }
  have hasked : DaemonStep cfg R u (.index i w) asked :=
    .index .full repoDir DaemonState.welcomed_at rfl rfl hflag hw
  have hworks : asked.Works w ⟨.full, repoDir, .spawned⟩ := Function.update_self ..
  refine ⟨_, asked, sent,
    hwelcomed.append (.cons ⟨hasked, ⟨rfl, rfl⟩, .of_works hworks rfl nofun⟩ .nil),
    Function.update_self .., hworks, rfl, fun j hij => ?_⟩
  have hu : u.clients j = s.clients j := DaemonState.welcomed_other hij
  rw [← hu]
  exact Function.update_of_ne hij ..

/-- What became of the run is told. -/
theorem told_run {sent : List (Envelope Response)} {done : Except DaemonError IndexReport}
    {repoDir : String} (hi : s.At i ⟨true, .streaming w, 2, sent⟩)
    (hw : s.Works w ⟨.full, repoDir, .finished done⟩) :
    ∃ t c, ReindexRun cfg R i w s [.reported i] t ∧ t.At i c ∧
      ⟨2, toResponse (done.map fun r => .indexDone (.from r))⟩ ∈ c.sent := by
  have hstep :
      DaemonStep cfg R s (.reported i) (s.setClient i (Client.reply ⟨true, .streaming w, 2, sent⟩
      (toResponse (done.map fun r => .indexDone (.from r))))) := .reported hi rfl hw rfl
  exact ⟨_, _, .cons ⟨hstep, trivial, .of_works hw rfl nofun⟩ .nil, Function.update_self ..,
    List.mem_append_right _ (List.mem_singleton_self _)⟩

/-- The client can be refused. -/
theorem refused_run (haccepts : s.serve.Accepts) (hi : s.clients i = none) (hw : s.workers w = none)
    (hnot : ¬((∃ arc r, s.serving = .ready arc r ∧ ¬s.Borrowed arc) ∧ s.indexing = false)) :
    ∃ es t c, ReindexRun cfg R i w s es t ∧ t.At i c ∧ ¬c.NoError := by
  have hrefused : ∀ {c : Client} {id : Nat} {err : DaemonError}, ⟨id, .error err⟩ ∈ c.sent →
      ¬c.NoError :=
    fun hmem hno => hno _ hmem _ rfl
  by_cases hstale : ∃ reason, s.serving = .stale reason
  · -- At the gate.
    obtain ⟨reason, hserving⟩ := hstale
    obtain ⟨es, hconnected⟩ := @connected_run cfg R s i w haccepts hi hw
    have hgate : (s.connected i).gate (.hello protocolVersion "client") =
        some (.error (.storeStale reason)) := by
      have hsame : (s.connected i).serving = .stale reason := hserving
      unfold DaemonState.gate
      rw [hsame]
    have hgated := @DaemonStep.gated cfg R _ i _ 1 _ _ DaemonState.connected_at rfl rfl hgate
    exact ⟨_, _, _, hconnected.append (.cons ⟨hgated, fun _ => ⟨_, rfl⟩, .of_none hw⟩ .nil),
      Function.update_self .., hrefused (List.mem_append_right _ (List.mem_singleton_self _))⟩
  · have hstale : ∀ reason, s.serving ≠ .stale reason := fun reason h => hstale ⟨reason, h⟩
    cases hflag : s.indexing with
    | true =>
      -- As another that is in progress.
      obtain ⟨es, modelId, chunks, hwelcomed⟩ := @welcomed_run cfg R s i w haccepts hi hw hstale
      have hstep := @DaemonStep.refused cfg R _ i _ 2
        (@DaemonState.welcomed_at s i (.hello protocolVersion modelId chunks)) rfl rfl hflag
      exact ⟨_, _, _, hwelcomed.append (.cons ⟨hstep, trivial, .of_none hw⟩ .nil),
        Function.update_self .., hrefused (List.mem_append_right _ (List.mem_singleton_self _))⟩
    | false =>
      -- By the worker, which finds that it cannot have the store.
      obtain ⟨es, u, sent, hasked, hui, huw, hserving, hother⟩ :=
        @asked_run cfg R s i w cfg.repoDir haccepts hi hw hstale hflag
      have hworks : ∀ err, { u.setWorker w ⟨.full, cfg.repoDir, .finished (.error err)⟩ with
          indexing := false }.Works w ⟨.full, cfg.repoDir, .finished (.error err)⟩ :=
        fun err => DaemonState.works_setWorker rfl
      have hback : ∃ e' t err, ReindexRun cfg R i w u [e'] t ∧
          t.At i ⟨true, .streaming w, 2, sent⟩ ∧
            t.Works w ⟨.full, cfg.repoDir, .finished (.error err)⟩ := by
        by_cases hready : ∃ arc r, s.serving = .ready arc r
        · obtain ⟨arc, r, hready⟩ := hready
          have hborrowed : u.Borrowed arc := by
            by_contra hfree
            refine hnot ⟨⟨arc, r, hready, fun hb => hfree ?_⟩, hflag⟩
            obtain ⟨j, c, r', q, hj, hphase⟩ := hb
            refine ⟨j, c, r', q, ?_, hphase⟩
            rw [hother j, hj]
            intro hij
            rw [hij, hi] at hj
            cases hj
          have hstep :=
            @DaemonStep.gaveBack cfg R _ w _ _ _ huw rfl (hserving.trans hready) hborrowed
          exact ⟨_, _, _, .cons ⟨hstep, trivial, .of_works (hworks _) rfl nofun⟩ .nil, hui,
            hworks _⟩
        · have hnone : ∀ arc r, u.serving ≠ .ready arc r :=
            fun arc r h => hready ⟨arc, r, hserving.symm.trans h⟩
          have hstep := @DaemonStep.notReady cfg R _ w _ huw rfl hnone
          exact ⟨_, _, _, .cons ⟨hstep, trivial, .of_works (hworks _) rfl nofun⟩ .nil, hui,
            hworks _⟩
      obtain ⟨e', t, err, hback, hti, htw⟩ := hback
      obtain ⟨t', c, htold, hc, hmem⟩ := @told_run cfg R _ i w _ _ _ hti htw
      exact ⟨_, t', c, hasked.append (hback.append htold), hc, hrefused hmem⟩

/-- The client can be told that the index is done. -/
theorem done_run {repo : RepoEnv} {rebuild : RebuildEnv} {repoDir : String} {r' : Resident}
    {report : IndexReport} (haccepts : s.serve.Accepts) (hi : s.clients i = none)
    (hw : s.workers w = none) (hready : s.serving = .ready arc r) (hfree : ¬s.Borrowed arc)
    (hflag : s.indexing = false)
    (hend : runEnd repo rebuild cfg
      ⟨.full, repoDir, .running r.store r.lexical.durable r.embedder⟩ r.store
      r.lexical.durable r.embedder = .ready r' report) :
    ∃ es t c, ReindexRun cfg R i w s es t ∧ t.At i c ∧ ¬c.NotDone := by
  have hstale : ∀ reason, s.serving ≠ .stale reason := by
    intro reason h
    cases hready.symm.trans h
  obtain ⟨es, u, sent, hasked, hui, huw, hserving, hother⟩ :=
    @asked_run cfg R s i w repoDir haccepts hi hw hstale hflag
  have hufree : ¬u.Borrowed arc := by
    intro hb
    obtain ⟨j, c, r₀, q, hj, hphase⟩ := hb
    refine hfree ⟨j, c, r₀, q, ?_, hphase⟩
    rw [← hother j, hj]
    intro hij
    rw [hij] at hj
    obtain rfl := Option.some.inj (hui.symm.trans hj)
    cases hphase
  have htook := @DaemonStep.took cfg R _ w _ _ _ huw rfl (hserving.trans hready) hufree
  let taken := { u.setWorker w ⟨.full, repoDir, .taken r⟩ with serving := .starting }
  have htaken : taken.Works w ⟨.full, repoDir, .taken r⟩ := DaemonState.works_setWorker rfl
  have hsplit : DaemonStep cfg R taken (.split w)
      { taken.setWorker w ⟨.full, repoDir, .running r.store r.lexical.durable r.embedder⟩ with
        serving := .indexing r.freeze } :=
    @DaemonStep.split _ _ _ _ _ _ (fun _ => none) _ _ _ _ htaken rfl rfl
  let running :=
    { taken.setWorker w ⟨.full, repoDir, .running r.store r.lexical.durable r.embedder⟩ with
      serving := .indexing r.freeze }
  have hrunning : running.Works w ⟨.full, repoDir, .running r.store r.lexical.durable r.embedder⟩ :=
    DaemonState.works_setWorker rfl
  have hended := @DaemonStep.ready cfg R _ w _ _ _ _ _ _ _ _ hrunning rfl hend
  let up := (running.setWorker w ⟨.full, repoDir, .clearing (.ok report)⟩).putUp r'
  have hclearing : up.Works w ⟨.full, repoDir, .clearing (.ok report)⟩ :=
    DaemonState.works_setWorker rfl
  have hcleared := @DaemonStep.cleared cfg R _ w _ _ hclearing rfl
  let done := { up.setWorker w ⟨.full, repoDir, .finished (.ok report)⟩ with indexing := false }
  have hfinished : done.Works w ⟨.full, repoDir, .finished (.ok report)⟩ :=
    DaemonState.works_setWorker rfl
  have hdone : done.At i ⟨true, .streaming w, 2, sent⟩ := hui
  obtain ⟨t, c, htold, hc, hmem⟩ := @told_run cfg R _ i w _ _ _ hdone hfinished
  have hrun : ReindexRun cfg R i w u [.took w, .split w, .ended w, .cleared w] done :=
    .cons ⟨htook, trivial, .of_works htaken rfl nofun⟩
      (.cons ⟨hsplit, trivial, .of_works hrunning rfl nofun⟩
        (.cons ⟨hended, trivial, .of_works hclearing rfl nofun⟩
          (.cons ⟨hcleared, trivial, .of_works hfinished rfl nofun⟩ .nil)))
  exact ⟨_, t, c, hasked.append (hrun.append htold), hc, fun hnot => hnot _ hmem _ rfl⟩

/-- The loader has ended and no worker is active. A client that asks for a full index is never
refused, and is told that the index is done if the run succeeds, if and only if there is a resident
ready that no query holds, and the flag is clear. -/
theorem DaemonState.reindexes_iff (hl : s.loading = false)
    (hidle : ∀ w k, s.Works w k → ¬k.phase.Active) (haccepts : s.serve.Accepts)
    (hi : s.clients i = none) (hw : s.workers w = none) : s.Reindexes cfg R i w ↔
      (∃ arc r, s.serving = .ready arc r ∧ ¬s.Borrowed arc) ∧ s.indexing = false := by
  constructor
  · intro h
    by_contra hnot
    obtain ⟨es, t, c, hrun, hc, hrefused⟩ := @refused_run cfg R s i w haccepts hi hw hnot
    exact hrefused (h.granted es t c hrun hc).1
  · intro h
    have hstart : Reindexing i w s none := by
      refine ⟨hl, by rw [hw]; rfl, fun v k hv hactive => absurd hactive (hidle v k hv), h, ?_⟩
      rw [hi]
      trivial
    constructor
    · intro es t c hrun hc
      obtain ⟨p, ht⟩ := hstart.run hrun
      exact ht.granted hc
    · intro arc r repo rebuild repoDir r' report hserving hend
      obtain ⟨⟨arc', r₀, hready, hfree⟩, hflag⟩ := h
      obtain ⟨rfl, rfl⟩ := ServingState.ready.inj (hready.symm.trans hserving)
      exact done_run haccepts hi hw hready hfree hflag hend

theorem sampleReady_idle (w : Nat) (k : Worker) (hw : sampleReady.Works w k) : ¬k.phase.Active := by
  cases hw

/-- With the store loaded and nothing going on, another client can have it indexed, and is told
so. -/
theorem DaemonState.reindexes_iff_ready : sampleReady.Reindexes sampleConfig sampleRetrieval 1 0 ∧
    ∃ es t c, ReindexRun sampleConfig sampleRetrieval 1 0 sampleReady es t ∧ t.At 1 c ∧
      ¬c.NotDone := by
  have hfree : ¬sampleReady.Borrowed 0 := by
    intro hb
    obtain ⟨i, c, r, q, hi, hphase⟩ := hb
    cases i with
    | zero =>
      obtain rfl := Option.some.inj hi
      cases hphase
    | succ i => cases hi
  have h : sampleReady.Reindexes sampleConfig sampleRetrieval 1 0 :=
    (DaemonState.reindexes_iff rfl sampleReady_idle rfl rfl rfl).mpr
      ⟨⟨0, sampleResident, rfl, hfree⟩, rfl⟩
  obtain ⟨r, report, hend⟩ := runEnd_inside
  exact ⟨h, h.completes 0 sampleResident sampleInside sampleRebuild "elsewhere" r report rfl hend⟩

/-- An index run has failed, and the store is stale. Another client says Hello, and is told so: it
does not get as far as to ask for the index again. -/
theorem stale_refuses : ∃ es s t reason, DaemonRun sampleConfig sampleRetrieval .start es s ∧
    s.loading = false ∧ (∀ w k, s.Works w k → ¬k.phase.Active) ∧ s.serve.Accepts ∧
    s.clients 1 = none ∧ s.workers 1 = none ∧
    ReindexRun sampleConfig sampleRetrieval 1 1 s
      [.poll, .accept 1, .gated 1 (.hello protocolVersion "client")] t ∧
    t.At 1 ⟨false, .reading, 1, [⟨1, .error (.storeStale reason)⟩]⟩ ∧
    ¬s.Reindexes sampleConfig sampleRetrieval 1 1 := by
  let polled := { sampleFailed with serve := .polled false }
  have hpoll : DaemonStep sampleConfig sampleRetrieval sampleFailed .poll polled := .poll rfl
  have haccept : DaemonStep sampleConfig sampleRetrieval polled (.accept 1)
      (sampleFailed.connected 1) :=
    .accept rfl rfl
  have hgated : DaemonStep sampleConfig sampleRetrieval (sampleFailed.connected 1)
      (.gated 1 (.hello protocolVersion "client")) _ :=
    @DaemonStep.gated _ _ _ _ _ 1 _ _ DaemonState.connected_at rfl rfl rfl
  have hrun : ReindexRun sampleConfig sampleRetrieval 1 1 sampleFailed
      [.poll, .accept 1, .gated 1 (.hello protocolVersion "client")] _ :=
    .cons ⟨hpoll, trivial, .of_none rfl⟩ (.cons ⟨haccept, trivial, .of_none rfl⟩
      (.cons ⟨hgated, fun _ => ⟨_, rfl⟩, .of_none rfl⟩ .nil))
  refine ⟨_, _, _, s!"index: {sampleError.debug}", sampleReady_run.append sampleFailed_run, rfl,
    sampleFailed_idle, rfl, rfl, rfl, hrun, rfl, fun h => ?_⟩
  exact (h.granted _ _ _ hrun rfl).1 _ (List.mem_singleton_self _) _ rfl

end SiftMcp
