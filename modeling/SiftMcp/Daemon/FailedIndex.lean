import SiftMcp.Daemon.Settling

/-!
# What a failed index request leaves behind

The worker takes the resident apart before it looks at the request. Where the request fails after
that, nothing is put together again: the slot stays empty, or says why the run failed.

By `DaemonRun.failed_index_iff` queries are answered as before in two cases only: the worker has not
taken the resident, or it has panicked and the view answers as the resident did.
-/

namespace SiftMcp

variable {cfg : DaemonConfig} {R : Retrieval} {host : Host} {s t : DaemonState} {e : Event}
  {es : List Event} {i w arc : Nat} {k k' : Worker} {r : Resident} {q : Query}

/-! ## Queries -/

/-- What a task that has taken hold of what is being served is going to answer from. -/
def ClientPhase.holding : ClientPhase → Option (ServingState × Query)
  | borrowing arc r q => some (.ready arc r, q)
  | viewing f q => some (.indexing f, q)
  | _ => none

/-- What is being served, with the reader of a view at a later commit. -/
def ServingState.seeing (docs : List (RowId × LexicalDoc)) : ServingState → ServingState
  | indexing f => indexing (f.seeing docs)
  | serving => serving

theorem ClientPhase.holding_indexing {p : ClientPhase} {f : FrozenSearch} :
    p.holding = some (.indexing f, q) ↔ p = .viewing f q := by
  cases p with
  | viewing f' q' =>
    constructor
    · intro h
      obtain ⟨hf, rfl⟩ := Prod.mk.inj (Option.some.inj h)
      obtain rfl := ServingState.indexing.inj hf
      rfl
    · intro h
      rw [h]
      rfl
  | borrowing | reading | greeting | streaming | closed => exact ⟨nofun, nofun⟩

/-- What a task comes to be at in a step: it holds what is being served, or waits for a worker that
is new. -/
inductive ClientPhase.Begins (s : DaemonState) : ClientPhase → Prop
  | reading : Begins s .reading
  | greeting (req : Request) : Begins s (.greeting req)
  | closed : Begins s .closed
  | borrowing (arc : Nat) (r : Resident) (q : Query) : s.serving = .ready arc r →
    Begins s (.borrowing arc r q)
  | viewing (f : FrozenSearch) (q : Query) : s.serving = .indexing f → Begins s (.viewing f q)
  | streaming (v : Nat) : s.workers v = none → Begins s (.streaming v)

/-- A task is at what it has been at, or begins something. -/
theorem DaemonStep.phase_cases {c : Client} (h : DaemonStep cfg R s e t) (hi : t.At i c) :
    (∃ c', s.At i c' ∧ c'.phase = c.phase) ∨ c.phase.Begins s := by
  have hsame : t.clients = s.clients → ∃ c', s.At i c' ∧ c'.phase = c.phase :=
    fun h => ⟨c, by rwa [DaemonState.At, ← h], rfl⟩
  have hself : ∀ {j : Nat} {d : Client}, t.clients = (s.setClient j d).clients →
      d.phase.Begins s → (∃ c', s.At i c' ∧ c'.phase = c.phase) ∨ c.phase.Begins s := by
    intro j d ht hbegins
    rcases hi.of_setClient ht with ⟨-, rfl⟩ | ⟨-, hi⟩
    · exact .inr hbegins
    · exact .inl ⟨c, hi, rfl⟩
  cases h with
  | loaded => exact .inl (hsame DaemonState.loaded_clients)
  | poll | pend | tick | loop | idle | shutdown | returned | gaveBack | notReady | took | split
  | splitFailed | ready | stale | panicked | cleared => exact .inl (hsame rfl)
  | accept | garbled | gated | greeted | statusRequest | secondHello | turnedAway | answered
  | answeredFrozen | refused | reported | vanished => exact hself rfl .reading
  | closed | unwelcome | shutdownRequest => exact hself rfl .closed
  | passed => exact hself rfl (.greeting _)
  | borrowed _ _ _ hserving => exact hself rfl (.borrowing _ _ _ hserving)
  | viewed _ _ _ hserving => exact hself rfl (.viewing _ _ hserving)
  | index _ _ _ _ _ _ hw => exact hself rfl (.streaming _ hw)
  | @progressed j d w phase done total hj hstreaming =>
    rcases hi.of_setClient rfl with ⟨rfl, rfl⟩ | ⟨-, hi⟩
    · exact .inl ⟨d, hj, (Client.write_phase ..).symm⟩
    · exact .inl ⟨c, hi, rfl⟩

/-- A task holds what it has held, or what is being served. -/
theorem DaemonStep.holding_cases {serving : ServingState} {c : Client} (h : DaemonStep cfg R s e t)
    (hi : t.At i c) (hholding : c.phase.holding = some (serving, q)) :
    (∃ c', s.At i c' ∧ c'.phase.holding = some (serving, q)) ∨ s.serving = serving := by
  rcases h.phase_cases hi with ⟨c', hi', hphase⟩ | hbegins
  · exact .inl ⟨c', hi', by rwa [hphase]⟩
  · generalize c.phase = p at hholding hbegins
    cases hbegins with
    | reading | greeting | closed | streaming => cases hholding
    | borrowing _ _ _ hserving | viewing _ _ hserving =>
      obtain ⟨rfl, -⟩ := Prod.mk.inj (Option.some.inj hholding)
      exact .inr hserving

/-- A task waits for the worker that it has waited for, or for one that is new. -/
theorem DaemonStep.streaming_cases {c : Client} (h : DaemonStep cfg R s e t) (hi : t.At i c)
    (hstreaming : c.phase = .streaming w) :
    (∃ c', s.At i c' ∧ c'.phase = .streaming w) ∨ s.workers w = none := by
  rcases h.phase_cases hi with ⟨c', hi', hphase⟩ | hbegins
  · exact .inl ⟨c', hi', hphase.trans hstreaming⟩
  · rw [hstreaming] at hbegins
    cases hbegins with
    | streaming _ hw => exact .inr hw

/-! ## Answers that a resident does not give -/

/-- The slot is empty, or says that a run or what came after it has failed. -/
def ServingState.Spoiled : ServingState → Prop
  | .starting => True
  | .stale reason => ∃ text, reason = "index: " ++ text ∨ reason = "rebuild: " ++ text
  | _ => False

/-- What the check of the store fails with. -/
inductive Outdated : DaemonError → Prop
  | missing (text : String) : Outdated (.storeStale ("store missing: " ++ text))
  | replaced : Outdated (.storeStale "store directory replaced")

theorem StoreIdentity.checkStillValid_error {id : StoreIdentity} {e : DaemonError}
    (h : id.checkStillValid host = .error e) : Outdated e := by
  unfold checkStillValid at h
  split at h
  · rename_i text _
    obtain rfl := Except.error.inj h
    exact .missing text
  · split at h
    · obtain rfl := Except.error.inj h
      exact .replaced
    · cases h

theorem oneSymbol_error {file symbol : String} {found : List (RowId × ChunkRecord)}
    {body : RowId → Option String} {e : DaemonError}
    (h : oneSymbol file symbol found body = .error e) :
    e ≠ .starting ∧ ∀ reason, e ≠ .storeStale reason := by
  unfold oneSymbol at h
  split at h
  · obtain rfl := Except.error.inj h
    exact ⟨nofun, nofun⟩
  · cases h
  · obtain rfl := Except.error.inj h
    exact ⟨nofun, nofun⟩

theorem Resident.search_error {role : Role} {text : String} {topK : Nat} {e : DaemonError}
    (h : r.search R host role text topK = .error e) :
    Outdated e ∨ e ≠ .starting ∧ ∀ reason, e ≠ .storeStale reason := by
  unfold search at h
  cases hcheck : r.identity.checkStillValid host with
  | error e' =>
    rw [hcheck] at h
    obtain rfl := Except.error.inj h
    exact .inl (StoreIdentity.checkStillValid_error hcheck)
  | ok _ =>
    rw [hcheck] at h
    right
    cases hrun : R.run r.lexical r.dense r.store r.embedder role text topK with
    | error e' =>
      rw [hrun] at h
      obtain rfl := Except.error.inj h
      cases e' with
      | gpuUnavailable detail => exact ⟨nofun, nofun⟩
      | other text => exact ⟨nofun, nofun⟩
    | ok resp =>
      rw [hrun] at h
      cases h

/-- A resident is never starting, and stale only when its store is missing or has been replaced. -/
theorem Resident.answer_error {e : DaemonError} (h : r.answer R host q = .error e) :
    Outdated e ∨ e ≠ .starting ∧ ∀ reason, e ≠ .storeStale reason := by
  cases q with
  | search query topK => exact search_error h
  | searchSimilar code topK => exact search_error h
  | getSymbol file symbol =>
    unfold answer getSymbol at h
    cases hcheck : r.identity.checkStillValid host with
    | error e' =>
      dsimp only at h
      rw [hcheck] at h
      obtain rfl := Except.error.inj h
      exact .inl (StoreIdentity.checkStillValid_error hcheck)
    | ok _ =>
      dsimp only at h
      rw [hcheck] at h
      exact .inr (oneSymbol_error h)

/-- The text of a stale answer tells which of the two it comes from. -/
theorem not_outdated {reason text : String}
    (h : reason = "index: " ++ text ∨ reason = "rebuild: " ++ text) :
    ¬Outdated (.storeStale reason) := by
  have hhead : reason.toList.head? = some 'i' ∨ reason.toList.head? = some 'r' := by
    rcases h with rfl | rfl
    · exact .inl (by rw [String.toList_append]; rfl)
    · exact .inr (by rw [String.toList_append]; rfl)
  intro hout
  have hs : reason.toList.head? = some 's' := by
    cases hout with
    | missing text => rw [String.toList_append]; rfl
    | replaced => rfl
  rw [hs] at hhead
  simp at hhead

theorem ServingState.Spoiled.answer_ne {serving : ServingState} (h : serving.Spoiled) :
    serving.answer R host q ≠ r.answer R host q := by
  intro heq
  cases serving with
  | starting =>
    rcases Resident.answer_error heq.symm with hout | ⟨hne, -⟩
    · cases hout
    · exact hne rfl
  | stale reason =>
    obtain ⟨text, h⟩ := h
    rcases Resident.answer_error heq.symm with hout | ⟨-, hne⟩
    · exact not_outdated h hout
    · exact hne reason rfl
  | ready arc r => exact h
  | indexing f => exact h

/-! ## After an index request -/

/-- No other index request is accepted, and `serve` does not return. -/
def Event.Aside : Event → Prop
  | .index .. | .returned => False
  | _ => True

/-- What is being served while the worker has not taken the resident. -/
def WorkerPhase.Waiting (arc : Nat) (r : Resident) (serving : ServingState) : WorkerPhase → Prop
  | spawned | finished (.error _) => serving = .ready arc r
  | _ => False

/-- What is being served once it has. -/
def WorkerPhase.Emptied (r : Resident) (serving : ServingState) : WorkerPhase → Prop
  | spawned => False
  | taken r' => serving = .starting ∧ r' = r
  | running .. | panicked => serving = .indexing r.freeze
  | clearing (.error _) | finished (.error _) => serving.Spoiled
  | clearing (.ok _) | finished (.ok _) => True

theorem runEnd_stale {repo : RepoEnv} {rebuild : RebuildEnv} {store : ChunkStore}
    {docs : List (RowId × LexicalDoc)} {embedder : Embedder} {reason : String} {e : DaemonError}
    (h : runEnd repo rebuild cfg k store docs embedder = .stale reason e) :
    (ServingState.stale reason).Spoiled := by
  unfold runEnd at h
  split at h
  · obtain ⟨rfl, -⟩ := RunEnd.stale.inj h
    exact ⟨_, .inl rfl⟩
  · cases h
  · split at h
    · cases h
    · obtain ⟨rfl, -⟩ := RunEnd.stale.inj h
      exact ⟨_, .inr rfl⟩
    · cases h

namespace WorkerStep

variable {p p' : WorkerPhase} {serving : ServingState} {flag : Bool}

/-- A worker that has not taken the resident takes it, or leaves it in the slot. -/
theorem waiting (h : WorkerStep cfg s w p e serving flag p') (hp : p.Waiting arc r s.serving) :
    e = .took w ∧ p'.Emptied r serving ∧ p' ≠ .panicked ∨
      e ≠ .took w ∧ e ≠ .panicked w ∧ p'.Waiting arc r serving := by
  cases h with
  | gaveBack => exact .inr ⟨nofun, nofun, hp⟩
  | notReady hserving => exact absurd hp (hserving arc r)
  | took hserving =>
    obtain ⟨-, rfl⟩ := ServingState.ready.inj (hserving.symm.trans hp)
    exact .inl ⟨rfl, ⟨rfl, rfl⟩, nofun⟩
  | split | splitFailed | ready | stale | panicked | cleared => cases hp

/-- A worker that has taken it never puts it back. -/
theorem emptied (h : WorkerStep cfg s w p e serving flag p') (hp : p.Emptied r s.serving) :
    p'.Emptied r serving ∧ (p' = .panicked ↔ e = .panicked w) := by
  cases h with
  | gaveBack | notReady | took => cases hp
  | split =>
    obtain ⟨-, rfl⟩ := hp
    exact ⟨rfl, nofun, nofun⟩
  | splitFailed =>
    obtain ⟨hserving, -⟩ := hp
    refine ⟨?_, nofun, nofun⟩
    rw [hserving]
    trivial
  | ready => exact ⟨trivial, nofun, nofun⟩
  | stale hend => exact ⟨runEnd_stale hend, nofun, nofun⟩
  | panicked => exact ⟨hp, fun _ => rfl, fun _ => rfl⟩
  | @cleared done =>
    cases done with
    | ok report => exact ⟨trivial, nofun, nofun⟩
    | error e => exact ⟨hp, nofun, nofun⟩

end WorkerStep

namespace DaemonState

/-- The loader has ended, and every worker other than `w`. -/
structure Alone (s : DaemonState) (w : Nat) (k : Worker) : Prop where
  works : s.Works w k
  loading : s.loading = false
  others : ∀ v k', s.Works v k' → k'.phase.Active → v = w

namespace Alone

/-- What happens is a step of `w`, or leaves the slot and `w` alone. -/
theorem step (h : Alone s w k) (hstep : DaemonStep cfg R s e t) (haside : e.Aside) :
    ∃ k', Alone t w k' ∧ (e.Outer ∧ t.serving = s.serving ∧ k' = k ∨
      WorkerStep cfg s w k.phase e t.serving t.indexing k'.phase) := by
  cases hstep.effect with
  | loaded hloads =>
    rw [h.loading] at hloads
    cases hloads
  | index | returned => cases haside
  | outer houter hserving _ hl hworkers =>
    have hworks : ∀ {v k'}, t.Works v k' ↔ s.Works v k' := by
      intro v k'
      rw [Works, Works, hworkers]
    refine ⟨k, ⟨hworks.mpr h.works, hl.trans h.loading, ?_⟩, .inl ⟨houter, hserving, rfl⟩⟩
    intro v k' hv
    exact h.others v k' (hworks.mp hv)
  | @worker v kv k' _ _ hv hw hworkers hl =>
    obtain rfl := h.others v kv hv hw.active
    obtain rfl : k = kv := Option.some.inj (h.works.symm.trans hv)
    refine ⟨k', ⟨works_setWorker hworkers, hl.trans h.loading, fun u ku hu hactive => ?_⟩, .inr hw⟩
    rcases hu.of_setWorker hworkers with ⟨huv, -⟩ | ⟨-, hu⟩
    · exact huv
    · exact h.others u ku hu hactive

/-- A run from where the resident has been taken. -/
theorem run_emptied (h : Alone s w k) (hp : k.phase.Emptied r s.serving)
    (hrun : DaemonRun cfg R s es t) (haside : ∀ e ∈ es, e.Aside) :
    ∃ k', Alone t w k' ∧ k'.phase.Emptied r t.serving ∧
      (k'.phase = .panicked ↔ k.phase = .panicked ∨ .panicked w ∈ es) := by
  induction hrun generalizing k with
  | nil => exact ⟨k, h, hp, by simp⟩
  | @cons s e m es t hstep _ ih =>
    obtain ⟨he, hes⟩ := List.forall_mem_cons.mp haside
    obtain ⟨k₁, h₁, ⟨houter, hserving, rfl⟩ | hw⟩ := h.step hstep he
    · obtain ⟨k', h', hp', hpanic⟩ := ih h₁ (by rwa [hserving]) hes
      have hne : e ≠ .panicked w := by
        rintro rfl
        exact houter
      refine ⟨k', h', hp', hpanic.trans ?_⟩
      rw [List.mem_cons, or_iff_right hne.symm]
    · obtain ⟨hp₁, hpanic₁⟩ := hw.emptied hp
      obtain ⟨k', h', hp', hpanic⟩ := ih h₁ hp₁ hes
      have hne : k.phase ≠ .panicked := by
        intro hk
        have hactive := hw.active
        rw [hk] at hactive
        exact hactive
      refine ⟨k', h', hp', hpanic.trans ?_⟩
      rw [List.mem_cons, or_iff_right hne, hpanic₁, eq_comm]

/-- A run from where it has not: either the worker leaves the resident in the slot, or what it puts
there stays. -/
theorem run_waiting (h : Alone s w k) (hp : k.phase.Waiting arc r s.serving)
    (hrun : DaemonRun cfg R s es t) (haside : ∀ e ∈ es, e.Aside) :
    ∃ k', Alone t w k' ∧ (.took w ∉ es ∧ k'.phase.Waiting arc r t.serving ∨
      .took w ∈ es ∧ k'.phase.Emptied r t.serving ∧ (k'.phase = .panicked ↔ .panicked w ∈ es)) := by
  induction hrun generalizing k with
  | nil => exact ⟨k, h, .inl ⟨List.not_mem_nil, hp⟩⟩
  | @cons s e m es t hstep hrun ih =>
    obtain ⟨he, hes⟩ := List.forall_mem_cons.mp haside
    obtain ⟨k₁, h₁, hmoved⟩ := h.step hstep he
    have hcases : e = .took w ∧ k₁.phase.Emptied r m.serving ∧ k₁.phase ≠ .panicked ∨
        e ≠ .took w ∧ e ≠ .panicked w ∧ k₁.phase.Waiting arc r m.serving := by
      rcases hmoved with ⟨houter, hserving, rfl⟩ | hw
      · refine .inr ⟨?_, ?_, by rwa [hserving]⟩
        · rintro rfl
          exact houter
        · rintro rfl
          exact houter
      · exact hw.waiting hp
    rcases hcases with ⟨rfl, hp₁, hne⟩ | ⟨htook, hpanicked, hp₁⟩
    · obtain ⟨k', h', hp', hpanic⟩ := h₁.run_emptied hp₁ hrun hes
      refine ⟨k', h', .inr ⟨List.mem_cons_self, hp', hpanic.trans ?_⟩⟩
      rw [or_iff_right hne, List.mem_cons, or_iff_right nofun]
    · rw [List.mem_cons, List.mem_cons, or_iff_right htook.symm, or_iff_right hpanicked.symm]
      exact ih h₁ hp₁ hes

end Alone

/-- With something being served, an index request is accepted only when every worker has ended. -/
theorem Exclusive.alone_of_index (h : Exclusive s) (hready : s.serving = .ready arc r)
    (hstep : DaemonStep cfg R s (.index i w) t) :
    ∃ k, Alone t w k ∧ k.phase.Waiting arc r t.serving := by
  cases hstep with
  | @index i c id w mode repoDir hi hhello hphase hflag hw =>
    refine ⟨⟨mode, repoDir, .spawned⟩, ⟨works_setWorker rfl, h.not_loading hready, ?_⟩, hready⟩
    exact fun v k' => h.ended_of_ne hflag rfl

end DaemonState

/-- The run has failed, and the task of the connection is told so. -/
def WorkerPhase.Failed : WorkerPhase → Prop
  | finished (.error _) | panicked => True
  | _ => False

/-- An index request is accepted while a resident is being served, and its run fails. Queries are
answered then as before if and only if the worker has not taken the resident, a query still holding
it when the worker looked, or else the thread has panicked and the frozen view it leaves in the slot
answers as the resident did. -/
theorem DaemonRun.failed_index_iff {es₀ : List Event} (hs : DaemonRun cfg R .start es₀ s)
    (hready : s.serving = .ready arc r) (h : DaemonRun cfg R s (.index i w :: es) t)
    (haside : ∀ e ∈ es, e.Aside) (hw : t.Works w k) (hfailed : k.phase.Failed) :
    (∀ q, t.serving.answer R host q = s.serving.answer R host q) ↔
      .took w ∉ es ∨ .panicked w ∈ es ∧ ∀ q, r.freeze.answer R host q = r.answer R host q := by
  rw [hready]
  cases h with
  | cons hindex hrun =>
    obtain ⟨k₀, hk₀, hwaiting⟩ := (DaemonRun.exclusive hs).alone_of_index hready hindex
    obtain ⟨k', hk', hend⟩ := hk₀.run_waiting hwaiting hrun haside
    obtain rfl : k = k' := Option.some.inj (hw.symm.trans hk'.works)
    rcases hend with ⟨htook, hp⟩ | ⟨htook, hp, hpanic⟩
    · refine iff_of_true ?_ (.inl htook)
      cases hphase : k.phase with
      | spawned | taken | running | clearing | panicked =>
        rw [hphase] at hp hfailed
        cases hfailed <;> cases hp
      | finished done =>
        rw [hphase] at hp hfailed
        cases done with
        | ok report => cases hfailed
        | error e =>
          have hp : t.serving = .ready arc r := hp
          intro q
          rw [hp]
    · cases hphase : k.phase with
      | spawned | taken | running | clearing =>
        rw [hphase] at hfailed
        cases hfailed
      | panicked =>
        have hserving : t.serving = .indexing r.freeze := by
          rw [hphase] at hp
          exact hp
        rw [hserving, or_iff_right (not_not.mpr htook), and_iff_right (hpanic.mp hphase)]
        rfl
      | finished done =>
        have hnot : .panicked w ∉ es := by
          rw [← hpanic, hphase]
          exact nofun
        rw [hphase] at hp hfailed
        cases done with
        | ok report => cases hfailed
        | error e =>
          have hspoiled : t.serving.Spoiled := hp
          refine iff_of_false (fun hall => ?_) (not_or.mpr ⟨not_not.mpr htook, fun hp => hnot hp.1⟩)
          exact hspoiled.answer_ne (hall (.getSymbol "" ""))

/-! ## A query in the way -/

def sampleQuery : Query := .getSymbol "a.rs" "f"

/-- A second client has been greeted. -/
def sampleTwo : DaemonState :=
  let s := { sampleReady.setClient 1 ⟨false, .reading, 0, []⟩ with
    serve := .accepted
    connectedClients := sampleReady.connectedClients + 1 }
  let s := { s with serve := .selecting false }
  let s := s.setClient 1 ⟨false, .greeting (.hello 1 "client"), 1, []⟩
  s.setClient 1 ⟨true, .reading, 1, sampleGreeted⟩

theorem sampleTwo_run : DaemonRun sampleConfig sampleRetrieval sampleReady
    [.poll, .accept 1, .loop, .gated 1 (.hello 1 "client"), .greeted 1] sampleTwo :=
  greeted_run rfl rfl rfl rfl

/-- The first client asks for an index, and before the worker looks the second asks a query. -/
def sampleBorrowed : DaemonState :=
  let s := { (sampleTwo.setClient 0 ⟨true, .streaming 0, 2, sampleGreeted⟩).setWorker 0
    ⟨.full, "elsewhere", .spawned⟩ with indexing := true }
  s.setClient 1 ⟨true, .borrowing 0 sampleResident sampleQuery, 2, sampleGreeted⟩

def sampleGaveBack : DaemonState :=
  { sampleBorrowed.setWorker 0
      ⟨.full, "elsewhere", .finished (.error (.internal "resident still borrowed"))⟩ with
    indexing := false }

theorem sampleGaveBack_run : DaemonRun sampleConfig sampleRetrieval sampleTwo
    [.index 0 0, .borrowed 1 sampleQuery, .gaveBack 0] sampleGaveBack := by
  let asked := { (sampleTwo.setClient 0 ⟨true, .streaming 0, 2, sampleGreeted⟩).setWorker 0
    ⟨.full, "elsewhere", .spawned⟩ with indexing := true }
  have hfirst : sampleTwo.At 0 ⟨true, .reading, 1, sampleGreeted⟩ := rfl
  have hindex : DaemonStep sampleConfig sampleRetrieval sampleTwo (.index 0 0) asked :=
    .index .full "elsewhere" hfirst rfl rfl rfl rfl
  have hsecond : asked.At 1 ⟨true, .reading, 1, sampleGreeted⟩ := rfl
  have hborrow : DaemonStep sampleConfig sampleRetrieval asked (.borrowed 1 sampleQuery)
      sampleBorrowed := .borrowed hsecond rfl rfl rfl
  have hworks : sampleBorrowed.Works 0 ⟨.full, "elsewhere", .spawned⟩ := rfl
  have hborrowed : sampleBorrowed.Borrowed 0 := ⟨1, _, sampleResident, sampleQuery, rfl, rfl⟩
  have hback : DaemonStep sampleConfig sampleRetrieval sampleBorrowed
      (.gaveBack 0) sampleGaveBack :=
    .gaveBack hworks rfl rfl hborrowed
  exact .cons hindex (.cons hborrow (.cons hback .nil))

/-- Nothing has changed then. -/
theorem DaemonRun.failed_index_iff_borrowed : sampleGaveBack.indexing = false ∧
    ∀ q, sampleGaveBack.serving.answer sampleRetrieval sampleHost q =
      sampleTwo.serving.answer sampleRetrieval sampleHost q := by
  have hw : sampleGaveBack.Works 0
    ⟨.full, "elsewhere", .finished (.error (.internal "resident still borrowed"))⟩ := rfl
  have haside : ∀ e ∈ [Event.borrowed 1 sampleQuery, .gaveBack 0], e.Aside :=
    List.forall_mem_cons.mpr ⟨trivial, List.forall_mem_singleton.mpr trivial⟩
  have htook : Event.took 0 ∉ [Event.borrowed 1 sampleQuery, .gaveBack 0] := by
    rw [List.mem_cons, List.mem_singleton]
    exact not_or.mpr ⟨nofun, nofun⟩
  have hs := sampleReady_run.append sampleTwo_run
  exact ⟨rfl, (DaemonRun.failed_index_iff hs rfl sampleGaveBack_run haside hw trivial).mpr
    (.inl htook)⟩

/-- The directory given has no repository, and the indexer is never opened. A search was answered
before; after the failure no query is. -/
theorem failed_index_spoils : ∃ es s t,
    DaemonRun sampleConfig sampleRetrieval .start es s ∧
    DaemonRun sampleConfig sampleRetrieval s
      [.index 0 0, .took 0, .split 0, .ended 0, .cleared 0] t ∧
    sampleOutside.openIndexer sampleEmbedder "elsewhere" sampleStore [] =
      .error (.git "not a git repository") ∧
    t.Works 0 ⟨.full, "elsewhere", .finished (.error sampleError)⟩ ∧
    (∃ resp, s.serving.answer sampleRetrieval sampleHost (.search "text" 5) = .ok (.search resp)) ∧
    ∀ q, t.serving.answer sampleRetrieval sampleHost q =
      .error (.storeStale s!"index: {sampleError.debug}") := by
  refine ⟨_, _, _, sampleReady_run, sampleFailed_run, openIndexer_outside, rfl, ⟨_, rfl⟩, ?_⟩
  intro q
  rfl

end SiftMcp
