import SiftMcp.Daemon.Ownership

/-!
# What the daemon comes to rest in

A worker empties the serving slot before its work, and fills it when it ends. Not on every way out,
though: where the resident cannot be split the slot stays empty, and a thread that panics leaves the
frozen view in the slot and the flag set.

The invariant is `Settles`. By `DaemonRun.comes_to_rest` the daemon ends up ready or stale in all
runs without such a way out.
-/

namespace SiftMcp

/-- There is a resident to serve from, or a reason why not. -/
def ServingState.Filled : ServingState → Prop
  | .ready .. | .stale _ => True
  | .starting | .indexing _ => False

/-- No resident fails to be split, no thread panics, and `serve` does not return. -/
def Event.Smooth : Event → Prop
  | .loaded (.error (.panic _)) | .splitFailed _ | .panicked _ | .returned => False
  | _ => True

variable {cfg : DaemonConfig} {R : Retrieval} {s t : DaemonState} {e : Event} {es : List Event}
  {i w : Nat} {c : Client} {k k' : Worker}

/-- A worker stays active while the flag is set, and fills the slot or owns what was in it, unless
this is none of its business. -/
theorem WorkerStep.settles {p p' : WorkerPhase} {serving : ServingState} {flag : Bool}
    (h : WorkerStep cfg s w p e serving flag p') (he : e.Smooth) : (flag = true → p'.Active) ∧
      (serving.Filled ∨ p'.Owns ∨ serving = s.serving ∧ ¬p.Owns) := by
  cases h with
  | gaveBack | notReady | cleared =>
    exact ⟨fun h => absurd h Bool.false_ne_true, .inr (.inr ⟨rfl, id⟩)⟩
  | splitFailed | panicked => cases he
  | took | split => exact ⟨fun _ => trivial, .inr (.inl trivial)⟩
  | ready | stale => exact ⟨fun _ => trivial, .inl trivial⟩

namespace DaemonState

/-- The flag is set for a worker that is active, and once the loader has ended, the slot is filled,
or else a worker owns what was in it. -/
structure Settles (s : DaemonState) : Prop where
  flagged : s.indexing = true → ∃ w k, s.Works w k ∧ k.phase.Active
  filled : s.loading = false → s.serving.Filled ∨ ∃ w k, s.Works w k ∧ k.phase.Owns

namespace Settles

theorem start : Settles .start := ⟨nofun, nofun⟩

theorem congr (h : Settles s) (hserving : t.serving = s.serving)
    (hindexing : t.indexing = s.indexing) (hloading : t.loading = s.loading)
    (hworkers : t.workers = s.workers) : Settles t := by
  have hworks : ∀ {w k}, s.Works w k → t.Works w k := fun hw => by rwa [Works, hworkers]
  constructor
  · intro hflag
    obtain ⟨w, k, hw, hactive⟩ := h.flagged (hindexing ▸ hflag)
    exact ⟨w, k, hworks hw, hactive⟩
  · intro hl
    rw [hserving]
    refine (h.filled (hloading ▸ hl)).imp_right fun howner => ?_
    obtain ⟨w, k, hw, howns⟩ := howner
    exact ⟨w, k, hworks hw, howns⟩

/-- Steps of a worker that do as much. -/
theorem of_worker (h : Settles s) (hw : s.Works w k)
    (hworkers : t.workers = (s.setWorker w k').workers) (hloading : t.loading = s.loading)
    (hflag : t.indexing = true → k'.phase.Active)
    (hfilled : t.serving.Filled ∨ k'.phase.Owns ∨ t.serving = s.serving ∧ ¬k.phase.Owns) :
    Settles t := by
  have hself : t.Works w k' := works_setWorker hworkers
  constructor
  · intro hset
    exact ⟨w, k', hself, hflag hset⟩
  · intro hl
    rcases hfilled with hfilled | howns | ⟨hserving, hnot⟩
    · exact .inl hfilled
    · exact .inr ⟨w, k', hself, howns⟩
    · rw [hserving]
      refine (h.filled (hloading ▸ hl)).imp_right fun howner => ?_
      obtain ⟨v, kv, hv, howns⟩ := howner
      have hne : v ≠ w := by
        intro hvw
        subst hvw
        obtain rfl : k = kv := Option.some.inj (hw.symm.trans hv)
        exact hnot howns
      exact ⟨v, kv, works_of_ne hne hworkers hv, howns⟩

theorem step (h : Settles s) (hsmooth : e.Smooth) (hstep : DaemonStep cfg R s e t) : Settles t := by
  cases hstep.effect with
  | @loaded env hloads =>
    cases hload : Resident.load env cfg with
    | ok r => exact ⟨h.flagged, fun _ => .inl trivial⟩
    | error fault =>
      cases fault with
      | error e => exact ⟨h.flagged, fun _ => .inl trivial⟩
      | panic detail =>
        rw [hload] at hsmooth
        cases hsmooth
  | outer _ hserving hindexing hloading hworkers =>
    exact h.congr hserving hindexing hloading hworkers
  | @index i c w k hflag hnone hphase =>
    have hspawned : k.phase.Active := by
      rw [hphase]
      trivial
    constructor
    · intro _
      exact ⟨w, k, works_setWorker rfl, hspawned⟩
    · intro hl
      refine (h.filled hl).imp_right fun howner => ?_
      obtain ⟨v, kv, hv, howns⟩ := howner
      have hne : v ≠ w := by
        intro hvw
        subst hvw
        cases hnone.symm.trans hv
      exact ⟨v, kv, works_of_ne hne rfl hv, howns⟩
  | worker hw hstep hworkers hloading =>
    obtain ⟨hflag, hfilled⟩ := hstep.settles hsmooth
    exact h.of_worker hw hworkers hloading hflag hfilled
  | returned => cases hsmooth

end Settles

end DaemonState

/-- In a run in which every resident can be split, no thread panics and `serve` does not return:
when the loader has ended and no worker is active, the flag is clear, and the daemon is ready or
stale. -/
theorem DaemonRun.comes_to_rest (h : DaemonRun cfg R .start es s) (hes : ∀ e ∈ es, e.Smooth)
    (hl : s.loading = false) (hidle : ∀ w k, s.Works w k → ¬k.phase.Active) :
    s.indexing = false ∧
      ((∃ arc r, s.serving = .ready arc r) ∨ ∃ reason, s.serving = .stale reason) := by
  have hsettles : s.Settles := h.invariant_of (fun _ _ _ he h hstep => h.step he hstep) hes .start
  constructor
  · by_contra hflag
    obtain ⟨w, k, hw, hactive⟩ := hsettles.flagged (by simpa using hflag)
    exact hidle w k hw hactive
  · have hfilled : s.serving.Filled := by
      refine (hsettles.filled hl).resolve_right fun ⟨w, k, hw, howns⟩ => ?_
      exact hidle w k hw howns.active
    cases hserving : s.serving with
    | ready arc r => exact .inl ⟨arc, r, rfl⟩
    | stale reason => exact .inr ⟨reason, rfl⟩
    | starting =>
      rw [hserving] at hfilled
      cases hfilled
    | indexing f =>
      rw [hserving] at hfilled
      cases hfilled

/-! ## A directory without a repository -/

/-- What the run meets there. -/
def sampleOutside : RepoEnv where
  openError := none
  git := .error "not a git repository"
  globMatches := fun _ _ => false
  gitignore := .ok none
  chunker := sampleChunker
  worktree := .nil
  host _ := none
  schedule := id
  schedule_perm work := .refl work
  outlives := fun _ _ => true
  pid := 7
  nanos := 1
  faults := .none
  verifyError := none

def sampleError : DaemonError := .internal "indexer open: git error: not a git repository"

theorem openIndexer_outside :
    sampleOutside.openIndexer sampleEmbedder "elsewhere" sampleStore [] =
      .error (.git "not a git repository") := by
  have hmodel : sampleStore.requireModel sampleEmbedder.modelId = .ok () := by decide +kernel
  have hlive : sampleStore.stats.live = LexicalIndex.numDocs (.open []) := by decide +kernel
  simp only [RepoEnv.openIndexer, hmodel, hlive, sampleOutside]
  rfl

theorem runIndex_outside :
    runIndex sampleOutside sampleEmbedder "elsewhere" sampleStore [] .full =
      .error (.error sampleError) := by
  rw [runIndex, openIndexer_outside]
  rfl

/-- The resident has been split, and the run is under way. -/
def sampleRunning : DaemonState :=
  { sampleTaken.setWorker 0 ⟨.full, "elsewhere", .running sampleStore [] sampleEmbedder⟩ with
    serving := .indexing sampleResident.freeze }

theorem sampleRunning_step :
    DaemonStep sampleConfig sampleRetrieval sampleTaken (.split 0) sampleRunning := by
  have htaken : sampleTaken.Works 0 ⟨.full, "elsewhere", .taken sampleResident⟩ := rfl
  exact @DaemonStep.split _ _ _ _ _ _ (fun _ => none) _ _ _ _ htaken rfl rfl

theorem sampleRunning_run : DaemonRun sampleConfig sampleRetrieval sampleReady
    [.index 0 0, .took 0, .split 0] sampleRunning :=
  .cons sampleAsked_step (.cons sampleTaken_step (.cons sampleRunning_step .nil))

/-- The run has failed. -/
def sampleStale : DaemonState :=
  { sampleRunning.setWorker 0 ⟨.full, "elsewhere", .clearing (.error sampleError)⟩ with
    serving := .stale s!"index: {sampleError.debug}" }

def sampleFailed : DaemonState :=
  { sampleStale.setWorker 0 ⟨.full, "elsewhere", .finished (.error sampleError)⟩ with
    indexing := false }

theorem sampleFailed_run : DaemonRun sampleConfig sampleRetrieval sampleReady
    [.index 0 0, .took 0, .split 0, .ended 0, .cleared 0] sampleFailed := by
  have hrunning : sampleRunning.Works 0
    ⟨.full, "elsewhere", .running sampleStore [] sampleEmbedder⟩ := rfl
  have hend : runEnd sampleOutside ⟨sampleHost, none, none⟩ sampleConfig
      ⟨.full, "elsewhere", .running sampleStore [] sampleEmbedder⟩ sampleStore [] sampleEmbedder =
        .stale s!"index: {sampleError.debug}" sampleError := by
    rw [runEnd, runIndex_outside]
  have hstale : DaemonStep sampleConfig sampleRetrieval sampleRunning (.ended 0) sampleStale :=
    .stale hrunning rfl hend
  have hclearing : sampleStale.Works 0 ⟨.full, "elsewhere", .clearing (.error sampleError)⟩ := rfl
  have hcleared : DaemonStep sampleConfig sampleRetrieval sampleStale (.cleared 0) sampleFailed :=
    .cleared hclearing rfl
  exact sampleRunning_run.append (.cons hstale (.cons hcleared .nil))

theorem sampleFailed_idle (w : Nat) (k : Worker) (hw : sampleFailed.Works w k) :
    ¬k.phase.Active := by
  cases w with
  | zero =>
    obtain rfl := Option.some.inj hw
    exact id
  | succ w => cases hw

/-- The daemon is stale then. -/
theorem DaemonRun.comes_to_rest_outside : sampleFailed.indexing = false ∧
    ((∃ arc r, sampleFailed.serving = .ready arc r) ∨ ∃ reason, sampleFailed.serving =
      .stale reason) := by
  have hrun := sampleReady_run.append sampleFailed_run
  refine DaemonRun.comes_to_rest hrun ?_ rfl sampleFailed_idle
  intro e he
  simp only [List.cons_append, List.nil_append, List.mem_cons, List.not_mem_nil, or_false] at he
  rcases he with rfl | rfl | rfl | rfl | rfl | rfl | rfl | rfl | rfl | rfl | rfl <;> trivial

/-- The bodies cannot be read, so that the resident cannot be split. The daemon answers that it is
starting from then on. -/
theorem split_leaves_starting : ∃ es s, DaemonRun sampleConfig sampleRetrieval .start es s ∧
    s.loading = false ∧ (∀ w k, s.Works w k → ¬k.phase.Active) ∧ s.serving = .starting ∧
    ∀ w k, s.Works w k →
      k.phase = .finished (.error (.internal "bodies: tantivy error: read failed")) := by
  let e : DaemonError := .internal "bodies: tantivy error: read failed"
  let s := { sampleTaken.setWorker 0
      ⟨.full, "elsewhere", .finished (.error e)⟩ with indexing := false }
  have htaken : sampleTaken.Works 0 ⟨.full, "elsewhere", .taken sampleResident⟩ := rfl
  have hstep : DaemonStep sampleConfig sampleRetrieval sampleTaken (.splitFailed 0) s :=
    @DaemonStep.splitFailed _ _ _ _ _ _
      (fun | .bodies => some "tantivy error: read failed" | _ => none) _ htaken rfl rfl
  have hworks : ∀ w k, s.Works w k → k = ⟨.full, "elsewhere", .finished (.error e)⟩ := by
    intro w k hw
    cases w with
    | zero => exact (Option.some.inj hw).symm
    | succ w => cases hw
  have hrun := sampleReady_run.append (.cons sampleAsked_step (.cons sampleTaken_step
    (.cons hstep .nil)))
  refine ⟨_, s, hrun, rfl, fun w k hw => ?_, rfl, fun w k hw => ?_⟩
  · rw [hworks w k hw]
    exact id
  · rw [hworks w k hw]

end SiftMcp
