import SiftMcp.Daemon.Completion

/-!
# The task of a connection

What the task of one connection does, whatever else goes on in the daemon: it reads a request,
writes what answers it under its id, and reads the next only then. Of an index request it writes
frames of progress before the last.

`DaemonStep.task` lists what a step of the daemon can do to one connection.
-/

namespace SiftMcp

/-- What the task is at. `working` has read the request `id`. -/
inductive TaskPhase
  | reading
  | working (id : Nat) (index : Bool)
  | closed
deriving DecidableEq

/-- The task reads a request, if it does, and writes frames. -/
inductive TaskStep : TaskPhase → Option Nat → List (Envelope Response) → TaskPhase → Prop
  | answers {id r} : ¬r.Progress → TaskStep .reading (some id) [⟨id, r⟩] .reading
  | leaves {id r} : ¬r.Progress → TaskStep .reading (some id) [⟨id, r⟩] .closed
  | begins {id index} : TaskStep .reading (some id) [] (.working id index)
  | progress {id r} : r.Progress → TaskStep (.working id true) none [⟨id, r⟩] (.working id true)
  | finishes {id index r} : ¬r.Progress → TaskStep (.working id index) none [⟨id, r⟩] .reading
  | refuses {id r} : ¬r.Progress → TaskStep (.working id false) none [⟨id, r⟩] .closed
  | closes {p} : TaskStep p none [] .closed

def Client.task (c : Client) : TaskPhase :=
  match c.phase with
  | .reading => .reading
  | .greeting _ | .borrowing .. | .viewing .. => .working c.requestId false
  | .streaming _ => .working c.requestId true
  | .closed => .closed

/-- The connection on which a frame is read. -/
def Event.takes : Event → Option Nat
  | .garbled i | .gated i _ | .statusRequest i | .secondHello i | .shutdownRequest i
  | .turnedAway i _ | .borrowed i _ | .viewed i _ | .refused i | .index i _ => some i
  | _ => none

/-- What a step is to the task of the connection `i`. -/
inductive TaskMove (i : Nat) (e : Event) (c : Client) : Client → Prop
  | stays : e.takes ≠ some i → TaskMove i e c c
  | reads {c' frames} : e.takes = some i → c'.sent = c.sent ++ frames →
    TaskStep c.task (some c'.requestId) frames c'.task → TaskMove i e c c'
  | goesOn {c' frames} : e.takes ≠ some i → c'.sent = c.sent ++ frames →
    TaskStep c.task none frames c'.task → TaskMove i e c c'

variable {cfg : DaemonConfig} {R : Retrieval} {host : Host} {q : Query} {s t : DaemonState}
  {e : Event} {i : Nat} {c c' : Client}

/-! ## Frames of progress -/

theorem Response.not_progress_of_error {e : DaemonError} : ¬(Response.error e).Progress := nofun

theorem Response.not_progress_of_status {status : DaemonStatus} :
    ¬(Response.status status).Progress := nofun

/-- No query is answered with a frame of progress. -/
theorem toResponse_not_progress {a : Except DaemonError Response}
    (h : ∀ r, a = .ok r → ¬r.Progress) : ¬(toResponse a).Progress := by
  cases a with
  | ok r => exact h r rfl
  | error e => exact Response.not_progress_of_error

theorem oneSymbol_not_progress {file symbol : String} {found : List (RowId × ChunkRecord)}
    {body : RowId → Option String} {r : Response} (h : oneSymbol file symbol found body = .ok r) :
    ¬r.Progress := by
  unfold oneSymbol at h
  split at h
  · cases h
  · obtain rfl := Except.ok.inj h
    exact nofun
  · cases h

theorem Resident.answer_not_progress {r : Resident} :
    ¬(toResponse (r.answer R host q)).Progress := by
  refine toResponse_not_progress fun resp h => ?_
  cases q with
  | search | searchSimilar =>
    obtain ⟨_, -, h⟩ := Except.bind_eq_ok.mp h
    obtain ⟨_, -, h⟩ := Except.bind_eq_ok.mp h
    obtain rfl := Except.ok.inj h
    exact nofun
  | getSymbol =>
    obtain ⟨_, -, h⟩ := Except.bind_eq_ok.mp h
    exact oneSymbol_not_progress h

theorem FrozenSearch.answer_not_progress {f : FrozenSearch} :
    ¬(toResponse (f.answer R host q)).Progress := by
  refine toResponse_not_progress fun resp h => ?_
  cases q with
  | search | searchSimilar =>
    obtain ⟨_, -, h⟩ := Except.bind_eq_ok.mp h
    obtain ⟨_, -, h⟩ := Except.bind_eq_ok.mp h
    obtain rfl := Except.ok.inj h
    exact nofun
  | getSymbol =>
    obtain ⟨_, -, h⟩ := Except.bind_eq_ok.mp h
    exact oneSymbol_not_progress h

theorem DaemonState.gate_cases {s : DaemonState} {req : Request} {resp : Response}
    (h : s.gate req = some resp) : (∃ e, resp = .error e) ∨ ∃ status, resp = .status status := by
  unfold gate at h
  split at h
  · exact .inl ⟨_, (Option.some.inj h).symm⟩
  · split at h
    · cases h
    · exact .inr ⟨_, (Option.some.inj h).symm⟩
    · exact .inl ⟨_, (Option.some.inj h).symm⟩
  · cases h

theorem DaemonState.gate_not_progress {s : DaemonState} {req : Request} {resp : Response}
    (h : s.gate req = some resp) : ¬resp.Progress := by
  rcases gate_cases h with ⟨e, rfl⟩ | ⟨status, rfl⟩
  · exact Response.not_progress_of_error
  · exact Response.not_progress_of_status

theorem handleHello_cases {req : Request} {modelId : String} {chunks : Nat} {resp : Response} :
    (handleHello req modelId chunks = .ok resp → ∃ v m n, resp = .hello v m n) ∧
      (handleHello req modelId chunks = .error resp → ∃ e, resp = .error e) := by
  unfold handleHello
  split
  · split
    · exact ⟨nofun, fun h => ⟨_, (Except.error.inj h).symm⟩⟩
    · exact ⟨fun h => ⟨_, _, _, (Except.ok.inj h).symm⟩, nofun⟩
  · exact ⟨nofun, fun h => ⟨_, (Except.error.inj h).symm⟩⟩

theorem DaemonState.welcome_cases {s : DaemonState} {req : Request} {resp : Response} :
    (s.welcome req = .ok resp → ∃ v m n, resp = .hello v m n) ∧
      (s.welcome req = .error resp → ∃ e, resp = .error e) := by
  unfold welcome
  cases s.serving with
  | ready | indexing | starting | stale => exact handleHello_cases

theorem DaemonState.welcome_not_progress {s : DaemonState} {req : Request} {resp : Response} :
    (s.welcome req = .ok resp → ¬resp.Progress) ∧
    (s.welcome req = .error resp → ¬resp.Progress) := by
  constructor
  · intro h
    obtain ⟨v, m, n, rfl⟩ := welcome_cases.1 h
    exact nofun
  · intro h
    obtain ⟨e, rfl⟩ := welcome_cases.2 h
    exact nofun

/-! ## Steps -/

theorem Client.task_eq {p : ClientPhase} (hc : c.phase = p) :
    c.task = Client.task { c with phase := p } := by
  rw [Client.task, hc]
  rfl

namespace TaskMove

variable {j : Nat} {d : Client} {frames : List (Envelope Response)}

theorem stays_of_none (he : e.takes = none) : TaskMove i e c c := by
  apply stays
  rw [he]
  exact (Option.some_ne_none i).symm

/-- The task of the connection `j` reads a request. -/
theorem reads_at (hi : s.At i c) (hj : s.At j d) (ht : t.clients = (s.setClient j c').clients)
    (he : e.takes = some j) (hsent : c'.sent = d.sent ++ frames)
    (hstep : TaskStep d.task (some c'.requestId) frames c'.task) :
    ∃ c', t.At i c' ∧ TaskMove i e c c' := by
  rcases hi.after hj ht with ⟨rfl, rfl, hi⟩ | ⟨hij, hi⟩
  · exact ⟨c', hi, .reads he hsent hstep⟩
  · refine ⟨c, hi, .stays ?_⟩
    rw [he]
    exact fun h => hij (Option.some.inj h).symm

/-- The task of the connection `j` goes on. -/
theorem goesOn_at (hi : s.At i c) (hj : s.At j d) (ht : t.clients = (s.setClient j c').clients)
    (he : e.takes = none) (hsent : c'.sent = d.sent ++ frames)
    (hstep : TaskStep d.task none frames c'.task) : ∃ c', t.At i c' ∧ TaskMove i e c c' := by
  rcases hi.after hj ht with ⟨rfl, rfl, hi⟩ | ⟨-, hi⟩
  · refine ⟨c', hi, .goesOn ?_ hsent hstep⟩
    rw [he]
    exact (Option.some_ne_none i).symm
  · exact ⟨c, hi, stays_of_none he⟩

end TaskMove

/-- The steps of the daemon are steps of the task. -/
theorem DaemonStep.task (h : DaemonStep cfg R s e t) (hi : s.At i c) :
    ∃ c', t.At i c' ∧ TaskMove i e c c' := by
  cases h with
  | poll | pend | tick | loop | idle | shutdown | returned | gaveBack | notReady | took | split
  | splitFailed | ready | stale | panicked | cleared => exact ⟨c, hi, .stays_of_none rfl⟩
  | loaded => exact ⟨c, by rwa [DaemonState.At, DaemonState.loaded_clients], .stays_of_none rfl⟩
  | accept _ hj => exact ⟨c, DaemonState.at_of_none hj rfl hi, .stays_of_none rfl⟩
  | closed hj => exact TaskMove.goesOn_at hi hj rfl rfl (List.append_nil _).symm .closes
  | garbled hj hphase =>
    refine TaskMove.reads_at hi hj rfl rfl rfl ?_
    rw [Client.task_eq hphase]
    exact .answers Response.not_progress_of_error
  | gated hj _ hphase hgate =>
    refine TaskMove.reads_at hi hj rfl rfl rfl ?_
    rw [Client.task_eq hphase]
    exact .answers (DaemonState.gate_not_progress hgate)
  | passed hj _ hphase | borrowed hj _ hphase | viewed hj _ hphase | index _ _ hj _ hphase =>
    refine TaskMove.reads_at hi hj rfl rfl (List.append_nil _).symm ?_
    rw [Client.task_eq hphase]
    exact .begins
  | greeted hj hphase hwelcome =>
    refine TaskMove.goesOn_at hi hj rfl rfl rfl ?_
    rw [Client.task_eq hphase]
    exact .finishes (DaemonState.welcome_not_progress.1 hwelcome)
  | unwelcome hj hphase hwelcome =>
    refine TaskMove.goesOn_at hi hj rfl rfl rfl ?_
    rw [Client.task_eq hphase]
    exact .refuses (DaemonState.welcome_not_progress.2 hwelcome)
  | statusRequest hj _ hphase =>
    refine TaskMove.reads_at hi hj rfl rfl rfl ?_
    rw [Client.task_eq hphase]
    exact .answers Response.not_progress_of_status
  | secondHello hj _ hphase | turnedAway hj _ hphase | refused hj _ hphase =>
    refine TaskMove.reads_at hi hj rfl rfl rfl ?_
    rw [Client.task_eq hphase]
    exact .answers Response.not_progress_of_error
  | shutdownRequest hj _ hphase =>
    refine TaskMove.reads_at hi hj rfl rfl rfl ?_
    rw [Client.task_eq hphase]
    exact .leaves Response.not_progress_of_status
  | answered host hj hphase =>
    refine TaskMove.goesOn_at hi hj rfl rfl rfl ?_
    rw [Client.task_eq hphase]
    exact .finishes Resident.answer_not_progress
  | answeredFrozen host hj hphase =>
    refine TaskMove.goesOn_at hi hj rfl rfl rfl ?_
    rw [Client.task_eq hphase]
    exact .finishes FrozenSearch.answer_not_progress
  | progressed hj hphase =>
    refine TaskMove.goesOn_at hi hj rfl rfl rfl ?_
    rw [Client.task_eq hphase, @Client.task_eq (Client.write _ _) _ hphase]
    exact .progress (.mk ..)
  | @reported j d w k done hj hphase =>
    refine TaskMove.goesOn_at hi hj rfl rfl rfl ?_
    rw [Client.task_eq hphase]
    refine .finishes (toResponse_not_progress fun r hr hprogress => ?_)
    cases done with
    | ok report =>
      obtain rfl := Except.ok.inj hr
      cases hprogress
    | error e => cases hr
  | vanished hj hphase =>
    refine TaskMove.goesOn_at hi hj rfl rfl rfl ?_
    rw [Client.task_eq hphase]
    exact .finishes Response.not_progress_of_error

end SiftMcp
