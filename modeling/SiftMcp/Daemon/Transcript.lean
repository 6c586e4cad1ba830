import SiftMcp.Daemon.Link

/-!
# What is written on a connection

Of every connection: for each frame that its task has read, in their order, what it has written is
frames of progress, if that was an index request, and then one frame that answers it, all under its
id. The last of them may be unanswered yet, or for good when the connection has been closed.

* `LoggedRun.transcript`: what is answered to what.
* `DaemonRun.shakes`: what comes before the greeting, and what behind it.
-/

namespace SiftMcp

/-- A frame that a task has read: the id under which it is answered, and the request, if it was
one. -/
structure Asked where
  id : Nat
  request : Option Request

namespace Asked

def Indexes (a : Asked) : Prop := ∃ mode repoDir, a.request = some (.index mode repoDir)

/-- What can answer it at the end. -/
def AnsweredBy (a : Asked) : Response → Prop
  | .error _ => True
  | .hello version _ _ =>
    version = protocolVersion ∧ ∃ client, a.request = some (.hello version client)
  | .status _ => a.request = some .status ∨ a.request = some .shutdown
  | .search _ => ∃ text topK, a.request = some (.query (.search text topK)) ∨
    a.request = some (.query (.searchSimilar text topK))
  | .symbol _ symbol .. => ∃ file, a.request = some (.query (.getSymbol file symbol))
  | .indexDone _ => a.Indexes
  | .indexProgress .. => False

def frame (a : Asked) (r : Response) : Envelope Response := ⟨a.id, r⟩

end Asked

/-- `sent` answers what is logged, frame by frame. -/
inductive Answered : List Asked → List (Envelope Response) → Prop
  | nil : Answered [] []
  | snoc {log sent a progress r} : Answered log sent → (∀ p ∈ progress, p.Progress) →
    (progress ≠ [] → a.Indexes) → a.AnsweredBy r →
    Answered (log ++ [a]) (sent ++ progress.map a.frame ++ [a.frame r])

/-- All but the last are answered, and of that only frames of progress have been written. -/
inductive Answering (a : Asked) : List Asked → List (Envelope Response) → Prop
  | mk {log sent progress} : Answered log sent → (∀ p ∈ progress, p.Progress) →
    (progress ≠ [] → a.Indexes) → Answering a (log ++ [a]) (sent ++ progress.map a.frame)

/-- What a task has written, by what it is at. -/
def Client.Answers (c : Client) (log : List Asked) : Prop :=
  match c.phase with
  | .reading => Answered log c.sent
  | .greeting req => Answering ⟨c.requestId, some req⟩ log c.sent
  | .borrowing _ _ q | .viewing _ q => Answering ⟨c.requestId, some (.query q)⟩ log c.sent
  | .streaming _ => ∃ mode repoDir, Answering ⟨c.requestId, some (.index mode repoDir)⟩ log c.sent
  | .closed => Answered log c.sent ∨ ∃ a, Answering a log c.sent

/-- What a step adds to the log of the connection `i`. -/
inductive Logs (i : Nat) (e : Event) (t : DaemonState) : List Asked → List Asked → Prop
  | asked {log c req} : e.Asks i t req → t.At i c →
    Logs i e t log (log ++ [⟨c.requestId, some req⟩])
  | garbled {log} : e = .garbled i → Logs i e t log (log ++ [⟨0, none⟩])
  | other {log} : e.takes ≠ some i → Logs i e t log log

/-- The runs of the daemon, with what the task of the connection `i` has read. -/
abbrev LoggedRun (cfg : DaemonConfig) (R : Retrieval) (i : Nat) :
    DaemonState × List Asked → List Event → DaemonState × List Asked → Prop :=
  Trace fun a e b => DaemonStep cfg R a.1 e b.1 ∧ Logs i e b.1 a.2 b.2

variable {cfg : DaemonConfig} {R : Retrieval} {s t : DaemonState} {e : Event} {es : List Event}
  {i j : Nat} {c c' d : Client} {a : Asked} {log log' : List Asked}
  {sent : List (Envelope Response)} {r : Response} {host : Host} {q : Query}

/-! ## Frames -/

/-- A frame is answered at once. -/
theorem Answered.answer (h : Answered log sent) (hr : a.AnsweredBy r) :
    Answered (log ++ [a]) (sent ++ [a.frame r]) := by
  have hsnoc : Answered (log ++ [a]) (sent ++ [].map a.frame ++ [a.frame r]) :=
    .snoc h nofun (absurd rfl) hr
  rwa [List.map_nil, List.append_nil] at hsnoc

theorem Answered.begin (h : Answered log sent) : Answering a (log ++ [a]) sent := by
  have hmk : Answering a (log ++ [a]) (sent ++ [].map a.frame) := .mk h nofun (absurd rfl)
  rwa [List.map_nil, List.append_nil] at hmk

theorem Answering.progress (h : Answering a log sent) (ha : a.Indexes) (hr : r.Progress) :
    Answering a log (sent ++ [a.frame r]) := by
  cases h with
  | @mk log sent progress hlog hprogress =>
    have hmk : Answering a (log ++ [a]) (sent ++ (progress ++ [r]).map a.frame) := by
      refine .mk hlog (fun p hp => ?_) fun _ => ha
      rcases List.mem_append.mp hp with hp | hp
      · exact hprogress p hp
      · rw [List.mem_singleton.mp hp]
        exact hr
    rwa [List.map_append, ← List.append_assoc] at hmk

theorem Answering.finish (h : Answering a log sent) (hr : a.AnsweredBy r) :
    Answered log (sent ++ [a.frame r]) := by
  cases h with
  | mk hlog hprogress hindexes => exact hlog.snoc hprogress hindexes hr

/-! ## Answers -/

/-- The answer to a query is of its kind. -/
theorem toResponse_answers {answer : Except DaemonError Response}
    (h : ∀ r, answer = .ok r → a.AnsweredBy r) : a.AnsweredBy (toResponse answer) := by
  cases answer with
  | ok r => exact h r rfl
  | error e => trivial

theorem DaemonState.gate_answers {req : Request} (ha : a.request = some req)
    (h : s.gate req = some r) : a.AnsweredBy r := by
  unfold gate at h
  split at h
  · obtain rfl := Option.some.inj h
    trivial
  · split at h
    · cases h
    · obtain rfl := Option.some.inj h
      exact .inl ha
    · obtain rfl := Option.some.inj h
      trivial
  · cases h

theorem handleHello_answers {req : Request} {modelId : String} {chunks : Nat}
    (ha : a.request = some req) : (handleHello req modelId chunks = .ok r → a.AnsweredBy r) ∧
      (handleHello req modelId chunks = .error r → a.AnsweredBy r) := by
  unfold handleHello
  split
  · split
    · refine ⟨nofun, fun h => ?_⟩
      obtain rfl := Except.error.inj h
      trivial
    · next hversion =>
      refine ⟨fun h => ?_, nofun⟩
      obtain rfl := Except.ok.inj h
      rw [not_not] at hversion
      subst hversion
      exact ⟨rfl, _, ha⟩
  · refine ⟨nofun, fun h => ?_⟩
    obtain rfl := Except.error.inj h
    trivial

theorem DaemonState.welcome_answers {req : Request} (ha : a.request = some req) :
    (s.welcome req = .ok r → a.AnsweredBy r) ∧ (s.welcome req = .error r → a.AnsweredBy r) := by
  unfold welcome
  cases s.serving with
  | ready | indexing | starting | stale => exact handleHello_answers ha

theorem oneSymbol_answers {file symbol : String} {found : List (RowId × ChunkRecord)}
    {body : RowId → Option String} (ha : a.request = some (.query (.getSymbol file symbol)))
    (hfound : ∀ p ∈ found, p.2.symbol = symbol) (h : oneSymbol file symbol found body = .ok r) :
    a.AnsweredBy r := by
  unfold oneSymbol at h
  split at h
  · cases h
  · next row record =>
    obtain rfl := Except.ok.inj h
    have hsymbol : record.symbol = symbol := hfound _ List.mem_cons_self
    refine ⟨file, ?_⟩
    rw [hsymbol]
    exact ha
  · cases h

theorem Resident.answer_answers {resident : Resident} (ha : a.request = some (.query q)) :
    a.AnsweredBy (toResponse (resident.answer R host q)) := by
  refine toResponse_answers fun r h => ?_
  cases q with
  | search text topK =>
    obtain ⟨_, -, h⟩ := Except.bind_eq_ok.mp h
    obtain ⟨_, -, h⟩ := Except.bind_eq_ok.mp h
    obtain rfl := Except.ok.inj h
    exact ⟨text, topK, .inl ha⟩
  | searchSimilar text topK =>
    obtain ⟨_, -, h⟩ := Except.bind_eq_ok.mp h
    obtain ⟨_, -, h⟩ := Except.bind_eq_ok.mp h
    obtain rfl := Except.ok.inj h
    exact ⟨text, topK, .inr ha⟩
  | getSymbol file symbol =>
    obtain ⟨_, -, h⟩ := Except.bind_eq_ok.mp h
    refine oneSymbol_answers ha (fun p hp => ?_) h
    obtain ⟨row, -, hp⟩ := List.mem_filterMap.mp hp
    obtain ⟨record, -, hp⟩ := Option.bind_eq_some_iff.mp hp
    split at hp
    · next hsymbol =>
      obtain rfl := Option.some.inj hp
      exact hsymbol
    · cases hp

theorem FrozenSearch.answer_answers {f : FrozenSearch} (ha : a.request = some (.query q)) :
    a.AnsweredBy (toResponse (f.answer R host q)) := by
  refine toResponse_answers fun r h => ?_
  cases q with
  | search text topK =>
    obtain ⟨_, -, h⟩ := Except.bind_eq_ok.mp h
    obtain ⟨_, -, h⟩ := Except.bind_eq_ok.mp h
    obtain rfl := Except.ok.inj h
    exact ⟨text, topK, .inl ha⟩
  | searchSimilar text topK =>
    obtain ⟨_, -, h⟩ := Except.bind_eq_ok.mp h
    obtain ⟨_, -, h⟩ := Except.bind_eq_ok.mp h
    obtain rfl := Except.ok.inj h
    exact ⟨text, topK, .inr ha⟩
  | getSymbol file symbol =>
    obtain ⟨_, -, h⟩ := Except.bind_eq_ok.mp h
    refine oneSymbol_answers ha (fun p hp => ?_) h
    have hfilter := (List.mem_filter.mp hp).2
    exact (of_decide_eq_true hfilter).2

/-! ## Steps -/

/-- What the task of the connection `i` has written, whatever it is at. -/
structure DaemonState.Answers (s : DaemonState) (i : Nat) (log : List Asked) : Prop where
  none : s.clients i = none → log = []
  answers : ∀ c, s.At i c → c.Answers log

namespace Logs

theorem eq_of_ne (h : Logs i e t log log') (he : e.takes ≠ some i) : log' = log := by
  cases h with
  | asked hasks => exact absurd hasks.takes he
  | garbled hgarbled =>
    subst hgarbled
    exact absurd rfl he
  | other => rfl

/-- What has been read. -/
theorem read (h : Logs i e t log log') (he : e.takes = some i) (hi : t.At i c) :
    (∃ req, e.Asks i t req ∧ log' = log ++ [⟨c.requestId, some req⟩]) ∨
      e = .garbled i ∧ log' = log ++ [⟨0, none⟩] := by
  cases h with
  | asked hasks hc =>
    obtain rfl := Option.some.inj (hi.symm.trans hc)
    exact .inl ⟨_, hasks, rfl⟩
  | garbled hgarbled => exact .inr ⟨hgarbled, rfl⟩
  | other hother => exact absurd he hother

end Logs

namespace DaemonState.Answers

/-- A step of something else than a connection. -/
theorem of_clients (h : s.Answers i log) (hlog : Logs i e t log log') (he : e.takes = Option.none)
    (ht : t.clients = s.clients) : t.Answers i log' := by
  rw [hlog.eq_of_ne (by rw [he]; exact (Option.some_ne_none i).symm)]
  exact ⟨fun hi => h.none (ht ▸ hi), fun c hi => h.answers c (by rwa [At, ← ht])⟩

/-- The task of the connection `j` goes on with its request. -/
theorem goesOn (h : s.Answers i log) (hlog : Logs i e t log log') (he : e.takes = Option.none)
    (hj : s.At j d) (ht : t.clients = (s.setClient j c').clients)
    (hstep : d.Answers log → c'.Answers log) : t.Answers i log' := by
  rw [hlog.eq_of_ne (by rw [he]; exact (Option.some_ne_none i).symm)]
  constructor
  · intro hi
    refine h.none ?_
    by_contra hsome
    obtain ⟨c, hc⟩ := Option.ne_none_iff_exists'.mp hsome
    rcases At.after hc hj ht with ⟨-, -, hi'⟩ | ⟨-, hi'⟩
    · cases hi.symm.trans hi'
    · cases hi.symm.trans hi'
  · intro c hi
    rcases hi.of_setClient ht with ⟨rfl, rfl⟩ | ⟨-, hi⟩
    · exact hstep (h.answers d hj)
    · exact h.answers c hi

/-- The task of the connection `j` reads a frame. -/
theorem reads (h : s.Answers i log) (hlog : Logs i e t log log') (he : e.takes = some j)
    (hj : s.At j d) (hphase : d.phase = .reading) (ht : t.clients = (s.setClient j c').clients)
    (hstep : ∀ a, a.id = c'.requestId ∧ (∃ req, a.request = some req ∧ e.Asks j t req) ∨
      a = ⟨0, Option.none⟩ ∧ e = .garbled j → Answered log d.sent → c'.Answers (log ++ [a])) :
    t.Answers i log' := by
  constructor
  · intro hi
    rcases eq_or_ne i j with rfl | hij
    · cases hi.symm.trans (at_setClient ht)
    · rw [hlog.eq_of_ne (by rw [he]; exact fun h => hij (Option.some.inj h).symm)]
      refine h.none ?_
      by_contra hsome
      obtain ⟨c, hc⟩ := Option.ne_none_iff_exists'.mp hsome
      cases hi.symm.trans (at_of_ne hij ht hc)
  · intro c hi
    rcases hi.of_setClient ht with ⟨rfl, rfl⟩ | ⟨hij, hi'⟩
    · have hd := h.answers d hj
      rw [Client.Answers, hphase] at hd
      rcases hlog.read he hi with ⟨req, hasks, rfl⟩ | ⟨hgarbled, rfl⟩
      · exact hstep _ (.inl ⟨rfl, req, rfl, hasks⟩) hd
      · exact hstep _ (.inr ⟨rfl, hgarbled⟩) hd
    · rw [hlog.eq_of_ne (by rw [he]; exact fun h => hij (Option.some.inj h).symm)]
      exact h.answers c hi'

end DaemonState.Answers

/-- A frame is read and answered. -/
theorem Client.Answers.reply {id : Nat} (hd : Answered log d.sent) (hid : a.id = id)
    (hr : a.AnsweredBy r) : ((d.read id).reply r).Answers (log ++ [a]) := by
  subst hid
  exact hd.answer hr

/-- A step keeps it. -/
theorem DaemonState.Answers.step (h : s.Answers i log) (hstep : DaemonStep cfg R s e t)
    (hlog : Logs i e t log log') : t.Answers i log' := by
  cases hstep with
  | poll | pend | tick | loop | idle | shutdown | returned | gaveBack | notReady | took | split
  | splitFailed | ready | stale | panicked | cleared => exact h.of_clients hlog rfl rfl
  | loaded => exact h.of_clients hlog rfl loaded_clients
  | @accept j n hserve hj =>
    rw [hlog.eq_of_ne (Option.some_ne_none i).symm]
    constructor
    · intro hi
      rcases eq_or_ne i j with rfl | hij
      · exact h.none hj
      · exact h.none ((Function.update_of_ne hij ..).symm.trans hi)
    · intro c hi
      rcases hi.of_setClient rfl with ⟨rfl, rfl⟩ | ⟨-, hi⟩
      · rw [h.none hj]
        exact .nil
      · exact h.answers c hi
  | @closed j d hj hphase =>
    refine h.goesOn hlog rfl hj rfl fun hd => ?_
    unfold Client.Answers at hd
    rcases hphase with hphase | ⟨req, hphase⟩ | ⟨w, hphase⟩
    · rw [hphase] at hd
      exact .inl hd
    · rw [hphase] at hd
      exact .inr ⟨_, hd⟩
    · rw [hphase] at hd
      obtain ⟨mode, repoDir, hd⟩ := hd
      exact .inr ⟨_, hd⟩
  | garbled hj hphase =>
    refine h.reads hlog rfl hj hphase rfl fun a ha hd => ?_
    rcases ha with ⟨-, req, -, hasks⟩ | ⟨rfl, -⟩
    · cases hasks
    · exact .reply hd rfl trivial
  | gated hj _ hphase hgate =>
    refine h.reads hlog rfl hj hphase rfl fun a ha hd => ?_
    rcases ha with ⟨hid, req, hreq, hasks⟩ | ⟨-, hgarbled⟩
    · cases hasks
      exact .reply hd hid (gate_answers hreq hgate)
    · cases hgarbled
  | passed hj _ hphase =>
    refine h.reads hlog rfl hj hphase rfl fun a ha hd => ?_
    rcases ha with ⟨hid, req, hreq, hasks⟩ | ⟨-, hgarbled⟩
    · cases hasks
      obtain ⟨id, request⟩ := a
      subst hid hreq
      exact hd.begin
    · cases hgarbled
  | greeted hj hphase hwelcome =>
    refine h.goesOn hlog rfl hj rfl fun hd => ?_
    unfold Client.Answers at hd
    rw [hphase] at hd
    exact hd.finish ((welcome_answers rfl).1 hwelcome)
  | unwelcome hj hphase hwelcome =>
    refine h.goesOn hlog rfl hj rfl fun hd => ?_
    unfold Client.Answers at hd
    rw [hphase] at hd
    exact .inl (hd.finish ((welcome_answers rfl).2 hwelcome))
  | statusRequest hj _ hphase =>
    refine h.reads hlog rfl hj hphase rfl fun a ha hd => ?_
    rcases ha with ⟨hid, req, hreq, hasks⟩ | ⟨-, hgarbled⟩
    · cases hasks
      exact .reply hd hid (.inl hreq)
    · cases hgarbled
  | shutdownRequest hj _ hphase =>
    refine h.reads hlog rfl hj hphase rfl fun a ha hd => ?_
    rcases ha with ⟨hid, req, hreq, hasks⟩ | ⟨-, hgarbled⟩
    · cases hasks
      obtain ⟨id, request⟩ := a
      subst hid
      exact .inl (hd.answer (.inr hreq))
    · cases hgarbled
  | secondHello hj _ hphase | turnedAway hj _ hphase | refused hj _ hphase =>
    refine h.reads hlog rfl hj hphase rfl fun a ha hd => ?_
    rcases ha with ⟨hid, req, -, hasks⟩ | ⟨-, hgarbled⟩
    · exact .reply hd hid trivial
    · cases hgarbled
  | borrowed hj _ hphase | viewed hj _ hphase =>
    refine h.reads hlog rfl hj hphase rfl fun a ha hd => ?_
    rcases ha with ⟨hid, req, hreq, hasks⟩ | ⟨-, hgarbled⟩
    · cases hasks
      obtain ⟨id, request⟩ := a
      subst hid hreq
      exact hd.begin
    · cases hgarbled
  | index _ _ hj _ hphase =>
    refine h.reads hlog rfl hj hphase rfl fun a ha hd => ?_
    rcases ha with ⟨hid, req, hreq, hasks⟩ | ⟨-, hgarbled⟩
    · cases hasks
      obtain ⟨id, request⟩ := a
      subst hid hreq
      exact ⟨_, _, hd.begin⟩
    · cases hgarbled
  | answered host hj hphase =>
    refine h.goesOn hlog rfl hj rfl fun hd => ?_
    unfold Client.Answers at hd
    rw [hphase] at hd
    exact hd.finish (Resident.answer_answers rfl)
  | answeredFrozen host hj hphase =>
    refine h.goesOn hlog rfl hj rfl fun hd => ?_
    unfold Client.Answers at hd
    rw [hphase] at hd
    exact hd.finish (FrozenSearch.answer_answers rfl)
  | progressed hj hphase =>
    refine h.goesOn hlog rfl hj rfl fun hd => ?_
    unfold Client.Answers at hd ⊢
    rw [Client.write_phase, hphase]
    rw [hphase] at hd
    obtain ⟨mode, repoDir, hd⟩ := hd
    exact ⟨mode, repoDir, hd.progress ⟨mode, repoDir, rfl⟩ (.mk ..)⟩
  | @reported j d w k done hj hphase =>
    refine h.goesOn hlog rfl hj rfl fun hd => ?_
    unfold Client.Answers at hd
    rw [hphase] at hd
    obtain ⟨mode, repoDir, hd⟩ := hd
    refine hd.finish (toResponse_answers fun r hr => ?_)
    cases done with
    | ok report =>
      obtain rfl := Except.ok.inj hr
      exact ⟨mode, repoDir, rfl⟩
    | error e => cases hr
  | vanished hj hphase =>
    refine h.goesOn hlog rfl hj rfl fun hd => ?_
    unfold Client.Answers at hd
    rw [hphase] at hd
    obtain ⟨mode, repoDir, hd⟩ := hd
    exact hd.finish trivial

theorem DaemonState.Answers.start : (start).Answers i [] where
  none _ := rfl
  answers _ h := nomatch h

/-- In every run, on every connection: what has been read is answered in its order, each request by
one frame of its kind, under its id and after its frames of progress, and each frame that is none by
an error. -/
theorem LoggedRun.transcript (h : LoggedRun cfg R i (.start, []) es (s, log)) (hi : s.At i c) :
    c.Answers log := by
  have hanswers : (s, log).1.Answers i (s, log).2 :=
    h.invariant (I := fun a => a.1.Answers i a.2)
      (fun _ _ _ h hstep => h.step hstep.1 hstep.2) .start
  exact hanswers.answers c hi

/-- Every step can be logged. -/
theorem DaemonStep.logs (h : DaemonStep cfg R s e t) : ∃ log', Logs i e t log log' := by
  by_cases he : e.takes = some i
  · cases h with
    | garbled =>
      obtain rfl := Option.some.inj he
      exact ⟨_, .garbled rfl⟩
    | gated | passed =>
      obtain rfl := Option.some.inj he
      exact ⟨_, .asked .gated (DaemonState.at_setClient rfl)⟩
    | statusRequest =>
      obtain rfl := Option.some.inj he
      exact ⟨_, .asked .status (DaemonState.at_setClient rfl)⟩
    | secondHello =>
      obtain rfl := Option.some.inj he
      exact ⟨_, .asked (@Event.Asks.hello _ _ 0 "") (DaemonState.at_setClient rfl)⟩
    | shutdownRequest =>
      obtain rfl := Option.some.inj he
      exact ⟨_, .asked .shutdown (DaemonState.at_setClient rfl)⟩
    | turnedAway =>
      obtain rfl := Option.some.inj he
      exact ⟨_, .asked .turnedAway (DaemonState.at_setClient rfl)⟩
    | borrowed =>
      obtain rfl := Option.some.inj he
      exact ⟨_, .asked .borrowed (DaemonState.at_setClient rfl)⟩
    | viewed =>
      obtain rfl := Option.some.inj he
      exact ⟨_, .asked .viewed (DaemonState.at_setClient rfl)⟩
    | refused =>
      obtain rfl := Option.some.inj he
      exact ⟨_, .asked (@Event.Asks.refused _ _ .full "") (DaemonState.at_setClient rfl)⟩
    | index =>
      obtain rfl := Option.some.inj he
      exact ⟨_, .asked (.index (DaemonState.works_setWorker rfl)) (DaemonState.at_setClient rfl)⟩
    | poll | pend | accept | tick | loop | idle | shutdown | returned | loaded | closed | greeted
    | unwelcome | answered | answeredFrozen | progressed | reported | vanished | gaveBack | notReady
    | took | split | splitFailed | ready | stale | panicked | cleared => cases he
  · exact ⟨log, .other he⟩

theorem DaemonRun.logged (h : DaemonRun cfg R s es t) (i : Nat) (log : List Asked) :
    ∃ log', LoggedRun cfg R i (s, log) es (t, log') := by
  induction h generalizing log with
  | nil => exact ⟨log, .nil⟩
  | cons hstep _ ih =>
    obtain ⟨log₁, hlog⟩ := @DaemonStep.logs _ _ _ _ _ i log hstep
    obtain ⟨log₂, hrun⟩ := ih log₁
    exact ⟨log₂, .cons (t := (_, log₁)) ⟨hstep, hlog⟩ hrun⟩

/-- A client is greeted, and has been answered that. -/
theorem LoggedRun.transcript_greeted :
    ∃ es log, LoggedRun sampleConfig sampleRetrieval 0 (.start, []) es
    (sampleReady, log) ∧ Answered log sampleGreeted := by
  obtain ⟨log, hrun⟩ := sampleReady_run.logged 0 []
  exact ⟨_, log, hrun, LoggedRun.transcript hrun (c := ⟨true, .reading, 1, sampleGreeted⟩) rfl⟩

/-! ## The handshake -/

theorem DaemonState.welcome_ok {req : Request} (h : s.welcome req = .ok r) :
    ∃ modelId chunks, r = .hello protocolVersion modelId chunks := by
  have hanswers := (welcome_answers (a := ⟨0, some req⟩) rfl).1 h
  obtain ⟨version, modelId, chunks, rfl⟩ := welcome_cases.1 h
  obtain ⟨rfl, -⟩ := hanswers
  exact ⟨modelId, chunks, rfl⟩

/-- What is written before a connection has been greeted. -/
def Response.Early : Response → Prop
  | .error _ | .status _ => True
  | _ => False

def Response.IsHello : Response → Prop
  | .hello .. => True
  | _ => False

theorem Response.Early.not_isHello (h : r.Early) : ¬r.IsHello := by
  cases r with
  | error | status => exact id
  | hello | search | symbol | indexProgress | indexDone => exact h.elim

/-- `sent` up to the greeting, the greeting, and what comes after it. -/
inductive Greeted : List (Envelope Response) → Prop
  | mk {before id modelId chunks after} : (∀ f ∈ before, f.payload.Early) →
    (∀ f ∈ after, ¬f.payload.IsHello) →
    Greeted (before ++ ⟨id, .hello protocolVersion modelId chunks⟩ :: after)

theorem Greeted.append {frames : List (Envelope Response)} (h : Greeted sent)
    (hframes : ∀ f ∈ frames, ¬f.payload.IsHello) : Greeted (sent ++ frames) := by
  cases h with
  | mk hbefore hafter =>
    rw [List.append_assoc, List.cons_append]
    refine .mk hbefore fun f hf => ?_
    rcases List.mem_append.mp hf with hf | hf
    · exact hafter f hf
    · exact hframes f hf

/-- A phase that a connection can be in before it has been greeted. -/
def ClientPhase.Early : ClientPhase → Prop
  | reading | greeting _ | closed => True
  | _ => False

/-- A phase that it can be in after that. -/
def ClientPhase.Late : ClientPhase → Prop
  | greeting _ => False
  | _ => True

structure Client.Shaken (c : Client) : Prop where
  before : c.helloDone = false → c.phase.Early ∧ ∀ f ∈ c.sent, f.payload.Early
  after : c.helloDone = true → c.phase.Late ∧ Greeted c.sent

namespace Client.Shaken

/-- The task writes what can be written at any time, or nothing. -/
theorem early {frames : List (Envelope Response)} (h : d.Shaken)
    (hdone : c'.helloDone = d.helloDone) (hphase : c'.phase = .reading ∨ c'.phase = .closed)
    (hsent : c'.sent = d.sent ++ frames) (hframes : ∀ f ∈ frames, f.payload.Early) : c'.Shaken := by
  have hphases : c'.phase.Early ∧ c'.phase.Late := by
    rcases hphase with hphase | hphase
    · rw [hphase]
      exact ⟨trivial, trivial⟩
    · rw [hphase]
      exact ⟨trivial, trivial⟩
  refine ⟨fun hd => ⟨hphases.1, fun f hf => ?_⟩, fun hd => ⟨hphases.2, ?_⟩⟩
  · rw [hsent] at hf
    rcases List.mem_append.mp hf with hf | hf
    · exact (h.before (hdone ▸ hd)).2 f hf
    · exact hframes f hf
  · obtain ⟨-, hgreeted⟩ := h.after (hdone ▸ hd)
    rw [hsent]
    exact hgreeted.append fun f hf => (hframes f hf).not_isHello

/-- The task of a greeted connection goes on. -/
theorem late {frames : List (Envelope Response)} (h : d.Shaken) (hd : d.helloDone = true)
    (hdone : c'.helloDone = true) (hphase : c'.phase.Late) (hsent : c'.sent = d.sent ++ frames)
    (hframes : ∀ f ∈ frames, ¬f.payload.IsHello) : c'.Shaken := by
  refine ⟨fun hfalse => ?_, fun _ => ⟨hphase, ?_⟩⟩
  · rw [hdone] at hfalse
    cases hfalse
  · obtain ⟨-, hgreeted⟩ := h.after hd
    rw [hsent]
    exact hgreeted.append hframes

theorem done (h : d.Shaken) (hphase : ¬d.phase.Early) : d.helloDone = true := by
  by_contra hd
  exact hphase (h.before (Bool.not_eq_true _ ▸ hd)).1

theorem not_done (h : d.Shaken) (hphase : ¬d.phase.Late) : d.helloDone = false := by
  by_contra hd
  exact hphase (h.after (Bool.not_eq_false _ ▸ hd)).1

theorem read {id : Nat} (h : d.Shaken) : (d.read id).Shaken := ⟨h.before, h.after⟩

/-- The task writes one frame that can be written at any time, and waits for the next request. -/
theorem reply (h : d.Shaken) (hr : r.Early) : (d.reply r).Shaken := by
  refine @early _ _ [⟨d.requestId, r⟩] h rfl (.inl rfl) rfl fun f hf => ?_
  rw [List.mem_singleton.mp hf]
  exact hr

/-- A connection ends. -/
theorem close (h : d.Shaken) : d.close.Shaken :=
  @early _ _ [] h rfl (.inr rfl) (List.append_nil _).symm nofun

/-- A greeted connection gets its answer. -/
theorem finish (h : d.Shaken) (hphase : ¬d.phase.Early) (hr : ¬r.IsHello) : (d.reply r).Shaken := by
  have hdone := h.done hphase
  refine @late _ _ [⟨d.requestId, r⟩] h hdone hdone trivial rfl fun f hf => ?_
  rw [List.mem_singleton.mp hf]
  exact hr

/-- It goes on to a phase of greeted connections. -/
theorem begin {id : Nat} {p : ClientPhase} (h : d.Shaken) (hdone : d.helloDone = true)
    (hp : p.Late) : Client.Shaken { d.read id with phase := p } :=
  @late _ _ [] h hdone hdone hp (List.append_nil _).symm nofun

end Client.Shaken

theorem Asked.AnsweredBy.not_isHello (h : a.AnsweredBy r) (ha : a.request = some (.query q)) :
    ¬r.IsHello := by
  cases r with
  | hello =>
    obtain ⟨-, client, hrequest⟩ := h
    cases hrequest.symm.trans ha
  | search | symbol | indexProgress | indexDone | status | error => exact fun h => h

/-- A step keeps it, on every connection. -/
theorem DaemonStep.shaken (h : DaemonStep cfg R s e t) (hs : ∀ i c, s.At i c → c.Shaken)
    (hi : t.At i c) : c.Shaken := by
  -- The connection whose task takes the step, and the others.
  have hset : ∀ {j : Nat} {d c' : Client}, s.At j d → t.clients = (s.setClient j c').clients →
      (d.Shaken → c'.Shaken) → c.Shaken := by
    intro j d c' hj ht hstep
    rcases hi.of_setClient ht with ⟨rfl, rfl⟩ | ⟨-, hi⟩
    · exact hstep (hs _ d hj)
    · exact hs i c hi
  cases h with
  | poll | pend | tick | loop | idle | shutdown | returned | gaveBack | notReady | took | split
  | splitFailed | ready | stale | panicked | cleared => exact hs i c hi
  | loaded => exact hs i c (by rwa [DaemonState.At, DaemonState.loaded_clients] at hi)
  | accept _ hj =>
    rcases hi.of_setClient rfl with ⟨rfl, rfl⟩ | ⟨-, hi⟩
    · exact ⟨fun _ => ⟨trivial, by simp⟩, by simp⟩
    · exact hs i c hi
  | closed hj => exact hset hj rfl fun hd => hd.close
  | garbled hj | secondHello hj | turnedAway hj | refused hj =>
    exact hset hj rfl fun hd => hd.read.reply trivial
  | gated hj _ _ hgate =>
    refine hset hj rfl fun hd => hd.read.reply ?_
    rcases DaemonState.gate_cases hgate with ⟨e, rfl⟩ | ⟨status, rfl⟩
    · trivial
    · trivial
  | statusRequest hj =>
    exact hset hj rfl fun hd => hd.read.reply (r := .status s.status) trivial
  | shutdownRequest hj =>
    exact hset hj rfl fun hd => (hd.read.reply (r := .status s.status) trivial).close
  | passed hj hdone =>
    refine hset hj rfl fun hd => ⟨fun _ => ⟨trivial, (hd.before hdone).2⟩, fun htrue => ?_⟩
    cases hdone.symm.trans htrue
  | greeted hj hphase hwelcome =>
    refine hset hj rfl fun hd => ⟨by simp, fun _ => ⟨trivial, ?_⟩⟩
    have hdone := hd.not_done (by rw [hphase]; exact id)
    obtain ⟨modelId, chunks, rfl⟩ := DaemonState.welcome_ok hwelcome
    exact .mk (hd.before hdone).2 (by simp)
  | unwelcome hj hphase hwelcome =>
    refine hset hj rfl fun hd => ?_
    obtain ⟨e, rfl⟩ := DaemonState.welcome_cases.2 hwelcome
    exact (hd.reply (r := .error e) trivial).close
  | borrowed hj hdone | viewed hj hdone | index _ _ hj hdone =>
    exact hset hj rfl fun hd => hd.begin hdone trivial
  | answered host hj hphase =>
    refine hset hj rfl fun hd => hd.finish (by rw [hphase]; exact id) ?_
    exact (Resident.answer_answers (a := ⟨0, _⟩) rfl).not_isHello rfl
  | answeredFrozen host hj hphase =>
    refine hset hj rfl fun hd => hd.finish (by rw [hphase]; exact id) ?_
    exact (FrozenSearch.answer_answers (a := ⟨0, _⟩) rfl).not_isHello rfl
  | @progressed j d w phase done total hj hphase =>
    refine hset hj rfl fun hd => ?_
    have hdone := hd.done (by rw [hphase]; exact id)
    refine @Client.Shaken.late _ _ [⟨d.requestId, .indexProgress phase done total⟩] hd hdone hdone
      ?_ rfl ?_
    · rw [Client.write_phase, hphase]
      trivial
    · simp [Response.IsHello]
  | @reported j d w k done hj hphase =>
    refine hset hj rfl fun hd => hd.finish (by rw [hphase]; exact id) ?_
    cases done with
    | ok | error => exact id
  | vanished hj hphase =>
    exact hset hj rfl fun hd => hd.finish (by rw [hphase]; exact id) id

/-- In every run, on every connection: before it has been greeted nothing but errors and the status
is written, and the task is at no request that is answered from the index; after that, what is
written consists of such frames, one greeting, with the version of the protocol, and frames that are
none. -/
theorem DaemonRun.shakes (h : DaemonRun cfg R .start es s) (hi : s.At i c) : c.Shaken := by
  refine h.invariant (I := fun s => ∀ i c, s.At i c → c.Shaken)
    (fun _ _ _ hs hstep _ _ hi => hstep.shaken hs hi) (fun _ _ hi => nomatch hi) i c hi

/-- The greeted client. -/
theorem DaemonRun.shakes_greeted : Greeted sampleGreeted :=
  ((DaemonRun.shakes sampleReady_run (c := ⟨true, .reading, 1, sampleGreeted⟩) (i := 0) rfl).after
    rfl).2

end SiftMcp
