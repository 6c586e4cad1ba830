import SiftMcp.Daemon.Client

/-!
# A client and its connection

`DaemonClient` numbers its requests, writes one at a time and reads what comes back. Frames come in
the order in which the daemon has written them, and nothing else tells them apart than the id. A
caller may stop to listen to a stream before its last frame, or be cancelled while it reads or
writes; what is left is found by the next that reads.

The stream of a request yields what is its own, and nothing else, if nothing is left over when it is
sent (`LinkRun.answers_iff`).
-/

namespace SiftMcp

/-- A frame on its way to the client. It answers the request with the number `origin`; there is none
if the daemon has read something that was not sent as a request. Of a frame that is `cut` an earlier
read has taken the first bytes. -/
structure Arriving where
  frame : Envelope Response
  origin : Option Nat
  cut : Bool

/-- The call that is in progress. A stream is until its terminal frame has been read, or it is
dropped. -/
inductive Call
  | idle
  | request (id : Nat)
  | stream (id : Nat)

structure Link where
  daemon : DaemonState
  /-- The request that the task has read last. -/
  serving : Option Nat
  /-- The requests that have been written, and not read yet. -/
  requests : List (Envelope Request)
  /-- A request has been written in part only, and the reads of the daemon do not begin where
  requests do. -/
  garbled : Bool
  inbox : List Arriving
  /-- The process of the daemon is gone. -/
  killed : Bool
  nextId : Nat
  call : Call

def Link.start (d : DaemonState) : Link := ⟨d, none, [], false, [], false, 1, .idle⟩

/-! ## What a call makes of a frame -/

def Response.result : Response → Except DaemonError Response
  | .error e => .error e
  | r => .ok r

/-- The frames that end a stream. -/
def Response.isTerminal : Response → Bool
  | .indexDone _ | .error _ => true
  | _ => false

def requestResult (id : Nat) : Except DaemonError (Envelope Response) → Except DaemonError Response
  | .error e => .error e
  | .ok env =>
    if env.requestId ≠ id then
      .error (.malformed s!"response id mismatch: sent {id}, got {env.requestId}")
    else env.payload.result

def streamPayload (id : Nat) : Except DaemonError (Envelope Response) → Response
  | .ok env =>
    if env.requestId = id then env.payload
    else .error (.malformed s!"streaming response id mismatch: expected {id}, got {env.requestId}")
  | .error e => .error e

/-- A read. It takes one frame. What it takes for a frame if it begins within one may be anything,
and may end within one. When there is nothing left, it fails if the connection has ended. -/
inductive Reads (ended : Prop) :
    List Arriving → List Arriving → Except DaemonError (Envelope Response) → List Arriving → Prop
  | frame {a rest} : a.cut = false → Reads ended (a :: rest) [a] (.ok a.frame) rest
  | astray {a inbox taken rest read} : a.cut = true → a :: inbox = taken ++ rest → taken ≠ [] →
    Reads ended (a :: inbox) taken read rest
  | partly {a inbox taken b rest read} : a.cut = true → a :: inbox = taken ++ b :: rest →
    Reads ended (a :: inbox) (taken ++ [b]) read ({ b with cut := true } :: rest)
  | eof {e} : ended → Reads ended [] [] (.error e) []

/-- A read that is given up. -/
inductive GivesUp : List Arriving → List Arriving → Prop
  | before {inbox} : GivesUp inbox inbox
  | within {a rest} : GivesUp (a :: rest) ({ a with cut := true } :: rest)
  | astray {a inbox taken read rest} : a.cut = true → Reads False (a :: inbox) taken read rest →
    GivesUp (a :: inbox) rest

/-! ## Steps -/

/-- The request that the daemon reads on the connection `i`. -/
inductive Event.Asks (i : Nat) (t : DaemonState) : Event → Request → Prop
  | gated {req} : Asks i t (.gated i req) req
  | status : Asks i t (.statusRequest i) .status
  | hello {version client} : Asks i t (.secondHello i) (.hello version client)
  | shutdown : Asks i t (.shutdownRequest i) .shutdown
  | turnedAway {q} : Asks i t (.turnedAway i q) (.query q)
  | borrowed {q} : Asks i t (.borrowed i q) (.query q)
  | viewed {q} : Asks i t (.viewed i q) (.query q)
  | refused {mode repoDir} : Asks i t (.refused i) (.index mode repoDir)
  | index {w mode repoDir} : t.Works w ⟨mode, repoDir, .spawned⟩ →
    Asks i t (.index i w) (.index mode repoDir)

inductive LinkEvent
  | daemon (e : Event)
  | killed
  /-- A call writes its request, fails to, or is given up or fails while it writes. -/
  | called (id : Nat) (req : Request) | opened (id : Nat) (req : Request)
  | failed (id : Nat) | cutOff (id : Nat)
  /-- A request returns, and a stream yields, what it makes of what it has read. -/
  | returned (id : Nat) (taken : List Arriving) (result : Except DaemonError Response)
  | yielded (id : Nat) (taken : List Arriving) (payload : Response)
  /-- The future of a call is dropped. -/
  | dropped

/-- Nothing more will be written on the connection. -/
def Link.Ended (i : Nat) (l : Link) : Prop :=
  l.killed = true ∨ ∃ c, l.daemon.At i c ∧ c.phase = .closed

/-- `i` is the connection of the client. -/
inductive LinkStep (cfg : DaemonConfig) (R : Retrieval) (i : Nat) : Link → LinkEvent → Link → Prop
  | daemon {l : Link} {e d c c' frames} : l.killed = false → DaemonStep cfg R l.daemon e d →
    e.takes ≠ some i → l.daemon.At i c → d.At i c' → c'.sent = c.sent ++ frames →
    LinkStep cfg R i l (.daemon e) { l with
      daemon := d, inbox := l.inbox ++ frames.map (⟨·, l.serving, false⟩) }
  | reads {l : Link} {e d c c' frames env rest} : l.killed = false → DaemonStep cfg R l.daemon e d →
    l.garbled = false → l.requests = env :: rest → e.Asks i d env.payload → l.daemon.At i c →
    d.At i c' →
    c'.requestId = env.requestId → c'.sent = c.sent ++ frames →
    LinkStep cfg R i l (.daemon e) { l with
      daemon := d, requests := rest, serving := some env.requestId
      inbox := l.inbox ++ frames.map (⟨·, some env.requestId, false⟩) }
  -- What is read has not been sent as a request. It may end where a request begins.
  | misreads {l : Link} {e d c c' frames rest garbled} : l.killed = false →
    DaemonStep cfg R l.daemon e d → l.garbled = true → e.takes = some i → rest <:+ l.requests →
    l.daemon.At i c → d.At i c' → c'.sent = c.sent ++ frames →
    LinkStep cfg R i l (.daemon e) { l with
      daemon := d, requests := rest, serving := none, garbled := garbled
      inbox := l.inbox ++ frames.map (⟨·, none, false⟩) }
  | killed {l : Link} : LinkStep cfg R i l .killed { l with killed := true }
  | called {l : Link} {req} : l.call = .idle → LinkStep cfg R i l (.called l.nextId req) { l with
      requests := l.requests ++ [⟨l.nextId, req⟩], nextId := l.nextId + 1,
        call := .request l.nextId }
  | opened {l : Link} {req} : l.call = .idle → LinkStep cfg R i l (.opened l.nextId req) { l with
      requests := l.requests ++ [⟨l.nextId, req⟩], nextId := l.nextId + 1,
        call := .stream l.nextId }
  | failed {l : Link} : l.call = .idle →
    LinkStep cfg R i l (.failed l.nextId) { l with nextId := l.nextId + 1 }
  | cutOff {l : Link} : l.call = .idle →
    LinkStep cfg R i l (.cutOff l.nextId) { l with nextId := l.nextId + 1, garbled := true }
  | returned {l : Link} {id taken read rest} : l.call = .request id →
    Reads (l.Ended i) l.inbox taken read rest →
    LinkStep cfg R i l (.returned id taken (requestResult id read))
      { l with inbox := rest, call := .idle }
  | yielded {l : Link} {id taken read rest} : l.call = .stream id →
    Reads (l.Ended i) l.inbox taken read rest →
    LinkStep cfg R i l (.yielded id taken (streamPayload id read)) { l with
      inbox := rest, call := if (streamPayload id read).isTerminal then .idle else .stream id }
  | dropped {l : Link} {rest} : l.call ≠ .idle → GivesUp l.inbox rest →
    LinkStep cfg R i l .dropped { l with inbox := rest, call := .idle }

abbrev LinkRun (cfg : DaemonConfig) (R : Retrieval) (i : Nat) :
    Link → List LinkEvent → Link → Prop :=
  Trace (LinkStep cfg R i)

/-- A call begins, under the number `id`. -/
inductive LinkEvent.Begins (id : Nat) : LinkEvent → Prop
  | called {req} : Begins id (.called id req)
  | opened {req} : Begins id (.opened id req)

/-- The call `id` is given something. -/
inductive LinkEvent.Gives (id : Nat) : LinkEvent → Prop
  | returned {taken result} : Gives id (.returned id taken result)
  | yielded {taken payload} : Gives id (.yielded id taken payload)

/-- It is given what the daemon has written for it, or the error that the connection has ended. -/
inductive LinkEvent.Own (id : Nat) : LinkEvent → Prop
  | returned {r} : Own id (.returned id [⟨⟨id, r⟩, some id, false⟩] r.result)
  | yielded {r} : Own id (.yielded id [⟨⟨id, r⟩, some id, false⟩] r)
  | lost {e} : Own id (.returned id [] (.error e))
  | ended {e} : Own id (.yielded id [] (.error e))

/-- Whatever happens, the call is given what is its own. -/
def Link.Answers (cfg : DaemonConfig) (R : Retrieval) (i id : Nat) (l : Link) : Prop :=
  ∀ es t, LinkRun cfg R i l es t → ∀ e ∈ es, e.Gives id → e.Own id

/-- Every request has been answered, and every frame has been read; or no more will come. -/
def Link.Settled (i : Nat) (l : Link) : Prop :=
  l.inbox = [] ∧ (l.Ended i ∨
    l.garbled = false ∧ l.requests = [] ∧ ∃ c, l.daemon.At i c ∧ c.phase = .reading)

variable {cfg : DaemonConfig} {R : Retrieval} {s t : DaemonState} {l m : Link} {e : LinkEvent}
  {es : List LinkEvent} {i id : Nat} {c c' : Client} {frames : List (Envelope Response)}
  {p p' : TaskPhase}

theorem Event.Asks.takes {e : Event} {req : Request} (h : e.Asks i t req) : e.takes = some i := by
  cases h with
  | gated | status | hello | shutdown | turnedAway | borrowed | viewed | refused | index => rfl

theorem Client.task_closed : c.task = .closed ↔ c.phase = .closed := by
  unfold task
  cases c.phase with
  | closed => exact iff_of_true rfl rfl
  | reading | greeting | borrowing | viewing | streaming => exact iff_of_false nofun nofun

theorem Client.task_reading : c.task = .reading ↔ c.phase = .reading := by
  unfold task
  cases c.phase with
  | reading => exact iff_of_true rfl rfl
  | closed | greeting | borrowing | viewing | streaming => exact iff_of_false nofun nofun

/-- What a task writes that has read a request before. -/
theorem TaskStep.goesOn (h : TaskStep p none frames p') :
    (∀ f ∈ frames, ∃ id index, p = .working id index ∧ f.requestId = id) ∧
      (p' = .closed ∨ ∃ id index, p = .working id index ∧ (p' = .reading ∨ p' = p)) := by
  cases h with
  | progress | finishes =>
    refine ⟨fun f hf => ?_, .inr ⟨_, _, rfl, ?_⟩⟩
    · rw [List.mem_singleton.mp hf]
      exact ⟨_, _, rfl, rfl⟩
    · first | exact .inl rfl | exact .inr rfl
  | refuses =>
    refine ⟨fun f hf => ?_, .inl rfl⟩
    rw [List.mem_singleton.mp hf]
    exact ⟨_, _, rfl, rfl⟩
  | closes => exact ⟨nofun, .inl rfl⟩

theorem TaskStep.reads (h : TaskStep p (some id) frames p') :
    p = .reading ∧ (∀ f ∈ frames, f.requestId = id) ∧
      (p' = .closed ∨ p' = .reading ∨ ∃ index, p' = .working id index) := by
  cases h with
  | answers =>
    refine ⟨rfl, fun f hf => ?_, .inr (.inl rfl)⟩
    rw [List.mem_singleton.mp hf]
  | leaves =>
    refine ⟨rfl, fun f hf => ?_, .inl rfl⟩
    rw [List.mem_singleton.mp hf]
  | begins => exact ⟨rfl, nofun, .inr (.inr ⟨_, rfl⟩)⟩

/-! ## A call on a settled connection -/

namespace Link

/-- What is on its way, and what may still be put there, is for the call `id`. -/
structure Alone (i id : Nat) (l : Link) : Prop where
  inbox : ∀ a ∈ l.inbox, ∃ r, a = ⟨⟨id, r⟩, some id, false⟩
  task : l.Ended i ∨ l.garbled = false ∧ (∀ env ∈ l.requests, env.requestId = id) ∧
    ∃ c, l.daemon.At i c ∧
    (c.task = .reading ∨ ∃ index, c.task = .working id index ∧ l.serving = some id)

/-- The call `id` is in progress. -/
def Calls (id : Nat) (l : Link) : Prop := l.call = .request id ∨ l.call = .stream id

/-- The task goes on. -/
theorem Alone.daemon {e : Event} (h : l.Alone i id) (hkilled : l.killed = false)
    (hstep : DaemonStep cfg R l.daemon e t) (he : e.takes ≠ some i) (hi : l.daemon.At i c)
    (ht : t.At i c') (hsent : c'.sent = c.sent ++ frames) :
    Alone i id { l with daemon := t, inbox := l.inbox ++ frames.map (⟨·, l.serving, false⟩) } := by
  obtain ⟨d, hd, hmove⟩ := hstep.task hi
  obtain rfl := Option.some.inj (ht.symm.trans hd)
  have hnone : c' = c → frames = [] := by
    intro hsame
    rw [hsame] at hsent
    exact List.self_eq_append_right.mp hsent
  rcases h.task with (hk | ⟨d, hd, hclosed⟩) | ⟨hgarbled, hrequests, d, hd, htask⟩
  · rw [hkilled] at hk
    cases hk
  · -- The task has ended.
    obtain rfl := Option.some.inj (hi.symm.trans hd)
    obtain rfl := Option.some.inj (ht.symm.trans (hstep.keeps_closed hi hclosed))
    obtain rfl := hnone rfl
    refine ⟨?_, .inl (.inr ⟨_, ht, hclosed⟩)⟩
    rw [List.map_nil, List.append_nil]
    exact h.inbox
  · obtain rfl := Option.some.inj (hi.symm.trans hd)
    cases hmove with
    | stays =>
      obtain rfl := hnone rfl
      refine ⟨?_, .inr ⟨hgarbled, hrequests, _, ht, htask⟩⟩
      rw [List.map_nil, List.append_nil]
      exact h.inbox
    | reads hreads => exact absurd hreads he
    | @goesOn _ frames' _ hsent' hgoes =>
      obtain rfl := List.append_cancel_left (hsent.symm.trans hsent')
      obtain ⟨hframes, hphase⟩ := hgoes.goesOn
      constructor
      · intro a ha
        rcases List.mem_append.mp ha with ha | ha
        · exact h.inbox a ha
        · obtain ⟨f, hf, rfl⟩ := List.mem_map.mp ha
          obtain ⟨k, index, hworking, hk⟩ := hframes f hf
          rcases htask with hreading | ⟨index', hworking', hserving⟩
          · rw [hreading] at hworking
            cases hworking
          · rw [hworking'] at hworking
            obtain ⟨rfl, -⟩ := TaskPhase.working.inj hworking
            refine ⟨f.payload, ?_⟩
            rw [hserving, ← hk]
      · rcases hphase with hclosed | ⟨k, index, hworking, hphase⟩
        · exact .inl (.inr ⟨_, ht, Client.task_closed.mp hclosed⟩)
        · rcases htask with hreading | ⟨index', hworking', hserving⟩
          · rw [hreading] at hworking
            cases hworking
          · refine .inr ⟨hgarbled, hrequests, _, ht, ?_⟩
            rcases hphase with hphase | hphase
            · exact .inl hphase
            · exact .inr ⟨index', hphase.trans hworking', hserving⟩

/-- The task reads the request of the call. -/
theorem Alone.reads {e : Event} {env : Envelope Request} {rest : List (Envelope Request)}
    (h : l.Alone i id) (hkilled : l.killed = false) (hstep : DaemonStep cfg R l.daemon e t)
    (hrequests : l.requests = env :: rest) (he : e.takes = some i) (hi : l.daemon.At i c)
    (ht : t.At i c') (hid : c'.requestId = env.requestId) (hsent : c'.sent = c.sent ++ frames) :
    Alone i id { l with
      daemon := t, requests := rest, serving := some env.requestId
      inbox := l.inbox ++ frames.map (⟨·, some env.requestId, false⟩) } := by
  obtain ⟨d, hd, hmove⟩ := hstep.task hi
  obtain rfl := Option.some.inj (ht.symm.trans hd)
  cases hmove with
  | stays hstays => exact absurd he hstays
  | goesOn hstays => exact absurd he hstays
  | @reads _ frames' _ hsent' htask =>
    obtain rfl := List.append_cancel_left (hsent.symm.trans hsent')
    obtain ⟨hreading, hframes, hphase⟩ := htask.reads
    rcases h.task with (hk | ⟨d, hd, hclosed⟩) | ⟨hgarbled, hall, -⟩
    · rw [hkilled] at hk
      cases hk
    · obtain rfl := Option.some.inj (hi.symm.trans hd)
      rw [Client.task_reading.mp hreading] at hclosed
      cases hclosed
    · rw [hrequests] at hall
      obtain ⟨rfl, hrest⟩ := List.forall_mem_cons.mp hall
      constructor
      · intro a ha
        rcases List.mem_append.mp ha with ha | ha
        · exact h.inbox a ha
        · obtain ⟨f, hf, rfl⟩ := List.mem_map.mp ha
          refine ⟨f.payload, ?_⟩
          rw [← hid, ← hframes f hf]
      · rw [hid] at hphase
        rcases hphase with hclosed | hphase | ⟨index, hphase⟩
        · exact .inl (.inr ⟨_, ht, Client.task_closed.mp hclosed⟩)
        · exact .inr ⟨hgarbled, hrest, _, ht, .inl hphase⟩
        · exact .inr ⟨hgarbled, hrest, _, ht, .inr ⟨index, hphase, rfl⟩⟩

/-- The call reads what is its own, and nothing else. -/
theorem Alone.taken {ended : Prop} {taken rest : List Arriving}
    {read : Except DaemonError (Envelope Response)} (h : l.Alone i id)
    (hreads : Reads ended l.inbox taken read rest) :
    (∀ a ∈ rest, a ∈ l.inbox) ∧ ((∃ r, taken = [⟨⟨id, r⟩, some id, false⟩] ∧ read = .ok ⟨id, r⟩) ∨
      taken = [] ∧ ∃ e, read = .error e) := by
  have hinbox := h.inbox
  generalize l.inbox = inbox at hreads hinbox
  cases hreads with
  | @frame a rest =>
    obtain ⟨⟨r, rfl⟩, -⟩ := List.forall_mem_cons.mp hinbox
    exact ⟨fun _ => List.mem_cons_of_mem _, .inl ⟨r, rfl, rfl⟩⟩
  | astray hcut | partly hcut =>
    obtain ⟨⟨r, rfl⟩, -⟩ := List.forall_mem_cons.mp hinbox
    cases hcut
  | eof => exact ⟨nofun, .inr ⟨rfl, _, rfl⟩⟩

/-- The call `id` has begun, and while it is in progress the connection is its own. -/
def Kept (i id : Nat) (l : Link) : Prop := id < l.nextId ∧ (l.Calls id → l.Alone i id)

theorem Kept.step (h : l.Kept i id) (hstep : LinkStep cfg R i l e m) : m.Kept i id := by
  obtain ⟨hid, halone⟩ := h
  have hidle : m.call = .idle → id < m.nextId → m.Kept i id := by
    intro hm hlt
    refine ⟨hlt, fun hcalls => ?_⟩
    rcases hcalls with hcalls | hcalls
    · cases hm.symm.trans hcalls
    · cases hm.symm.trans hcalls
  cases hstep with
  | daemon hkilled hd he hi ht hsent =>
    exact ⟨hid, fun hcalls => (halone hcalls).daemon hkilled hd he hi ht hsent⟩
  | reads hkilled hd hgarbled hrequests hasks hi ht hread hsent =>
    exact ⟨hid, fun hcalls =>
      (halone hcalls).reads hkilled hd hrequests hasks.takes hi ht hread hsent⟩
  | @misreads _ _ c _ _ _ _ hkilled hd hgarbled he hrest hi ht hsent =>
    refine ⟨hid, fun hcalls => ?_⟩
    -- The task has not ended, as it reads.
    obtain ⟨d, hd', hmove⟩ := hd.task hi
    have hreading : c.task = .reading := by
      cases hmove with
      | stays hstays => exact absurd he hstays
      | goesOn hstays => exact absurd he hstays
      | reads _ _ htask => exact htask.reads.1
    rcases (halone hcalls).task with (hk | ⟨d, hd, hclosed⟩) | ⟨hstraight, -⟩
    · rw [hkilled] at hk
      cases hk
    · obtain rfl := Option.some.inj (hi.symm.trans hd)
      rw [Client.task_reading.mp hreading] at hclosed
      cases hclosed
    · rw [hgarbled] at hstraight
      cases hstraight
  | killed => exact ⟨hid, fun hcalls => ⟨(halone hcalls).inbox, .inl (.inl rfl)⟩⟩
  | called hcall | opened hcall =>
    refine ⟨Nat.lt_succ_of_lt hid, fun hcalls => ?_⟩
    -- Another call begins.
    rcases hcalls with hcalls | hcalls
    · cases hcalls <;> exact absurd hid (Nat.lt_irrefl _)
    · cases hcalls <;> exact absurd hid (Nat.lt_irrefl _)
  | failed hcall | cutOff hcall => exact hidle hcall (Nat.lt_succ_of_lt hid)
  | returned | dropped => exact hidle rfl hid
  | @yielded k taken read rest hcall hreads =>
    refine ⟨hid, fun hcalls => ?_⟩
    have hk : k = id := by
      rcases hcalls with hcalls | hcalls
      · exact absurd hcalls (by dsimp only; split <;> exact nofun)
      · revert hcalls
        dsimp only
        split
        · exact nofun
        · exact Call.stream.inj
    subst hk
    have hbefore := halone (.inr hcall)
    exact ⟨fun a ha => hbefore.inbox a ((hbefore.taken hreads).1 a ha), hbefore.task⟩

theorem requestResult_own {r : Response} : requestResult id (.ok ⟨id, r⟩) = r.result :=
  if_neg (not_not.mpr rfl)

theorem streamPayload_own {r : Response} : streamPayload id (.ok ⟨id, r⟩) = r := if_pos rfl

theorem Kept.own (h : l.Kept i id) (hstep : LinkStep cfg R i l e m) (he : e.Gives id) :
    e.Own id := by
  cases he with
  | returned =>
    cases hstep with
    | returned hcall hreads =>
      rcases ((h.2 (.inl hcall)).taken hreads).2 with ⟨r, rfl, rfl⟩ | ⟨rfl, err, rfl⟩
      · rw [requestResult_own]
        exact .returned
      · exact .lost
  | yielded =>
    cases hstep with
    | yielded hcall hreads =>
      rcases ((h.2 (.inr hcall)).taken hreads).2 with ⟨r, rfl, rfl⟩ | ⟨rfl, err, rfl⟩
      · rw [streamPayload_own]
        exact .yielded
      · exact .ended

theorem Kept.answers (h : l.Kept i id) : l.Answers cfg R i id := by
  intro es t hrun
  induction hrun with
  | nil => exact nofun
  | cons hstep hrun ih =>
    intro e he hgives
    rcases List.mem_cons.mp he with rfl | he
    · exact h.own hstep hgives
    · exact ih (h.step hstep) e he hgives

/-- A call begins where nothing is left. -/
theorem Settled.kept (h : l.Settled i) (hstep : LinkStep cfg R i l e m) (he : e.Begins id) :
    m.Kept i id := by
  obtain ⟨hinbox, htask⟩ := h
  have halone : ∀ req call, Alone i l.nextId { l with
      requests := l.requests ++ [⟨l.nextId, req⟩], nextId := l.nextId + 1, call := call } := by
    intro req call
    constructor
    · rw [hinbox]
      exact nofun
    · rcases htask with hended | ⟨hgarbled, hrequests, c, hc, hphase⟩
      · exact .inl hended
      · refine .inr ⟨hgarbled, fun env henv => ?_, c, hc, .inl (Client.task_reading.mpr hphase)⟩
        rw [hrequests] at henv
        rw [List.mem_singleton.mp henv]
  cases he with
  | called =>
    cases hstep with
    | called => exact ⟨Nat.lt_succ_self _, fun _ => halone _ _⟩
  | opened =>
    cases hstep with
    | opened => exact ⟨Nat.lt_succ_self _, fun _ => halone _ _⟩

end Link

/-! ## What the task can do -/

theorem DaemonStep.workers_cases {e : Event} (h : DaemonStep cfg R s e t) :
    t.workers = s.workers ∨ ∃ w k, t.workers = (s.setWorker w k).workers := by
  cases h with
  | loaded => exact .inl DaemonState.loaded_workers
  | poll | pend | accept | tick | loop | idle | shutdown | returned | closed | garbled | gated
  | passed | greeted | unwelcome | statusRequest | secondHello | shutdownRequest | turnedAway
  | borrowed | viewed | answered | answeredFrozen | refused | progressed | reported | vanished =>
    exact .inl rfl
  | index | gaveBack | notReady | took | split | splitFailed | ready | stale | panicked | cleared =>
    exact .inr ⟨_, _, rfl⟩

/-- Only so many workers have been spawned. -/
theorem DaemonRun.fresh_worker {es : List Event} (h : DaemonRun cfg R .start es s) :
    ∃ w, s.workers w = none := by
  have hbound : ∃ n, ∀ w, n ≤ w → s.workers w = none := by
    refine h.invariant (I := fun s => ∃ n, ∀ w, n ≤ w → s.workers w = none) ?_ ⟨0, fun w _ => rfl⟩
    intro s e t hn hstep
    obtain ⟨n, hn⟩ := hn
    rcases hstep.workers_cases with hsame | ⟨v, k, hset⟩
    · exact ⟨n, fun w hw => by rw [hsame, hn w hw]⟩
    · refine ⟨max n (v + 1), fun w hw => ?_⟩
      rw [hset]
      refine (Function.update_of_ne ?_ ..).trans (hn w (by omega))
      omega
  obtain ⟨n, hn⟩ := hbound
  exact ⟨n, hn n (Nat.le_refl n)⟩

namespace DaemonState

/-- A task that is at a request can write something. -/
theorem can_write {index : Bool} (hi : s.At i c) (hc : c.task = .working id index) :
    ∃ e t c' f, DaemonStep cfg R s e t ∧ e.takes ≠ some i ∧ t.At i c' ∧
      c'.sent = c.sent ++ [f] := by
  have hat : ∀ c', (s.setClient i c').At i c' := fun c' => at_setClient rfl
  cases hphase : c.phase with
  | reading =>
    rw [Client.task_reading.mpr hphase] at hc
    cases hc
  | closed =>
    rw [Client.task_closed.mpr hphase] at hc
    cases hc
  | greeting req =>
    cases hwelcome : s.welcome req with
    | ok resp => exact ⟨_, _, _, _, .greeted hi hphase hwelcome, nofun, hat _, rfl⟩
    | error resp => exact ⟨_, _, _, _, .unwelcome hi hphase hwelcome, nofun, hat _, rfl⟩
  | borrowing arc r q =>
    exact ⟨_, _, _, _, .answered sampleHost hi hphase, nofun, hat _, rfl⟩
  | viewing f q =>
    exact ⟨_, _, _, _, @DaemonStep.answeredFrozen _ _ _ _ _ _ _ f.lexical sampleHost hi hphase,
      nofun, hat _, rfl⟩
  | streaming w =>
    exact ⟨_, _, _, _, @DaemonStep.progressed _ _ _ _ _ _ .walking 0 none hi hphase, nofun,
      hat _, rfl⟩

/-- A task that is reading can read any request, and answers it or is at it then. -/
theorem can_read {w : Nat} (hw : s.workers w = none) (hi : s.At i c) (hphase : c.phase = .reading)
    (env : Envelope Request) :
    ∃ e t c' frames, DaemonStep cfg R s e t ∧ e.Asks i t env.payload ∧ t.At i c' ∧
      c'.requestId = env.requestId ∧ c'.sent = c.sent ++ frames ∧
      ((∃ f, frames = [f]) ∨ frames = [] ∧ ∃ index, c'.task = .working env.requestId index) := by
  have hat : ∀ c', (s.setClient i c').At i c' := fun c' => at_setClient rfl
  have hnone : c.sent = c.sent ++ [] := (List.append_nil _).symm
  cases hhello : c.helloDone with
  | false =>
    cases hgate : s.gate env.payload with
    | some resp =>
      exact ⟨_, _, _, _, .gated hi hhello hphase hgate, .gated, hat _, rfl, rfl, .inl ⟨_, rfl⟩⟩
    | none =>
      exact ⟨_, _, _, [], .passed hi hhello hphase hgate, .gated, hat _, rfl, hnone,
        .inr ⟨rfl, _, rfl⟩⟩
  | true =>
    cases henv : env.payload with
    | hello version client =>
      exact ⟨_, _, _, _, .secondHello hi hhello hphase, .hello, hat _, rfl, rfl, .inl ⟨_, rfl⟩⟩
    | status =>
      exact ⟨_, _, _, _, .statusRequest hi hhello hphase, .status, hat _, rfl, rfl, .inl ⟨_, rfl⟩⟩
    | shutdown =>
      exact ⟨_, _, _, _, .shutdownRequest hi hhello hphase, .shutdown, hat _, rfl, rfl,
        .inl ⟨_, rfl⟩⟩
    | query q =>
      cases hserving : s.serving with
      | starting =>
        exact ⟨_, _, _, _, .turnedAway hi hhello hphase (.inl ⟨hserving, rfl⟩), .turnedAway, hat _,
          rfl, rfl, .inl ⟨_, rfl⟩⟩
      | stale reason =>
        exact ⟨_, _, _, _, .turnedAway hi hhello hphase (.inr ⟨reason, hserving, rfl⟩),
          .turnedAway, hat _, rfl, rfl, .inl ⟨_, rfl⟩⟩
      | ready arc r =>
        exact ⟨_, _, _, [], .borrowed hi hhello hphase hserving, .borrowed, hat _, rfl, hnone,
          .inr ⟨rfl, _, rfl⟩⟩
      | indexing f =>
        exact ⟨_, _, _, [], .viewed hi hhello hphase hserving, .viewed, hat _, rfl, hnone,
          .inr ⟨rfl, _, rfl⟩⟩
    | index mode repoDir =>
      cases hflag : s.indexing with
      | true =>
        exact ⟨_, _, _, _, .refused hi hhello hphase hflag, .refused, hat _, rfl, rfl,
          .inl ⟨_, rfl⟩⟩
      | false =>
        refine ⟨_, _, _, [], .index mode repoDir hi hhello hphase hflag hw, .index ?_, hat _,
          rfl, hnone, .inr ⟨rfl, _, rfl⟩⟩
        exact works_setWorker rfl

end DaemonState

/-! ## A call on a connection that is not settled -/

theorem Reads.origins {ended : Prop} {inbox taken rest : List Arriving}
    {read : Except DaemonError (Envelope Response)} (h : Reads ended inbox taken read rest) :
    ∀ a ∈ rest, ∃ b ∈ inbox, b.origin = a.origin := by
  intro a ha
  cases h with
  | frame => exact ⟨a, List.mem_cons_of_mem _ ha, rfl⟩
  | astray hcut hsplit hne =>
    rw [hsplit]
    exact ⟨a, List.mem_append_right _ ha, rfl⟩
  | @partly _ _ _ b _ _ hcut hsplit =>
    rw [hsplit]
    rcases List.mem_cons.mp ha with rfl | ha
    · exact ⟨b, List.mem_append_right _ List.mem_cons_self, rfl⟩
    · exact ⟨a, List.mem_append_right _ (List.mem_cons_of_mem _ ha), rfl⟩
  | eof => cases ha

theorem GivesUp.origins {inbox rest : List Arriving} (h : GivesUp inbox rest) :
    ∀ a ∈ rest, ∃ b ∈ inbox, b.origin = a.origin := by
  intro a ha
  cases h with
  | before => exact ⟨a, ha, rfl⟩
  | @within b =>
    rcases List.mem_cons.mp ha with rfl | ha
    · exact ⟨b, List.mem_cons_self, rfl⟩
    · exact ⟨a, List.mem_cons_of_mem _ ha, rfl⟩
  | astray hcut hreads => exact hreads.origins a ha

namespace Link

/-- What is on its way or being answered has been sent. -/
structure Numbered (l : Link) : Prop where
  inbox : ∀ a ∈ l.inbox, ∀ k, a.origin = some k → k < l.nextId
  serving : ∀ k, l.serving = some k → k < l.nextId
  requests : ∀ env ∈ l.requests, env.requestId < l.nextId

namespace Numbered

theorem start {d : DaemonState} : Numbered (.start d) := ⟨nofun, nofun, nofun⟩

/-- Frames are put on their way. -/
theorem write {origin : Option Nat} (h : l.Numbered)
    (horigin : ∀ k, origin = some k → k < l.nextId) :
    ∀ a ∈ l.inbox ++ frames.map (⟨·, origin, false⟩), ∀ k, a.origin = some k → k < l.nextId := by
  intro a ha
  rcases List.mem_append.mp ha with ha | ha
  · exact h.inbox a ha
  · obtain ⟨f, -, rfl⟩ := List.mem_map.mp ha
    exact horigin

/-- Frames are taken. -/
theorem take {inbox : List Arriving} (h : l.Numbered)
    (horigins : ∀ a ∈ inbox, ∃ b ∈ l.inbox, b.origin = a.origin) :
    ∀ a ∈ inbox, ∀ k, a.origin = some k → k < l.nextId := by
  intro a ha k hk
  obtain ⟨b, hb, hba⟩ := horigins a ha
  exact h.inbox b hb k (hba.trans hk)

/-- The next number is used. -/
theorem next (h : l.Numbered) {req : Request} {garbled : Bool} {call : Call} :
    Numbered { l with
      requests := l.requests ++ [⟨l.nextId, req⟩], garbled := garbled, nextId := l.nextId + 1,
        call := call } := by
  refine ⟨fun a ha k hk => Nat.lt_succ_of_lt (h.inbox a ha k hk),
    fun k hk => Nat.lt_succ_of_lt (h.serving k hk), fun env henv => ?_⟩
  rcases List.mem_append.mp henv with henv | henv
  · exact Nat.lt_succ_of_lt (h.requests env henv)
  · rw [List.mem_singleton.mp henv]
    exact Nat.lt_succ_self _

theorem step (h : l.Numbered) (hstep : LinkStep cfg R i l e m) : m.Numbered := by
  cases hstep with
  | daemon => exact ⟨h.write h.serving, h.serving, h.requests⟩
  | @reads _ _ _ _ _ env rest _ _ _ hrequests =>
    have hall := h.requests
    rw [hrequests] at hall
    obtain ⟨henv, hrest⟩ := List.forall_mem_cons.mp hall
    have hserving : ∀ k, some env.requestId = some k → k < l.nextId :=
      fun k hk => Option.some.inj hk ▸ henv
    exact ⟨h.write hserving, hserving, hrest⟩
  | misreads _ _ _ _ hrest =>
    exact ⟨h.write nofun, nofun, fun env henv => h.requests env (hrest.subset henv)⟩
  | killed => exact ⟨h.inbox, h.serving, h.requests⟩
  | called | opened => exact h.next
  | failed | cutOff =>
    exact ⟨fun a ha k hk => Nat.lt_succ_of_lt (h.inbox a ha k hk),
      fun k hk => Nat.lt_succ_of_lt (h.serving k hk), fun env henv =>
        Nat.lt_succ_of_lt (h.requests env henv)⟩
  | returned _ hreads | yielded _ hreads => exact ⟨h.take hreads.origins, h.serving, h.requests⟩
  | dropped _ hgives => exact ⟨h.take hgives.origins, h.serving, h.requests⟩

end Numbered

/-- The call is given what is not its own, if it finds it there. -/
theorem not_answers_of_inbox {a : Arriving} {rest : List Arriving} (hcalls : l.Calls id)
    (hinbox : l.inbox = a :: rest) (ha : a.origin ≠ some id) : ¬l.Answers cfg R i id := by
  have hreads : ∃ read, Reads (l.Ended i) l.inbox [a] read rest := by
    rw [hinbox]
    cases hcut : a.cut with
    | false => exact ⟨_, .frame hcut⟩
    | true => exact ⟨.error .starting, .astray hcut rfl nofun⟩
  obtain ⟨read, hreads⟩ := hreads
  intro hanswers
  rcases hcalls with hcall | hcall
  · have hown :=
      hanswers _ _ (.cons (.returned hcall hreads) .nil) _ (List.mem_singleton_self _) .returned
    generalize requestResult id read = result at hown
    cases hown with
    | returned => exact ha rfl
  · have hown :=
      hanswers _ _ (.cons (.yielded hcall hreads) .nil) _ (List.mem_singleton_self _) .yielded
    generalize streamPayload id read = payload at hown
    cases hown with
    | yielded => exact ha rfl

theorem not_answers_of_step (hstep : LinkStep cfg R i l e m) (h : ¬m.Answers cfg R i id) :
    ¬l.Answers cfg R i id := by
  intro hanswers
  exact h fun es t hrun e' he' => hanswers _ t (.cons hstep hrun) e' (List.mem_cons_of_mem _ he')

/-- The task is at another request when the call begins. -/
theorem not_answers_of_working {k : Nat} {index : Bool} (hcalls : l.Calls id)
    (hkilled : l.killed = false) (hinbox : l.inbox = []) (hi : l.daemon.At i c)
    (hc : c.task = .working k index) (hserving : l.serving ≠ some id) : ¬l.Answers cfg R i id := by
  obtain ⟨e, t, c', f, hstep, he, ht, hsent⟩ :=
    @DaemonState.can_write cfg R l.daemon i k c index hi hc
  refine not_answers_of_step (.daemon hkilled hstep he hi ht hsent) ?_
  refine @not_answers_of_inbox _ _ _ _ _ ⟨f, l.serving, false⟩ [] hcalls ?_ hserving
  rw [hinbox]
  rfl

/-- A call begins where something is left. -/
theorem not_answers {w n : Nat} {more : List (Envelope Request)} {call : Call}
    (hnumbered : l.Numbered) (hw : l.daemon.workers w = none) (hi : l.daemon.At i c)
    (hnot : ¬l.Settled i) :
    ∀ m : Link, m = { l with requests := l.requests ++ more, nextId := n, call := call } →
      m.Calls l.nextId → ¬m.Answers cfg R i l.nextId := by
  intro m hm hcalls
  have hother : ∀ {k : Nat}, k < l.nextId → some k ≠ some l.nextId :=
    fun hlt heq => Nat.ne_of_lt hlt (Option.some.inj heq)
  cases hinbox : l.inbox with
  | cons a rest =>
    refine not_answers_of_inbox hcalls (by rw [hm]; exact hinbox) fun ha => ?_
    exact hother (hnumbered.inbox a (by rw [hinbox]; exact List.mem_cons_self) _ ha) rfl
  | nil =>
    have hended : ¬l.Ended i := fun hended => hnot ⟨hinbox, .inl hended⟩
    have hkilled : l.killed = false := by
      cases hk : l.killed with
      | true => exact absurd (.inl hk) hended
      | false => rfl
    have hinbox' : m.inbox = [] := by rw [hm]; exact hinbox
    have hkilled' : m.killed = false := by rw [hm]; exact hkilled
    have hi' : m.daemon.At i c := by rw [hm]; exact hi
    cases htask : c.task with
    | closed => exact absurd (.inr ⟨c, hi, Client.task_closed.mp htask⟩) hended
    | working k index =>
      refine not_answers_of_working hcalls hkilled' hinbox' hi' htask fun hserving => ?_
      exact hother (hnumbered.serving _ (by rw [← hserving, hm])) rfl
    | reading =>
      have hphase := Client.task_reading.mp htask
      cases hgarbled : l.garbled with
      | true =>
        -- What the daemon reads is no request, and it says so.
        have hstep : DaemonStep cfg R m.daemon (.garbled i) _ :=
          .garbled hi' hphase (e := .malformed "decode: io error: unexpected end of file")
        have hlink : LinkStep cfg R i m _ _ :=
          @LinkStep.misreads cfg R i m _ _ _ _ _ m.requests true hkilled' hstep
            (by rw [hm]; exact hgarbled) rfl (List.suffix_refl _) hi'
            (DaemonState.at_setClient rfl) rfl
        refine not_answers_of_step hlink ?_
        exact @not_answers_of_inbox _ _ _ _ _ ⟨_, none, false⟩ [] hcalls
          (by rw [hinbox']; rfl) nofun
      | false =>
        cases hrequests : l.requests with
        | nil => exact absurd ⟨hinbox, .inr ⟨hgarbled, hrequests, c, hi, hphase⟩⟩ hnot
        | cons env rest =>
          -- There is a request to be read first.
          have henv := hother (hnumbered.requests env (by rw [hrequests]; exact List.mem_cons_self))
          obtain ⟨e, t, c', frames, hstep, hasks, ht, hid, hsent, hframes⟩ :=
            @DaemonState.can_read cfg R m.daemon i c w (by rw [hm]; exact hw) hi' hphase env
          have hlink := @LinkStep.reads cfg R i m e t c c' frames env (rest ++ more) hkilled' hstep
            (by rw [hm]; exact hgarbled) (by rw [hm]; exact congrArg (· ++ more) hrequests) hasks
              hi' ht hid hsent
          refine not_answers_of_step hlink ?_
          rcases hframes with ⟨f, rfl⟩ | ⟨rfl, index, hworking⟩
          · exact @not_answers_of_inbox _ _ _ _ _ ⟨f, some env.requestId, false⟩ [] hcalls
              (by rw [hinbox']; rfl) henv
          · exact not_answers_of_working hcalls hkilled' (by rw [hinbox']; rfl) ht hworking henv

end Link

theorem LinkRun.daemon (h : LinkRun cfg R i l es m) :
    ∃ ds, DaemonRun cfg R l.daemon ds m.daemon := by
  induction h with
  | nil => exact ⟨[], .nil⟩
  | cons hstep hrun ih =>
    obtain ⟨ds, ih⟩ := ih
    cases hstep with
    | daemon _ hd | reads _ hd | misreads _ hd => exact ⟨_, .cons hd ih⟩
    | killed | called | opened | failed | cutOff | returned | yielded | dropped => exact ⟨ds, ih⟩

theorem DaemonRun.keeps_client {es : List Event} (h : DaemonRun cfg R s es t) (hi : s.At i c) :
    ∃ c', t.At i c' := by
  induction h generalizing c with
  | nil => exact ⟨c, hi⟩
  | cons hstep _ ih =>
    obtain ⟨c', hi⟩ := hstep.keeps_client hi
    exact ih hi

/-- A call begins in any run of a client that has been accepted. Whatever happens after that, it is
given what the daemon has written for it and nothing else, if and only if nothing was left of the
calls before. -/
theorem LinkRun.answers_iff {ds : List Event} (hs : DaemonRun cfg R .start ds s)
    (hi : s.At i ⟨false, .reading, 0, []⟩) (hrun : LinkRun cfg R i (.start s) es l)
    (hstep : LinkStep cfg R i l e m) (he : e.Begins id) : m.Answers cfg R i id ↔ l.Settled i := by
  constructor
  · intro hanswers
    by_contra hnot
    have hnumbered : l.Numbered := hrun.invariant (fun _ _ _ h hstep => h.step hstep) .start
    obtain ⟨ds', hdaemon⟩ := LinkRun.daemon hrun
    obtain ⟨w, hw⟩ := DaemonRun.fresh_worker (Trace.append hs hdaemon)
    obtain ⟨c, hc⟩ := DaemonRun.keeps_client hdaemon hi
    cases he with
    | called =>
      cases hstep with
      | called => exact Link.not_answers hnumbered hw hc hnot _ rfl (.inl rfl) hanswers
    | opened =>
      cases hstep with
      | opened => exact Link.not_answers hnumbered hw hc hnot _ rfl (.inr rfl) hanswers
  · intro hsettled
    exact (hsettled.kept hstep he).answers

/-- A client is accepted while the store is being loaded. -/
def sampleAccepted : DaemonState :=
  { DaemonState.start.setClient 0 ⟨false, .reading, 0, []⟩ with
    serve := .accepted, connectedClients := 1 }

theorem sampleAccepted_run :
    DaemonRun sampleConfig sampleRetrieval .start [.poll, .accept 0] sampleAccepted :=
  .cons (.poll rfl) (.cons (.accept rfl rfl) .nil)

def sampleGreeting : DaemonState :=
  sampleAccepted.setClient 0 ⟨false, .greeting (.hello 1 "daemon-client"), 1, []⟩

/-- It has been greeted. -/
def sampleOpen : Link where
  daemon := sampleGreeting.setClient 0 ⟨true, .reading, 1, [⟨1, .hello 1 "" 0⟩]⟩
  serving := some 1
  requests := []
  garbled := false
  inbox := []
  killed := false
  nextId := 2
  call := .idle

theorem sampleOpen_run : ∃ es,
    LinkRun sampleConfig sampleRetrieval 0 (.start sampleAccepted) es sampleOpen := by
  let hello : Request := .hello 1 "daemon-client"
  have hi : sampleAccepted.At 0 ⟨false, .reading, 0, []⟩ := rfl
  have hpassed : DaemonStep sampleConfig sampleRetrieval sampleAccepted
      (.gated 0 hello) sampleGreeting :=
    .passed hi rfl rfl rfl
  have hi' : sampleGreeting.At 0 ⟨false, .greeting hello, 1, []⟩ := rfl
  have hgreeted : DaemonStep sampleConfig sampleRetrieval sampleGreeting
      (.greeted 0) sampleOpen.daemon :=
    .greeted hi' rfl rfl
  let called : Link := { Link.start sampleAccepted with
    requests := [⟨1, hello⟩], nextId := 2, call := .request 1 }
  have hcalled : LinkStep sampleConfig sampleRetrieval 0 (.start sampleAccepted)
      (.called 1 hello) called :=
    .called rfl
  let read : Link := { called with daemon := sampleGreeting, requests := [], serving := some 1 }
  have hread : LinkStep sampleConfig sampleRetrieval 0 called (.daemon (.gated 0 hello)) read :=
    @LinkStep.reads _ _ _ called _ _ _ _ [] ⟨1, hello⟩ [] rfl hpassed rfl rfl .gated hi hi' rfl rfl
  let frame : Arriving := ⟨⟨1, .hello 1 "" 0⟩, some 1, false⟩
  let wrote : Link := { sampleOpen with inbox := [frame], call := .request 1 }
  have hwrote : LinkStep sampleConfig sampleRetrieval 0 read (.daemon (.greeted 0)) wrote :=
    @LinkStep.daemon _ _ _ read _ _ _ _ [frame.frame] rfl hgreeted nofun hi' rfl rfl
  have hreturned : LinkStep sampleConfig sampleRetrieval 0 wrote
      (.returned 1 [frame] _) sampleOpen :=
    .returned rfl (.frame rfl)
  exact ⟨_, .cons hcalled (.cons hread (.cons hwrote (.cons hreturned .nil)))⟩

theorem sampleOpen_settled : sampleOpen.Settled 0 := ⟨rfl, .inr ⟨rfl, rfl, _, rfl, rfl⟩⟩

/-- The client asks for an index then, and the stream will yield what is its own. -/
theorem LinkRun.answers_iff_open : Link.Answers sampleConfig sampleRetrieval 0 2
    { sampleOpen with
      requests := [⟨2, .index .update "repo"⟩], nextId := 3, call := .stream 2 } := by
  have hi : sampleAccepted.At 0 ⟨false, .reading, 0, []⟩ := rfl
  obtain ⟨es, hrun⟩ := sampleOpen_run
  exact (LinkRun.answers_iff sampleAccepted_run hi hrun (.opened rfl) .opened).mpr
    sampleOpen_settled

/-- The client asks for an index and stops to listen at once. The store is not ready, and the daemon
says so. Then the client asks for the status: it finds that answer to its index request, and returns
an error. -/
theorem leftover_crosses : ∃ ds s es l, DaemonRun sampleConfig sampleRetrieval .start ds s ∧
    s.At 0 ⟨false, .reading, 0, []⟩ ∧ LinkRun sampleConfig sampleRetrieval 0 (.start s) es l ∧
    .called 3 .status ∈ es ∧
    .returned 3 [⟨⟨2, .error (.internal "not ready for index")⟩, some 2, false⟩]
      (.error (.malformed "response id mismatch: sent 3, got 2")) ∈ es ∧
    ¬LinkEvent.Own 3 (.returned 3 [⟨⟨2, .error (.internal "not ready for index")⟩, some 2, false⟩]
      (.error (.malformed "response id mismatch: sent 3, got 2"))) := by
  obtain ⟨es, hrun⟩ := sampleOpen_run
  let index : Request := .index .update "repo"
  let opened : Link := { sampleOpen with requests := [⟨2, index⟩], nextId := 3, call := .stream 2 }
  have hopened : LinkStep sampleConfig sampleRetrieval 0 sampleOpen (.opened 2 index) opened :=
    .opened rfl
  let dropped : Link := { opened with call := .idle }
  have hdropped : LinkStep sampleConfig sampleRetrieval 0 opened .dropped dropped :=
    .dropped nofun .before
  -- The request is accepted, the worker finds nothing to take, and the client is told so.
  let greeted : Client := ⟨true, .reading, 1, [⟨1, .hello 1 "" 0⟩]⟩
  let streaming : Client := ⟨true, .streaming 0, 2, greeted.sent⟩
  let d₁ : DaemonState := { (sampleOpen.daemon.setClient 0 streaming).setWorker 0
    ⟨.update, "repo", .spawned⟩ with indexing := true }
  have hi : sampleOpen.daemon.At 0 greeted := rfl
  have hindex : DaemonStep sampleConfig sampleRetrieval sampleOpen.daemon (.index 0 0) d₁ :=
    .index .update "repo" hi rfl rfl rfl rfl
  have hi₁ : d₁.At 0 streaming := rfl
  have hw₁ : d₁.Works 0 ⟨.update, "repo", .spawned⟩ := rfl
  let asked : Link := { dropped with daemon := d₁, requests := [], serving := some 2 }
  have hasked : LinkStep sampleConfig sampleRetrieval 0 dropped (.daemon (.index 0 0)) asked :=
    @LinkStep.reads _ _ _ dropped _ _ _ _ [] ⟨2, index⟩ [] rfl hindex rfl rfl
      (.index hw₁) hi hi₁ rfl rfl
  let failed : Worker := ⟨.update, "repo", .finished (.error (.internal "not ready for index"))⟩
  let d₂ : DaemonState := { d₁.setWorker 0 failed with indexing := false }
  have hnotReady : DaemonStep sampleConfig sampleRetrieval d₁ (.notReady 0) d₂ :=
    .notReady hw₁ rfl nofun
  have hi₂ : d₂.At 0 streaming := rfl
  have hw₂ : d₂.Works 0 failed := rfl
  have hended : LinkStep sampleConfig sampleRetrieval 0 asked (.daemon (.notReady 0))
      { asked with daemon := d₂ } :=
    @LinkStep.daemon _ _ _ asked _ _ _ _ [] rfl hnotReady nofun hi₁ hi₂ rfl
  let frame : Arriving := ⟨⟨2, .error (.internal "not ready for index")⟩, some 2, false⟩
  let d₃ : DaemonState := d₂.setClient 0 (streaming.reply frame.frame.payload)
  have hreported : DaemonStep sampleConfig sampleRetrieval d₂ (.reported 0) d₃ :=
    .reported hi₂ rfl hw₂ rfl
  let told : Link := { asked with daemon := d₃, inbox := [frame] }
  have htold : LinkStep sampleConfig sampleRetrieval 0 { asked with daemon := d₂ }
      (.daemon (.reported 0)) told :=
    @LinkStep.daemon _ _ _ { asked with daemon := d₂ } _ _ _ _ [frame.frame] rfl hreported nofun
      hi₂ rfl rfl
  -- The next call.
  let called : Link := { told with requests := [⟨3, .status⟩], nextId := 4, call := .request 3 }
  have hcalled : LinkStep sampleConfig sampleRetrieval 0 told (.called 3 .status) called :=
    .called rfl
  have hreturned : LinkStep sampleConfig sampleRetrieval 0 called
      (.returned 3 [frame] (requestResult 3 (.ok frame.frame)))
      { called with inbox := [], call := .idle } :=
    .returned rfl (.frame rfl)
  have hresult : requestResult 3 (.ok frame.frame) =
      .error (.malformed "response id mismatch: sent 3, got 2") := by decide +kernel
  rw [hresult] at hreturned
  refine ⟨_, _, _, _, sampleAccepted_run, rfl,
    hrun.append
      (.cons hopened
      (.cons hdropped
      (.cons hasked (.cons hended (.cons htold (.cons hcalled (.cons hreturned .nil))))))), ?_,
      ?_, nofun⟩
  · simp
  · simp [frame]

end SiftMcp
