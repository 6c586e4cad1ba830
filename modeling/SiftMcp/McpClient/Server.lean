import SiftMcp.Daemon.Protocol
import SiftMcp.Lib.Traces
import Mathlib.Logic.Function.Basic

/-!
# The MCP server

Tool calls are passed on to the daemon over one client, which is made when it is first needed and is
kept behind a mutex. Calls run at the same time, and each locks the mutex while it connects, while
it waits for the response to a request, and while it listens to the stream of an index request.
Whatever a call has met, it leaves the client where it was.

`McpRun.never_survives` is about a daemon that has gone away: no call gets over it.
-/

namespace SiftMcp

/-! ## Results of tool calls -/

/-- The content of a result: a response of the daemon, the text of an error, or an error that shows
the response. -/
inductive CallToolResult
  | success (r : Response)
  | error (text : String)
  | unexpected (context : String) (r : Response)

def formatDaemonError : DaemonError → String
  | .starting => "Daemon is still starting (loading models). Retry shortly."
  | .indexInProgress => "An index is already in progress. Retry shortly after it completes."
  | .symbolNotFound file symbol =>
    s!"Symbol not found: `{symbol}` in `{file}`. Check the qualified name (e.g. Type::method) " ++
      "and that the file is indexed; call index_repository if the repo changed."
  | .symbolAmbiguous file symbol candidates =>
    s!"Symbol `{symbol}` in `{file}` is ambiguous. Candidates: " ++ ", ".intercalate candidates ++
      ". Pass the qualified name from the list."
  | .storeStale reason =>
    s!"Store is stale ({reason}). Call index_repository to rebuild against the current repository."
  | .gpuUnavailable detail =>
    s!"GPU unavailable: {detail}. The daemon needs a working CUDA device, or use a CPU/mock " ++
      "build for tests."
  | .protocolVersion daemon client =>
    s!"Protocol version mismatch (daemon={daemon}, client={client}). Upgrade sift-daemon and " ++
      "mcp-client together."
  | .requestTooLarge bytes limit =>
    s!"Request too large ({bytes} bytes; limit {limit}). Shrink the payload."
  | .malformed detail => s!"Malformed daemon response: {detail}."
  | .internal detail =>
    s!"Daemon error: {detail}. Ensure sift-daemon can start (check --store/--repo/--model) and " ++
      "the socket is reachable."

def toToolError (e : DaemonError) : CallToolResult := .error (formatDaemonError e)

/-- The response that a tool makes its result of. -/
def Query.expects : Query → Response → Bool
  | .search .., .search _ | .searchSimilar .., .search _ | .getSymbol .., .symbol .. => true
  | _, _ => false

/-- The end of `search_code`, `find_similar_code` and `get_symbol`. -/
def queryResult (q : Query) : Except DaemonError Response → CallToolResult
  | .ok r => if q.expects r then .success r else .unexpected "unexpected daemon response" r
  | .error e => toToolError e

/-- What `index_repository` does on a frame: it listens on, unless the frame gives it a result, or
the progress cannot be notified. -/
def indexFrame (notify : Option String) : Response → Option CallToolResult
  | .indexProgress .. => notify.map fun e => .error s!"failed to notify progress: {e}"
  | .indexDone report => some (.success (.indexDone report))
  | .error e => some (toToolError e)
  | other => some (.unexpected "unexpected index frame" other)

/-! ## Connecting -/

structure SiftMcpConfig where
  /-- When false, never spawn; only connect to an existing socket. -/
  allowSpawn : Bool

/-- What an attempt to connect meets. -/
structure DialEnv where
  /-- The error of `socket_path_for_store`. -/
  socket : Option DaemonError
  /-- Whether something listens at the socket. -/
  probe : Bool
  /-- The error of spawning a daemon. -/
  spawn : Option String
  /-- `DaemonClient::connect`, with its Hello. -/
  connect : Except DaemonError Unit
  /-- The deadline has passed. -/
  late : Bool

inductive Dialed
  | connected
  | again
  | failed (e : DaemonError)

/-- One turn of the loops of `connect_or_spawn` and of `ensure_client` without spawning. -/
def SiftMcpConfig.dial (cfg : SiftMcpConfig) (spawned : Bool) (env : DialEnv) : Dialed :=
  match env.socket with
  | some e => .failed e
  | none =>
    if cfg.allowSpawn then
      if env.probe then
        match env.connect with
        | .ok () => .connected
        | .error e => .failed e
      else
        match if spawned then none else env.spawn with
        | some e => .failed (.internal s!"spawn daemon: {e}")
        | none => if env.late then .failed (.internal "timed out waiting for daemon") else .again
    else
      match env.connect with
      | .ok () => .connected
      | .error .starting => .again
      | .error e => if env.late then .failed e else .again

/-! ## State -/

inductive Tool
  | query (q : Query)
  | indexRepository (mode : IndexMode) (repoDir : String)

/-- What a tool call is at. `dialing`, `requesting` and `streaming` hold the lock. -/
inductive ToolPhase
  | ensuring
  | dialing (spawned : Bool)
  | ensured
  | requesting
  | streaming
  | returned (r : CallToolResult)

def ToolPhase.Locks : ToolPhase → Prop
  | dialing _ | requesting | streaming => True
  | ensuring | ensured | returned _ => False

structure ToolCall where
  tool : Tool
  phase : ToolPhase

/-- A connection to a daemon. It is `broken` when its daemon has gone, or has closed it. -/
structure Connection where
  number : Nat
  broken : Bool

structure SiftMcpServer where
  client : Option Connection
  locked : Bool
  calls : Nat → Option ToolCall
  /-- The number of connections made. -/
  connections : Nat

namespace SiftMcpServer

/-- `SiftMcpServer::with_config`. -/
def new : SiftMcpServer := ⟨none, false, fun _ => none, 0⟩

def At (s : SiftMcpServer) (j : Nat) (tool : Tool) (phase : ToolPhase) : Prop :=
  s.calls j = some ⟨tool, phase⟩

def set (s : SiftMcpServer) (j : Nat) (tool : Tool) (phase : ToolPhase) : SiftMcpServer :=
  { s with calls := Function.update s.calls j (some ⟨tool, phase⟩) }

/-- The client is there, and its connection has not broken. -/
def Lives (s : SiftMcpServer) : Prop := ∃ n, s.client = some ⟨n, false⟩

end SiftMcpServer

/-! ## Steps -/

inductive McpEvent
  /-- The connection of the client breaks. -/
  | broke
  /-- A tool is called; its parameters are out of bounds. -/
  | began (j : Nat) (tool : Tool) | rejected (j : Nat) (tool : Tool)
  /-- `ensure_client` finds a client, or connects. -/
  | found (j : Nat) | dials (j : Nat) | redials (j : Nat) | connected (j n : Nat)
  | unreachable (j : Nat)
  /-- The request is not encoded, or it is sent over the connection `n`. -/
  | unsent (j : Nat) | sent (j n : Nat)
  /-- The daemon is starting, and the request will be sent again; a frame of progress; and what ends
  the call. -/
  | retried (j : Nat) | listened (j : Nat) | answered (j : Nat)
  /-- The call finds that the connection `n` has broken. -/
  | lost (j n : Nat)

/-- An error of writing or reading: `write`, `read length` or `read body`. -/
inductive Transport : DaemonError → Prop
  | write (e : String) : Transport (.internal s!"write: {e}")
  | length (e : String) : Transport (.malformed s!"read length: {e}")
  | body (e : String) : Transport (.malformed s!"read body: {e}")

inductive McpStep (cfg : SiftMcpConfig) : SiftMcpServer → McpEvent → SiftMcpServer → Prop
  | broke {s c} : s.client = some c →
    McpStep cfg s .broke { s with client := some { c with broken := true } }
  | rejected {s j tool text} : s.calls j = none →
    McpStep cfg s (.rejected j tool) (s.set j tool (.returned (.error text)))
  | began {s j tool} : s.calls j = none → McpStep cfg s (.began j tool) (s.set j tool .ensuring)
  -- `ensure_client`.
  | found {s j tool c} : s.At j tool .ensuring → s.locked = false → s.client = some c →
    McpStep cfg s (.found j) (s.set j tool .ensured)
  | dials {s j tool} : s.At j tool .ensuring → s.locked = false → s.client = none →
    McpStep cfg s (.dials j) { s.set j tool (.dialing false) with locked := true }
  | redials {s j tool spawned env} : s.At j tool (.dialing spawned) →
    cfg.dial spawned env = .again →
    McpStep cfg s (.redials j) (s.set j tool (.dialing cfg.allowSpawn))
  | connected {s j tool spawned env} : s.At j tool (.dialing spawned) →
    cfg.dial spawned env = .connected →
    McpStep cfg s (.connected j s.connections) { s.set j tool .ensured with
      client := some ⟨s.connections, false⟩, connections := s.connections + 1, locked := false }
  | unreachable {s j tool spawned env e} : s.At j tool (.dialing spawned) →
    cfg.dial spawned env = .failed e →
    McpStep cfg s (.unreachable j) { s.set j tool (.returned (toToolError e)) with locked := false }
  -- A request. A connection that has broken may take it still.
  | unsent {s j tool e} : s.At j tool .ensured → s.locked = false →
    McpStep cfg s (.unsent j) (s.set j tool (.returned (toToolError e)))
  | requested {s j q c} : s.At j (.query q) .ensured → s.locked = false → s.client = some c →
    McpStep cfg s (.sent j c.number) { s.set j (.query q) .requesting with locked := true }
  | opened {s j mode repoDir c} : s.At j (.indexRepository mode repoDir) .ensured →
    s.locked = false →
    s.client = some c →
    McpStep cfg s (.sent j c.number) { s.set j (.indexRepository mode repoDir) .streaming with
      locked := true }
  | retried {s j q} : s.At j (.query q) .requesting → s.Lives →
    McpStep cfg s (.retried j) { s.set j (.query q) .ensured with locked := false }
  | answered {s j q result} : s.At j (.query q) .requesting → s.Lives →
    McpStep cfg s (.answered j) { s.set j (.query q) (.returned (queryResult q result)) with
      locked := false }
  | listened {s j mode repoDir notify frame} : s.At j (.indexRepository mode repoDir) .streaming →
    s.Lives → indexFrame notify frame = none → McpStep cfg s (.listened j) s
  | ended {s j mode repoDir notify frame result} :
    s.At j (.indexRepository mode repoDir) .streaming →
    s.Lives → indexFrame notify frame = some result →
    McpStep cfg s (.answered j) { s.set j (.indexRepository mode repoDir) (.returned result) with
      locked := false }
  | lost {s j tool phase n e} : s.At j tool phase → phase = .requesting ∨ phase = .streaming →
    s.client = some ⟨n, true⟩ → Transport e →
    McpStep cfg s (.lost j n) { s.set j tool (.returned (toToolError e)) with locked := false }

abbrev McpRun (cfg : SiftMcpConfig) : SiftMcpServer → List McpEvent → SiftMcpServer → Prop :=
  Trace (McpStep cfg)

/-- The server has got over the loss of the connection `n`: it is not the client's, and no request
is sent over it any more. -/
def SiftMcpServer.Survives (cfg : SiftMcpConfig) (s : SiftMcpServer) (n : Nat) : Prop :=
  (∀ c, s.client = some c → c.number ≠ n) ∧
    ∀ es t, McpRun cfg s es t → ∀ j m, .sent j m ∈ es → m ≠ n

/-- The step of a call that has no answer to give: its result, if it has one then, is an error. -/
inductive SiftMcpServer.Fails (s t : SiftMcpServer) (n : Nat) : McpEvent → Prop
  | broke : t.calls = s.calls → Fails s t n .broke
  | goesOn {e j tool phase} : (∀ r, phase ≠ .returned r) → t.calls = (s.set j tool phase).calls →
    e = .began j tool ∨ e = .found j ∨ e = .sent j n → Fails s t n e
  | ends {e j tool text} : t.calls = (s.set j tool (.returned (.error text))).calls →
    e = .rejected j tool ∨ e = .unsent j ∨ e = .lost j n → Fails s t n e

variable {cfg : SiftMcpConfig} {s t : SiftMcpServer} {e : McpEvent} {es : List McpEvent}
  {j k n : Nat} {tool tool' : Tool} {phase phase' : ToolPhase}

namespace SiftMcpServer

theorem set_at : (s.set j tool phase).At k tool' phase' ↔
    if k = j then tool' = tool ∧ phase' = phase else s.At k tool' phase' := by
  unfold At set
  by_cases hkj : k = j
  · subst hkj
    simp only [if_true, Function.update_self, Option.some.injEq, ToolCall.mk.injEq]
    exact ⟨fun h => ⟨h.1.symm, h.2.symm⟩, fun h => ⟨h.1.symm, h.2.symm⟩⟩
  · rw [if_neg hkj]
    simp only [Function.update_of_ne hkj]

/-- One call has the lock at most, and while a call connects there is no client. -/
structure Guarded (s : SiftMcpServer) : Prop where
  locked : ∀ {j tool phase}, s.At j tool phase → phase.Locks → s.locked = true
  alone : ∀ {j tool phase k tool' phase'}, s.At j tool phase → phase.Locks → s.At k tool' phase' →
    phase'.Locks → k = j
  dialing : ∀ {j tool spawned}, s.At j tool (.dialing spawned) → s.client = none

namespace Guarded

theorem new : Guarded .new := ⟨nofun, nofun, nofun⟩

/-- A call goes on without the lock. -/
theorem unlocked (h : s.Guarded) (hphase : ¬phase.Locks) : (s.set j tool phase).Guarded := by
  have hother : ∀ {k tool' phase'}, (s.set j tool phase).At k tool' phase' → phase'.Locks →
      s.At k tool' phase' := by
    intro k tool' phase' hk hlocks
    have hk := set_at.mp hk
    by_cases hkj : k = j
    · rw [if_pos hkj] at hk
      rw [hk.2] at hlocks
      exact absurd hlocks hphase
    · rwa [if_neg hkj] at hk
  exact ⟨fun hk hlocks => h.locked (hother hk hlocks) hlocks,
    fun hk hlocks hk' hlocks' => h.alone (hother hk hlocks) hlocks (hother hk' hlocks') hlocks',
    fun hk => h.dialing (hother hk trivial)⟩

/-- A call takes the lock. -/
theorem lock (h : s.Guarded) (hfree : s.locked = false)
    (hphase : ∀ spawned, phase = .dialing spawned → s.client = none) :
    Guarded { s.set j tool phase with locked := true } := by
  have hself : ∀ {k tool' phase'}, (s.set j tool phase).At k tool' phase' → phase'.Locks →
      k = j ∧ phase' = phase := by
    intro k tool' phase' hk hlocks
    have hk := set_at.mp hk
    by_cases hkj : k = j
    · rw [if_pos hkj] at hk
      exact ⟨hkj, hk.2⟩
    · rw [if_neg hkj] at hk
      have hlocked := h.locked hk hlocks
      rw [hfree] at hlocked
      cases hlocked
  exact ⟨fun _ _ => rfl, fun hk hlocks hk' hlocks' =>
    (hself hk' hlocks').1.trans (hself hk hlocks).1.symm, fun hk =>
      hphase _ (hself hk trivial).2.symm⟩

/-- The call that has the lock gives it up, and the client is what it is then. -/
theorem unlock {client : Option Connection} {connections : Nat} (h : s.Guarded)
    (hj : s.At j tool phase) (hlocks : phase.Locks) (hphase : ¬phase'.Locks) :
    Guarded { s.set j tool phase' with
      client := client, connections := connections, locked := false } := by
  have hnone : ∀ {k tool'' phase''}, (s.set j tool phase').At k tool'' phase'' →
      ¬phase''.Locks := by
    intro k tool'' phase'' hk hlocks''
    have hk := set_at.mp hk
    by_cases hkj : k = j
    · rw [if_pos hkj] at hk
      rw [hk.2] at hlocks''
      exact hphase hlocks''
    · rw [if_neg hkj] at hk
      exact hkj (h.alone hj hlocks hk hlocks'')
  exact ⟨fun hk hlocks => absurd hlocks (hnone hk), fun hk hlocks => absurd hlocks (hnone hk),
    fun hk => absurd trivial (hnone hk)⟩

theorem step (h : s.Guarded) (hstep : McpStep cfg s e t) : t.Guarded := by
  cases hstep with
  | broke hclient =>
    refine ⟨h.locked, h.alone, fun hj => ?_⟩
    have hnone := h.dialing hj
    rw [hclient] at hnone
    cases hnone
  | rejected | began | found | unsent => exact h.unlocked (fun h => h)
  | dials hj hfree hclient => exact h.lock hfree fun _ _ => hclient
  | @redials j tool spawned env hj =>
    -- The lock stays with the call.
    have hbefore : ∀ {k tool' phase'}, (s.set j tool (.dialing cfg.allowSpawn)).At k tool' phase' →
        phase'.Locks → ∃ phase'', s.At k tool' phase'' ∧ phase''.Locks := by
      intro k tool' phase' hk hlocks
      have hk := set_at.mp hk
      by_cases hkj : k = j
      · rw [if_pos hkj] at hk
        rw [hkj, hk.1]
        exact ⟨_, hj, trivial⟩
      · rw [if_neg hkj] at hk
        exact ⟨_, hk, hlocks⟩
    refine ⟨fun hk hlocks => ?_, fun hk hlocks hk' hlocks' => ?_, fun _ => h.dialing hj⟩
    · obtain ⟨_, hk, hlocks⟩ := hbefore hk hlocks
      exact h.locked hk hlocks
    · obtain ⟨_, hk, hlocks⟩ := hbefore hk hlocks
      obtain ⟨_, hk', hlocks'⟩ := hbefore hk' hlocks'
      exact h.alone hk hlocks hk' hlocks'
  | connected hj | unreachable hj | retried hj | answered hj | ended hj =>
    exact h.unlock hj trivial (fun h => h)
  | requested _ hfree | opened _ hfree => exact h.lock hfree nofun
  | listened => exact h
  | lost hj hphase =>
    refine h.unlock hj ?_ (fun h => h)
    rcases hphase with rfl | rfl <;> trivial

end Guarded

end SiftMcpServer

/-! ## After a loss -/

/-- The broken client is what every call finds. -/
theorem McpStep.fails (h : McpStep cfg s e t) (hg : s.Guarded) (hs : s.client = some ⟨n, true⟩) :
    t.client = some ⟨n, true⟩ ∧ s.Fails t n e := by
  have hlives : ¬s.Lives := by
    intro hlives
    obtain ⟨m, hm⟩ := hlives
    cases hs.symm.trans hm
  have hdialing : ∀ {j tool spawned}, ¬s.At j tool (.dialing spawned) :=
    fun hj => nomatch hs.symm.trans (hg.dialing hj)
  cases h with
  | broke hclient =>
    obtain rfl := Option.some.inj (hs.symm.trans hclient)
    exact ⟨rfl, .broke rfl⟩
  | rejected => exact ⟨hs, .ends rfl (.inl rfl)⟩
  | began => exact ⟨hs, .goesOn (by nofun) rfl (.inl rfl)⟩
  | found => exact ⟨hs, .goesOn (by nofun) rfl (.inr (.inl rfl))⟩
  | dials _ _ hclient => cases hs.symm.trans hclient
  | redials hj | connected hj | unreachable hj => exact absurd hj hdialing
  | unsent => exact ⟨hs, .ends rfl (.inr (.inl rfl))⟩
  | requested _ _ hclient | opened _ _ hclient =>
    obtain rfl := Option.some.inj (hs.symm.trans hclient)
    exact ⟨hs, .goesOn (by nofun) rfl (.inr (.inr rfl))⟩
  | retried _ hlive | answered _ hlive | listened _ hlive | ended _ hlive =>
    exact absurd hlive hlives
  | lost _ _ hclient =>
    obtain ⟨rfl, -⟩ := Connection.mk.inj (Option.some.inj (hs.symm.trans hclient))
    exact ⟨hs, .ends rfl (.inr (.inr rfl))⟩

/-- The results there are, are those there were, or errors. -/
theorem SiftMcpServer.Fails.returned {r : CallToolResult} (h : s.Fails t n e)
    (hk : t.At k tool (.returned r)) : s.At k tool (.returned r) ∨ ∃ text, r = .error text := by
  cases h with
  | broke hcalls =>
    rw [At, hcalls] at hk
    exact .inl hk
  | @goesOn _ j tool' phase hphase hcalls =>
    rw [At, hcalls] at hk
    have hk := set_at.mp hk
    by_cases hkj : k = j
    · rw [if_pos hkj] at hk
      exact absurd hk.2.symm (hphase r)
    · rw [if_neg hkj] at hk
      exact .inl hk
  | @ends _ j tool' text hcalls =>
    rw [At, hcalls] at hk
    have hk := set_at.mp hk
    by_cases hkj : k = j
    · rw [if_pos hkj] at hk
      exact .inr ⟨text, ToolPhase.returned.inj hk.2⟩
    · rw [if_neg hkj] at hk
      exact .inl hk

/-- No request is answered, none is sent over another connection, and none is made. -/
theorem SiftMcpServer.Fails.silent (h : s.Fails t n e) :
    (∀ k m, e ≠ .connected k m) ∧ (∀ k, e ≠ .answered k) ∧ ∀ k m, e = .sent k m → m = n := by
  cases h with
  | broke => exact ⟨nofun, nofun, nofun⟩
  | goesOn _ _ he =>
    rcases he with rfl | rfl | rfl
    · exact ⟨nofun, nofun, nofun⟩
    · exact ⟨nofun, nofun, nofun⟩
    · exact ⟨nofun, nofun, fun k m he => (McpEvent.sent.inj he).2.symm⟩
  | ends _ he =>
    rcases he with rfl | rfl | rfl
    · exact ⟨nofun, nofun, nofun⟩
    · exact ⟨nofun, nofun, nofun⟩
    · exact ⟨nofun, nofun, nofun⟩

theorem McpRun.guarded (h : McpRun cfg .new es s) : s.Guarded :=
  h.invariant (fun _ _ _ h hstep => h.step hstep) .new

/-- A run that starts with a broken client. -/
theorem McpRun.fails (h : McpRun cfg s es t) (hg : s.Guarded) (hs : s.client = some ⟨n, true⟩) :
    t.client = some ⟨n, true⟩ ∧
    (∀ e ∈ es, (∀ k m, e ≠ .connected k m) ∧ (∀ k, e ≠ .answered k) ∧ ∀ k m, e = .sent k m →
      m = n) ∧
    ∀ k tool r, t.At k tool (.returned r) → s.At k tool (.returned r) ∨
      ∃ text, r = .error text := by
  induction h with
  | nil => exact ⟨hs, nofun, fun k tool r hk => .inl hk⟩
  | cons hstep _ ih =>
    obtain ⟨hm, hfails⟩ := hstep.fails hg hs
    obtain ⟨ht, hsilent, hresults⟩ := ih (hg.step hstep) hm
    refine ⟨ht, List.forall_mem_cons.mpr ⟨hfails.silent, hsilent⟩, fun k tool r hk => ?_⟩
    rcases hresults k tool r hk with hk | herror
    · exact hfails.returned hk
    · exact .inr herror

/-- A tool call finds that the connection of the client has broken. The server does not get over it.
The broken client stays cached, whatever happens, no connection is made any more, every request is
sent over the broken one, none is answered, and every tool call that returns after that returns an
error. -/
theorem McpRun.never_survives (h : McpRun cfg .new es s) (hstep : McpStep cfg s (.lost j n) t) :
    ¬t.Survives cfg n ∧ ∀ es u, McpRun cfg t es u → u.client = some ⟨n, true⟩ ∧
      (∀ k m, .connected k m ∉ es) ∧ (∀ k, .answered k ∉ es) ∧ (∀ k m, .sent k m ∈ es → m = n) ∧
      ∀ k tool r, u.At k tool (.returned r) → t.At k tool (.returned r) ∨
        ∃ text, r = .error text := by
  have hg := McpRun.guarded h
  have ht : t.client = some ⟨n, true⟩ := by
    cases hstep with
    | lost _ _ hclient => exact hclient
  refine ⟨fun hsurvives => hsurvives.1 _ ht rfl, fun es u hrun => ?_⟩
  obtain ⟨hu, hsilent, hresults⟩ := McpRun.fails hrun (hg.step hstep) ht
  exact ⟨hu, fun k m hmem => (hsilent _ hmem).1 k m rfl, fun k hmem => (hsilent _ hmem).2.1 k rfl,
    fun k m hmem => (hsilent _ hmem).2.2 k m rfl, hresults⟩

def sampleTool : Tool := .query (.search "parse" 5)

/-- A tool is called, and there is no client yet. -/
def sampleDialing : SiftMcpServer :=
  { (SiftMcpServer.new.set 0 sampleTool .ensuring).set 0 sampleTool
    (.dialing false) with locked := true }

/-- A daemon is there, and the request has been sent. -/
def sampleSent : SiftMcpServer :=
  { ({ sampleDialing.set 0 sampleTool .ensured with
      client := some ⟨0, false⟩, connections := 1, locked := false } : SiftMcpServer).set 0
        sampleTool .requesting with locked := true }

/-- The daemon is killed, and the call returns an error. -/
def sampleLost : SiftMcpServer :=
  { ({ sampleSent with client := some ⟨0, true⟩ } : SiftMcpServer).set 0 sampleTool
      (.returned (toToolError (.malformed "read length: early eof"))) with locked := false }

theorem sampleSent_run :
    McpRun ⟨true⟩ .new [.began 0 sampleTool, .dials 0, .connected 0 0, .sent 0 0, .broke]
    { sampleSent with client := some ⟨0, true⟩ } := by
  have hensuring : (SiftMcpServer.new.set 0 sampleTool .ensuring).At 0 sampleTool .ensuring := rfl
  have hdialing : sampleDialing.At 0 sampleTool (.dialing false) := rfl
  let ensured : SiftMcpServer := { sampleDialing.set 0 sampleTool .ensured with
    client := some ⟨0, false⟩, connections := 1, locked := false }
  have hensured : ensured.At 0 sampleTool .ensured := rfl
  have hconnected : McpStep ⟨true⟩ sampleDialing (.connected 0 0) ensured :=
    @McpStep.connected _ _ _ _ _ ⟨none, true, none, .ok (), false⟩ hdialing rfl
  exact .cons (.began rfl) (.cons (.dials hensuring rfl rfl) (.cons hconnected
    (.cons (.requested hensured rfl rfl)
      (.cons (@McpStep.broke ⟨true⟩ sampleSent ⟨0, false⟩ rfl) .nil))))

theorem sampleLost_step :
    McpStep ⟨true⟩ { sampleSent with client := some ⟨0, true⟩ } (.lost 0 0) sampleLost := by
  have hat : SiftMcpServer.At { sampleSent with client := some ⟨0, true⟩ } 0 sampleTool
      .requesting := rfl
  exact .lost hat (.inl rfl) rfl (.length "early eof")

theorem McpRun.never_survives_killed : ¬sampleLost.Survives ⟨true⟩ 0 :=
  (McpRun.never_survives sampleSent_run sampleLost_step).1

/-- The daemon has been killed, a tool call has found so, and another daemon listens at the socket.
The next tool call does not ask there: its request goes over the connection that has broken, and it
returns an error. -/
theorem broken_client_stays : ∃ es s t u, McpRun ⟨true⟩ .new es s ∧ McpStep ⟨true⟩ s (.lost 0 0) t ∧
    McpRun ⟨true⟩ t [.began 1 sampleTool, .found 1, .sent 1 0, .lost 1 0] u ∧
    u.At 1 sampleTool (.returned (toToolError (.internal "write: Broken pipe (os error 32)"))) ∧
    u.client = some ⟨0, true⟩ ∧ ¬t.Survives ⟨true⟩ 0 := by
  let began := sampleLost.set 1 sampleTool .ensuring
  have hbegan : began.At 1 sampleTool .ensuring := rfl
  let found := began.set 1 sampleTool .ensured
  have hfound : found.At 1 sampleTool .ensured := rfl
  let sent := { found.set 1 sampleTool .requesting with locked := true }
  have hsent : sent.At 1 sampleTool .requesting := rfl
  let lost := { sent.set 1 sampleTool
    (.returned (toToolError (.internal "write: Broken pipe (os error 32)"))) with locked := false }
  have hrun : McpRun ⟨true⟩ sampleLost [.began 1 sampleTool, .found 1, .sent 1 0, .lost 1 0] lost :=
    .cons (.began rfl) (.cons (.found hbegan rfl rfl) (.cons (.requested hfound rfl rfl)
      (.cons (.lost hsent (.inl rfl) rfl (.write "Broken pipe (os error 32)")) .nil)))
  exact ⟨_, _, _, _, sampleSent_run, sampleLost_step, hrun, rfl, rfl, fun h => h.1 _ rfl rfl⟩

end SiftMcp
