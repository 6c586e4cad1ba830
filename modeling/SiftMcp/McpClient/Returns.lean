import SiftMcp.McpClient.Params

/-!
# Calls that wait

Calls wait for the client while another has it. Whoever has it can give it up, whatever the daemon
does, so that no call is ever stuck.

`McpRun.returns` finds the steps by which a given call ends.
-/

namespace SiftMcp

variable {cfg : SiftMcpConfig} {s t : SiftMcpServer} {e : McpEvent} {es : List McpEvent}
  {j k n : Nat} {tool tool' : Tool} {phase phase' : ToolPhase}

namespace SiftMcpServer

/-- The lock is some call's, a call that is past `ensure_client` has a client, and requests are sent
by the tools that make them. -/
structure Waits (s : SiftMcpServer) : Prop where
  held : s.locked = true → ∃ j tool phase, s.At j tool phase ∧ phase.Locks
  client : ∀ {j tool phase}, s.At j tool phase → phase = .ensured ∨ phase = .requesting ∨
    phase = .streaming →
    ∃ c, s.client = some c
  query : ∀ {j tool}, s.At j tool .requesting → ∃ q, tool = .query q
  index : ∀ {j tool}, s.At j tool .streaming → ∃ mode repoDir, tool = .indexRepository mode repoDir

namespace Waits

theorem new : Waits .new := ⟨nofun, nofun, nofun, nofun⟩

/-- One call goes on; the client may be another then, and the lock another call's. -/
theorem goes (h : s.Waits) (hcalls : t.calls = (s.set j tool phase).calls)
    (hheld : t.locked = true → ∃ k tool' phase', t.At k tool' phase' ∧ phase'.Locks)
    (hclient : ∀ c, s.client = some c → ∃ c', t.client = some c')
    (hphase : phase = .ensured ∨ phase = .requesting ∨ phase = .streaming → ∃ c, t.client = some c)
    (hquery : phase = .requesting → ∃ q, tool = .query q)
    (hindex : phase = .streaming → ∃ mode repoDir, tool = .indexRepository mode repoDir) :
    t.Waits := by
  have hat : ∀ {k tool' phase'}, t.At k tool' phase' → tool' = tool ∧ phase' = phase ∨
      s.At k tool' phase' := by
    intro k tool' phase' hk
    rw [At, hcalls] at hk
    have hk := set_at.mp hk
    split at hk
    · exact .inl hk
    · exact .inr hk
  refine ⟨hheld, fun hk hpast => ?_, fun hk => ?_, fun hk => ?_⟩
  · rcases hat hk with ⟨rfl, rfl⟩ | hk
    · exact hphase hpast
    · obtain ⟨c, hc⟩ := h.client hk hpast
      exact hclient c hc
  · rcases hat hk with ⟨rfl, hnew⟩ | hk
    · exact hquery hnew.symm
    · exact h.query hk
  · rcases hat hk with ⟨rfl, hnew⟩ | hk
    · exact hindex hnew.symm
    · exact h.index hk

/-- The lock stays where it is, if the call that goes on does not have it. -/
theorem held_set (h : s.Waits) (hbefore : ∀ tool' phase', s.At j tool' phase' → ¬phase'.Locks)
    (hlocked : (s.set j tool phase).locked = true) :
    ∃ k tool' phase', (s.set j tool phase).At k tool' phase' ∧ phase'.Locks := by
  obtain ⟨k, tool', phase', hk, hlocks⟩ := h.held hlocked
  refine ⟨k, tool', phase', set_at.mpr ?_, hlocks⟩
  rw [if_neg]
  · exact hk
  · rintro rfl
    exact hbefore _ _ hk hlocks

theorem at_self : (s.set j tool phase).At j tool phase := by
  rw [set_at, if_pos rfl]
  exact ⟨rfl, rfl⟩

theorem step (h : s.Waits) (hstep : McpStep cfg s e t) : t.Waits := by
  have hsame : ∀ c, s.client = some c → ∃ c', s.client = some c' := fun c hc => ⟨c, hc⟩
  have honly : ∀ {j tool phase tool' phase'}, s.At j tool phase → ¬phase.Locks →
      s.At j tool' phase' →
      ¬phase'.Locks := by
    intro j tool phase tool' phase' hj hlocks hj'
    obtain ⟨-, rfl⟩ := ToolCall.mk.inj (Option.some.inj (hj.symm.trans hj'))
    exact hlocks
  cases hstep with
  | broke hclient => exact ⟨h.held, fun _ _ => ⟨_, rfl⟩, h.query, h.index⟩
  | rejected hnone | began hnone =>
    refine h.goes rfl (h.held_set fun _ _ hj => ?_) hsame ?_ nofun nofun
    · cases hnone.symm.trans hj
    · simp
  | found hj hfree hclient =>
    exact h.goes rfl (h.held_set fun _ _ => honly hj id) hsame (fun _ => ⟨_, hclient⟩) nofun nofun
  | dials hj hfree hclient =>
    exact h.goes rfl (fun _ => ⟨_, _, _, at_self, trivial⟩) hsame (by simp) nofun nofun
  | redials hj =>
    exact h.goes rfl (fun _ => ⟨_, _, _, at_self, trivial⟩) hsame (by simp) nofun nofun
  | connected hj => exact h.goes rfl nofun (fun _ _ => ⟨_, rfl⟩) (fun _ => ⟨_, rfl⟩) nofun nofun
  | unreachable hj => exact h.goes rfl nofun hsame (by simp) nofun nofun
  | unsent hj => exact h.goes rfl (h.held_set fun _ _ => honly hj id) hsame (by simp) nofun nofun
  | requested hj hfree hclient =>
    exact h.goes rfl (fun _ => ⟨_, _, _, at_self, trivial⟩) hsame (fun _ => ⟨_, hclient⟩)
      (fun _ => ⟨_, rfl⟩) nofun
  | opened hj hfree hclient =>
    exact h.goes rfl (fun _ => ⟨_, _, _, at_self, trivial⟩) hsame (fun _ => ⟨_, hclient⟩) nofun
      fun _ => ⟨_, _, rfl⟩
  | retried hj => exact h.goes rfl nofun hsame (fun _ => h.client hj (.inr (.inl rfl))) nofun nofun
  | answered hj | ended hj => exact h.goes rfl nofun hsame (by simp) nofun nofun
  | listened => exact h
  | lost hj => exact h.goes rfl nofun hsame (by simp) nofun nofun

end Waits

end SiftMcpServer

theorem dial_late {spawned : Bool} : ∃ e, cfg.dial spawned
    ⟨none, false, none, .error (.internal "connect daemon.sock: Connection refused (os error 111)"),
      true⟩ = .failed e := by
  cases hspawn : cfg.allowSpawn with
  | false =>
    rw [SiftMcpConfig.dial, hspawn]
    exact ⟨_, rfl⟩
  | true =>
    rw [SiftMcpConfig.dial, hspawn]
    cases spawned <;> exact ⟨_, rfl⟩

/-- Whoever has the lock can return, and give it up. -/
theorem release (h : s.Waits) (hj : s.At j tool phase) (hlocks : phase.Locks) :
    ∃ e t r, McpStep cfg s e t ∧ t = { s.set j tool (.returned r) with locked := false } := by
  cases phase with
  | ensuring | ensured | returned => exact absurd hlocks id
  | dialing spawned =>
    -- Nothing has come to listen at the socket by the deadline.
    obtain ⟨e, hdial⟩ := @dial_late cfg spawned
    exact ⟨_, _, _, .unreachable hj hdial, rfl⟩
  | requesting =>
    obtain ⟨q, rfl⟩ := h.query hj
    obtain ⟨c, hc⟩ := h.client hj (.inr (.inl rfl))
    obtain ⟨n, broken⟩ := c
    cases broken with
    | false => exact ⟨_, _, _, @McpStep.answered _ _ _ _ (.error .starting) hj ⟨n, hc⟩, rfl⟩
    | true => exact ⟨_, _, _, .lost hj (.inl rfl) hc (.length "early eof"), rfl⟩
  | streaming =>
    obtain ⟨mode, repoDir, rfl⟩ := h.index hj
    obtain ⟨c, hc⟩ := h.client hj (.inr (.inr rfl))
    obtain ⟨n, broken⟩ := c
    cases broken with
    | false =>
      exact ⟨_, _, _, @McpStep.ended _ _ _ _ _ none (.error .starting) _ hj ⟨n, hc⟩ rfl, rfl⟩
    | true => exact ⟨_, _, _, .lost hj (.inr rfl) hc (.length "early eof"), rfl⟩

/-- A call that takes the lock returns next. -/
theorem returns_locked (h : s.Waits) (hstep : McpStep cfg s e t) (ht : t.At j tool phase)
    (hlocks : phase.Locks) : ∃ e' u r, McpRun cfg s [e, e'] u ∧ u.At j tool (.returned r) := by
  obtain ⟨e', u, r, hnext, rfl⟩ := @release cfg _ _ _ _ (h.step hstep) ht hlocks
  exact ⟨e', _, r, .cons hstep (.cons hnext .nil), SiftMcpServer.Waits.at_self⟩

theorem returns_ensured (h : s.Waits) (hfree : s.locked = false) (hj : s.At j tool .ensured) :
    ∃ e e' t r, McpRun cfg s [e, e'] t ∧ t.At j tool (.returned r) := by
  obtain ⟨c, hc⟩ := h.client hj (.inl rfl)
  cases tool with
  | query q =>
    obtain ⟨e', t, r, hrun, ht⟩ :=
      @returns_locked cfg _ _ _ j _ .requesting h (.requested hj hfree hc)
      SiftMcpServer.Waits.at_self trivial
    exact ⟨_, e', t, r, hrun, ht⟩
  | indexRepository mode repoDir =>
    obtain ⟨e', t, r, hrun, ht⟩ := @returns_locked cfg _ _ _ j _ .streaming h (.opened hj hfree hc)
      SiftMcpServer.Waits.at_self trivial
    exact ⟨_, e', t, r, hrun, ht⟩

/-- A call that does not have the lock returns when the lock is free. -/
theorem returns_free (h : s.Waits) (hfree : s.locked = false) (hj : s.At j tool phase)
    (hphase : ¬phase.Locks) :
    ∃ es t r, McpRun cfg s es t ∧ t.At j tool (.returned r) ∧ es.length ≤ 3 := by
  cases phase with
  | dialing | requesting | streaming => exact absurd trivial hphase
  | returned r => exact ⟨[], s, r, .nil, hj, by decide⟩
  | ensured =>
    obtain ⟨e, e', t, r, hrun, ht⟩ := @returns_ensured cfg _ _ _ h hfree hj
    exact ⟨_, t, r, hrun, ht, Nat.le_succ 2⟩
  | ensuring =>
    cases hc : s.client with
    | none =>
      obtain ⟨e', t, r, hrun, ht⟩ :=
        @returns_locked cfg _ _ _ j tool (.dialing false) h (.dials hj hfree hc)
        SiftMcpServer.Waits.at_self trivial
      exact ⟨_, t, r, hrun, ht, Nat.le_succ 2⟩
    | some c =>
      have hfound : McpStep cfg s (.found j) (s.set j tool .ensured) := .found hj hfree hc
      obtain ⟨e, e', t, r, hrun, ht⟩ :=
        @returns_ensured cfg _ j tool (h.step hfound) hfree SiftMcpServer.Waits.at_self
      exact ⟨_, t, r, .cons hfound hrun, ht, Nat.le_refl 3⟩

theorem McpRun.waits (h : McpRun cfg .new es s) : s.Waits :=
  h.invariant (fun _ _ _ h hstep => h.step hstep) .new

/-- No call is ever stuck, however many there are: after any run, each call can come to return
within four steps. -/
theorem McpRun.returns (h : McpRun cfg .new es s) (hj : s.At j tool phase) :
    ∃ es t r, McpRun cfg s es t ∧ t.At j tool (.returned r) ∧ es.length ≤ 4 := by
  have hwaits := h.waits
  by_cases hphase : phase.Locks
  · obtain ⟨e, t, r, hstep, rfl⟩ := @release cfg _ _ _ _ hwaits hj hphase
    exact ⟨[e], _, r, .cons hstep .nil, SiftMcpServer.Waits.at_self, by simp⟩
  · cases hlocked : s.locked with
    | false =>
      obtain ⟨es, t, r, hrun, ht, hlength⟩ := @returns_free cfg _ _ _ _ hwaits hlocked hj hphase
      exact ⟨es, t, r, hrun, ht, Nat.le_succ_of_le hlength⟩
    | true =>
      -- Another call has the lock, and gives it up first.
      obtain ⟨k, tool', phase', hk, hlocks⟩ := hwaits.held hlocked
      obtain ⟨e, t, r', hstep, rfl⟩ := @release cfg _ _ _ _ hwaits hk hlocks
      have hne : j ≠ k := by
        rintro rfl
        obtain ⟨-, rfl⟩ := ToolCall.mk.inj (Option.some.inj (hj.symm.trans hk))
        exact hphase hlocks
      have hj' : (s.set k tool' (.returned r')).At j tool phase := by
        rw [SiftMcpServer.set_at, if_neg hne]
        exact hj
      obtain ⟨es, t, r, hrun, ht, hlength⟩ :=
        @returns_free cfg _ j tool phase (hwaits.step hstep) rfl hj' hphase
      exact ⟨e :: es, t, r, .cons hstep hrun, ht, Nat.succ_le_succ hlength⟩

/-- The daemon has been killed while the call waited for its response. -/
theorem McpRun.returns_killed :
    ∃ es t r, McpRun ⟨true⟩ { sampleSent with client := some ⟨0, true⟩ } es t ∧
    t.At 0 sampleTool (.returned r) ∧ es.length ≤ 4 := by
  have hat : SiftMcpServer.At { sampleSent with client := some ⟨0, true⟩ } 0 sampleTool
      .requesting := rfl
  exact McpRun.returns sampleSent_run hat

end SiftMcp
