import SiftMcp.Lib.ExceptSteps
import SiftMcp.McpClient.Server

/-!
# Parameters of tool calls

A tool is called with parameters, and it goes on if they are within bounds. By `ToolRun.checked`, in
every run of the server, all that is sent to the daemon is within them; a call that is not returns
what is wrong with it; and no call waits forever for the client that others have.
-/

namespace SiftMcp

def topKMax : Nat := 20
def queryMaxChars : Nat := 1000
def codeMaxChars : Nat := 20000
def defaultTopK : Nat := 5
def defaultFull : Bool := false

structure ParamError where
  text : String
deriving DecidableEq

/-! ## Checks -/

def nonEmpty (field text : String) : Except ParamError Unit :=
  if text.isEmpty then .error ⟨s!"{field} must be non-empty"⟩ else .ok ()

def withinBound (field bound : String) (max : Nat) (text : String) : Except ParamError Unit :=
  if text.length > max then .error ⟨s!"{field} exceeds {bound} bound of {max}"⟩ else .ok ()

def validateTopK (topK : Nat) : Except ParamError Unit :=
  if ¬(1 ≤ topK ∧ topK ≤ topKMax) then
    .error ⟨s!"top_k out of range: must be 1..={topKMax} (got {topK})"⟩
  else .ok ()

structure SearchCodeParams where
  query : String
  topK : Nat

/-- What is left out of the parameters of a call has its default. -/
def SearchCodeParams.deserialize (query : String) (topK : Option Nat) : SearchCodeParams :=
  ⟨query, topK.getD defaultTopK⟩

def SearchCodeParams.validate (p : SearchCodeParams) : Except ParamError Unit := do
  nonEmpty "query" p.query
  withinBound "query" "QUERY_MAX_CHARS" queryMaxChars p.query
  validateTopK p.topK

structure FindSimilarCodeParams where
  code : String
  topK : Nat

def FindSimilarCodeParams.deserialize (code : String) (topK : Option Nat) : FindSimilarCodeParams :=
  ⟨code, topK.getD defaultTopK⟩

def FindSimilarCodeParams.validate (p : FindSimilarCodeParams) : Except ParamError Unit := do
  nonEmpty "code" p.code
  withinBound "code" "CODE_MAX_CHARS" codeMaxChars p.code
  validateTopK p.topK

structure GetSymbolParams where
  file : String
  symbol : String

def GetSymbolParams.validate (p : GetSymbolParams) : Except ParamError Unit := do
  nonEmpty "file" p.file
  nonEmpty "symbol" p.symbol

structure IndexRepositoryParams where
  path : String
  full : Bool

def IndexRepositoryParams.deserialize (path : String) (full : Option Bool) :
    IndexRepositoryParams :=
  ⟨path, full.getD defaultFull⟩

def IndexRepositoryParams.validate (p : IndexRepositoryParams) : Except ParamError Unit :=
  nonEmpty "path" p.path

/-! ## Tools -/

/-- The parameters of any tool. -/
inductive ToolParams
  | searchCode (p : SearchCodeParams)
  | findSimilarCode (p : FindSimilarCodeParams)
  | getSymbol (p : GetSymbolParams)
  | indexRepository (p : IndexRepositoryParams)

namespace ToolParams

def validate : ToolParams → Except ParamError Unit
  | searchCode p => p.validate
  | findSimilarCode p => p.validate
  | getSymbol p => p.validate
  | indexRepository p => p.validate

/-- The tool, with the request that it makes of its parameters. -/
def tool : ToolParams → Tool
  | searchCode p => .query (.search p.query p.topK)
  | findSimilarCode p => .query (.searchSimilar p.code p.topK)
  | getSymbol p => .query (.getSymbol p.file p.symbol)
  | indexRepository p => .indexRepository (if p.full then .full else .update) p.path

end ToolParams

/-- What is sent to the daemon. -/
def Tool.request : Tool → Request
  | query q => .query q
  | indexRepository mode repoDir => .index mode repoDir

def Query.InBounds : Query → Prop
  | search query topK => query ≠ "" ∧ query.length ≤ queryMaxChars ∧ 1 ≤ topK ∧ topK ≤ topKMax
  | searchSimilar code topK => code ≠ "" ∧ code.length ≤ codeMaxChars ∧ 1 ≤ topK ∧ topK ≤ topKMax
  | getSymbol file symbol => file ≠ "" ∧ symbol ≠ ""

/-- A request as tools may make it. -/
def Request.InBounds : Request → Prop
  | query q => q.InBounds
  | index _ repoDir => repoDir ≠ ""
  | hello .. | status | shutdown => False

/-- The response that a tool makes its result of. -/
def Tool.expects : Tool → Response → Bool
  | query q, r => q.expects r
  | indexRepository .., .indexDone _ => true
  | indexRepository .., _ => false

/-- What a tool returns: a response of its kind, or an error. -/
def CallToolResult.Of (tool : Tool) : CallToolResult → Prop
  | success r => tool.expects r = true
  | error _ | unexpected .. => True

/-! ## Steps -/

/-- The steps of the server, with the parameters of the calls that begin. -/
inductive ToolStep (cfg : SiftMcpConfig) : SiftMcpServer → McpEvent → SiftMcpServer → Prop
  | called {s j} {p : ToolParams} : s.calls j = none → p.validate = .ok () →
    ToolStep cfg s (.began j p.tool) (s.set j p.tool .ensuring)
  | refused {s j} {p : ToolParams} {e : ParamError} : s.calls j = none → p.validate = .error e →
    ToolStep cfg s (.rejected j p.tool) (s.set j p.tool (.returned (.error e.text)))
  | goesOn {s e t} : McpStep cfg s e t → (∀ j tool, e ≠ .began j tool) →
    (∀ j tool, e ≠ .rejected j tool) →
    ToolStep cfg s e t

abbrev ToolRun (cfg : SiftMcpConfig) : SiftMcpServer → List McpEvent → SiftMcpServer → Prop :=
  Trace (ToolStep cfg)

section

variable {cfg : SiftMcpConfig} {s t : SiftMcpServer} {e : McpEvent} {es : List McpEvent}
  {j k n : Nat} {tool tool' : Tool} {phase phase' : ToolPhase} {p : ToolParams}
  {field bound text : String} {topK max : Nat}

theorem nonEmpty_ok : nonEmpty field text = .ok () ↔ text ≠ "" :=
  Except.ite_error_eq_ok.trans (not_congr String.isEmpty_iff)

theorem withinBound_ok : withinBound field bound max text = .ok () ↔ text.length ≤ max :=
  Except.ite_error_eq_ok.trans Nat.not_lt

theorem validateTopK_ok : validateTopK topK = .ok () ↔ 1 ≤ topK ∧ topK ≤ topKMax :=
  Except.ite_error_eq_ok.trans not_not

example : validateTopK defaultTopK = .ok () := by decide

theorem validate_step {check : Except ParamError Unit} {rest : Except ParamError Unit} :
    (check >>= fun _ => rest) = .ok () ↔ check = .ok () ∧ rest = .ok () := by
  rw [Except.bind_eq_ok]
  exact ⟨fun ⟨_, hcheck, hrest⟩ => ⟨hcheck, hrest⟩, fun ⟨hcheck, hrest⟩ => ⟨(), hcheck, hrest⟩⟩

/-- The checks go through exactly where the request is within bounds. -/
theorem validate_ok_iff : p.validate = .ok () ↔ p.tool.request.InBounds := by
  cases p with
  | searchCode p =>
    exact validate_step.trans
      (and_congr nonEmpty_ok (validate_step.trans (and_congr withinBound_ok validateTopK_ok)))
  | findSimilarCode p =>
    exact validate_step.trans
      (and_congr nonEmpty_ok (validate_step.trans (and_congr withinBound_ok validateTopK_ok)))
  | getSymbol p => exact validate_step.trans (and_congr nonEmpty_ok nonEmpty_ok)
  | indexRepository p => exact nonEmpty_ok

/-! ## What a step can do -/

namespace ToolStep

/-- The steps of calls with parameters are steps of calls. -/
theorem mcpStep (h : ToolStep cfg s e t) : McpStep cfg s e t := by
  cases h with
  | called hnone _ => exact .began hnone
  | refused hnone _ => exact .rejected hnone
  | goesOn h => exact h

end ToolStep

/-- A call that has begun goes on, and what it returns is of its tool; or no call does. -/
inductive SiftMcpServer.Goes (s t : SiftMcpServer) : McpEvent → Prop
  | still {e : McpEvent} : t.calls = s.calls → (∀ k n, e ≠ .sent k n) → Goes s t e
  | call {e : McpEvent} {j : Nat} {tool : Tool} {phase phase' : ToolPhase} : s.At j tool phase →
    (∀ r, phase ≠ .returned r) → t.calls = (s.set j tool phase').calls →
    (∀ r, phase' = .returned r → r.Of tool) →
    (∀ k n, e = .sent k n → k = j) → Goes s t e

theorem queryResult_of {q : Query} {result : Except DaemonError Response} :
    (queryResult q result).Of (.query q) := by
  cases result with
  | error e => exact trivial
  | ok r =>
    unfold queryResult
    dsimp only
    split
    · next hexpects => exact hexpects
    · exact trivial

theorem indexFrame_of {notify : Option String} {frame : Response} {result : CallToolResult}
    {mode : IndexMode} {repoDir : String} (h : indexFrame notify frame = some result) :
    result.Of (.indexRepository mode repoDir) := by
  unfold indexFrame at h
  split at h
  · obtain ⟨text, -, rfl⟩ := Option.map_eq_some_iff.mp h
    exact trivial
  · obtain rfl := Option.some.inj h
    rfl
  · obtain rfl := Option.some.inj h
    exact trivial
  · obtain rfl := Option.some.inj h
    exact trivial

/-- What a step of the server does with the calls. -/
theorem McpStep.goes (h : McpStep cfg s e t) (hbegan : ∀ j tool, e ≠ .began j tool)
    (hrejected : ∀ j tool, e ≠ .rejected j tool) : s.Goes t e := by
  cases h with
  | broke => exact .still rfl nofun
  | rejected => exact absurd rfl (hrejected _ _)
  | began => exact absurd rfl (hbegan _ _)
  | found hj | dials hj | redials hj | connected hj => exact .call hj nofun rfl nofun nofun
  | unreachable hj | unsent hj =>
    refine .call hj nofun rfl (fun r hr => ?_) nofun
    obtain rfl := ToolPhase.returned.inj hr
    exact trivial
  | requested hj | opened hj =>
    refine .call hj nofun rfl nofun fun k n he => ?_
    exact (McpEvent.sent.inj he).1.symm
  | retried hj => exact .call hj nofun rfl nofun nofun
  | answered hj =>
    refine .call hj nofun rfl (fun r hr => ?_) nofun
    obtain rfl := ToolPhase.returned.inj hr
    exact queryResult_of
  | listened => exact .still rfl nofun
  | ended hj _ hframe =>
    refine .call hj nofun rfl (fun r hr => ?_) nofun
    obtain rfl := ToolPhase.returned.inj hr
    exact indexFrame_of hframe
  | lost hj hphase =>
    refine .call hj ?_ rfl (fun r hr => ?_) nofun
    · rcases hphase with rfl | rfl
      · nofun
      · nofun
    · obtain rfl := ToolPhase.returned.inj hr
      exact trivial

/-! ## Runs -/

/-- The call goes on with a request within bounds, and what it returns is of its tool; or it has
returned what is wrong with its parameters. -/
inductive ToolCall.Checked : ToolCall → Prop
  | inBounds {c : ToolCall} : c.tool.request.InBounds → (∀ r, c.phase = .returned r → r.Of c.tool) →
    Checked c
  | refused {p : ToolParams} {e : ParamError} : p.validate = .error e →
    Checked ⟨p.tool, .returned (.error e.text)⟩

/-- All calls are checked, and so are those that have sent something. -/
structure SiftMcpServer.Checked (es : List McpEvent) (s : SiftMcpServer) : Prop where
  calls : ∀ j c, s.calls j = some c → c.Checked
  sent : ∀ j n, .sent j n ∈ es → ∃ c, s.calls j = some c ∧ c.tool.request.InBounds

namespace SiftMcpServer.Checked

theorem new : Checked [] .new := ⟨nofun, nofun⟩

theorem set_calls (j k : Nat) (tool : Tool) (phase : ToolPhase) :
    (s.set j tool phase).calls k = if k = j then some ⟨tool, phase⟩ else s.calls k :=
  Function.update_apply ..

/-- A call that there is not yet has sent nothing. -/
theorem begin (h : Checked es s) (hnone : s.calls j = none) (hc : ToolCall.Checked ⟨tool, phase⟩)
    (hsilent : ∀ k n, e ≠ .sent k n) : Checked (es ++ [e]) (s.set j tool phase) := by
  refine ⟨fun k c hk => ?_, fun k n hsent => ?_⟩
  · rw [set_calls] at hk
    split at hk
    · obtain rfl := Option.some.inj hk
      exact hc
    · exact h.calls k c hk
  · rcases List.mem_append.mp hsent with hsent | hsent
    · obtain ⟨c, hc, hbounds⟩ := h.sent k n hsent
      refine ⟨c, ?_, hbounds⟩
      rw [set_calls, if_neg, hc]
      rintro rfl
      rw [hnone] at hc
      cases hc
    · exact absurd (List.mem_singleton.mp hsent).symm (hsilent k n)

theorem goes (h : Checked es s) (hgoes : s.Goes t e) : Checked (es ++ [e]) t := by
  cases hgoes with
  | still hcalls hsilent =>
    refine ⟨fun k c hk => h.calls k c (hcalls ▸ hk), fun k n hsent => ?_⟩
    rcases List.mem_append.mp hsent with hsent | hsent
    · rw [hcalls]
      exact h.sent k n hsent
    · exact absurd (List.mem_singleton.mp hsent).symm (hsilent k n)
  | @call j tool phase phase' hj hphase hcalls hreturned hself =>
    -- The call has not returned, so its parameters are within bounds.
    have hbounds : tool.request.InBounds := by
      cases h.calls j _ hj with
      | inBounds hbounds _ => exact hbounds
      | refused _ => exact absurd rfl (hphase _)
    refine ⟨fun k c hk => ?_, fun k n hsent => ?_⟩
    · rw [hcalls, set_calls] at hk
      split at hk
      · obtain rfl := Option.some.inj hk
        exact .inBounds hbounds hreturned
      · exact h.calls k c hk
    · rw [hcalls, set_calls]
      by_cases hk : k = j
      · exact ⟨_, if_pos hk, hbounds⟩
      · rw [if_neg hk]
        rcases List.mem_append.mp hsent with hsent | hsent
        · exact h.sent k n hsent
        · exact absurd (hself k n (List.mem_singleton.mp hsent).symm) hk

theorem step (h : Checked es s) (hstep : ToolStep cfg s e t) : Checked (es ++ [e]) t := by
  cases hstep with
  | called hnone hvalid => exact h.begin hnone (.inBounds (validate_ok_iff.mp hvalid) nofun) nofun
  | refused hnone hinvalid => exact h.begin hnone (.refused hinvalid) nofun
  | goesOn hstep hbegan hrejected => exact h.goes (hstep.goes hbegan hrejected)

end SiftMcpServer.Checked

/-- Runs of calls with parameters are runs of calls. -/
theorem ToolRun.mcpRun (h : ToolRun cfg s es t) : McpRun cfg s es t :=
  h.mono fun _ _ _ hstep => hstep.mcpStep

/-- In every run of the server, whatever calls run at the same time: it is a run of the calls
without their parameters; a request is sent only for a call within bounds; a call that is not within
them has returned what its check says, and nothing else; and what has been returned is of the tool
that has been called, or an error. -/
theorem ToolRun.checked (h : ToolRun cfg .new es s) :
    McpRun cfg .new es s ∧
    (∀ j n, .sent j n ∈ es → ∃ c, s.calls j = some c ∧ c.tool.request.InBounds) ∧
    (∀ j c, s.calls j = some c → ¬c.tool.request.InBounds → ∃ (p : ToolParams) (e : ParamError),
      c = ⟨p.tool, .returned (.error e.text)⟩ ∧ p.validate = .error e) ∧
    ∀ j c r, s.calls j = some c → c.phase = .returned r → r.Of c.tool := by
  have hchecked :=
    h.invariant_labels (fun _ _ _ _ h hstep => h.step hstep) SiftMcpServer.Checked.new
  rw [List.nil_append] at hchecked
  refine ⟨h.mcpRun, hchecked.sent, fun j c hc hbounds => ?_, fun j c r hc hr => ?_⟩
  · cases hchecked.calls j c hc with
    | inBounds h _ => exact absurd h hbounds
    | refused hinvalid => exact ⟨_, _, rfl, hinvalid⟩
  · cases hchecked.calls j c hc with
    | inBounds _ hreturned => exact hreturned r hr
    | refused _ =>
      obtain rfl := ToolPhase.returned.inj hr
      exact trivial

/-- The steps after a call has begun. -/
theorem ToolRun.of_mcpRun (h : McpRun cfg s es t) (hes : ∀ e ∈ es, (∀ j tool, e ≠ .began j tool) ∧
    ∀ j tool, e ≠ .rejected j tool) : ToolRun cfg s es t := by
  induction h with
  | nil => exact .nil
  | cons hstep _ ih =>
    obtain ⟨⟨hbegan, hrejected⟩, hes⟩ := List.forall_mem_cons.mp hes
    exact .cons (.goesOn hstep hbegan hrejected) (ih hes)

end

/-- A call is made while another waits for its response; its parameters are out of bounds. -/
theorem ToolRun.checked_sent : ∃ es s c, ToolRun ⟨true⟩ .new es s ∧ .sent 0 0 ∈ es ∧
    s.calls 0 = some c ∧ c.tool.request.InBounds ∧ s.calls 1 = some ⟨.query (.search "parse" 0),
      .returned (.error "top_k out of range: must be 1..=20 (got 0)")⟩ := by
  have hvalid : (ToolParams.searchCode ⟨"parse", 5⟩).validate = .ok () := by decide
  have hinvalid : (ToolParams.searchCode ⟨"parse", 0⟩).validate =
      .error ⟨"top_k out of range: must be 1..=20 (got 0)"⟩ := by
    decide
  have hcalled : ToolStep ⟨true⟩ .new (.began 0 sampleTool)
      (SiftMcpServer.new.set 0 sampleTool .ensuring) :=
    @ToolStep.called ⟨true⟩ .new 0 (.searchCode ⟨"parse", 5⟩) rfl hvalid
  have hrest : McpRun ⟨true⟩ (SiftMcpServer.new.set 0 sampleTool .ensuring)
      [.dials 0, .connected 0 0, .sent 0 0] sampleSent := by
    have hensuring : (SiftMcpServer.new.set 0 sampleTool .ensuring).At 0 sampleTool .ensuring := rfl
    have hdialing : sampleDialing.At 0 sampleTool (.dialing false) := rfl
    let ensured : SiftMcpServer := { sampleDialing.set 0 sampleTool .ensured with
      client := some ⟨0, false⟩, connections := 1, locked := false }
    have hensured : ensured.At 0 sampleTool .ensured := rfl
    have hconnected : McpStep ⟨true⟩ sampleDialing (.connected 0 0) ensured :=
      @McpStep.connected _ _ _ _ _ ⟨none, true, none, .ok (), false⟩ hdialing rfl
    exact .cons (.dials hensuring rfl rfl)
      (.cons hconnected (.cons (.requested hensured rfl rfl) .nil))
  have hrefused := @ToolStep.refused ⟨true⟩ sampleSent 1 (.searchCode ⟨"parse", 0⟩) _ rfl hinvalid
  have hrun : ToolRun ⟨true⟩ .new ((.began 0 sampleTool :: [.dials 0, .connected 0 0, .sent 0 0]) ++
      [.rejected 1 (.query (.search "parse" 0))]) _ :=
    .append (.cons hcalled (ToolRun.of_mcpRun hrest (by simp))) (.cons hrefused .nil)
  obtain ⟨c, hc, hbounds⟩ := (ToolRun.checked hrun).2.1 0 0 (by simp)
  exact ⟨_, _, c, hrun, by simp, hc, hbounds, rfl⟩

end SiftMcp
