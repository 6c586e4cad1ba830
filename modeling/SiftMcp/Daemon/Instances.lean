import SiftMcp.Daemon.Leaving
import SiftMcp.Lib.LockGuarded

/-!
# The processes of one runtime directory

Any number of daemon processes for one store, started by hand or by clients that find no daemon, and
the clients themselves. The processes share the lock file and the path of the socket. Whether a path
is there is looked at in one step and acted upon in another, and at any moment a process can be
killed: its descriptors are closed then, one by one, and a socket that it has bound stays behind as
a file. The lock file is never removed, so that whoever opens it opens the same.
-/

namespace SiftMcp

/-! ## State -/

/-- What is at the path of the socket: who has bound it, unless that was before anything modelled
here, and whether its mode keeps all but the owner out. -/
structure SocketFile where
  owner : Option Nat
  ownerOnly : Bool

/-- What the processes share. -/
abbrev RuntimeDir := LockGuarded Nat (Option SocketFile)

/-- How far `try_bind` has come. Where it is `stale`, it has found something at the path and is
about to remove that; where it is `prepared`, it is about to bind. -/
inductive BindPhase
  | started | opened | locked | stale | prepared | bound | tightened

/-- How far `serve` has come: it listens until its loop has left and the connections have ended,
removes the socket, and drops what it owns, the lock file before the listener. -/
inductive LeavePhase
  | listening | removed | unlocked | dropped

/-- What a process is at. The threads of a process go on until it exits. -/
inductive ProcessPhase
  | binding (b : BindPhase)
  | serving (v : LeavePhase) (d : DaemonState)
  | dying (locks listens : Bool)
  | exited

/-- The process has the lock file open, and locked. -/
def BindPhase.locks : BindPhase → Bool
  | started | opened => false
  | locked | stale | prepared | bound | tightened => true

/-- The process has a listener. -/
def BindPhase.listens : BindPhase → Bool
  | bound | tightened => true
  | started | opened | locked | stale | prepared => false

def LeavePhase.locks : LeavePhase → Bool
  | listening | removed => true
  | unlocked | dropped => false

def LeavePhase.listens : LeavePhase → Bool
  | listening | removed | unlocked => true
  | dropped => false

namespace ProcessPhase

def locks : ProcessPhase → Bool
  | binding b => b.locks
  | serving v _ => v.locks
  | dying locks _ => locks
  | exited => false

def listens : ProcessPhase → Bool
  | binding b => b.listens
  | serving v _ => v.listens
  | dying _ listens => listens
  | exited => false

/-- The process has bound the socket, and has not come to remove it. -/
def Published : ProcessPhase → Prop
  | binding .bound | binding .tightened | serving .listening _ => True
  | _ => False

/-- The process runs its program. -/
def Alive : ProcessPhase → Prop
  | binding _ | serving .. => True
  | dying .. | exited => False

end ProcessPhase

/-- What `connect_or_spawn` is at: it tries whether a daemon is there, it has found one and connects
to it for good, it is connected, it has given up. -/
inductive CallerPhase
  | probing | found | connected (p : Nat) | failed

structure Caller where
  spawned : Option Nat
  phase : CallerPhase

structure RuntimeState where
  dir : RuntimeDir
  procs : Nat → Option ProcessPhase
  callers : Nat → Option Caller

namespace RuntimeState

/-- Nothing runs. A socket may have been left behind. -/
def start (leftover : Option Bool) : RuntimeState where
  dir := ⟨none, leftover.map (⟨none, ·⟩)⟩
  procs := fun _ => none
  callers := fun _ => none

/-- `p` is a process, at `ph`. -/
def At (s : RuntimeState) (p : Nat) (ph : ProcessPhase) : Prop := s.procs p = some ph

/-- `j` is a client, at `c`. -/
def Calls (s : RuntimeState) (j : Nat) (c : Caller) : Prop := s.callers j = some c

def setProc (s : RuntimeState) (p : Nat) (ph : ProcessPhase) : RuntimeState :=
  { s with procs := Function.update s.procs p (some ph) }

/-- A process goes on. -/
def moved (s : RuntimeState) (p : Nat) (ph : ProcessPhase) (g : RuntimeDir) : RuntimeState :=
  { s.setProc p ph with dir := g }

def setCaller (s : RuntimeState) (j : Nat) (c : Caller) : RuntimeState :=
  { s with callers := Function.update s.callers j (some c) }

def Published (s : RuntimeState) (p : Nat) : Prop := ∃ ph, s.At p ph ∧ ph.Published

/-- Who connects to the path of the socket is connected to `p`. -/
def Reaches (s : RuntimeState) (p : Nat) : Prop :=
  (∃ only, s.dir.shared = some ⟨some p, only⟩) ∧ ∃ ph, s.At p ph ∧ ph.listens = true

end RuntimeState

/-! ## Steps -/

inductive ProcessEvent
  /-- The lock file is opened, and locked, or another holds the lock. -/
  | opened | locked | lockHeld
  /-- Something is at the path, or nothing; what is there is removed. -/
  | found | absent | unlinked
  | bound | tightened | served
  /-- A step of the daemon that serves. -/
  | inner (e : Event)
  /-- `serve` removes the socket, or fails to; lock file and listener are dropped; `main`
  returns. -/
  | removed | kept | unlocked | dropped | exited
  /-- The process is killed, or exits on an error. Its descriptors are closed. -/
  | killed | lockClosed | listenerClosed | gone

/-- What the process `p` does. -/
inductive ProcessStep (cfg : DaemonConfig) (R : Retrieval) (p : Nat) :
    ProcessPhase → RuntimeDir → ProcessEvent → ProcessPhase → RuntimeDir → Prop
  | opened {g} : ProcessStep cfg R p (.binding .started) g .opened (.binding .opened) g
  | locked {r} : ProcessStep cfg R p (.binding .opened) ⟨none, r⟩ .locked (.binding .locked)
    ⟨some p, r⟩
  | lockHeld {q r} : ProcessStep cfg R p (.binding .opened) ⟨some q, r⟩ .lockHeld
      (.dying false false) ⟨some q, r⟩
  -- `prepare_socket_path`
  | found {l f} : ProcessStep cfg R p (.binding .locked) ⟨l, some f⟩ .found (.binding .stale)
    ⟨l, some f⟩
  | absent {l} : ProcessStep cfg R p (.binding .locked) ⟨l, none⟩ .absent (.binding .prepared)
    ⟨l, none⟩
  | unlinked {l f} : ProcessStep cfg R p (.binding .stale) ⟨l, some f⟩ .unlinked
      (.binding .prepared) ⟨l, none⟩
  -- A path that is taken cannot be bound.
  | bound {l only} : ProcessStep cfg R p (.binding .prepared) ⟨l, none⟩ .bound (.binding .bound)
      ⟨l, some ⟨some p, only⟩⟩
  -- The mode is set and looked at by the path, not by the listener.
  | tightened {l f} : ProcessStep cfg R p (.binding .bound) ⟨l, some f⟩ .tightened
      (.binding .tightened) ⟨l, some ⟨f.owner, true⟩⟩
  | served {l f} : f.ownerOnly = true →
      ProcessStep cfg R p (.binding .tightened) ⟨l, some f⟩ .served
      (.serving .listening .start) ⟨l, some f⟩
  | inner {v d e d' g} : DaemonStep cfg R d e d' →
    ProcessStep cfg R p (.serving v d) g (.inner e) (.serving v d') g
  -- The end of `serve`. That the socket cannot be removed is ignored.
  | removed {d l f} : d.serve = .returned →
      ProcessStep cfg R p (.serving .listening d) ⟨l, f⟩ .removed (.serving .removed d) ⟨l, none⟩
  | kept {d g} : d.serve = .returned → ProcessStep cfg R p (.serving .listening d) g .kept
      (.serving .removed d) g
  | unlocked {d l r} : ProcessStep cfg R p (.serving .removed d) ⟨l, r⟩ .unlocked
      (.serving .unlocked d) ⟨none, r⟩
  | dropped {d g} : ProcessStep cfg R p (.serving .unlocked d) g .dropped (.serving .dropped d) g
  | exited {d g} : ProcessStep cfg R p (.serving .dropped d) g .exited .exited g
  | killed {ph g} : ph.Alive → ProcessStep cfg R p ph g .killed (.dying ph.locks ph.listens) g
  | lockClosed {listens l r} : ProcessStep cfg R p (.dying true listens) ⟨l, r⟩ .lockClosed
      (.dying false listens) ⟨none, r⟩
  | listenerClosed {locks g} : ProcessStep cfg R p (.dying locks true) g .listenerClosed
      (.dying locks false) g
  | gone {g} : ProcessStep cfg R p (.dying false false) g .gone .exited g

inductive RuntimeEvent
  /-- A process is started by hand, or takes a step. -/
  | launched (p : Nat) | process (p : Nat) (e : ProcessEvent)
  /-- A client calls, finds a daemon, spawns one, is connected, or gives up. -/
  | called (j : Nat) | probed (j : Nat) | spawned (j p : Nat) | connected (j : Nat)
  | gaveUp (j : Nat)

inductive RuntimeStep (cfg : Nat → DaemonConfig) (R : Retrieval) :
    RuntimeState → RuntimeEvent → RuntimeState → Prop
  | launched {s p} : s.procs p = none →
    RuntimeStep cfg R s (.launched p) (s.setProc p (.binding .started))
  | process {s p ph e ph' g} : s.At p ph → ProcessStep (cfg p) R p ph s.dir e ph' g →
    RuntimeStep cfg R s (.process p e) (s.moved p ph' g)
  | called {s j} : s.callers j = none →
    RuntimeStep cfg R s (.called j) (s.setCaller j ⟨none, .probing⟩)
  | probed {s j c p} : s.Calls j c → c.phase = .probing → s.Reaches p →
    RuntimeStep cfg R s (.probed j) (s.setCaller j { c with phase := .found })
  -- A connection can fail also where there is a daemon.
  | spawned {s j c p} : s.Calls j c → c.phase = .probing → c.spawned = none → s.procs p = none →
    RuntimeStep cfg R s (.spawned j p)
      ((s.setProc p (.binding .started)).setCaller j { c with spawned := some p })
  | connected {s j c p} : s.Calls j c → c.phase = .found → s.Reaches p →
    RuntimeStep cfg R s (.connected j) (s.setCaller j { c with phase := .connected p })
  | gaveUp {s j c} : s.Calls j c → c.phase = .probing ∨ c.phase = .found →
    RuntimeStep cfg R s (.gaveUp j) (s.setCaller j { c with phase := .failed })

/-- The runs of processes and clients. -/
abbrev RuntimeRun (cfg : Nat → DaemonConfig) (R : Retrieval) :
    RuntimeState → List RuntimeEvent → RuntimeState → Prop :=
  Trace (RuntimeStep cfg R)

end SiftMcp
