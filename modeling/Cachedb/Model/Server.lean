import Cachedb.Model.Connection

/-!
# The event loop

One turn of `Server::run` reads every ready socket and executes what the bytes
complete, syncs the log if it has to, and only then sends. What the outside
decides in a turn is an `Iteration`: which sockets are ready and what reading
them gives, whether the `fsync` succeeds, how much each `send` takes, and the
surroundings of the calls on the store. The log the loop syncs is the one the
store appends to.

A `send` leaves a `sent` event among the calls on the data directory, so a
run's events show in which order things were asked of the disk and promised to
clients. A turn also returns the commands it executed.

The loop body is modelled once per ready notification in the batch it came in;
a wait that was interrupted is no turn.
-/

namespace Cachedb

def kSweepBudget : Nat := 100

/-- What one `read` asks for. -/
def kReadChunk : Nat := 16 * 1024

/-- The readiness a socket is registered for. -/
structure Interest where
  input : Bool := true
  output : Bool := false
  deriving DecidableEq, Repr

structure ConnState where
  conn : Connection := {}
  /-- The cached copy. -/
  interest : Interest := {}
  /-- What epoll was last told. -/
  registered : Interest := {}
  deriving DecidableEq, Repr

structure Server where
  engine : Engine
  conns : SortedMap Nat ConnState := SortedMap.empty

/-- How a `read` on a socket ends, signals aside. -/
inductive Read where
  | data (bytes : Bytes)
  | closed
  | wouldBlock
  | failed
  deriving DecidableEq, Repr

/-- How a `send` ends, signals aside. -/
inductive Send where
  | took (n : Nat)
  | wouldBlock
  | failed
  deriving DecidableEq, Repr

/-- One entry of an epoll batch. -/
inductive Ready where
  /-- The listener, with the sockets it accepts and whether epoll took them. -/
  | listener (accepted : List (Nat × Bool))
  /-- A socket: whether it hung up, what reading gives if it is readable, and
  the surroundings of the commands read. -/
  | socket (fd : Nat) (hungUp : Bool) (read : Option Read) (envs : Nat → Env)

/-- What the outside decides in one turn of the loop. -/
structure Iteration where
  ready : List Ready := []
  /-- The clock and the outcome of the turn's `fsync`. -/
  now : Reading := {}
  sync : Bool := true
  /-- By position among the sockets touched: its sends, and whether epoll takes
  a change of interest. -/
  sends : Nat → List Send := fun _ => []
  epollCtl : Nat → Bool := fun _ => true
  sweep : Env := {}
  compact : Env := {}
  tick : Reading := {}
  tickSync : Bool := true

/-- What a part of the loop did. -/
structure Turn where
  server : Server
  events : List Event := []
  commands : List Command := []
  /-- `run` goes on. -/
  ok : Bool := true

namespace Server

/-- The server after a call on its store. -/
def after {α : Type} (s : Server) (o : Outcome α) : Server :=
  { s with engine := { store := o.store, disk := s.engine.disk.run o.events } }

/-- `Server::close_connection`. -/
def closeConnection (s : Server) (fd : Nat) : Server := { s with conns := s.conns.erase fd }

def setConn (s : Server) (fd : Nat) (state : ConnState) : Server :=
  { s with conns := s.conns.insert fd state }

/-- `Server::accept_ready`. -/
def acceptReady (s : Server) : List (Nat × Bool) → Server
  | [] => s
  | (fd, ok) :: rest =>
      if ok ∧ s.conns.find fd = none then (s.setConn fd {}).acceptReady rest
      else s.acceptReady rest

/-- `Server::service`, and whether the connection is still there. -/
def service (s : Server) (fd : Nat) (hungUp : Bool) (read : Option Read) (envs : Nat → Env) :
    Bool × Turn :=
  match s.conns.find fd with
  | none => (false, { server := s })
  | some state =>
      if hungUp then (false, { server := s.closeConnection fd })
      else
        match read with
        | none => (true, { server := s })
        | some .wouldBlock => (true, { server := s })
        | some .closed => (false, { server := s.closeConnection fd })
        | some .failed => (false, { server := s.closeConnection fd })
        | some (.data bytes) =>
            let fed := state.conn.onBytes bytes s.engine.store envs
            let engine : Engine := { store := fed.store, disk := s.engine.disk.run fed.events }
            (true, {
              server := { s with engine }.setConn fd { state with conn := fed.conn }
              events := fed.events, commands := fed.commands })

/-- The first half of a turn: the batch is read and executed. Also returns the
sockets touched. -/
def serviceAll (s : Server) : List Ready → List Nat × Turn
  | [] => ([], { server := s })
  | .listener accepted :: rest => (s.acceptReady accepted).serviceAll rest
  | .socket fd hungUp read envs :: rest =>
      let (there, turn) := s.service fd hungUp read envs
      let (touched, later) := turn.server.serviceAll rest
      (if there then fd :: touched else touched,
        { later with
          events := turn.events ++ later.events
          commands := turn.commands ++ later.commands })

/-- `wal_.needs_sync() && !wal_.sync()`: the log's part in a turn. -/
def syncLog (s : Server) (now : Reading) (sync : Bool) : Turn :=
  let o := s.engine.store.onLog fun w =>
    if w.needsSync then w.sync now sync else { ok := true, wal := w, events := [] }
  { server := s.after o, events := o.events, ok := o.ret }

/-- `Server::write_pending`: what is left of the output, the bytes that went
out, and whether the socket is still good. Once the outcomes run out the
socket is full. -/
def writePending (fd : Nat) (conn : Connection) : List Send → Bool × Connection × List Event
  | [] => (true, conn, [])
  | send :: sends =>
      if !conn.hasPendingOutput then (true, conn, [])
      else
        match send with
        | .wouldBlock => (true, conn, [])
        | .failed => (false, conn, [])
        | .took n =>
            let data := conn.pendingOutput.take n
            if data = [] then (false, conn, [])
            else
              let rest := writePending fd (conn.consumeOutput data.length) sends
              (rest.1, rest.2.1, .sent fd data :: rest.2.2)

/-- `Server::update_interest`. -/
def updateInterest (state : ConnState) (epollCtl : Bool) : ConnState :=
  let want : Interest := { input := true, output := state.conn.hasPendingOutput }
  if want = state.interest ∨ !epollCtl then state
  else { state with interest := want, registered := want }

/-- `Server::release`. -/
def release (s : Server) (fd : Nat) (sends : List Send) (epollCtl : Bool) : Turn :=
  match s.conns.find fd with
  | none => { server := s }
  | some state =>
      let (ok, conn, events) := writePending fd state.conn sends
      if !ok || conn.shouldClose then { server := s.closeConnection fd, events }
      else { server := s.setConn fd (updateInterest { state with conn } epollCtl), events }

/-- The second half: every socket touched is released, the `n`-th with its own
outcomes. -/
def releaseAll (s : Server) (sends : Nat → List Send) (epollCtl : Nat → Bool) :
    List Nat → Turn
  | [] => { server := s }
  | fd :: fds =>
      let turn := s.release fd (sends 0) (epollCtl 0)
      let rest := turn.server.releaseAll (fun n => sends (n + 1)) (fun n => epollCtl (n + 1)) fds
      { rest with events := turn.events ++ rest.events }

/-- What the loop does besides its clients: the sweep, a merge, and the sync of
the `everysec` policy, whose failure is only reported. -/
def housekeeping (s : Server) (it : Iteration) : Turn :=
  let swept := s.engine.store.sweepExpired kSweepBudget it.sweep
  let s := s.after swept
  let merged := s.engine.store.maybeCompact s.engine.disk it.compact
  let s := s.after merged
  let ticked := s.engine.store.onLog fun w => w.maybeSync it.tick it.tickSync
  { server := s.after ticked, events := swept.events ++ merged.events ++ ticked.events }

/-- One turn of the loop of `Server::run`. -/
def iterate (s : Server) (it : Iteration) : Turn :=
  let (touched, served) := s.serviceAll it.ready
  let synced := served.server.syncLog it.now it.sync
  let before := served.events ++ synced.events
  if !synced.ok then { synced with events := before, commands := served.commands }
  else
    let released := synced.server.releaseAll it.sends it.epollCtl touched
    let kept := released.server.housekeeping it
    { kept with
      events := before ++ released.events ++ kept.events, commands := served.commands }

/-- Turns of `Server::run`, up to the one that gives up. -/
def run (s : Server) : List Iteration → Turn
  | [] => { server := s }
  | it :: its =>
      let turn := s.iterate it
      if !turn.ok then turn
      else
        let rest := turn.server.run its
        { rest with
          events := turn.events ++ rest.events, commands := turn.commands ++ rest.commands }

/-- What `Server::run` does once it is told to stop. -/
def shutdown (s : Server) (now : Reading) (sync : Bool) : Turn :=
  let o := s.engine.store.onLog fun w => w.sync now sync
  { server := s.after o, events := o.events }

/-! ## The connections -/

/-- Every connection has `P`. -/
def Every (P : Nat → ConnState → Prop) (s : Server) : Prop :=
  ∀ fd state, s.conns.find fd = some state → P fd state

variable {P : Nat → ConnState → Prop} {s : Server}

theorem Every.setConn (h : s.Every P) {fd : Nat} {state : ConnState} (hstate : P fd state) :
    (s.setConn fd state).Every P := by
  intro fd' state' hfind
  rw [Server.setConn, SortedMap.find_insert] at hfind
  split at hfind
  · next heq =>
      rw [heq, ← Option.some.inj hfind]
      exact hstate
  · exact h fd' state' hfind

theorem Every.closeConnection (h : s.Every P) (fd : Nat) : (s.closeConnection fd).Every P := by
  intro fd' state' hfind
  rw [Server.closeConnection, SortedMap.find_erase] at hfind
  split at hfind
  · cases hfind
  · exact h fd' state' hfind

theorem Every.acceptReady (hnew : ∀ fd, P fd {}) {accepted : List (Nat × Bool)} :
    ∀ {s : Server}, s.Every P → (s.acceptReady accepted).Every P := by
  induction accepted with
  | nil => exact fun h => h
  | cons p rest ih =>
      intro s h
      rw [Server.acceptReady]
      split
      · exact ih (h.setConn (hnew p.1))
      · exact ih h

end Server

/-- The server `main` starts on a directory. -/
def Outcome.serve {α : Type} (o : Outcome α) (d : Disk) : Server :=
  { engine := { store := o.store, disk := d.run o.events } }

end Cachedb
