import Cachedb.Lib.Resume
import Cachedb.Model.Server
import Cachedb.Spec.Operations

/-!
# A plain server

What the server is for, seen from its clients: one map, and one command after
the other. It has no log and no tables, so nothing of it is flushed, merged,
swept or synced, and no call on a disk can fail. A client is what it has sent
that is no command yet, and what it is owed; its output is one list of bytes,
of which a `send` takes some from the front.

Bytes that arrive are first read to the end, all commands that are complete are
then run, and the answers are put behind what the client is owed.
-/

namespace Cachedb

open Resume

/-- Every command that is complete, and where that leaves the parser. -/
def RespParser.readAll : Nat → RespParser → Bytes → List Command × End RespParser UInt8 Bytes
  | 0, p, inp => ([], .waits p inp)
  | fuel + 1, p, inp =>
      match p.parse inp with
      | (p, { consumed, .. }, some cmd) =>
          let rest := readAll fuel p (inp.drop consumed)
          (cmd :: rest.1, rest.2)
      | (_, { status := .protocolError, error, .. }, none) => ([], .failed error)
      | (p, { consumed, .. }, none) => ([], .waits p (inp.drop consumed))

structure Client where
  parser : RespParser := {}
  unread : Bytes := []
  owed : Bytes := []
  closing : Bool := false
  deriving DecidableEq, Repr

/-- The client behind a read: it was told the answers and, if the parser gave up,
the error it is closed with. -/
def Client.told (client : Client) (said : Bytes) : End RespParser UInt8 Bytes → Client
  | .waits parser unread => { client with parser, unread, owed := client.owed ++ said }
  | .failed error =>
      { client with
        owed := client.owed ++ said ++ errorReply (text "ERR " ++ error), closing := true }

structure PlainServer where
  policy : Option SyncPolicy := none
  map : RefMap := RefMap.empty
  /-- What the next `INFO`s report. -/
  reports : List Bytes := []
  clients : Nat → Option Client := fun _ => none
  /-- Every command so far, and who gave it. -/
  heard : List (Nat × Command) := []

namespace PlainServer

def setClient (p : PlainServer) (fd : Nat) (client : Option Client) : PlainServer :=
  { p with clients := fun fd' => if fd' = fd then client else p.clients fd' }

/-! ## Commands -/

def execute (p : PlainServer) (fd : Nat) (env : Env) (cmd : Command) : PlainServer × Bytes :=
  let done := cmd.answer p.policy (p.reports.headD []) p.map env
  ({ p with
      map := done.1
      reports := if cmd.IsNamed "info" then p.reports.tail else p.reports
      heard := p.heard ++ [(fd, cmd)] }, done.2)

/-- One command after the other, and everything that is said to them. -/
def executeAll (p : PlainServer) (fd : Nat) (envs : Nat → Env) :
    List Command → PlainServer × Bytes
  | [] => (p, [])
  | cmd :: cmds =>
      let one := p.execute fd (envs 0) cmd
      let rest := one.1.executeAll fd (fun n => envs (n + 1)) cmds
      (rest.1, one.2 ++ rest.2)

/-! ## Clients -/

/-- A socket that is new and was taken becomes a client. -/
def accept (p : PlainServer) : List (Nat × Bool) → PlainServer
  | [] => p
  | (fd, ok) :: rest =>
      if ok ∧ p.clients fd = none then (p.setClient fd (some {})).accept rest else p.accept rest

/-- What a client sent is executed and answered. One that is about to be closed
is not listened to. -/
def receive (p : PlainServer) (fd : Nat) (client : Client) (bytes : Bytes) (envs : Nat → Env) :
    PlainServer :=
  if client.closing then p
  else
    let inp := client.unread ++ bytes
    let read := client.parser.readAll (inp.length + 1) inp
    let done := p.executeAll fd envs read.1
    done.1.setClient fd (some (client.told done.2 read.2))

/-- A socket that is ready, and whether its client is still there. -/
def service (p : PlainServer) (fd : Nat) (hungUp : Bool) (read : Option Read)
    (envs : Nat → Env) : Bool × PlainServer :=
  match p.clients fd with
  | none => (false, p)
  | some client =>
      if hungUp then (false, p.setClient fd none)
      else
        match read with
        | none | some .wouldBlock => (true, p)
        | some .closed | some .failed => (false, p.setClient fd none)
        | some (.data bytes) => (true, p.receive fd client bytes envs)

/-- All that are ready, one after the other. Also returns those still there. -/
def serve (p : PlainServer) : List Ready → List Nat × PlainServer
  | [] => ([], p)
  | .listener accepted :: rest => (p.accept accepted).serve rest
  | .socket fd hungUp read envs :: rest =>
      let one := p.service fd hungUp read envs
      let later := one.2.serve rest
      (if one.1 then fd :: later.1 else later.1, later.2)

/-! ## Sending -/

/-- What is left of the bytes owed, the pieces that were taken, and whether the
socket is still good. -/
def hand (owed : Bytes) : List Send → Bool × Bytes × List Bytes
  | [] => (true, owed, [])
  | send :: sends =>
      if owed = [] then (true, owed, [])
      else
        match send with
        | .wouldBlock => (true, owed, [])
        | .failed => (false, owed, [])
        | .took n =>
            if owed.take n = [] then (false, owed, [])
            else
              let rest := hand (owed.drop n) sends
              (rest.1, rest.2.1, owed.take n :: rest.2.2)

/-- A client is handed what it is owed. It is gone if the socket is bad, or if
it was about to be closed and nothing is left. -/
def release (p : PlainServer) (fd : Nat) (sends : List Send) : PlainServer × List (Nat × Bytes) :=
  match p.clients fd with
  | none => (p, [])
  | some client =>
      let (ok, owed, taken) := hand client.owed sends
      (if !ok || client.closing && owed.isEmpty then p.setClient fd none
        else p.setClient fd (some { client with owed }),
        taken.map fun data => (fd, data))

def releaseAll (p : PlainServer) (sends : Nat → List Send) :
    List Nat → PlainServer × List (Nat × Bytes)
  | [] => (p, [])
  | fd :: fds =>
      let one := p.release fd (sends 0)
      let rest := one.1.releaseAll (fun n => sends (n + 1)) fds
      (rest.1, one.2 ++ rest.2)

/-! ## Turns -/

def turn (p : PlainServer) (it : Iteration) : PlainServer × List (Nat × Bytes) :=
  (p.serve it.ready).2.releaseAll it.sends (p.serve it.ready).1

/-- Turn after turn, and everything that was sent to anybody. -/
def run (p : PlainServer) : List Iteration → PlainServer × List (Nat × Bytes)
  | [] => (p, [])
  | it :: its =>
      let one := p.turn it
      let rest := one.1.run its
      (rest.1, one.2 ++ rest.2)

end PlainServer

end Cachedb
