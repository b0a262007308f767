import Cachedb.Model.Command

/-!
# One client

A `Connection` is fed the bytes a socket delivered and keeps the bytes that
are still to be sent. It executes every command the new bytes complete, one
after the other, and appends each reply to its output. What it executed is
part of what `Connection.onBytes` returns, so that a run of the server can be
compared with its commands.
-/

namespace Cachedb

structure Connection where
  parser : RespParser := {}
  inBuf : Bytes := []
  out : Bytes := []
  outPos : Nat := 0
  maxReadBuffer : Nat := 512 * 1024 * 1024
  closing : Bool := false
  deriving DecidableEq, Repr

namespace Connection

def kCompactThreshold : Nat := 64 * 1024

def pendingOutput (c : Connection) : Bytes := c.out.drop c.outPos

def hasPendingOutput (c : Connection) : Bool := !c.pendingOutput.isEmpty

def shouldClose (c : Connection) : Bool := c.closing && !c.hasPendingOutput

/-- `Connection::consume_output`. -/
def consumeOutput (c : Connection) (n : Nat) : Connection :=
  let outPos := c.outPos + n
  if outPos = c.out.length then { c with out := [], outPos := 0 }
  else if kCompactThreshold ≤ outPos ∧ c.out.length ≤ outPos * 2 then
    { c with out := c.out.drop outPos, outPos := 0 }
  else { c with outPos }

/-- What the bytes of one read came to: the connection, the store, the calls on
the directory and the commands that were executed. -/
structure Fed where
  conn : Connection
  store : Store
  events : List Event := []
  commands : List Command := []

/-- The loop of `on_bytes`. Every complete command takes a byte at least, so
the length of the buffer bounds the turns. The `n`-th command has the
surroundings `envs n`. -/
def drain (envs : Nat → Env) : Nat → Connection → Store → Fed
  | 0, c, s => { conn := c, store := s }
  | fuel + 1, c, s =>
      let (parser, result, command) := c.parser.parse c.inBuf
      let c := { c with parser, inBuf := c.inBuf.drop result.consumed }
      match result.status, command with
      | .complete, some cmd =>
          let done := execute cmd s (envs 0)
          let rest := drain (fun n => envs (n + 1)) fuel { c with out := c.out ++ done.ret }
            done.store
          { rest with events := done.events ++ rest.events, commands := cmd :: rest.commands }
      | .protocolError, _ =>
          { conn := { c with
              out := c.out ++ errorReply (text "ERR " ++ result.error), closing := true }
            store := s }
      | _, _ => { conn := c, store := s }

/-- `Connection::on_bytes`. -/
def onBytes (c : Connection) (bytes : Bytes) (s : Store) (envs : Nat → Env) : Fed :=
  if c.closing then { conn := c, store := s }
  else if c.maxReadBuffer < c.inBuf.length + bytes.length then
    { conn := { c with
        out := c.out ++ errorReply (text "ERR Protocol error: request too large")
        closing := true }
      store := s }
  else
    let c := { c with inBuf := c.inBuf ++ bytes }
    drain envs (c.inBuf.length + 1) c s

end Connection

end Cachedb
