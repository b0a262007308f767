import Cachedb.Model.Disk

/-!
# The append-only log

`Wal` keeps no buffer of its own: an append is one `write_all` and, under
`kAlways` without group commit, one `fsync`. What can go wrong with it is the
argument each function takes: how many bytes land before a `write` fails, and
whether an `fsync` or an `ftruncate` succeeds. `EINTR` is retried by the
source and so has no outcome here.
-/

namespace Cachedb

inductive SyncPolicy where
  | kAlways
  | kEverySec
  | kNo
  deriving DecidableEq, Repr

/-- One look at the two clocks: `now_ms()` and `steady_clock::now()`. -/
structure Reading where
  wall : Int64 := 0
  steady : Nat := 0
  deriving DecidableEq, Repr

structure Wal where
  policy : SyncPolicy := .kAlways
  groupCommit : Bool := false
  size : Nat := 0
  bytesSinceSync : Nat := 0
  syncs : Nat := 0
  lastSync : Nat := 0
  syncInterval : Nat := 1000
  deriving DecidableEq, Repr

/-- How the calls of one append end. `cut = some n` makes `write` fail once
`n` bytes have landed. -/
structure LogFate where
  cut : Option Nat := none
  sync : Bool := true
  deriving DecidableEq, Repr

/-- How the calls of one `Wal::truncate` end. -/
structure TruncateFate where
  ftruncate : Bool := true
  sync : Bool := true
  deriving DecidableEq, Repr

/-- What a log operation did. -/
structure Logged where
  ok : Bool
  wal : Wal
  events : List Event
  deriving DecidableEq, Repr

/-- `write_all`: the bytes that reached the kernel, and whether all did. A
`write` that fails with nothing left to write is not a failure. -/
def writeAll (data : Bytes) (cut : Option Nat) : Bytes × Bool :=
  match cut with
  | none => (data, true)
  | some n => if n < data.length then (data.take n, false) else (data, true)

namespace Wal

/-- `Wal::sync`. -/
def sync (w : Wal) (now : Reading) (ok : Bool) : Logged :=
  if ok then
    { ok := true
      wal := { w with lastSync := now.steady, bytesSinceSync := 0, syncs := w.syncs + 1 }
      events := [.fsync .log true] }
  else { ok := false, wal := w, events := [.fsync .log false] }

/-- The common tail of `append` and `append_batch`: `buf_` goes down. -/
def commit (w : Wal) (buf : Bytes) (now : Reading) (fate : LogFate) : Logged :=
  let landed := writeAll buf fate.cut
  if !landed.2 then { ok := false, wal := w, events := [.write .log landed.1] }
  else
    let w := { w with
      size := w.size + buf.length, bytesSinceSync := w.bytesSinceSync + buf.length }
    if w.policy = .kAlways ∧ w.groupCommit = false then
      let synced := w.sync now fate.sync
      { synced with events := .write .log buf :: synced.events }
    else { ok := true, wal := w, events := [.write .log buf] }

/-- `Wal::append`. -/
def append (w : Wal) (m : Mutation) (now : Reading) (fate : LogFate) : Logged :=
  w.commit (encodeRecord m now.wall) now fate

/-- One timestamp for the whole batch. -/
def batchBytes (ms : List Mutation) (timestampMs : Int64) : Bytes :=
  ms.flatMap fun m => encodeRecord m timestampMs

/-- `Wal::append_batch`. -/
def appendBatch (w : Wal) (ms : List Mutation) (now : Reading) (fate : LogFate) : Logged :=
  if ms.isEmpty then { ok := true, wal := w, events := [] }
  else w.commit (batchBytes ms now.wall) now fate

/-- `Wal::truncate`. -/
def truncate (w : Wal) (now : Reading) (fate : TruncateFate) : Logged :=
  if !fate.ftruncate then { ok := false, wal := w, events := [] }
  else
    let synced := { w with size := 0, bytesSinceSync := 0 }.sync now fate.sync
    { synced with events := .ftruncate .log 0 :: synced.events }

/-- `Wal::needs_sync`. -/
def needsSync (w : Wal) : Bool := 0 < w.bytesSinceSync

/-- `Wal::maybe_sync`. -/
def maybeSync (w : Wal) (now : Reading) (ok : Bool) : Logged :=
  if w.policy ≠ .kEverySec then { ok := true, wal := w, events := [] }
  else if w.bytesSinceSync = 0 then { ok := true, wal := w, events := [] }
  else if now.steady - w.lastSync < w.syncInterval then { ok := true, wal := w, events := [] }
  else w.sync now ok

end Wal

/-! ## Calls -/

/-- The two ways to append. -/
inductive LogCall where
  | append (m : Mutation)
  | appendBatch (ms : List Mutation)
  deriving DecidableEq, Repr

/-- One append with its surroundings. -/
structure LogStep where
  call : LogCall
  now : Reading := {}
  fate : LogFate := {}
  deriving DecidableEq, Repr

def LogStep.mutations (step : LogStep) : List Mutation :=
  match step.call with
  | .append m => [m]
  | .appendBatch ms => ms

def Wal.step (w : Wal) (step : LogStep) : Logged :=
  match step.call with
  | .append m => w.append m step.now step.fate
  | .appendBatch ms => w.appendBatch ms step.now step.fate

/-- Everything a sequence of appends asks of the directory. A failed one does
not keep the next from being made. -/
def Wal.events (w : Wal) : List LogStep → List Event
  | [] => []
  | step :: steps => (w.step step).events ++ (w.step step).wal.events steps

end Cachedb
