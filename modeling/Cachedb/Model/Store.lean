import Cachedb.Model.Compaction
import Cachedb.Model.Wal

/-!
# The store

`Store` puts the layers together: the log first, then the memtable, then the
tables, newest first. A call on it is a function from the store, and what its
surroundings decide, to its answer, the store it leaves and the calls it made
on the data directory (`Outcome`). The surroundings (`Env`) are the readings
of the two clocks, in the order the source takes them, and how every system
call that can fail ends. A call that fails has no effect but the one its
branch in the source gives it.

Two things are left out. A failure to open a temporary file throws, and so
ends the process like a signal would; and a table that was written and renamed
a moment ago is opened again from the bytes that were written.
-/

namespace Cachedb

structure StoreOptions where
  /-- `dir` is not empty. -/
  hasDir : Bool := true
  memtableLimitBytes : Nat := 4 * 1024 * 1024
  bloomBitsPerKey : Int := Bloom.kDefaultBitsPerKey
  useBloom : Bool := true
  useCompaction : Bool := true
  deriving DecidableEq, Repr

structure Store where
  memtable : Memtable := {}
  /-- Newest first. -/
  sstables : List Sstable := []
  options : StoreOptions := {}
  nextSequence : Nat := 1
  sweptKeys : Nat := 0
  compactions : Nat := 0
  flushFailed : Bool := false
  wal : Option Wal := none
  deriving DecidableEq

/-- How many bytes of one file the file system takes; the `write` that goes
past them fails, with `ENOSPC` or `EFBIG`. -/
structure FileRoom where
  bytes : Nat := indexableBytes
  /-- The assumption on the file system: it holds no file in which the number
  of a table's index entries would leave its 32 bits. -/
  indexable : bytes ≤ indexableBytes := by exact Nat.le_refl _
  deriving DecidableEq, Repr

/-- How the calls that write one temporary file end. -/
structure FileFate where
  room : FileRoom := {}
  sync : Bool := true
  deriving DecidableEq, Repr

/-- How the calls of one `Store::flush` end. -/
structure FlushFate where
  file : FileFate := {}
  rename : Bool := true
  unlinkTemp : Bool := true
  fsyncDir : Bool := true
  truncate : TruncateFate := {}
  deriving DecidableEq, Repr

/-- How the calls of one `Store::maybe_compact` end. `unlink n` is about the
`n`-th path of the run. -/
structure CompactFate where
  file : FileFate := {}
  rename : Bool := true
  unlinkTemp : Bool := true
  fsyncDir : Bool := true
  unlink : Nat → Bool := fun _ => true
  fsyncDirAfter : Bool := true
  unlinkTarget : Bool := true
  fsyncDirLast : Bool := true

/-- How the calls of one `Store::flush_all` end. `unlink n` false is an error
other than `ENOENT`. -/
structure FlushAllFate where
  unlink : Nat → Bool := fun _ => true
  fsyncDir : Bool := true
  truncate : TruncateFate := {}

/-- What surrounds one call on the store. -/
structure Env where
  clock : Nat → Reading := fun _ => {}
  /-- `kStartedMs`: the clock when the process began. -/
  startedMs : Int64 := 0
  log : LogFate := {}
  flush : FlushFate := {}
  compact : CompactFate := {}
  flushAll : FlushAllFate := {}

/-- The surroundings after the first reading of the clock. -/
def Env.later (env : Env) : Env := { env with clock := fun n => env.clock (n + 1) }

/-- What a call did. -/
structure Outcome (α : Type) where
  ret : α
  store : Store
  events : List Event := []

/-! ## Reading -/

/-- What the newest layer that knows the key knows about it. -/
def Store.find (s : Store) (key : Bytes) : Option Entry :=
  (s.memtable.find key).or (s.sstables.findSome? fun t => t.get key)

/-- `Store::lookup`. The clock is read at most once, so the reading is an
argument. -/
def Store.lookup (s : Store) (now : Int64) (key : Bytes) : Option Found :=
  (s.find key).bind (Entry.view now)

/-- The loop of `Store::lookup` over the tables, each with what `read_exact`
returns on its descriptor. -/
def findTables (reads : Nat → Nat → Nat → Option Bytes) (key : Bytes) :
    List Sstable → Option Entry
  | [] => none
  | t :: ts => (t.getWith (reads 0) key).or (findTables (fun n => reads (n + 1)) key ts)

/-- `Store::lookup` where reads may fail. -/
def Store.lookupWith (s : Store) (reads : Nat → Nat → Nat → Option Bytes) (now : Int64)
    (key : Bytes) : Option Found :=
  ((s.memtable.find key).or (findTables reads key s.sstables)).bind (Entry.view now)

/-- `Store::get`. -/
def Store.get (s : Store) (now : Int64) (key : Bytes) : Option Bytes :=
  (s.lookup now key).map (·.value)

structure TtlResult where
  isThere : Bool := false
  hasExpiry : Bool := false
  remainingMs : Int64 := 0
  deriving DecidableEq, Repr

/-- `Store::ttl`, with its own second reading of the clock. -/
def Store.ttl (s : Store) (now now' : Int64) (key : Bytes) : TtlResult :=
  match s.lookup now key with
  | none => {}
  | some found =>
      if found.expiresAtMs = 0 then { isThere := true }
      else
        let remaining := found.expiresAtMs - now'
        { isThere := true, hasExpiry := true
          remainingMs := if remaining > 0 then remaining else 0 }

/-! ## Writing -/

/-- A step that concerns the log only; without a log it succeeds. -/
def Store.onLog (s : Store) (f : Wal → Logged) : Outcome Bool :=
  match s.wal with
  | none => { ret := true, store := s }
  | some w =>
      let logged := f w
      { ret := logged.ok, store := { s with wal := some logged.wal }, events := logged.events }

/-- A temporary file is opened, written and fsynced. `ok` false is a merge
that had given up. -/
def writeTemp (temp : FileName) (ok : Bool) (content : Bytes) (fate : FileFate) :
    Bool × List Event :=
  if !ok then (false, [.openTrunc temp, .write temp content])
  else
    let landed := writeAll content (some fate.room.bytes)
    if !landed.2 then (false, [.openTrunc temp, .write temp landed.1])
    else (fate.sync, [.openTrunc temp, .write temp content, .fsync temp fate.sync])

/-- `unlink` where nobody looks at the result. -/
def unlinkEvents (ok : Bool) (file : FileName) : List Event := if ok then [.unlink file] else []

/-- What the writer of a flush is given: the memtable, one pass in key
order. -/
def Store.flushWriter (s : Store) : SstableWriter :=
  SstableWriter.addAll { bitsPerKey := s.options.bloomBitsPerKey } s.memtable.entries.entries

/-- `Store::flush`. -/
def Store.flush (s : Store) (now : Reading) (fate : FlushFate) : Outcome Bool :=
  if !s.options.hasDir || s.memtable.isEmpty then { ret := true, store := s }
  else
    let sequence := s.nextSequence
    let file := s.flushWriter.finish
    let temp := writeTemp .flushTmp true file fate.file
    if !temp.1 || !fate.rename then
      { ret := false, store := s, events := temp.2 ++ unlinkEvents fate.unlinkTemp .flushTmp }
    else
      let named := temp.2 ++ [.rename .flushTmp (.table sequence), .fsyncDir fate.fsyncDir]
      if !fate.fsyncDir then { ret := false, store := s, events := named }
      else
        let cut := s.onLog fun w => w.truncate now fate.truncate
        if !cut.ret then { ret := false, store := cut.store, events := named ++ cut.events }
        else
          match openTable (.table sequence) file s.options.useBloom with
          | none => { ret := false, store := cut.store, events := named ++ cut.events }
          | some table =>
              { ret := true
                store := { cut.store with
                  sstables := table :: s.sstables
                  nextSequence := (sequence + 1) % 2 ^ 64
                  memtable := s.memtable.clear }
                events := named ++ cut.events }

/-- `Store::maybe_flush`. -/
def Store.maybeFlush (s : Store) (now : Reading) (fate : FlushFate) : Outcome Unit :=
  if !s.options.hasDir then { ret := (), store := s }
  else if s.memtable.bytes < s.options.memtableLimitBytes then { ret := (), store := s }
  else
    let flushed := s.flush now fate
    { ret := (), store := { flushed.store with flushFailed := !flushed.ret }
      events := flushed.events }

/-- The order every mutation keeps: the log takes it, or it is refused; then
it is in the memtable, which may now be due for a flush. -/
def Store.mutate {α : Type} (s : Store) (ms : List Mutation) (log : Wal → Logged)
    (memtable : Memtable) (now : Reading) (fate : FlushFate) (refused accepted : α) :
    Outcome α :=
  let logged := s.onLog log
  if !logged.ret then
    { ret := refused, store := logged.store, events := .began ms :: logged.events }
  else
    let flushed := { logged.store with memtable }.maybeFlush now fate
    { ret := accepted, store := flushed.store
      events := .began ms :: logged.events ++ .applied ms :: flushed.events }

/-- `Store::set`. -/
def Store.set (s : Store) (key value : Bytes) (expiresAtMs : Int64) (env : Env) :
    Outcome Bool :=
  let m : Mutation := { op := .kSet, key, value, expiresAtMs }
  s.mutate [m] (fun w => w.append m (env.clock 0) env.log)
    (s.memtable.set key value expiresAtMs) (env.clock 1) env.flush false true

structure DelResult where
  durable : Bool := false
  wasLive : Bool := false
  deriving DecidableEq, Repr

def Mutation.delete (key : Bytes) : Mutation :=
  { op := .kDelete, key, value := [], expiresAtMs := 0 }

/-- `Store::del`. -/
def Store.del (s : Store) (key : Bytes) (env : Env) : Outcome DelResult :=
  let m := Mutation.delete key
  let wasLive := (s.get (env.clock 0).wall key).isSome
  s.mutate [m] (fun w => w.append m (env.clock 1) env.log) (s.memtable.del key).2
    (env.clock 2) env.flush {} { durable := true, wasLive }

structure DelBatchResult where
  durable : Bool := false
  removed : Nat := 0
  deriving DecidableEq, Repr

/-- The loop of `Store::del_many` behind the log: how many keys were live, and
the memtable left. The clock is read once per key. -/
def Store.delLoop (s : Store) (clock : Nat → Reading) : List Bytes → Nat × Memtable
  | [] => (0, s.memtable)
  | key :: keys =>
      let live := (s.get (clock 0).wall key).isSome
      let rest := { s with memtable := (s.memtable.del key).2 }.delLoop
        (fun n => clock (n + 1)) keys
      (rest.1 + live.toNat, rest.2)

/-- `Store::del_many`. -/
def Store.delMany (s : Store) (keys : List Bytes) (env : Env) : Outcome DelBatchResult :=
  let ms := keys.map Mutation.delete
  let loop := s.delLoop env.later.clock keys
  s.mutate ms (fun w => w.appendBatch ms (env.clock 0) env.log) loop.2
    (env.clock (keys.length + 1)) env.flush {} { durable := true, removed := loop.1 }

structure ExpireResult where
  durable : Bool := false
  applied : Bool := false
  deriving DecidableEq, Repr

/-- `Store::expire`. -/
def Store.expire (s : Store) (key : Bytes) (expiresAtMs : Int64) (env : Env) :
    Outcome ExpireResult :=
  match s.lookup (env.clock 0).wall key with
  | none => { ret := { durable := true, applied := false }, store := s }
  | some found =>
      let written := s.set key found.value expiresAtMs env.later
      { ret := if written.ret then { durable := true, applied := true } else {}
        store := written.store, events := written.events }

/-- `Store::sweep_expired`. -/
def Store.sweepExpired (s : Store) (budget : Nat) (env : Env) : Outcome Nat :=
  let swept := s.memtable.sweepExpired (env.clock 0).wall budget
  { ret := swept.1
    store := { s with memtable := swept.2, sweptKeys := s.sweptKeys + swept.1 } }

/-! ## Compaction -/

def kCompactionTrigger : Nat := 4

def kTierRatio : Nat := 2

/-- The inner walk: from table `i` towards the newest, as long as sizes stay
within one tier. -/
def extendRun (sizes : List Nat) : Nat → Nat → Nat
  | 0, _ => 0
  | i + 1, smallest =>
      let candidate := sizes.getD i 0
      let low := min candidate smallest
      let high := max candidate smallest
      if low = 0 ∨ low * kTierRatio < high then i + 1 else extendRun sizes i low

/-- The outer walk, from the oldest table on: `best_begin` and `best_len` of
the first run long enough. -/
def pickRun (sizes : List Nat) : Nat → Nat → Option (Nat × Nat)
  | 0, _ => none
  | fuel + 1, i =>
      if i = 0 then none
      else
        let stop := i
        let i := extendRun sizes i (sizes.getD (i - 1) 0)
        if kCompactionTrigger ≤ stop - i then some (i, stop - i)
        else pickRun sizes fuel (if stop = i then i - 1 else i)

/-- The run `maybe_compact` settles on, if it gets that far. -/
def Store.chooseRun (s : Store) (d : Disk) : Option (Nat × Nat) :=
  if !s.options.useCompaction then none
  else if !s.options.hasDir || s.sstables.length < kCompactionTrigger then none
  else pickRun (s.sstables.map fun t => d.fileSize t.path) s.sstables.length s.sstables.length

/-- The unlinks of the merged inputs, all but the first. -/
def unlinkRun (unlink : Nat → Bool) : Nat → List FileName → List Event
  | _, [] => []
  | n, path :: paths => unlinkEvents (unlink n) path ++ unlinkRun unlink (n + 1) paths

/-- `Store::maybe_compact` on the run of `len` tables at `first`. -/
def Store.compactRun (s : Store) (first len : Nat) (env : Env) : Outcome Nat :=
  let fate := env.compact
  let inputs := (s.sstables.drop first).take len
  let paths := inputs.map (·.path)
  let target := paths.headD .compactTmp
  let merged := compact inputs s.options.bloomBitsPerKey
    (first + len == s.sstables.length) (env.clock 0).wall
  let temp := writeTemp .compactTmp merged.ok merged.file fate.file
  if !temp.1 || !fate.rename then
    { ret := 0, store := s, events := temp.2 ++ unlinkEvents fate.unlinkTemp .compactTmp }
  else
    let named := temp.2 ++ [.rename .compactTmp target, .fsyncDir fate.fsyncDir]
    if !fate.fsyncDir then { ret := 0, store := s, events := named }
    else
      let newer := s.sstables.take first
      let older := s.sstables.drop (first + len)
      let removed := named ++ unlinkRun fate.unlink 1 paths.tail ++ [.fsyncDir fate.fsyncDirAfter]
      if 0 < merged.written then
        match openTable target merged.file s.options.useBloom with
        | none => { ret := 0, store := { s with sstables := newer ++ older }, events := removed }
        | some table =>
            { ret := len - 1
              store := { s with
                sstables := newer ++ table :: older, compactions := s.compactions + 1 }
              events := removed }
      else
        { ret := len
          store := { s with sstables := newer ++ older, compactions := s.compactions + 1 }
          events := removed ++ unlinkEvents fate.unlinkTarget target ++
            [.fsyncDir fate.fsyncDirLast] }

/-- `Store::maybe_compact`. -/
def Store.maybeCompact (s : Store) (d : Disk) (env : Env) : Outcome Nat :=
  match s.chooseRun d with
  | none => { ret := 0, store := s }
  | some (first, len) => s.compactRun first len env

/-! ## Removing everything -/

/-- The unlinks of `flush_all`, and whether none of them failed. -/
def unlinkAll (unlink : Nat → Bool) : Nat → List FileName → Bool × List Event
  | _, [] => (true, [])
  | n, path :: paths =>
      let rest := unlinkAll unlink (n + 1) paths
      (unlink n && rest.1, unlinkEvents (unlink n) path ++ rest.2)

/-- `Store::flush_all`. -/
def Store.flushAll (s : Store) (env : Env) : Outcome Bool :=
  let fate := env.flushAll
  let removed := unlinkAll fate.unlink 0 (s.sstables.map (·.path))
  let s := { s with sstables := [] }
  let synced := if s.options.hasDir then [Event.fsyncDir fate.fsyncDir] else []
  let ok := removed.1 && (!s.options.hasDir || fate.fsyncDir)
  if !ok then { ret := false, store := s, events := removed.2 ++ synced }
  else
    let cut := s.onLog fun w => w.truncate (env.clock 0) fate.truncate
    if !cut.ret then
      { ret := false, store := cut.store, events := removed.2 ++ synced ++ cut.events }
    else
      { ret := true
        store := { cut.store with
          memtable := s.memtable.clear, nextSequence := 1, flushFailed := false }
        events := removed.2 ++ synced ++ cut.events }

/-! ## Starting up -/

/-- `Store::Store(StoreOptions)`: every table in the directory, newest first.
`none` where it throws. -/
def Store.openDir (options : StoreOptions) (d : Disk) : Option (Outcome Unit) :=
  if !options.hasDir then some { ret := (), store := { options } }
  else
    let sequences := d.tables.entries.reverse
    match sequences.mapM fun p => openTable (.table p.1) p.2 options.useBloom with
    | none => none
    | some sstables =>
        some {
          ret := ()
          store := {
            options, sstables
            nextSequence := match sequences with
              | [] => 1
              | p :: _ => (p.1 + 1) % 2 ^ 64 }
          events := [.unlink .compactTmp, .unlink .flushTmp] }

/-- `Memtable` under `Store::apply`. -/
def Memtable.applyRecord (m : Memtable) (r : Record) : Memtable :=
  match r.op with
  | .kSet => m.set r.key r.value r.expiresAtMs
  | .kDelete => (m.del r.key).2

/-- `Store::apply`. -/
def Store.apply (s : Store) (r : Record) : Store :=
  { s with memtable := s.memtable.applyRecord r }

/-- `replay` with `Store::apply`: the tail that does not decode is cut off. -/
def Store.recover (s : Store) (d : Disk) : Outcome Unit :=
  let result := replay d.logBytes
  { ret := (), store := result.records.foldl Store.apply s
    events := if result.truncated then [.ftruncate .log result.goodBytes] else [] }

/-- `Wal::Wal`, on the directory as it is then. -/
def Wal.open (policy : SyncPolicy) (d : Disk) (now : Reading) : Logged :=
  { ok := true
    wal := { policy, size := d.logBytes.length, lastSync := now.steady }
    events := [.openAppend .log] }

/-- How the server is started. -/
structure Config where
  options : StoreOptions := {}
  policy : SyncPolicy := .kAlways
  groupCommit : Bool := true
  deriving DecidableEq, Repr

/-- `main` up to the listener: the constructor, recovery, then the log is
opened for appending. -/
def startup (cfg : Config) (d : Disk) (now : Reading) : Option (Outcome Unit) :=
  match Store.openDir cfg.options d with
  | none => none
  | some opened =>
      let recovered := opened.store.recover (d.run opened.events)
      let events := opened.events ++ recovered.events
      let log := Wal.open cfg.policy (d.run events) now
      some {
        ret := ()
        store := { recovered.store with
          wal := some { log.wal with groupCommit := cfg.groupCommit } }
        events := events ++ log.events }

/-! ## Calls -/

/-- The mutating entry points of the store. -/
inductive Call where
  | set (key value : Bytes) (expiresAtMs : Int64)
  | del (key : Bytes)
  | delMany (keys : List Bytes)
  | expire (key : Bytes) (expiresAtMs : Int64)
  | flush
  | sweepExpired (budget : Nat)
  | maybeCompact
  | flushAll
  deriving DecidableEq, Repr

inductive Reply where
  | set (durable : Bool)
  | del (r : DelResult)
  | delMany (r : DelBatchResult)
  | expire (r : ExpireResult)
  | flush (ok : Bool)
  | swept (count : Nat)
  | compacted (gone : Nat)
  | flushAll (ok : Bool)
  deriving DecidableEq, Repr

def Outcome.map {α β : Type} (f : α → β) (o : Outcome α) : Outcome β :=
  { ret := f o.ret, store := o.store, events := o.events }

def Store.call (s : Store) (d : Disk) (env : Env) : Call → Outcome Reply
  | .set key value expiresAtMs => (s.set key value expiresAtMs env).map .set
  | .del key => (s.del key env).map .del
  | .delMany keys => (s.delMany keys env).map .delMany
  | .expire key expiresAtMs => (s.expire key expiresAtMs env).map .expire
  | .flush => (s.flush (env.clock 0) env.flush).map .flush
  | .sweepExpired budget => (s.sweepExpired budget env).map .swept
  | .maybeCompact => (s.maybeCompact d env).map .compacted
  | .flushAll => (s.flushAll env).map .flushAll

/-- A store and the directory it works on. -/
structure Engine where
  store : Store
  disk : Disk
  deriving DecidableEq

/-- One call with its surroundings. -/
abbrev Step := Call × Env

def Engine.outcome (e : Engine) (step : Step) : Outcome Reply :=
  e.store.call e.disk step.2 step.1

def Engine.step (e : Engine) (step : Step) : Engine :=
  { store := (e.outcome step).store, disk := e.disk.run (e.outcome step).events }

def Engine.run (e : Engine) (steps : List Step) : Engine := steps.foldl Engine.step e

/-- The answers of a run. -/
def Engine.replies (e : Engine) : List Step → List Reply
  | [] => []
  | step :: steps => (e.outcome step).ret :: (e.step step).replies steps

/-- Everything a run asked of the directory. -/
def Engine.events (e : Engine) : List Step → List Event
  | [] => []
  | step :: steps => (e.outcome step).events ++ (e.step step).events steps

end Cachedb
