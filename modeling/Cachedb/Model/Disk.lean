import Cachedb.Lib.SortedMap
import Cachedb.Lib.Cut
import Cachedb.Model.Record

/-!
# The data directory and the calls made on it

The engine talks to the disk through a handful of system calls on a handful
of names: the log, the two temporary files, and the numbered tables. A `Disk`
is what the kernel would show of that directory, and an `Event` is one call
that returned, or one of three markers that are no call at all and only date
what the program knew against what it had asked for.

Calls that fail without effect leave no event, with two exceptions: a write
that fails part way is the write of what landed, and a failed `fsync` is
recorded as such, because how often the disk was asked is itself a property.
What an `fsync` promises is not visible here; `Media.lean` says what a loss
of power may take away.

A table is named by its sequence number. `FileNames.lean` has the names as they
are spelled, and what the constructor makes of other names.
-/

namespace Cachedb

/-- The names the engine uses in its directory: `wal.log`, `flush.tmp`,
`compact.tmp` and `NNNNNN.sst`. -/
inductive FileName where
  | log
  | flushTmp
  | compactTmp
  | table (sequence : Nat)
  deriving DecidableEq, Repr

inductive Event where
  /-- `open(O_WRONLY | O_CREAT | O_TRUNC)`. -/
  | openTrunc (file : FileName)
  /-- `open(O_WRONLY | O_CREAT | O_APPEND)`. -/
  | openAppend (file : FileName)
  | write (file : FileName) (data : Bytes)
  | fsync (file : FileName) (ok : Bool)
  | ftruncate (file : FileName) (length : Nat)
  | rename (src dst : FileName)
  | unlink (file : FileName)
  | fsyncDir (ok : Bool)
  /-- Marker: these mutations are about to be handed to the log. -/
  | began (ms : List Mutation)
  /-- Marker: these mutations were accepted and are in the memtable. -/
  | applied (ms : List Mutation)
  /-- `send` accepted these bytes for a client. -/
  | sent (fd : Nat) (data : Bytes)
  deriving DecidableEq, Repr

/-- A call that was stopped inside: only a write can be, after any number of
its bytes. -/
inductive Event.Torn : Event → Event → Prop where
  | write (file : FileName) (data : Bytes) (n : Nat) :
      Event.Torn (.write file data) (.write file (data.take n))

/-- What the kernel holds of the directory. -/
structure Disk where
  log : Option Bytes := none
  flushTmp : Option Bytes := none
  compactTmp : Option Bytes := none
  tables : SortedMap Nat Bytes := SortedMap.empty
  deriving DecidableEq

namespace Disk

def read (d : Disk) : FileName → Option Bytes
  | .log => d.log
  | .flushTmp => d.flushTmp
  | .compactTmp => d.compactTmp
  | .table seq => d.tables.find seq

def put (d : Disk) (file : FileName) (data : Bytes) : Disk :=
  match file with
  | .log => { d with log := some data }
  | .flushTmp => { d with flushTmp := some data }
  | .compactTmp => { d with compactTmp := some data }
  | .table seq => { d with tables := d.tables.insert seq data }

def remove (d : Disk) : FileName → Disk
  | .log => { d with log := none }
  | .flushTmp => { d with flushTmp := none }
  | .compactTmp => { d with compactTmp := none }
  | .table seq => { d with tables := d.tables.erase seq }

def apply (d : Disk) : Event → Disk
  | .openTrunc file => d.put file []
  | .openAppend file => d.put file ((d.read file).getD [])
  | .write file data => d.put file ((d.read file).getD [] ++ data)
  | .ftruncate file length => d.put file (((d.read file).getD []).take length)
  | .rename src dst =>
      match d.read src with
      | some data => (d.remove src).put dst data
      | none => d
  | .unlink file => d.remove file
  | .fsync _ _ => d
  | .fsyncDir _ => d
  | .began _ => d
  | .applied _ => d
  | .sent _ _ => d

def run (d : Disk) (es : List Event) : Disk := es.foldl apply d

@[simp] theorem run_nil (d : Disk) : d.run [] = d := rfl

@[simp] theorem run_cons (d : Disk) (e : Event) (es : List Event) :
    d.run (e :: es) = (d.apply e).run es := rfl

theorem run_append (d : Disk) (xs ys : List Event) :
    d.run (xs ++ ys) = (d.run xs).run ys := by
  simp [run]

/-- `file_size`: a name that cannot be stat'ed counts as empty. -/
def fileSize (d : Disk) (file : FileName) : Nat := ((d.read file).getD []).length

/-- The bytes `replay` finds: a missing log is an empty one. -/
def logBytes (d : Disk) : Bytes := d.log.getD []

end Disk

end Cachedb
