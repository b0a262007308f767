import Cachedb.Lib.Volume
import Cachedb.Model.Disk

/-!
# The directory under a loss of power

`Disk` is what the kernel shows, and survives the process. What survives the
machine is less: `store.cpp` quotes fsync(2) on it, and `Volume` is that
contract. Here the calls of the engine are spelled out as operations on a
volume whose names are those of the data directory. A directory nobody has
touched since it was last safe is `Disk.media`.
-/

namespace Cachedb

abbrev Media := Volume FileName UInt8

/-- What a call asks of the volume. A sync that failed promises nothing, and a
marker is no call. -/
def Event.ops : Event → List (Volume.Op FileName UInt8)
  | .openTrunc file => [.openFile file, .cut file 0]
  | .openAppend file => [.openFile file]
  | .write file data => [.write file data]
  | .fsync file ok => if ok then [.sync file] else []
  | .ftruncate file length => [.cut file length]
  | .rename src dst => [.move src dst]
  | .unlink file => [.unlink file]
  | .fsyncDir ok => if ok then [.syncDir] else []
  | .began _ => []
  | .applied _ => []
  | .sent _ _ => []

namespace Media

/-- The volume after these calls. -/
def after (m : Media) (es : List Event) : Media := m.run (es.flatMap Event.ops)

@[simp] theorem after_nil (m : Media) : m.after [] = m := rfl

theorem after_append (m : Media) (xs ys : List Event) :
    m.after (xs ++ ys) = (m.after xs).after ys := by
  rw [after, List.flatMap_append, Volume.run, List.foldl_append]
  rfl

end Media

/-- The inode of a file in a directory at rest. -/
def FileName.inode : FileName → Nat
  | .log => 0
  | .flushTmp => 1
  | .compactTmp => 2
  | .table sequence => sequence + 3

def FileName.ofInode : Nat → FileName
  | 0 => .log
  | 1 => .flushTmp
  | 2 => .compactTmp
  | n + 3 => .table n

@[simp] theorem FileName.ofInode_inode (file : FileName) : FileName.ofInode file.inode = file := by
  cases file <;> rfl

/-- A directory at rest: every name and every byte of it is safe. -/
def Disk.media (d : Disk) : Media where
  inodes n := Inode.rest ((d.read (FileName.ofInode n)).getD [])
  next := match d.tables.entries.reverse with
    | [] => 3
    | p :: _ => p.1 + 4
  synced file := if (d.read file).isSome then some file.inode else none
  pending := []

end Cachedb
