import Cachedb.Model.Sstable

/-!
# Merging tables

`compact` walks its inputs, newest first, through a heap of cursor heads:
smallest key first, and among equal keys the newest input first. The first
time a key comes out of the heap it is the newest version of it, and every
later one is superseded. A tombstone or an expired entry is left out as well
when nothing older survives the merge.

The order of the heap is total on the heads it can hold, one per input, so the
heap is kept as the list of its heads in the order they come out.
-/

namespace Cachedb

/-- One input's position in the merge. -/
structure Head where
  input : Nat
  key : Bytes
  deriving DecidableEq, Repr

/-- `Order`, turned around: `a` comes out of the heap before `b`. -/
def Head.before (a b : Head) : Bool :=
  if a.key ≠ b.key then a.key < b.key else a.input < b.input

/-- `heap.push`. -/
def heapPush (h : Head) : List Head → List Head
  | [] => [h]
  | top :: rest => if h.before top then h :: top :: rest else top :: heapPush h rest

structure CompactionResult where
  ok : Bool := false
  written : Nat := 0
  dropped : Nat := 0
  /-- What goes to `out_path`. -/
  file : Bytes := []

/-- The locals of `compact`. -/
structure Merge where
  cursors : List Cursor
  heap : List Head
  writer : SstableWriter
  previous : Option Bytes := none
  written : Nat := 0
  dropped : Nat := 0

/-- A row that exists only to hide something older. -/
def Cursor.obsolete (c : Cursor) (now : Int64) : Bool :=
  c.tombstone || expired c.expiresAtMs now

/-- What the loop body does with the entry under `cursor`, before advancing
it. -/
def Merge.emit (m : Merge) (cursor : Cursor) (key : Bytes) (dropObsolete : Bool)
    (now : Int64) : Merge :=
  if m.previous = some key then { m with dropped := m.dropped + 1 }
  else if dropObsolete && cursor.obsolete now then
    { m with dropped := m.dropped + 1, previous := some key }
  else
    { m with
      writer := m.writer.add cursor.key
        { value := cursor.value, tombstone := cursor.tombstone,
          expiresAtMs := cursor.expiresAtMs }
      written := m.written + 1
      previous := some key }

/-- The merge loop; `none` where the source gives up on a failed cursor. Every
round advances one cursor past an entry, so the bytes of the inputs are fuel
enough. -/
def mergeLoop (dropObsolete : Bool) (now : Int64) : Nat → Merge → Option Merge
  | 0, _ => none
  | fuel + 1, m =>
      match m.heap with
      | [] => some m
      | head :: heap =>
          match m.cursors[head.input]? with
          | none => none
          | some cursor =>
              let m := { m with heap }.emit cursor head.key dropObsolete now
              let cursor := cursor.next
              if cursor.failed then none
              else
                mergeLoop dropObsolete now fuel
                  { m with
                    cursors := m.cursors.set head.input cursor
                    heap := if cursor.valid then heapPush ⟨head.input, cursor.key⟩ m.heap
                      else m.heap }

/-- The heads the loop starts from. -/
def firstHeads (cursors : List Cursor) : List Head :=
  cursors.zipIdx.foldl
    (fun heap p => if p.1.valid then heapPush ⟨p.2, p.1.key⟩ heap else heap) []

/-- `compact`, its inputs newest first. -/
def compact (inputs : List Sstable) (bitsPerKey : Int) (dropObsolete : Bool)
    (now : Int64) : CompactionResult :=
  let cursors := inputs.map Sstable.cursor
  if cursors.any (·.failed) then {}
  else
    let fuel := (inputs.map (·.dataEnd)).sum + 1
    match mergeLoop dropObsolete now fuel
      { cursors, heap := firstHeads cursors, writer := { bitsPerKey } } with
    | none => {}
    | some m =>
        { ok := true, written := m.written, dropped := m.dropped, file := m.writer.finish }

end Cachedb
