import Cachedb.Model.Bloom
import Cachedb.Model.Disk
import Cachedb.Model.Memtable

/-!
# Table files

A table is an immutable sorted file: the entries in key order, a sparse index
with the offset of roughly one entry in every 4 KB, the bloom block, and a
footer of fixed size that says where the other parts begin. The writer makes
all four in one pass. The reader loads footer, index and filter when it opens
the file, and finds one block of entries per lookup; the cursor walks the
whole data block through a window of its own.

The reader and the cursor each parse entries by themselves in the source, with
the same field accesses. Those accesses are the `entry…` functions here. Where
the source keeps a position into a block, the functions below keep the rest of
the block from that position on.

The writer here makes the bytes of the file and nothing else. A `write` that
fails ends its pass at once, and what has become of the file by then is the
bytes up to that point; the store has this from its surroundings when it writes
a temporary file. `put_u32` keeps 32 bits of the number of index entries, and
nothing keeps the writer from making more of them.
-/

namespace Cachedb

def kTombstoneFlag : UInt8 := 0x01

def kExpiryFlag : UInt8 := 0x02

/-- "CDBSSTv2". -/
def kMagic : Bytes := [0x43, 0x44, 0x42, 0x53, 0x53, 0x54, 0x76, 0x32]

/-- "CDBSSTv1", still read, never written. -/
def kMagicV1 : Bytes := [0x43, 0x44, 0x42, 0x53, 0x53, 0x54, 0x76, 0x31]

def kFooterSize : Nat := 32

def kIndexInterval : Nat := 4096

/-- So many bytes of data have at most 2^32 - 1 index entries. -/
def indexableBytes : Nat := (2 ^ 32 - 1) * kIndexInterval

/-! ## Writing -/

/-- A tombstone is never given an expiry. -/
def Entry.carriesExpiry (e : Entry) : Bool := !e.tombstone && e.expiresAtMs != 0

def Entry.flags (e : Entry) : UInt8 :=
  (if e.tombstone then kTombstoneFlag else 0) ||| (if e.carriesExpiry then kExpiryFlag else 0)

def Entry.stampField (e : Entry) : Bytes :=
  if e.carriesExpiry then putU64 (stampBits e.expiresAtMs) else []

/-- One entry of the data block. -/
def encodeEntry (key : Bytes) (e : Entry) : Bytes :=
  putU32 key.length ++ putU32 e.value.length ++ [e.flags] ++ e.stampField ++ key ++ e.value

structure IndexEntry where
  key : Bytes
  offset : Nat
  deriving DecidableEq, Repr

structure SstableWriter where
  bitsPerKey : Int
  file : Bytes := []
  offset : Nat := 0
  entryCount : Nat := 0
  bloomKeys : List Bytes := []
  index : List IndexEntry := []
  bytesSinceIndex : Nat := 0

/-- The index entry goes in before the data it points at. The first entry
always gets one. -/
def SstableWriter.mark (w : SstableWriter) (key : Bytes) : SstableWriter :=
  if w.index.isEmpty ∨ kIndexInterval ≤ w.bytesSinceIndex then
    { w with index := w.index ++ [⟨key, w.offset⟩], bytesSinceIndex := 0 }
  else w

/-- `SstableWriter::add`. -/
def SstableWriter.add (w : SstableWriter) (key : Bytes) (e : Entry) : SstableWriter :=
  let buf := encodeEntry key e
  let w := w.mark key
  { w with
    file := w.file ++ buf
    offset := w.offset + buf.length
    bytesSinceIndex := w.bytesSinceIndex + buf.length
    entryCount := w.entryCount + 1
    bloomKeys := w.bloomKeys ++ [key] }

def indexEntryBytes (e : IndexEntry) : Bytes :=
  putU32 e.key.length ++ e.key ++ putU64 e.offset

def indexBlock (index : List IndexEntry) : Bytes :=
  putU32 index.length ++ index.flatMap indexEntryBytes

def footerBytes (indexOffset bloomOffset entryCount : Nat) : Bytes :=
  putU64 indexOffset ++ putU64 bloomOffset ++ putU64 entryCount ++ kMagic

/-- `SstableWriter::finish`: the whole file. -/
def SstableWriter.finish (w : SstableWriter) : Bytes :=
  let block := indexBlock w.index
  let bloomOffset := w.offset + block.length
  let filter := Bloom.build w.bloomKeys w.bitsPerKey
  w.file ++ block ++ filter ++ footerBytes w.offset bloomOffset w.entryCount

/-- One pass over entries in key order. -/
def SstableWriter.addAll (w : SstableWriter) (es : List (Bytes × Entry)) : SstableWriter :=
  es.foldl (fun w p => SstableWriter.add w p.1 p.2) w

/-- A whole table: every entry, then `finish`. -/
def writeTable (bitsPerKey : Int) (es : List (Bytes × Entry)) : Bytes :=
  (SstableWriter.addAll { bitsPerKey } es).finish

/-! ## Reading -/

structure Sstable where
  path : FileName
  /-- What the open descriptor reads, whatever happens to the name. -/
  file : Bytes
  useBloom : Bool
  bloom : Bytes
  index : List IndexEntry
  dataEnd : Nat
  entryCount : Nat
  deriving DecidableEq

/-- `read_exact` on an undamaged file. -/
def readExact (file : Bytes) (offset length : Nat) : Option Bytes :=
  if length = 0 ∨ offset + length ≤ file.length then some ((file.drop offset).take length)
  else none

/-- The loop that parses the index block, from the current position on. -/
def parseIndex (dataEnd : Nat) : Nat → Bytes → Option (List IndexEntry)
  | 0, _ => some []
  | n + 1, block =>
      if block.length < 4 then none
      else
        let klen := loadU32 block
        if block.length < 4 + klen + 8 then none
        else
          let offset := loadU64 (block.drop (4 + klen))
          if dataEnd < offset then none
          else
            (parseIndex dataEnd n (block.drop (4 + klen + 8))).map
              (⟨(block.drop 4).take klen, offset⟩ :: ·)

/-- `Sstable::Sstable`, `none` where it throws. -/
def openTable (path : FileName) (file : Bytes) (useBloom : Bool) : Option Sstable :=
  if file.length < kFooterSize then none
  else
    let footerOffset := file.length - kFooterSize
    let footer := file.drop footerOffset
    let magic := (footer.drop 24).take 8
    if magic ≠ kMagic ∧ magic ≠ kMagicV1 then none
    else
      let indexOffset := loadU64 footer
      let bloomOffset := loadU64 (footer.drop 8)
      if bloomOffset < indexOffset ∨ footerOffset < bloomOffset then none
      else
        match readExact file indexOffset (bloomOffset - indexOffset) with
        | none => none
        | some block =>
            if block.length < 4 then none
            else
              match parseIndex indexOffset (loadU32 block) (block.drop 4) with
              | none => none
              | some index =>
                  match readExact file bloomOffset (footerOffset - bloomOffset) with
                  | none => none
                  | some bloom =>
                      some { path, file, useBloom, bloom, index, dataEnd := indexOffset
                             entryCount := loadU64 (footer.drop 16) }

def entryKlen (p : Bytes) : Nat := loadU32 p

def entryVlen (p : Bytes) : Nat := loadU32 (p.drop 4)

def entryFlags (p : Bytes) : UInt8 := p.getD 8 0

def entryHasExpiry (p : Bytes) : Bool := entryFlags p &&& kExpiryFlag ≠ 0

def entryTombstone (p : Bytes) : Bool := entryFlags p &&& kTombstoneFlag ≠ 0

/-- Where the key starts: behind the stamp, when there is one. -/
def entryBody (p : Bytes) : Nat := 9 + if entryHasExpiry p then 8 else 0

def entryTotal (p : Bytes) : Nat := entryBody p + entryKlen p + entryVlen p

def entryKey (p : Bytes) : Bytes := (p.drop (entryBody p)).take (entryKlen p)

def entryValue (p : Bytes) : Bytes :=
  (p.drop (entryBody p + entryKlen p)).take (entryVlen p)

def entryStamp (p : Bytes) : Int64 :=
  if entryHasExpiry p then bitsStamp (loadU64 (p.drop 9)) else 0

/-- `std::upper_bound` over the index: `len` candidates from `first` on. -/
def upperBoundLoop (key : Bytes) (index : List IndexEntry) : Nat → Nat → Nat → Nat
  | 0, first, _ => first
  | fuel + 1, first, len =>
      if len = 0 then first
      else
        let half := len / 2
        let middle := first + half
        if key < (index.getD middle ⟨[], 0⟩).key then upperBoundLoop key index fuel first half
        else upperBoundLoop key index fuel (middle + 1) (len - half - 1)

def upperBound (key : Bytes) (index : List IndexEntry) : Nat :=
  upperBoundLoop key index index.length 0 index.length

/-- The entry scan of `Sstable::get`, from the current position on. `none` is
`found == false`. -/
def scanBlock (key : Bytes) : Nat → Bytes → Option Entry
  | 0, _ => none
  | fuel + 1, block =>
      if block.length < 9 then none
      else if block.length < entryTotal block then none
      else if entryKey block = key then
        some
          { value := if entryTombstone block then [] else entryValue block
            tombstone := entryTombstone block
            expiresAtMs := entryStamp block }
      else if key < entryKey block then none
      else scanBlock key fuel (block.drop (entryTotal block))

/-- `Sstable::get`, given what `read_exact` returns on its descriptor. -/
def Sstable.getWith (t : Sstable) (read : Nat → Nat → Option Bytes) (key : Bytes) :
    Option Entry :=
  if t.useBloom && !Bloom.mayContain t.bloom key then none
  else if t.index.isEmpty then none
  else
    let it := upperBound key t.index
    if it = 0 then none
    else
      let slot := it - 1
      let start := (t.index.getD slot ⟨[], 0⟩).offset
      let stop := if slot + 1 < t.index.length then (t.index.getD (slot + 1) ⟨[], 0⟩).offset
        else t.dataEnd
      if stop ≤ start then none
      else
        match read start (stop - start) with
        | none => none
        | some block => scanBlock key block.length block

def Sstable.get (t : Sstable) (key : Bytes) : Option Entry :=
  t.getWith (readExact t.file) key

/-! ## The cursor -/

def kCursorWindow : Nat := 64 * 1024

structure Cursor where
  file : Bytes
  dataEnd : Nat
  pos : Nat := 0
  bufStart : Nat := 0
  buf : Bytes := []
  key : Bytes := []
  value : Bytes := []
  expiresAtMs : Int64 := 0
  tombstone : Bool := false
  valid : Bool := false
  failed : Bool := false

/-- `Cursor::ensure`, given what `read_exact` returns on the descriptor: the
window holds `need` bytes from `pos` on. -/
def Cursor.ensureWith (c : Cursor) (read : Nat → Nat → Option Bytes) (need : Nat) :
    Bool × Cursor :=
  if c.bufStart ≤ c.pos ∧ c.pos - c.bufStart + need ≤ c.buf.length then (true, c)
  else if c.dataEnd < c.pos + need then (false, c)
  else
    let remaining := c.dataEnd - c.pos
    let want := min remaining (max need kCursorWindow)
    match read c.pos want with
    | none => (false, { c with failed := true })
    | some buf => (true, { c with buf, bufStart := c.pos })

/-- What the window shows from `pos` on. -/
def Cursor.window (c : Cursor) : Bytes := c.buf.drop (c.pos - c.bufStart)

/-- `Cursor::load`, given what `read_exact` returns: parse the entry at
`pos`. -/
def Cursor.loadWith (c : Cursor) (read : Nat → Nat → Option Bytes) : Cursor :=
  let c := { c with valid := false }
  if c.failed ∨ c.dataEnd ≤ c.pos then c
  else
    match c.ensureWith read 9 with
    | (false, c) => c
    | (true, c) =>
        let total := entryTotal c.window
        match c.ensureWith read total with
        | (false, c) => c
        | (true, c) =>
            let p := c.window
            { c with
              expiresAtMs := entryStamp p
              tombstone := entryTombstone p
              key := entryKey p
              value := entryValue p
              pos := c.pos + total
              valid := true }

/-- `Cursor::load` on an undamaged file. -/
def Cursor.load (c : Cursor) : Cursor := c.loadWith (readExact c.file)

def Cursor.next (c : Cursor) : Cursor := c.load

/-- `Sstable::cursor`. -/
def Sstable.cursor (t : Sstable) : Cursor :=
  Cursor.load { file := t.file, dataEnd := t.dataEnd }

/-! ## Whole iterations -/

/-- A `read_exact` that fails when it likes, and otherwise returns what the
file holds. -/
def ReadsFrom (file : Bytes) (read : Nat → Nat → Option Bytes) : Prop :=
  ∀ offset length, read offset length = none ∨ read offset length = readExact file offset length

/-- The entry a valid cursor shows. -/
def Cursor.entry (c : Cursor) : Bytes × Entry :=
  (c.key, { value := c.value, tombstone := c.tombstone, expiresAtMs := c.expiresAtMs })

/-- A whole iteration: while the cursor is valid, take its entry and call
`next`. Every call has its own reads. -/
def Cursor.walk (reads : Nat → Nat → Nat → Option Bytes) :
    Nat → Cursor → List (Bytes × Entry) × Cursor
  | 0, c => ([], c)
  | fuel + 1, c =>
      if c.valid then
        let rest := Cursor.walk (fun n => reads (n + 1)) fuel (c.loadWith (reads 0))
        (c.entry :: rest.1, rest.2)
      else ([], c)

/-- The iteration of a whole table. -/
def Sstable.walk (t : Sstable) (reads : Nat → Nat → Nat → Option Bytes) (fuel : Nat) :
    List (Bytes × Entry) × Cursor :=
  Cursor.walk (fun n => reads (n + 1)) fuel
    (Cursor.loadWith { file := t.file, dataEnd := t.dataEnd } (reads 0))

end Cachedb
