import Cachedb.Lib.Checked
import Cachedb.Model.Sstable
import Cachedb.Model.Record

/-!
# The accesses of the readers

The two formats are read back from bytes that may be anything. This is the
code that reads them once more, with the positions, the sums and the accesses
the source makes, each of them checked (`Checked.Run`): the constructor of a
table, `get`, the cursor, and `decode_record`. Where the functions of the
model proper keep the rest of a block, these keep the block and a position in
it, as the source does.

`read_exact` is given as what it returns, as before. A call of it is an access
to the file: a read of at least one byte outside of the file stops the run.
-/

namespace Cachedb

open Checked (Run Fault add sub item slice)

def loadU32At (buf : Bytes) (pos : Nat) : Run Nat := do
  let b ← slice buf pos 4
  return loadU32 b

def loadU64At (buf : Bytes) (pos : Nat) : Run Nat := do
  let b ← slice buf pos 8
  return loadU64 b

/-- The stamp at `pos`, where a flag or an op byte says that there is one. -/
def stampAt (buf : Bytes) (pos : Nat) (hasExpiry : Bool) : Run Int64 :=
  if hasExpiry then bitsStamp <$> loadU64At buf pos else return 0

/-- A call of `read_exact`. -/
def readChecked (file : Bytes) (read : Nat → Nat → Option Bytes) (offset length : Nat) :
    Run (Option Bytes) := do
  let stop ← add offset length
  if length = 0 ∨ stop ≤ file.length then return read offset length else throw .outside

/-! ## The constructor -/

def parseIndexChecked (dataEnd : Nat) (block : Bytes) :
    Nat → Nat → Run (Option (List IndexEntry))
  | 0, _ => return some []
  | n + 1, pos => do
      let stop ← add pos 4
      if block.length < stop then return none
      else
        let klen ← loadU32At block pos
        let pos ← add pos 4
        let stop ← add (← add pos klen) 8
        if block.length < stop then return none
        else
          let key ← slice block pos klen
          let pos ← add pos klen
          let offset ← loadU64At block pos
          let pos ← add pos 8
          if dataEnd < offset then return none
          else
            let rest ← parseIndexChecked dataEnd block n pos
            return rest.map (⟨key, offset⟩ :: ·)

/-- `Sstable::Sstable`, `none` where it throws. It makes three reads. -/
def openTableChecked (path : FileName) (file : Bytes) (useBloom : Bool)
    (reads : Nat → Nat → Nat → Option Bytes) : Run (Option Sstable) := do
  if file.length < kFooterSize then return none
  else
    let footerOffset ← sub file.length kFooterSize
    match ← readChecked file (reads 0) footerOffset kFooterSize with
    | none => return none
    | some footer =>
        let magic ← slice footer 24 8
        if magic ≠ kMagic ∧ magic ≠ kMagicV1 then return none
        else
          let indexOffset ← loadU64At footer 0
          let bloomOffset ← loadU64At footer 8
          let entryCount ← loadU64At footer 16
          if bloomOffset < indexOffset ∨ footerOffset < bloomOffset then return none
          else
            let length ← sub bloomOffset indexOffset
            match ← readChecked file (reads 1) indexOffset length with
            | none => return none
            | some block =>
                if block.length < 4 then return none
                else
                  let count ← loadU32At block 0
                  match ← parseIndexChecked indexOffset block count 4 with
                  | none => return none
                  | some index =>
                      let length ← sub footerOffset bloomOffset
                      match ← readChecked file (reads 2) bloomOffset length with
                      | none => return none
                      | some bloom =>
                          return some { path, file, useBloom, bloom, index
                                        dataEnd := indexOffset, entryCount }

/-! ## Lookups -/

/-- The loop of `may_contain`. -/
def testProbesChecked (bits : Nat) (h2 : UInt32) (block : Bytes) : Nat → UInt32 → Run Bool
  | 0, _ => return true
  | n + 1, pos => do
      let bit := pos.toNat % bits
      let byte ← item block (bit / 8)
      if byte &&& Bloom.bitMask bit = 0 then return false
      else testProbesChecked bits h2 block n (pos + h2)

def mayContainChecked (block key : Bytes) : Run Bool := do
  if block.length < 2 then return true
  else
    let last ← sub block.length 1
    let k := (← item block last).toNat
    if k < 1 ∨ 30 < k then return true
    else
      let p := Bloom.probeFor key
      testProbesChecked (last * 8) p.h2 block k p.h1

/-- `std::upper_bound` over the index. -/
def upperBoundChecked (key : Bytes) (index : List IndexEntry) : Nat → Nat → Nat → Run Nat
  | 0, first, len => if len = 0 then return first else throw .running
  | fuel + 1, first, len => do
      if len = 0 then return first
      else
        let half := len / 2
        let middle ← add first half
        let entry ← item index middle
        if key < entry.key then upperBoundChecked key index fuel first half
        else upperBoundChecked key index fuel (← add middle 1) (← sub len (← add half 1))

/-- The entry scan of `Sstable::get`. -/
def scanBlockChecked (key block : Bytes) : Nat → Nat → Run (Option Entry)
  | 0, _ => throw .running
  | fuel + 1, pos => do
      let header ← add pos 9
      if block.length < header then return none
      else
        let klen ← loadU32At block pos
        let vlen ← loadU32At block (← add pos 4)
        let flags ← item block (← add pos 8)
        let hasExpiry : Bool := flags &&& kExpiryFlag ≠ 0
        let stamp ← add pos 9
        let body ← add stamp (if hasExpiry then 8 else 0)
        let value ← add body klen
        let stop ← add value vlen
        if block.length < stop then return none
        else
          let entryKey ← slice block body klen
          if entryKey = key then
            let tombstone : Bool := flags &&& kTombstoneFlag ≠ 0
            let expiresAtMs ← stampAt block stamp hasExpiry
            let value ← (if tombstone then return [] else slice block value vlen : Run Bytes)
            return some { value, tombstone, expiresAtMs }
          else if key < entryKey then return none
          else scanBlockChecked key block fuel stop

/-- `Sstable::get`. -/
def Sstable.getChecked (t : Sstable) (read : Nat → Nat → Option Bytes) (key : Bytes) :
    Run (Option Entry) := do
  if t.useBloom && !(← mayContainChecked t.bloom key) then return none
  else if t.index.isEmpty then return none
  else
    let it ← upperBoundChecked key t.index t.index.length 0 t.index.length
    if it = 0 then return none
    else
      let slot ← sub it 1
      let start := (← item t.index slot).offset
      let next ← add slot 1
      let stop ← (if next < t.index.length then IndexEntry.offset <$> item t.index next
        else return t.dataEnd : Run Nat)
      if stop ≤ start then return none
      else
        match ← readChecked t.file read start (← sub stop start) with
        | none => return none
        | some block => scanBlockChecked key block block.length 0

/-! ## The cursor -/

/-- The first condition of `Cursor::ensure`. -/
def Cursor.heldChecked (c : Cursor) (need : Nat) : Run Bool := do
  if c.bufStart ≤ c.pos then
    let ahead ← sub c.pos c.bufStart
    let stop ← add ahead need
    return stop ≤ c.buf.length
  else return false

/-- `Cursor::ensure`. -/
def Cursor.ensureChecked (c : Cursor) (read : Nat → Nat → Option Bytes) (need : Nat) :
    Run (Bool × Cursor) := do
  if ← c.heldChecked need then return (true, c)
  else
    let stop ← add c.pos need
    if c.dataEnd < stop then return (false, c)
    else
      let remaining ← sub c.dataEnd c.pos
      let want := min remaining (max need kCursorWindow)
      match ← readChecked c.file read c.pos want with
      | none => return (false, { c with failed := true })
      | some buf => return (true, { c with buf, bufStart := c.pos })

/-- `Cursor::load`. -/
def Cursor.loadChecked (c : Cursor) (read : Nat → Nat → Option Bytes) : Run Cursor := do
  let c := { c with valid := false }
  if c.failed ∨ c.dataEnd ≤ c.pos then return c
  else
    match ← c.ensureChecked read 9 with
    | (false, c) => return c
    | (true, c) =>
        let p ← sub c.pos c.bufStart
        let klen ← loadU32At c.buf p
        let vlen ← loadU32At c.buf (← add p 4)
        let flags ← item c.buf (← add p 8)
        let hasExpiry : Bool := flags &&& kExpiryFlag ≠ 0
        let body := 9 + if hasExpiry then 8 else 0
        let total ← add (← add body klen) vlen
        match ← c.ensureChecked read total with
        | (false, c) => return c
        | (true, c) =>
            let p ← sub c.pos c.bufStart
            let expiresAtMs ← stampAt c.buf (← add p 9) hasExpiry
            let key ← slice c.buf (← add p body) klen
            let value ← slice c.buf (← add (← add p body) klen) vlen
            let pos ← add c.pos total
            return { c with
              expiresAtMs, key, value, pos
              tombstone := flags &&& kTombstoneFlag ≠ 0
              valid := true }

/-- A whole iteration. -/
def Cursor.walkChecked (reads : Nat → Nat → Nat → Option Bytes) :
    Nat → Cursor → Run (List (Bytes × Entry) × Cursor)
  | 0, c => if c.valid then throw .running else return ([], c)
  | fuel + 1, c => do
      if c.valid then
        let next ← c.loadChecked (reads 0)
        let rest ← Cursor.walkChecked (fun n => reads (n + 1)) fuel next
        return (c.entry :: rest.1, rest.2)
      else return ([], c)

def Sstable.walkChecked (t : Sstable) (reads : Nat → Nat → Nat → Option Bytes) (fuel : Nat) :
    Run (List (Bytes × Entry) × Cursor) := do
  let first ← Cursor.loadChecked { file := t.file, dataEnd := t.dataEnd } (reads 0)
  Cursor.walkChecked (fun n => reads (n + 1)) fuel first

/-! ## Records -/

/-- `decode_record`. -/
def decodeRecordChecked (inp : Bytes) : Run DecodeResult := do
  if inp.length < kRecordHeaderSize then return .incomplete
  else
    let storedCrc ← loadU32At inp 0
    let timestamp ← loadU64At inp 4
    let opByte ← item inp 12
    let klen ← loadU32At inp 13
    let vlen ← loadU32At inp 17
    let extra := if opByte = kSetExOpByte then kExpirySize else 0
    let total ← add (← add (← add kRecordHeaderSize extra) klen) vlen
    if inp.length < total then return .incomplete
    else
      let covered ← slice inp 4 (← sub total 4)
      if (crc32 covered).toNat ≠ storedCrc then return .corrupt
      else if opByte > kSetExOpByte then return .corrupt
      else
        let expiresAtMs ← stampAt inp kRecordHeaderSize (opByte = kSetExOpByte)
        let body ← add kRecordHeaderSize extra
        let key ← slice inp body klen
        let value ← slice inp (← add body klen) vlen
        return .ok total {
          op := if opByte = kSetExOpByte then .kSet else if opByte = 0 then .kSet else .kDelete
          timestampMs := bitsStamp timestamp
          expiresAtMs, key, value }

/-- The scan of `replay`. -/
def replayScanChecked (data : Bytes) : Nat → Nat → Run (List Record × Nat)
  | 0, _ => throw .running
  | fuel + 1, offset => do
      let inp ← slice data offset (← sub data.length offset)
      match ← decodeRecordChecked inp with
      | .ok consumed record =>
          let rest ← replayScanChecked data fuel (offset + consumed)
          return (record :: rest.1, rest.2)
      | .incomplete => return ([], offset)
      | .corrupt => return ([], offset)

end Cachedb
