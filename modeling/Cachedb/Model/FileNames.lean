import Cachedb.Model.Resp
import Cachedb.Model.Store

/-!
# The names in the data directory

A table is found again by its name alone: the constructor lists the directory,
takes from every name the sequence number `sequence_of` finds in it, sorts the
numbers, and opens for each the file `table_path` names. The model proper has
the numbers for names (`FileName`). This is the code that goes between the
two, over the names as they are spelled.

`strtoull` is only ever given digits. `%0*llu` pads with zeros on the left.
-/

namespace Cachedb

def kTableSuffix : Bytes := text ".sst"

def kSequenceDigits : Nat := 6

/-- `std::strtoull` of a string of digits, which yields `ULLONG_MAX` where the
number is larger. -/
def strtoull (digits : Bytes) : Nat := min (digitsValue digits) (2 ^ 64 - 1)

/-- `sequence_of`. -/
def sequenceOf (name : Bytes) : Option Nat :=
  let suffix := kTableSuffix.length
  if name.length ≤ suffix then none
  else if name.drop (name.length - suffix) ≠ kTableSuffix then none
  else
    let digits := name.take (name.length - suffix)
    if digits = [] then none
    else if !digits.all isDigit then none
    else some (strtoull digits)

/-- `%0*llu`. -/
def padded (width sequence : Nat) : Bytes :=
  List.replicate (width - (decimal sequence).length) 48 ++ decimal sequence

/-- What `snprintf` leaves in the 32 bytes of `Store::table_path`. -/
def tableName (sequence : Nat) : Bytes :=
  (padded kSequenceDigits sequence ++ kTableSuffix).take 31

/-- `Store::table_path`. -/
def tablePath (dir : Bytes) (sequence : Nat) : Bytes := dir ++ text "/" ++ tableName sequence

/-- The name a file of the model has. -/
def FileName.spelling : FileName → Bytes
  | .log => text "wal.log"
  | .flushTmp => text "flush.tmp"
  | .compactTmp => text "compact.tmp"
  | .table sequence => tableName sequence

/-- A directory by its names, each of which it has once. -/
structure Directory where
  files : List (Bytes × Bytes)
  distinct : (files.map Prod.fst).Nodup

namespace Directory

def names (dir : Directory) : List Bytes := dir.files.map Prod.fst

def read (dir : Directory) (name : Bytes) : Option Bytes := dir.files.lookup name

end Directory

/-- The scan of `Store::Store`: the sequence numbers in a listing, newest
first. -/
def scanNames (names : List Bytes) : List Nat :=
  (names.filterMap sequenceOf).mergeSort fun a b => b ≤ a

/-- `Store::Store(StoreOptions)` on a directory by its names. `none` where it
throws, as it does at a table that is not there. -/
def Store.openNamed (options : StoreOptions) (dir : Directory) : Option (Outcome Unit) :=
  if !options.hasDir then some { ret := (), store := { options } }
  else
    let sequences := scanNames dir.names
    match sequences.mapM fun seq =>
      (dir.read (tableName seq)).bind fun file => openTable (.table seq) file options.useBloom with
    | none => none
    | some sstables =>
        some {
          ret := ()
          store := {
            options, sstables
            nextSequence := match sequences with
              | [] => 1
              | seq :: _ => (seq + 1) % 2 ^ 64 }
          events := [.unlink .compactTmp, .unlink .flushTmp] }

end Cachedb
