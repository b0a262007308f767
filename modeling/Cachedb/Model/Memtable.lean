import Cachedb.Lib.SortedMap
import Cachedb.Lib.Layers
import Cachedb.Model.Bytes

/-!
# The memtable

A sorted map from keys to entries, with three answers to a lookup: not here,
here with a value, here and deleted. Entries carry their expiry stamp raw;
`Entry.view` is the one place it is compared with a clock, and it belongs to
the store.

The counters are `size_t` in the source. `bytes` is the estimate a flush is
decided on and never goes down before a `clear`.
-/

namespace Cachedb

/-- `Memtable::Entry`. A zero stamp means the entry never expires. -/
structure Entry where
  value : Bytes
  tombstone : Bool := false
  expiresAtMs : Int64 := 0
  deriving DecidableEq, Repr

/-- A value with the stamp it was stored under, as `Store::lookup` returns
it. -/
structure Found where
  value : Bytes
  expiresAtMs : Int64
  deriving DecidableEq, Repr

/-- The `expired` of `Store::lookup`. -/
def expired (stamp now : Int64) : Bool := stamp != 0 && stamp ≤ now

/-- What an entry shows a client at clock reading `now`. -/
def Entry.view (now : Int64) (e : Entry) : Option Found :=
  if e.tombstone then none
  else if expired e.expiresAtMs now then none
  else some ⟨e.value, e.expiresAtMs⟩

theorem expired_mono {stamp now t : Int64} (h : expired stamp now = true) (ht : now ≤ t) :
    expired stamp t = true := by
  simp only [expired, Bool.and_eq_true, decide_eq_true_eq] at h ⊢
  exact ⟨h.1, le_trans h.2 ht⟩

theorem Entry.view_eq_none_iff {now : Int64} {e : Entry} :
    e.view now = none ↔ e.tombstone = true ∨ expired e.expiresAtMs now = true := by
  unfold Entry.view
  split
  · next h => simp [h]
  · next h => split <;> simp_all

def kEntryOverhead : Nat := 128

def kSsoCapacity : Nat := 15

def heapCost (length : Nat) : Nat :=
  if length ≤ kSsoCapacity then 0 else (length + 1 + 16 - 1) / 16 * 16 + 16

def entryCost (key value : Bytes) : Nat :=
  kEntryOverhead + heapCost key.length + heapCost value.length

structure Memtable where
  entries : SortedMap Bytes Entry := SortedMap.empty
  sweepCursor : Bytes := []
  liveCount : Nat := 0
  bytes : Nat := 0
  deriving DecidableEq

namespace Memtable

def find (m : Memtable) (key : Bytes) : Option Entry := m.entries.find key

def isEmpty (m : Memtable) : Bool := m.entries.isEmpty

def set (m : Memtable) (key value : Bytes) (expiresAtMs : Int64) : Memtable :=
  let entry : Entry := { value, tombstone := false, expiresAtMs }
  match m.entries.find key with
  | none =>
      { m with
        entries := m.entries.insert key entry
        liveCount := m.liveCount + 1
        bytes := m.bytes + entryCost key value }
  | some old =>
      let oldCost := heapCost old.value.length
      let newCost := heapCost value.length
      { m with
        entries := m.entries.insert key entry
        liveCount := if old.tombstone then m.liveCount + 1 else m.liveCount
        bytes := if oldCost < newCost then m.bytes + (newCost - oldCost) else m.bytes }

/-- The entry a delete leaves. -/
def deleted : Entry := { value := [], tombstone := true, expiresAtMs := 0 }

/-- `Memtable::del`, with its answer: was the key live beforehand. -/
def del (m : Memtable) (key : Bytes) : Bool × Memtable :=
  match m.entries.find key with
  | none =>
      (false, { m with
        entries := m.entries.insert key deleted
        bytes := m.bytes + entryCost key [] })
  | some old =>
      (!old.tombstone, { m with
        entries := m.entries.insert key deleted
        liveCount := if old.tombstone then m.liveCount else m.liveCount - 1 })

/-- One entry under the sweep: what it becomes, and whether it was swept. -/
def sweepEntry (now : Int64) (e : Entry) : Entry × Bool :=
  if !e.tombstone && e.expiresAtMs != 0 && e.expiresAtMs ≤ now then (deleted, true)
  else (e, false)

/-- The loop of `sweep_expired` from the cursor on: the entries behind it, how
many were swept, and the key to resume at. -/
def sweepFrom (now : Int64) : Nat → List (Bytes × Entry) → List (Bytes × Entry) × Nat × Bytes
  | _, [] => ([], 0, [])
  | 0, (key, e) :: rest => ((key, e) :: rest, 0, key)
  | budget + 1, (key, e) :: rest =>
      let swept := sweepEntry now e
      let later := sweepFrom now budget rest
      ((key, swept.1) :: later.1, later.2.1 + swept.2.toNat, later.2.2)

theorem map_fst_sweepFrom (now : Int64) :
    ∀ (budget : Nat) (es : List (Bytes × Entry)),
      (sweepFrom now budget es).1.map Prod.fst = es.map Prod.fst := by
  intro budget es
  induction es generalizing budget with
  | nil => cases budget <;> rfl
  | cons x rest ih =>
      obtain ⟨key, e⟩ := x
      cases budget with
      | zero => rfl
      | succ budget => simp only [sweepFrom, List.map_cons, ih]

/-- Entries below the cursor: what `lower_bound` passes over. -/
def beforeCursor (m : Memtable) : List (Bytes × Entry) :=
  m.entries.entries.takeWhile fun e => decide (e.1 < m.sweepCursor)

/-- Entries from `lower_bound` of the cursor on. -/
def fromCursor (m : Memtable) : List (Bytes × Entry) :=
  m.entries.entries.dropWhile fun e => decide (e.1 < m.sweepCursor)

theorem cursor_split (m : Memtable) : m.beforeCursor ++ m.fromCursor = m.entries.entries :=
  List.takeWhile_append_dropWhile

theorem keysSorted_swept (m : Memtable) (now : Int64) (budget : Nat) :
    SortedMap.KeysSorted (m.beforeCursor ++ (sweepFrom now budget m.fromCursor).1) := by
  have h := m.entries.sorted
  rw [← m.cursor_split] at h
  simpa only [SortedMap.KeysSorted, List.map_append, map_fst_sweepFrom] using h

/-- `Memtable::sweep_expired`, with its answer: how many were swept. -/
def sweepExpired (m : Memtable) (now : Int64) (budget : Nat) : Nat × Memtable :=
  if m.isEmpty then (0, { m with sweepCursor := [] })
  else
    let swept := sweepFrom now budget m.fromCursor
    (swept.2.1, { m with
      entries := ⟨m.beforeCursor ++ swept.1, m.keysSorted_swept now budget⟩
      sweepCursor := swept.2.2
      liveCount := m.liveCount - swept.2.1 })

def clear (_ : Memtable) : Memtable := {}

/-! ## What each operation leaves to be found -/

theorem find_set (m : Memtable) (key value : Bytes) (stamp : Int64) (k : Bytes) :
    (m.set key value stamp).find k =
      if k = key then some { value, tombstone := false, expiresAtMs := stamp }
      else m.find k := by
  unfold set find
  split <;> exact SortedMap.find_insert m.entries key k _

theorem find_del (m : Memtable) (key k : Bytes) :
    (m.del key).2.find k = if k = key then some deleted else m.find k := by
  unfold del find
  split <;> exact SortedMap.find_insert m.entries key k _

/-- Sweeping an entry cannot be seen from the moment of the sweep on. -/
theorem view_sweepEntry {now t : Int64} (e : Entry) (ht : now ≤ t) :
    (sweepEntry now e).1.view t = e.view t := by
  unfold sweepEntry
  split
  · next h =>
      rw [Bool.and_assoc, Bool.and_eq_true] at h
      rw [Entry.view_eq_none_iff.mpr (Or.inr (expired_mono h.2 ht))]
      rfl
  · rfl

theorem findIn_sweepFrom (now : Int64) (k : Bytes) :
    ∀ (budget : Nat) (es : List (Bytes × Entry)),
      Layers.AlikeFrom Entry.view now (SortedMap.findIn k (sweepFrom now budget es).1)
        (SortedMap.findIn k es) := by
  intro budget es
  induction es generalizing budget with
  | nil => cases budget <;> exact .refl _
  | cons x rest ih =>
      obtain ⟨key, e⟩ := x
      cases budget with
      | zero => exact .refl _
      | succ budget =>
          simp only [sweepFrom, SortedMap.findIn_cons]
          split
          · exact ⟨rfl, fun t ht => view_sweepEntry e ht⟩
          · exact ih budget

/-- A sweep changes no answer from its own clock reading on. -/
theorem find_sweepExpired (m : Memtable) (now : Int64) (budget : Nat) (k : Bytes) :
    Layers.AlikeFrom Entry.view now ((m.sweepExpired now budget).2.find k) (m.find k) := by
  unfold sweepExpired
  split
  · exact .refl _
  · show Layers.AlikeFrom Entry.view now
      (SortedMap.findIn k (m.beforeCursor ++ (sweepFrom now budget m.fromCursor).1))
      (SortedMap.findIn k m.entries.entries)
    rw [← m.cursor_split, SortedMap.findIn_append, SortedMap.findIn_append]
    exact Layers.AlikeFrom.or (.refl _) (findIn_sweepFrom now k budget _)

end Memtable

end Cachedb
