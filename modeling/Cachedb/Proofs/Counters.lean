import Cachedb.Model.Memtable
import Mathlib.Algebra.BigOperators.Group.List.Basic

/-!
# What the memtable counts

`live_count` and `bytes` are kept up call by call and never counted again, so
what they say is an invariant of every sequence of calls. The live count is
exact. The estimate in bytes never reads low: it covers the cost of every
entry with its current value, and goes down only when the table is cleared.

It can read high. An overwrite is charged for the difference to the value it
replaces and not to what the entry has been charged already, so an entry that
shrinks, or is deleted, and grows again pays a second time.
-/

namespace Cachedb

/-- The calls that change a memtable. -/
inductive MemtableCall where
  | set (key value : Bytes) (expiresAtMs : Int64)
  | del (key : Bytes)
  | sweepExpired (now : Int64) (budget : Nat)
  | clear
  deriving DecidableEq, Repr

namespace Memtable

def call (m : Memtable) : MemtableCall → Memtable
  | .set key value expiresAtMs => m.set key value expiresAtMs
  | .del key => (m.del key).2
  | .sweepExpired now budget => (m.sweepExpired now budget).2
  | .clear => m.clear

def run (m : Memtable) (calls : List MemtableCall) : Memtable := calls.foldl call m

/-- How often a call takes one off the live count. -/
def decrements (m : Memtable) : MemtableCall → Nat
  | .set _ _ _ => 0
  | .del key => (m.del key).1.toNat
  | .sweepExpired now budget => (m.sweepExpired now budget).1
  | .clear => 0

/-- `Memtable::for_each`: what the callback is given, in order. -/
def forEach (m : Memtable) : List (Bytes × Entry) := m.entries.entries

/-! ## A sweep, entry by entry -/

/-- An entry the sweep has to do with. -/
def due (now : Int64) (p : Bytes × Entry) : Bool := (sweepEntry now p.2).2

/-- What the sweep makes of an entry it examines. -/
def sweepRow (now : Int64) (p : Bytes × Entry) : Bytes × Entry := (p.1, (sweepEntry now p.2).1)

theorem sweepRow_due {now : Int64} {p : Bytes × Entry} (h : due now p = true) :
    sweepRow now p = (p.1, deleted) ∧ p.2.tombstone = false := by
  unfold due sweepEntry at h
  unfold sweepRow sweepEntry
  split at h
  · next hdue =>
      rw [if_pos hdue]
      simp only [Bool.and_eq_true, Bool.not_eq_true'] at hdue
      exact ⟨rfl, hdue.1.1⟩
  · cases h

theorem sweepRow_not_due {now : Int64} {p : Bytes × Entry} (h : due now p = false) :
    sweepRow now p = p := by
  unfold due sweepEntry at h
  unfold sweepRow sweepEntry
  split at h
  · cases h
  · next hdue => rw [if_neg hdue]

/-- The budget decides how many entries are examined, and nothing else. -/
theorem sweepFrom_eq (now : Int64) : ∀ (budget : Nat) (es : List (Bytes × Entry)),
    sweepFrom now budget es =
      ((es.take budget).map (sweepRow now) ++ es.drop budget, (es.take budget).countP (due now),
        ((es.drop budget).head?.map Prod.fst).getD []) := by
  intro budget es
  induction es generalizing budget with
  | nil => cases budget <;> rfl
  | cons x rest ih =>
      obtain ⟨key, e⟩ := x
      cases budget with
      | zero => rfl
      | succ budget =>
          rw [sweepFrom, ih budget]
          simp only [List.take_succ_cons, List.drop_succ_cons, List.map_cons, List.countP_cons]
          congr 2
          unfold due
          cases (sweepEntry now e).2 <;> rfl

theorem cursor_of_isEmpty {m : Memtable} (h : m.isEmpty = true) :
    m.forEach = [] ∧ m.beforeCursor = [] ∧ m.fromCursor = [] := by
  have hnil : m.entries.entries = [] := List.isEmpty_iff.mp h
  have hsplit := m.cursor_split
  rw [hnil] at hsplit
  exact ⟨hnil, List.append_eq_nil_iff.mp hsplit⟩

/-- The entries a sweep examines, and those it does not come to. -/
theorem sweepExpired_entries (m : Memtable) (now : Int64) (budget : Nat) :
    (m.sweepExpired now budget).2.forEach =
      m.beforeCursor ++ ((m.fromCursor.take budget).map (sweepRow now) ++
        m.fromCursor.drop budget) := by
  unfold sweepExpired
  split
  · next h =>
      obtain ⟨hnil, hbefore, hfrom⟩ := cursor_of_isEmpty h
      rw [hbefore, hfrom, List.take_nil, List.drop_nil]
      exact hnil
  · show m.beforeCursor ++ (sweepFrom now budget m.fromCursor).1 = _
    rw [sweepFrom_eq]

/-- A sweep keeps every row in its place. -/
theorem map_fst_sweepExpired (m : Memtable) (now : Int64) (budget : Nat) :
    (m.sweepExpired now budget).2.forEach.map Prod.fst = m.forEach.map Prod.fst := by
  rw [sweepExpired_entries, forEach, ← m.cursor_split]
  conv => rhs; rw [← List.take_append_drop budget m.fromCursor]
  simp only [List.map_append, List.map_map]
  rfl

/-- A row behind a sweep is a row from before it, examined or not. -/
theorem mem_sweepExpired {m : Memtable} {now : Int64} {budget : Nat} {p : Bytes × Entry}
    (h : p ∈ (m.sweepExpired now budget).2.forEach) :
    ∃ q ∈ m.forEach, p = q ∨ p = sweepRow now q := by
  have hrows : m.forEach = m.beforeCursor ++ m.fromCursor := m.cursor_split.symm
  rw [sweepExpired_entries] at h
  rw [hrows]
  rcases List.mem_append.mp h with h | h
  · exact ⟨p, List.mem_append_left _ h, Or.inl rfl⟩
  · rcases List.mem_append.mp h with h | h
    · obtain ⟨q, hq, rfl⟩ := List.mem_map.mp h
      exact ⟨q, List.mem_append_right _ (List.mem_of_mem_take hq), Or.inr rfl⟩
    · exact ⟨p, List.mem_append_right _ (List.mem_of_mem_drop h), Or.inl rfl⟩

theorem sweepExpired_count (m : Memtable) (now : Int64) (budget : Nat) :
    (m.sweepExpired now budget).1 = (m.fromCursor.take budget).countP (due now) := by
  unfold sweepExpired
  split
  · next h =>
      rw [(cursor_of_isEmpty h).2.2, List.take_nil]
      rfl
  · show (sweepFrom now budget m.fromCursor).2.1 = _
    rw [sweepFrom_eq]

theorem sweepExpired_bytes (m : Memtable) (now : Int64) (budget : Nat) :
    (m.sweepExpired now budget).2.bytes = m.bytes := by
  unfold sweepExpired
  split <;> rfl

theorem sweepExpired_liveCount (m : Memtable) (now : Int64) (budget : Nat) :
    (m.sweepExpired now budget).2.liveCount =
      m.liveCount - (m.sweepExpired now budget).1 := by
  unfold sweepExpired
  split <;> rfl

/-! ## Counting rows

A call changes one row, so a count or a sum over the rows changes by what that
row adds to it. -/

theorem countP_middle {α : Type} (p : α → Bool) (a : α) (xs ys : List α) :
    (xs ++ a :: ys).countP p = (xs ++ ys).countP p + (p a).toNat := by
  rw [List.perm_middle.countP_eq, List.countP_cons]
  cases p a <;> rfl

theorem sum_middle {α : Type} (f : α → Nat) (a : α) (xs ys : List α) :
    ((xs ++ a :: ys).map f).sum = ((xs ++ ys).map f).sum + f a := by
  rw [(List.perm_middle.map f).sum_eq, List.map_cons, List.sum_cons, Nat.add_comm]

/-- Putting an entry under a key, seen from the rows. -/
theorem rows_insert (m : Memtable) (key : Bytes) (e : Entry) :
    (m.find key = none ∧
      (SortedMap.insertIn key e m.forEach).Perm ((key, e) :: m.forEach)) ∨
    ∃ old xs ys, m.find key = some old ∧ m.forEach = xs ++ (key, old) :: ys ∧
      SortedMap.insertIn key e m.forEach = xs ++ (key, e) :: ys := by
  cases hfind : m.find key with
  | none => exact Or.inl ⟨rfl, SortedMap.insertIn_perm hfind⟩
  | some old =>
      obtain ⟨xs, ys, hes, hins⟩ := SortedMap.insertIn_of_findIn (v := e) m.entries.sorted hfind
      exact Or.inr ⟨old, xs, ys, rfl, hes, hins⟩

/-! ## The invariant -/

/-- A row counts as a key. -/
def live (p : Bytes × Entry) : Bool := !p.2.tombstone

/-- What an entry costs with the value it has now. -/
def rowCost (p : Bytes × Entry) : Nat := entryCost p.1 p.2.value

/-- The counters say what a walk over the entries would. -/
structure Honest (m : Memtable) : Prop where
  liveCount : m.liveCount = m.forEach.countP live
  deleted : ∀ p ∈ m.forEach, p.2.tombstone = true → p.2 = Memtable.deleted
  bytes : (m.forEach.map rowCost).sum ≤ m.bytes

theorem honest_empty : Honest {} := by
  constructor
  · rfl
  · exact List.forall_mem_nil _
  · exact Nat.le_refl _

theorem forEach_set (m : Memtable) (key value : Bytes) (stamp : Int64) :
    (m.set key value stamp).forEach =
      SortedMap.insertIn key { value, tombstone := false, expiresAtMs := stamp } m.forEach := by
  unfold set forEach
  split <;> rfl

theorem forEach_del (m : Memtable) (key : Bytes) :
    (m.del key).2.forEach = SortedMap.insertIn key deleted m.forEach := by
  unfold del forEach
  split <;> rfl

/-- The counters after a `set` or a `del`, by whether the key has an entry. -/
theorem set_absent {m : Memtable} {key : Bytes} (h : m.find key = none) (value : Bytes)
    (stamp : Int64) :
    (m.set key value stamp).liveCount = m.liveCount + 1 ∧
      (m.set key value stamp).bytes = m.bytes + entryCost key value := by
  rw [find] at h
  rw [set, h]
  exact ⟨rfl, rfl⟩

theorem set_present {m : Memtable} {key : Bytes} {old : Entry} (h : m.find key = some old)
    (value : Bytes) (stamp : Int64) :
    (m.set key value stamp).liveCount =
        (if old.tombstone then m.liveCount + 1 else m.liveCount) ∧
      (m.set key value stamp).bytes =
        if heapCost old.value.length < heapCost value.length then
          m.bytes + (heapCost value.length - heapCost old.value.length) else m.bytes := by
  rw [find] at h
  rw [set, h]
  exact ⟨rfl, rfl⟩

theorem del_absent {m : Memtable} {key : Bytes} (h : m.find key = none) :
    (m.del key).1 = false ∧ (m.del key).2.liveCount = m.liveCount ∧
      (m.del key).2.bytes = m.bytes + entryCost key [] := by
  rw [find] at h
  rw [del, h]
  exact ⟨rfl, rfl, rfl⟩

theorem del_present {m : Memtable} {key : Bytes} {old : Entry} (h : m.find key = some old) :
    (m.del key).1 = !old.tombstone ∧
      (m.del key).2.liveCount = (if old.tombstone then m.liveCount else m.liveCount - 1) ∧
      (m.del key).2.bytes = m.bytes := by
  rw [find] at h
  rw [del, h]
  exact ⟨rfl, rfl, rfl⟩

theorem deleted_insertIn {m : Memtable} (h : m.Honest) (key : Bytes) {e : Entry}
    (he : e.tombstone = true → e = Memtable.deleted) :
    ∀ p ∈ SortedMap.insertIn key e m.forEach, p.2.tombstone = true → p.2 = Memtable.deleted := by
  intro p hp
  rcases SortedMap.mem_insertIn hp with rfl | hp
  · exact he
  · exact h.deleted p hp

theorem Honest.set {m : Memtable} (h : m.Honest) (key value : Bytes) (stamp : Int64) :
    (m.set key value stamp).Honest := by
  have hlive := h.liveCount
  have hbytes := h.bytes
  have hdeleted := deleted_insertIn h key (e := ⟨value, false, stamp⟩) fun he => by cases he
  rw [← forEach_set] at hdeleted
  rcases m.rows_insert key ⟨value, false, stamp⟩ with
    ⟨hfind, hperm⟩ | ⟨old, xs, ys, hfind, hes, hins⟩
  · obtain ⟨hcount, hcost⟩ := set_absent hfind value stamp
    refine ⟨?_, hdeleted, ?_⟩
    · rw [forEach_set, hperm.countP_eq, List.countP_cons_of_pos rfl, ← hlive, hcount]
    · rw [forEach_set, (hperm.map _).sum_eq, List.map_cons, List.sum_cons, hcost, Nat.add_comm]
      exact Nat.add_le_add_right hbytes _
  · obtain ⟨hcount, hcost⟩ := set_present hfind value stamp
    refine ⟨?_, hdeleted, ?_⟩
    · rw [hes, countP_middle] at hlive
      rw [forEach_set, hins, countP_middle, hcount, hlive, live, live]
      cases old.tombstone <;> rfl
    · rw [hes, sum_middle] at hbytes
      rw [forEach_set, hins, sum_middle, hcost]
      simp only [rowCost, entryCost] at hbytes ⊢
      split <;> omega

theorem Honest.del {m : Memtable} (h : m.Honest) (key : Bytes) : (m.del key).2.Honest := by
  have hlive := h.liveCount
  have hbytes := h.bytes
  have hdeleted := deleted_insertIn h key (e := Memtable.deleted) fun _ => rfl
  rw [← forEach_del] at hdeleted
  rcases m.rows_insert key Memtable.deleted with ⟨hfind, hperm⟩ | ⟨old, xs, ys, hfind, hes, hins⟩
  · obtain ⟨_, hcount, hcost⟩ := del_absent hfind
    refine ⟨?_, hdeleted, ?_⟩
    · rw [forEach_del, hperm.countP_eq, List.countP_cons_of_neg Bool.false_ne_true, ← hlive,
        hcount]
    · rw [forEach_del, (hperm.map _).sum_eq, List.map_cons, List.sum_cons, hcost, Nat.add_comm]
      exact Nat.add_le_add_right hbytes _
  · obtain ⟨_, hcount, hcost⟩ := del_present hfind
    refine ⟨?_, hdeleted, ?_⟩
    · rw [hes, countP_middle] at hlive
      rw [forEach_del, hins, countP_middle, hcount, hlive, live, live]
      cases old.tombstone <;> rfl
    · rw [hes, sum_middle] at hbytes
      rw [forEach_del, hins, sum_middle, hcost]
      simp only [rowCost, entryCost, Memtable.deleted] at hbytes ⊢
      have hzero : heapCost ([] : Bytes).length = 0 := rfl
      omega

/-- A swept row was live, and is a tombstone that costs no more. -/
theorem countP_sweepRow (now : Int64) (es : List (Bytes × Entry)) :
    (es.map (sweepRow now)).countP live + es.countP (due now) = es.countP live := by
  induction es with
  | nil => rfl
  | cons p es ih =>
      rw [List.map_cons, List.countP_cons, List.countP_cons, List.countP_cons]
      cases hdue : due now p with
      | true =>
          obtain ⟨hrow, htomb⟩ := sweepRow_due hdue
          have hafter : live (sweepRow now p) = false := by rw [hrow]; rfl
          have hbefore : live p = true := by rw [live, htomb]; rfl
          rw [hafter, hbefore, if_neg Bool.false_ne_true, if_pos rfl]
          omega
      | false =>
          rw [sweepRow_not_due hdue, if_neg Bool.false_ne_true]
          omega

theorem sum_sweepRow (now : Int64) (es : List (Bytes × Entry)) :
    ((es.map (sweepRow now)).map rowCost).sum ≤ (es.map rowCost).sum := by
  induction es with
  | nil => exact Nat.le_refl _
  | cons p es ih =>
      have hrow : rowCost (sweepRow now p) ≤ rowCost p := by
        cases hdue : due now p with
        | true =>
            rw [(sweepRow_due hdue).1]
            have hzero : heapCost ([] : Bytes).length = 0 := rfl
            simp only [rowCost, entryCost, Memtable.deleted]
            omega
        | false => rw [sweepRow_not_due hdue]
      simp only [List.map_cons, List.sum_cons]
      omega

theorem Honest.sweepExpired {m : Memtable} (h : m.Honest) (now : Int64) (budget : Nat) :
    (m.sweepExpired now budget).2.Honest ∧ (m.sweepExpired now budget).1 ≤ m.liveCount := by
  have hlive := h.liveCount
  have hbytes := h.bytes
  have hrows : m.forEach =
      m.beforeCursor ++ (m.fromCursor.take budget ++ m.fromCursor.drop budget) := by
    rw [List.take_append_drop]
    exact m.cursor_split.symm
  have hcount := countP_sweepRow now (m.fromCursor.take budget)
  have hcost := sum_sweepRow now (m.fromCursor.take budget)
  rw [hrows] at hlive hbytes
  simp only [List.countP_append, List.map_append, List.sum_append] at hlive hbytes
  refine ⟨⟨?_, ?_, ?_⟩, ?_⟩
  · rw [sweepExpired_liveCount, sweepExpired_entries, sweepExpired_count]
    simp only [List.countP_append]
    omega
  · intro p hp htomb
    obtain ⟨q, hq, rfl | rfl⟩ := mem_sweepExpired hp
    · exact h.deleted p hq htomb
    · cases hdue : due now q with
      | true => rw [(sweepRow_due hdue).1]
      | false =>
          rw [sweepRow_not_due hdue] at htomb ⊢
          exact h.deleted q hq htomb
  · rw [sweepExpired_bytes, sweepExpired_entries]
    simp only [List.map_append, List.sum_append]
    omega
  · rw [sweepExpired_count]
    omega

theorem Honest.call {m : Memtable} (h : m.Honest) (c : MemtableCall) : (m.call c).Honest := by
  cases c with
  | set key value stamp => exact h.set key value stamp
  | del key => exact h.del key
  | sweepExpired now budget => exact (h.sweepExpired now budget).1
  | clear => exact honest_empty

theorem Honest.run {m : Memtable} (h : m.Honest) (calls : List MemtableCall) :
    (m.run calls).Honest := by
  induction calls generalizing m with
  | nil => exact h
  | cons c calls ih => exact ih (h.call c)

/-- The counter is never taken below zero. -/
theorem Honest.decrements_le {m : Memtable} (h : m.Honest) (c : MemtableCall) :
    m.decrements c ≤ m.liveCount := by
  cases c with
  | set key value stamp => exact Nat.zero_le _
  | del key =>
      show (m.del key).1.toNat ≤ m.liveCount
      have hlive := h.liveCount
      rcases m.rows_insert key Memtable.deleted with ⟨hfind, _⟩ | ⟨old, xs, ys, hfind, hes, _⟩
      · rw [(del_absent hfind).1]
        exact Nat.zero_le _
      · rw [hes, countP_middle] at hlive
        rw [(del_present hfind).1]
        have hold : live (key, old) = !old.tombstone := rfl
        rw [hold] at hlive
        omega
  | sweepExpired now budget => exact (h.sweepExpired now budget).2
  | clear => exact Nat.zero_le _

/-- Only `clear` lowers the estimate. -/
theorem bytes_le_call (m : Memtable) {c : MemtableCall} (hc : c ≠ .clear) :
    m.bytes ≤ (m.call c).bytes := by
  cases c with
  | set key value stamp =>
      show m.bytes ≤ (m.set key value stamp).bytes
      unfold set
      split
      · exact Nat.le_add_right _ _
      · dsimp only
        split
        · exact Nat.le_add_right _ _
        · exact Nat.le_refl _
  | del key =>
      show m.bytes ≤ (m.del key).2.bytes
      unfold del
      split
      · exact Nat.le_add_right _ _
      · exact Nat.le_refl _
  | sweepExpired now budget => exact Nat.le_of_eq (m.sweepExpired_bytes now budget).symm
  | clear => exact absurd rfl hc

theorem bytes_le_run (calls : List MemtableCall) :
    ∀ (m : Memtable), .clear ∉ calls → m.bytes ≤ (m.run calls).bytes := by
  induction calls with
  | nil => intro m _; exact Nat.le_refl _
  | cons c calls ih =>
      intro m hcalls
      rw [List.mem_cons, not_or] at hcalls
      exact Nat.le_trans (m.bytes_le_call (Ne.symm hcalls.1)) (ih (m.call c) hcalls.2)

/-- The counters never read low. Whatever calls were made on a memtable: the
live count is the number of its live entries, and no call takes more off it
than is there; a tombstone has no value and no stamp; the entries come in
strictly increasing order of their keys; the estimate covers every entry and
does not go down before the next `clear`. -/
theorem memtable_counters (calls : List MemtableCall) :
    let m := Memtable.run {} calls
    m.liveCount = m.forEach.countP (fun p => !p.2.tombstone) ∧
      (∀ c, m.decrements c ≤ m.liveCount) ∧
      (∀ p ∈ m.forEach, p.2.tombstone = true → p.2.value = [] ∧ p.2.expiresAtMs = 0) ∧
      (m.forEach.map Prod.fst).Pairwise (· < ·) ∧
      (m.forEach.map fun p => entryCost p.1 p.2.value).sum ≤ m.bytes ∧
      ∀ more, .clear ∉ more → m.bytes ≤ (m.run more).bytes := by
  intro m
  have h : m.Honest := honest_empty.run calls
  refine ⟨h.liveCount, h.decrements_le, fun p hp htomb => ?_, m.entries.sorted, h.bytes,
    fun more hmore => bytes_le_run more m hmore⟩
  rw [h.deleted p hp htomb]
  exact ⟨rfl, rfl⟩

end Memtable

end Cachedb
