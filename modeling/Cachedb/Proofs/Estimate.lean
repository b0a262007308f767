import Cachedb.Proofs.Counters
import Mathlib.Data.List.Induction

/-!
# How high the estimate reads

The header of the store promises a slight overestimate: an entry keeps the
memory of the largest value it has held, so that is what it should be charged
for. `peaks` remembers that largest cost for every key, beside the memtable.

`set` charges the difference to the value it replaces. As long as every value
that grows grows from its entry's peak, what has been charged is exactly the
peak; a value that has shrunk, or has been deleted or swept, and grows again
is charged for memory the entry was charged for before. One key rewritten
often enough takes the estimate past any limit.
-/

namespace Cachedb

/-- The largest cost of any value the entry of a key has held. -/
abbrev Peaks := Bytes → Nat

def MemtableCall.peaks (peaks : Peaks) : MemtableCall → Peaks
  | .set key value _ => fun k =>
      if k = key then max (peaks key) (heapCost value.length) else peaks k
  | .del _ => peaks
  | .sweepExpired _ _ => peaks
  | .clear => fun _ => 0

/-- The peaks behind a sequence of calls on a new memtable. -/
def MemtableCall.peaksOf (calls : List MemtableCall) : Peaks :=
  calls.foldl (fun peaks c => c.peaks peaks) fun _ => 0

namespace Memtable

/-- What a row holds: the entry, its key, and the largest value it has had. -/
def rowCeiling (peaks : Peaks) (p : Bytes × Entry) : Nat :=
  kEntryOverhead + heapCost p.1.length + peaks p.1

def ceiling (m : Memtable) (peaks : Peaks) : Nat := (m.forEach.map (rowCeiling peaks)).sum

/-- A `set` that makes the value of an entry grow while it is below what the
entry has held before. -/
def Regrows (m : Memtable) (peaks : Peaks) : MemtableCall → Prop
  | .set key value _ => ∃ e, m.find key = some e ∧ heapCost e.value.length < heapCost value.length ∧
      heapCost e.value.length < peaks key
  | _ => False

/-- What holds between a memtable and its peaks along every run. -/
structure Tracked (m : Memtable) (peaks : Peaks) : Prop where
  absent : ∀ k, m.find k = none → peaks k = 0
  held : ∀ k e, m.find k = some e → heapCost e.value.length ≤ peaks k
  covered : m.ceiling peaks ≤ m.bytes

theorem tracked_empty : Tracked {} fun _ => 0 := by
  refine ⟨fun _ _ => rfl, fun k e he => ?_, Nat.le_refl _⟩
  cases he

/-! ## One call -/

/-- Rows of other keys do not see a new peak. -/
theorem sum_rowCeiling {peaks peaks' : Peaks} {key : Bytes}
    (hpeaks : ∀ k, k ≠ key → peaks' k = peaks k) {rows : List (Bytes × Entry)}
    (hrows : ∀ p ∈ rows, p.1 ≠ key) :
    (rows.map (rowCeiling peaks')).sum = (rows.map (rowCeiling peaks)).sum := by
  have hmap : rows.map (rowCeiling peaks') = rows.map (rowCeiling peaks) :=
    List.map_congr_left fun p hp => by rw [rowCeiling, rowCeiling, hpeaks p.1 (hrows p hp)]
  rw [hmap]

/-- The rows around a row have other keys. -/
theorem ne_of_rows {m : Memtable} {key : Bytes} {old : Entry} {xs ys : List (Bytes × Entry)}
    (hes : m.forEach = xs ++ (key, old) :: ys) : ∀ p ∈ xs ++ ys, p.1 ≠ key := by
  have hsorted : SortedMap.KeysSorted (xs ++ (key, old) :: ys) := hes ▸ m.entries.sorted
  obtain ⟨_, hys, hxs⟩ := SortedMap.keysSorted_append.mp hsorted
  intro p hp
  rcases List.mem_append.mp hp with hp | hp
  · exact ne_of_lt (hxs p hp (key, old) List.mem_cons_self)
  · exact ne_of_gt ((SortedMap.keysSorted_cons.mp hys).1 p hp)

theorem ne_of_absent {m : Memtable} {key : Bytes} (h : m.find key = none) :
    ∀ p ∈ m.forEach, p.1 ≠ key :=
  SortedMap.findIn_eq_none_iff.mp h

/-- What putting an entry under a key does to the ceiling. -/
theorem ceiling_insert {m m' : Memtable} {key : Bytes} {e : Entry} {peaks peaks' : Peaks}
    (hrows : m'.forEach = SortedMap.insertIn key e m.forEach)
    (hpeaks : ∀ k, k ≠ key → peaks' k = peaks k) :
    (m.find key = none ∧
      m'.ceiling peaks' =
        m.ceiling peaks + (kEntryOverhead + heapCost key.length + peaks' key)) ∨
    ∃ old, m.find key = some old ∧
      m'.ceiling peaks' + peaks key = m.ceiling peaks + peaks' key := by
  rcases m.rows_insert key e with ⟨hfind, hperm⟩ | ⟨old, xs, ys, hfind, hes, hins⟩
  · refine Or.inl ⟨hfind, ?_⟩
    rw [ceiling, ceiling, hrows, (hperm.map _).sum_eq, List.map_cons, List.sum_cons,
      sum_rowCeiling hpeaks (ne_of_absent hfind), Nat.add_comm]
    rfl
  · refine Or.inr ⟨old, hfind, ?_⟩
    rw [ceiling, ceiling, hrows, hins, hes, sum_middle, sum_middle,
      sum_rowCeiling hpeaks (ne_of_rows hes)]
    simp only [rowCeiling]
    omega

theorem peaks_set_ne (peaks : Peaks) (key value : Bytes) (stamp : Int64) :
    ∀ k, k ≠ key → MemtableCall.peaks peaks (.set key value stamp) k = peaks k :=
  fun _ hk => if_neg hk

theorem peaks_set_self (peaks : Peaks) (key value : Bytes) (stamp : Int64) :
    MemtableCall.peaks peaks (.set key value stamp) key =
      max (peaks key) (heapCost value.length) := if_pos rfl

/-- What one call does: the peaks go along, a call that does not regrow keeps
the estimate below the ceiling, and one that does takes it above. -/
structure Moved (m : Memtable) (peaks : Peaks) (c : MemtableCall) : Prop where
  tracked : (m.call c).Tracked (c.peaks peaks)
  below : ¬m.Regrows peaks c → m.bytes ≤ m.ceiling peaks →
    (m.call c).bytes ≤ (m.call c).ceiling (c.peaks peaks)
  above : m.Regrows peaks c → (m.call c).ceiling (c.peaks peaks) < (m.call c).bytes

section

variable {m : Memtable} {peaks : Peaks} (h : m.Tracked peaks) (key value : Bytes) (stamp : Int64)

include h

theorem Tracked.absent_set (k : Bytes) (hk : (m.set key value stamp).find k = none) :
    MemtableCall.peaks peaks (.set key value stamp) k = 0 := by
  rw [find_set] at hk
  split at hk
  · cases hk
  · next hne =>
      rw [peaks_set_ne _ _ _ _ k hne]
      exact h.absent k hk

theorem Tracked.held_set (k : Bytes) (e : Entry) (hk : (m.set key value stamp).find k = some e) :
    heapCost e.value.length ≤ MemtableCall.peaks peaks (.set key value stamp) k := by
  rw [find_set] at hk
  split at hk
  · next heq =>
      cases hk
      rw [heq, peaks_set_self]
      exact Nat.le_max_right _ _
  · next hne =>
      rw [peaks_set_ne _ _ _ _ k hne]
      exact h.held k e hk

theorem Tracked.set : m.Moved peaks (.set key value stamp) := by
  have habsent := h.absent_set key value stamp
  have hheld := h.held_set key value stamp
  have hcovered := h.covered
  rcases ceiling_insert (m.forEach_set key value stamp) (peaks_set_ne peaks key value stamp) with
    ⟨hfind, hceiling⟩ | ⟨old, hfind, hceiling⟩
  · -- A new entry is charged for what it holds.
    have hbytes := (set_absent hfind value stamp).2
    rw [peaks_set_self, h.absent key hfind, Nat.zero_max] at hceiling
    rw [entryCost] at hbytes
    refine ⟨⟨habsent, hheld, ?_⟩, fun _ hle => ?_, fun hregrows => ?_⟩
    · show (m.set key value stamp).ceiling _ ≤ (m.set key value stamp).bytes
      omega
    · show (m.set key value stamp).bytes ≤ (m.set key value stamp).ceiling _
      omega
    · obtain ⟨e, he, _⟩ := hregrows
      rw [hfind] at he
      cases he
  · have hbytes := (set_present hfind value stamp).2
    have hold := h.held key old hfind
    rw [peaks_set_self] at hceiling
    refine ⟨⟨habsent, hheld, ?_⟩, fun hregrows hle => ?_, fun hregrows => ?_⟩
    · show (m.set key value stamp).ceiling _ ≤ (m.set key value stamp).bytes
      rw [hbytes]
      split <;> omega
    · show (m.set key value stamp).bytes ≤ (m.set key value stamp).ceiling _
      rw [hbytes]
      split
      · next hgrows =>
          have hpeak : ¬heapCost old.value.length < peaks key :=
            fun hlt => hregrows ⟨old, hfind, hgrows, hlt⟩
          omega
      · omega
    · show (m.set key value stamp).ceiling _ < (m.set key value stamp).bytes
      obtain ⟨e, he, hgrows, hlt⟩ := hregrows
      obtain rfl : old = e := Option.some.inj (hfind.symm.trans he)
      rw [hbytes, if_pos hgrows]
      omega

end

theorem Tracked.del {m : Memtable} {peaks : Peaks} (h : m.Tracked peaks) (key : Bytes) :
    m.Moved peaks (.del key) := by
  have habsent : ∀ k, (m.del key).2.find k = none → peaks k = 0 := by
    intro k hk
    rw [find_del] at hk
    split at hk
    · cases hk
    · exact h.absent k hk
  have hheld : ∀ k e, (m.del key).2.find k = some e → heapCost e.value.length ≤ peaks k := by
    intro k e hk
    rw [find_del] at hk
    split at hk
    · cases hk
      exact Nat.zero_le _
    · exact h.held k e hk
  have hcovered := h.covered
  have hboth : (m.del key).2.ceiling peaks ≤ (m.del key).2.bytes ∧
      (m.bytes ≤ m.ceiling peaks → (m.del key).2.bytes ≤ (m.del key).2.ceiling peaks) := by
    rcases ceiling_insert (m.forEach_del key) fun k _ => (rfl : peaks k = peaks k) with
      ⟨hfind, hceiling⟩ | ⟨old, hfind, hceiling⟩
    · have hbytes := (del_absent hfind).2.2
      have hzero : heapCost ([] : Bytes).length = 0 := rfl
      have hpeak := h.absent key hfind
      rw [entryCost] at hbytes
      omega
    · have hbytes := (del_present hfind).2.2
      omega
  exact ⟨⟨habsent, hheld, hboth.1⟩, fun _ => hboth.2, fun hregrows => hregrows.elim⟩

theorem find_sweepExpired_isSome (m : Memtable) (now : Int64) (budget : Nat) (k : Bytes) :
    ((m.sweepExpired now budget).2.find k).isSome = (m.find k).isSome :=
  (m.find_sweepExpired now budget k).1

theorem Tracked.sweepExpired {m : Memtable} {peaks : Peaks} (h : m.Tracked peaks) (now : Int64)
    (budget : Nat) : m.Moved peaks (.sweepExpired now budget) := by
  have habsent : ∀ k, (m.sweepExpired now budget).2.find k = none → peaks k = 0 := by
    intro k hk
    refine h.absent k ?_
    rw [← Option.isNone_iff_eq_none, ← Option.not_isSome, ← m.find_sweepExpired_isSome now budget,
      hk]
    rfl
  have hheld : ∀ k e, (m.sweepExpired now budget).2.find k = some e →
      heapCost e.value.length ≤ peaks k := by
    intro k e hk
    obtain ⟨q, hq, hrow⟩ := mem_sweepExpired (SortedMap.find_eq_some_iff.mp hk)
    have hcost : ∀ p, p = q → heapCost p.2.value.length ≤ peaks p.1 := by
      rintro p rfl
      exact h.held p.1 p.2 (SortedMap.find_eq_some_iff.mpr hq)
    rcases hrow with hrow | hrow
    · exact hcost (k, e) hrow
    · cases hdue : due now q with
      | true =>
          rw [(sweepRow_due hdue).1] at hrow
          rw [(Prod.mk.inj hrow).2]
          exact Nat.zero_le _
      | false =>
          rw [sweepRow_not_due hdue] at hrow
          exact hcost (k, e) hrow
  have hceiling : (m.sweepExpired now budget).2.ceiling peaks = m.ceiling peaks := by
    have hkeys : ∀ m' : Memtable, m'.ceiling peaks = ((m'.forEach.map Prod.fst).map fun k =>
        kEntryOverhead + heapCost k.length + peaks k).sum := by
      intro m'
      rw [List.map_map]
      rfl
    rw [hkeys, hkeys, map_fst_sweepExpired]
  have hbytes := m.sweepExpired_bytes now budget
  refine ⟨⟨habsent, hheld, ?_⟩, fun _ hle => ?_, fun hregrows => hregrows.elim⟩
  · show (m.sweepExpired now budget).2.ceiling peaks ≤ (m.sweepExpired now budget).2.bytes
    rw [hceiling, hbytes]
    exact h.covered
  · show (m.sweepExpired now budget).2.bytes ≤ (m.sweepExpired now budget).2.ceiling peaks
    rw [hceiling, hbytes]
    exact hle

theorem Tracked.call {m : Memtable} {peaks : Peaks} (h : m.Tracked peaks) (c : MemtableCall) :
    m.Moved peaks c := by
  cases c with
  | set key value stamp => exact h.set key value stamp
  | del key => exact h.del key
  | sweepExpired now budget => exact h.sweepExpired now budget
  | clear => exact ⟨tracked_empty, fun _ _ => Nat.le_refl _, fun hregrows => hregrows.elim⟩

/-! ## Runs -/

theorem run_append (m : Memtable) (calls more : List MemtableCall) :
    m.run (calls ++ more) = (m.run calls).run more := List.foldl_append

theorem peaksOf_concat (calls : List MemtableCall) (c : MemtableCall) :
    MemtableCall.peaksOf (calls ++ [c]) = c.peaks (MemtableCall.peaksOf calls) :=
  List.foldl_append

theorem tracked_run (calls : List MemtableCall) :
    (Memtable.run {} calls).Tracked (MemtableCall.peaksOf calls) := by
  induction calls using List.reverseRecOn with
  | nil => exact tracked_empty
  | append_singleton calls c ih =>
      rw [run_append, peaksOf_concat]
      exact (ih.call c).tracked

/-- The estimate stays tied to the memory held, in every state of a run,
exactly when no `set` of the run makes an entry grow from below its peak. -/
theorem estimate_bounded_iff (calls : List MemtableCall) :
    (∀ done rest, calls = done ++ rest →
      (Memtable.run {} done).bytes ≤
        ((Memtable.run {} done).forEach.map fun p =>
          kEntryOverhead + heapCost p.1.length + MemtableCall.peaksOf done p.1).sum) ↔
      ∀ done c rest, calls = done ++ c :: rest →
        ¬(Memtable.run {} done).Regrows (MemtableCall.peaksOf done) c := by
  constructor
  · intro h done c rest hcalls hregrows
    have habove := ((tracked_run done).call c).above hregrows
    have hbelow := h (done ++ [c]) rest (by rw [hcalls, List.append_assoc]; rfl)
    rw [run_append, peaksOf_concat] at hbelow
    exact Nat.not_lt.mpr hbelow habove
  · intro h done
    induction done using List.reverseRecOn with
    | nil => intro rest _; exact Nat.le_refl _
    | append_singleton done c ih =>
        intro rest hcalls
        rw [List.append_assoc] at hcalls
        have hbelow := ((tracked_run done).call c).below (h done c rest hcalls)
          (ih (c :: rest) hcalls)
        rw [run_append, peaksOf_concat]
        exact hbelow

/-- Sixteen bytes, the shortest value that costs anything. -/
def sixteen : Bytes := List.replicate 16 120

/-- A key is written, deleted and written again. -/
def rewritten : List MemtableCall := [.set [107] sixteen 0, .del [107], .set [107] sixteen 0]

/-- It is charged for two values, 224 bytes in all, and holds one. -/
theorem estimate_counts_twice :
    ¬(Memtable.run {} rewritten).bytes ≤
      ((Memtable.run {} rewritten).forEach.map fun p =>
        kEntryOverhead + heapCost p.1.length + MemtableCall.peaksOf rewritten p.1).sum := by
  decide

/-- One key, written and deleted over and over, takes the estimate to any
limit. -/
theorem estimate_reaches_any_limit (limit : Nat) :
    ∃ calls, (∀ c ∈ calls, c = .set [107] sixteen 0 ∨ c = .del [107]) ∧
      limit ≤ (Memtable.run {} calls).bytes := by
  have hrounds : ∀ n : Nat, ∃ calls, (∀ c ∈ calls, c = .set [107] sixteen 0 ∨ c = .del [107]) ∧
      n ≤ (Memtable.run {} calls).bytes ∧
      (Memtable.run {} calls).find [107] = some deleted := by
    intro n
    induction n with
    | zero =>
        refine ⟨[.del [107]], fun c hc => Or.inr (List.mem_singleton.mp hc), Nat.zero_le _, ?_⟩
        decide
    | succ n ih =>
        obtain ⟨calls, hkind, hbytes, hfind⟩ := ih
        refine ⟨calls ++ [.set [107] sixteen 0, .del [107]], fun c hc => ?_, ?_, ?_⟩
        · rcases List.mem_append.mp hc with hc | hc
          · exact hkind c hc
          · simpa using hc
        · rw [run_append]
          have hset : ((Memtable.run {} calls).set [107] sixteen 0).bytes =
              (Memtable.run {} calls).bytes + 48 := by
            rw [find] at hfind
            simp only [set, hfind]
            rfl
          have hdel := bytes_le_call ((Memtable.run {} calls).set [107] sixteen 0)
            (c := .del [107]) (fun h => by cases h)
          show n + 1 ≤ (((Memtable.run {} calls).set [107] sixteen 0).call (.del [107])).bytes
          omega
        · rw [run_append]
          show (((Memtable.run {} calls).set [107] sixteen 0).del [107]).2.find [107] = _
          rw [find_del, if_pos rfl]
  obtain ⟨calls, hkind, hbytes, _⟩ := hrounds limit
  exact ⟨calls, hkind, hbytes⟩

end Memtable

end Cachedb
