import Cachedb.Lib.Rounds
import Cachedb.Proofs.Counters

/-!
# The sweep reaches every key

The cursor of the sweep is a key, found again with `lower_bound` at the next
call; the empty string, which starts the walk over, may be a key itself. Seen
from the rows of the table it is a place: where the next call begins. A sweep
is one stretch of a walk round the rows (`Rounds.step`), and neither adds nor
removes one, so the walk goes round whatever place it starts from.
-/

namespace Cachedb

namespace Memtable

/-- The row the next sweep begins at. -/
def place (m : Memtable) : Nat := m.beforeCursor.length

theorem place_le (m : Memtable) : m.place ≤ m.forEach.length := by
  rw [forEach, ← m.cursor_split, List.length_append]
  exact Nat.le_add_right _ _

theorem take_place (m : Memtable) : m.forEach.take m.place = m.beforeCursor := by
  rw [forEach, ← m.cursor_split, place, List.take_left]

theorem drop_place (m : Memtable) : m.forEach.drop m.place = m.fromCursor := by
  rw [forEach, ← m.cursor_split, place, List.drop_left]

theorem sweepExpired_stretch (m : Memtable) (now : Int64) (budget : Nat) :
    (m.sweepExpired now budget).2.forEach =
      Rounds.stretch (sweepRow now) budget m.place m.forEach := by
  rw [sweepExpired_entries, Rounds.stretch, take_place, drop_place]

theorem sweepExpired_cursor (m : Memtable) (now : Int64) (budget : Nat) :
    (m.sweepExpired now budget).2.sweepCursor =
      ((m.fromCursor.drop budget).head?.map Prod.fst).getD [] := by
  unfold sweepExpired
  split
  · next h =>
      rw [(cursor_of_isEmpty h).2.2, List.drop_nil]
      rfl
  · show (sweepFrom now budget m.fromCursor).2.2 = _
    rw [sweepFrom_eq]

/-- The cursor is found again where it was left. -/
theorem place_sweepExpired (m : Memtable) (now : Int64) (budget : Nat) :
    (m.sweepExpired now budget).2.place = Rounds.next budget m.forEach.length m.place := by
  have hlen : m.forEach.length = m.place + m.fromCursor.length := by
    rw [forEach, ← m.cursor_split, List.length_append]
    rfl
  have hsorted : SortedMap.KeysSorted (m.sweepExpired now budget).2.forEach :=
    (m.sweepExpired now budget).2.entries.sorted
  have hcursor := m.sweepExpired_cursor now budget
  rw [Rounds.next, hlen, place, beforeCursor]
  show (List.takeWhile _ (m.sweepExpired now budget).2.forEach).length = _
  rw [sweepExpired_entries] at hsorted ⊢
  cases hdrop : m.fromCursor.drop budget with
  | nil =>
      -- The walk came to the end: no key is below the empty string.
      have hend : m.fromCursor.length ≤ budget := List.drop_eq_nil_iff.mp hdrop
      rw [hdrop] at hcursor
      rw [if_neg (by omega), hcursor]
      have hnone : ∀ rows : List (Bytes × Entry),
          rows.takeWhile (fun e => decide (e.1 < ((none : Option Bytes).getD []))) = [] := by
        intro rows
        cases rows with
        | nil => rfl
        | cons p rows => exact List.takeWhile_cons_of_neg (by simp)
      exact congrArg List.length (hnone _)
  | cons y ys =>
      have hmore : budget < m.fromCursor.length := by
        by_contra hle
        rw [List.drop_eq_nil_iff.mpr (Nat.not_lt.mp hle)] at hdrop
        cases hdrop
      rw [hdrop] at hcursor hsorted
      rw [← List.append_assoc] at hsorted ⊢
      rw [if_pos (by omega), hcursor]
      have hbelow := (SortedMap.keysSorted_append.mp hsorted).2.2
      rw [List.takeWhile_append_of_pos, List.takeWhile_cons_of_neg, List.append_nil,
        List.length_append, List.length_map, List.length_take]
      · rw [Nat.min_eq_left (by omega)]
        rfl
      · simp
      · intro p hp
        exact decide_eq_true (hbelow p hp y List.mem_cons_self)

/-- `t` sweeps, one after the other, and what they answer together. -/
def sweeps (now : Int64) (budget : Nat) : Nat → Memtable → Nat × Memtable
  | 0, m => (0, m)
  | t + 1, m =>
      let first := m.sweepExpired now budget
      let rest := sweeps now budget t first.2
      (first.1 + rest.1, rest.2)

theorem sweeps_walk (now : Int64) (budget : Nat) : ∀ (t : Nat) (m : Memtable),
    ((sweeps now budget t m).2.place, (sweeps now budget t m).2.forEach) =
      (Rounds.step (sweepRow now) budget)^[t] (m.place, m.forEach) := by
  intro t
  induction t with
  | zero => intro m; rfl
  | succ t ih =>
      intro m
      rw [sweeps, Function.iterate_succ_apply, ih, place_sweepExpired, sweepExpired_stretch]
      rfl

/-! ## What is swept -/

theorem not_due_sweepRow (now : Int64) (p : Bytes × Entry) :
    due now (sweepRow now p) = false := by
  cases hdue : due now p with
  | true => rw [(sweepRow_due hdue).1]; rfl
  | false => rw [sweepRow_not_due hdue, hdue]

theorem sweepRow_idem (now : Int64) (p : Bytes × Entry) :
    sweepRow now (sweepRow now p) = sweepRow now p := sweepRow_not_due (not_due_sweepRow now p)

theorem countP_due_sweepRow (now : Int64) (es : List (Bytes × Entry)) :
    (es.map (sweepRow now)).countP (due now) = 0 := by
  rw [List.countP_eq_zero]
  intro p hp
  obtain ⟨q, _, rfl⟩ := List.mem_map.mp hp
  rw [not_due_sweepRow]
  exact Bool.false_ne_true

/-- What a sweep answers is no longer due. -/
theorem sweepExpired_due (m : Memtable) (now : Int64) (budget : Nat) :
    (m.sweepExpired now budget).1 + (m.sweepExpired now budget).2.forEach.countP (due now) =
      m.forEach.countP (due now) := by
  have hrows : m.forEach =
      m.beforeCursor ++ (m.fromCursor.take budget ++ m.fromCursor.drop budget) := by
    rw [List.take_append_drop]
    exact m.cursor_split.symm
  rw [sweepExpired_count, sweepExpired_entries, hrows]
  simp only [List.countP_append, countP_due_sweepRow]
  omega

theorem sweeps_due (now : Int64) (budget : Nat) : ∀ (t : Nat) (m : Memtable),
    (sweeps now budget t m).1 + (sweeps now budget t m).2.forEach.countP (due now) =
      m.forEach.countP (due now) := by
  intro t
  induction t with
  | zero => intro m; exact Nat.zero_add _
  | succ t ih =>
      intro m
      have hfirst := m.sweepExpired_due now budget
      have hrest := ih (m.sweepExpired now budget).2
      rw [sweeps]
      dsimp only
      omega

/-- The stamp of an entry has passed. -/
def stampPassed (now : Int64) (p : Bytes × Entry) : Prop :=
  p.2.expiresAtMs ≠ 0 ∧ p.2.expiresAtMs ≤ now

instance (now : Int64) (p : Bytes × Entry) : Decidable (stampPassed now p) := by
  unfold stampPassed; infer_instance

/-- A tombstone has no stamp, so every entry whose stamp has passed is due. -/
theorem Honest.due_iff {m : Memtable} (h : m.Honest) (now : Int64) {p : Bytes × Entry}
    (hp : p ∈ m.forEach) : due now p = true ↔ stampPassed now p := by
  cases htomb : p.2.tombstone with
  | true =>
      rw [due, stampPassed, h.deleted p hp htomb]
      constructor
      · intro hdue; cases hdue
      · intro hpassed; exact absurd rfl hpassed.1
  | false =>
      unfold due sweepEntry stampPassed
      simp only [htomb, Bool.not_false, Bool.true_and, Bool.and_eq_true, bne_iff_ne,
        decide_eq_true_eq]
      split
      · next hpassed => exact ⟨fun _ => hpassed, fun _ => rfl⟩
      · next hpassed =>
          constructor
          · intro hdue; cases hdue
          · intro hp; exact absurd hp hpassed

/-- The sweep reaches every key. Whatever was done to a memtable before, and so
wherever the cursor is: `2 * ⌈n / b⌉` sweeps of budget `b` over its `n` entries
turn those whose stamp has passed into tombstones, leave every other entry and
every row, and answer how many they turned. -/
theorem sweep_reaches_every_key (calls : List MemtableCall) (now : Int64) (b : Nat)
    (hb : 1 ≤ b) :
    let m := Memtable.run {} calls
    let swept := sweeps now b (2 * ((m.forEach.length + b - 1) / b)) m
    swept.2.forEach =
        m.forEach.map (fun p => if stampPassed now p then (p.1, Memtable.deleted) else p) ∧
      swept.1 = m.forEach.countP fun p => decide (stampPassed now p) := by
  intro m swept
  have h : m.Honest := honest_empty.run calls
  have hrows : swept.2.forEach = m.forEach.map (sweepRow now) := by
    have hwalk := sweeps_walk now b (2 * ((m.forEach.length + b - 1) / b)) m
    have hall := Rounds.walk_all (sweepRow_idem now) hb m.place_le
    rw [← hwalk] at hall
    exact hall
  have hcount := sweeps_due now b (2 * ((m.forEach.length + b - 1) / b)) m
  refine ⟨?_, ?_⟩
  · rw [hrows]
    refine List.map_congr_left fun p hp => ?_
    cases hdue : due now p with
    | true => rw [(sweepRow_due hdue).1, if_pos ((h.due_iff now hp).mp hdue)]
    | false =>
        rw [sweepRow_not_due hdue, if_neg]
        rw [← h.due_iff now hp, hdue]
        exact Bool.false_ne_true
  · have hnone : swept.2.forEach.countP (due now) = 0 := by
      rw [hrows]
      exact countP_due_sweepRow now _
    have hsame : m.forEach.countP (due now) =
        m.forEach.countP fun p => decide (stampPassed now p) :=
      List.countP_congr fun p hp => by rw [decide_eq_true_eq]; exact h.due_iff now hp
    change swept.1 + swept.2.forEach.countP (due now) = _ at hcount
    omega

/-- Three keys, the cursor at the last. -/
def threeKeys : List MemtableCall :=
  [.set [1] [7] 5, .set [2] [8] 0, .set [3] [9] 4, .sweepExpired 1 2]

/-- Two of them have expired, and two rounds of two calls find them. -/
theorem sweep_reaches_every_key_three :
    (sweeps 6 2 4 (Memtable.run {} threeKeys)).2.forEach =
        [([1], deleted), ([2], { value := [8] }), ([3], deleted)] ∧
      (sweeps 6 2 4 (Memtable.run {} threeKeys)).1 = 2 := by
  have hlen : (Memtable.run {} threeKeys).forEach.length = 3 := by decide
  obtain ⟨hrows, hcount⟩ := sweep_reaches_every_key threeKeys 6 2 (by decide)
  rw [hlen] at hrows hcount
  exact ⟨hrows.trans (by decide), hcount.trans (by decide)⟩

end Memtable

end Cachedb
