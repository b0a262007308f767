import Cachedb.Proofs.Counters
import Cachedb.Proofs.Idle
import Mathlib.Algebra.Order.BigOperators.Group.List

/-!
# Flushes are paid for

A flush writes the whole memtable, and it is due when `approximate_bytes` has
reached the limit. The estimate grows by no more than what a mutation costs as
an entry of its own, and only a flush or a `FLUSHALL` sets it back. So between
any two moments a server has flushed at most once for every
`memtable_limit_bytes` of mutations that it accepted, whatever fails: the sum
of their costs pays for the flushes, and what is left over is in the memtable.
File numbers and tables come from flushes alone.
-/

namespace Cachedb

/-! ## What was accepted -/

/-- What a mutation costs in the memtable as an entry of its own. -/
def Mutation.cost (m : Mutation) : Nat := entryCost m.key m.value

def batchCost (ms : List Mutation) : Nat := (ms.map Mutation.cost).sum

def Event.cost : Event → Nat
  | .applied ms => batchCost ms
  | _ => 0

/-- The cost of everything that was accepted. -/
def acceptedCost (events : List Event) : Nat := (events.map Event.cost).sum

theorem acceptedCost_append (xs ys : List Event) :
    acceptedCost (xs ++ ys) = acceptedCost xs + acceptedCost ys := by
  rw [acceptedCost, List.map_append, List.sum_append, acceptedCost, acceptedCost]

theorem batchCost_le {ms : List Mutation} {events : List Event} (h : .applied ms ∈ events) :
    batchCost ms ≤ acceptedCost events :=
  List.single_le_sum (fun _ _ => Nat.zero_le _) _ (List.mem_map.mpr ⟨_, h, rfl⟩)

/-! ## The memtable -/

theorem Memtable.set_bytes_le (m : Memtable) (key value : Bytes) (stamp : Int64) :
    (m.set key value stamp).bytes ≤ m.bytes + entryCost key value := by
  cases hfind : m.find key with
  | none => exact (Memtable.set_absent hfind value stamp).2.le
  | some old =>
      rw [(Memtable.set_present hfind value stamp).2, entryCost]
      split <;> omega

theorem Memtable.del_bytes_le (m : Memtable) (key : Bytes) :
    (m.del key).2.bytes ≤ m.bytes + entryCost key [] := by
  cases hfind : m.find key with
  | none => exact (Memtable.del_absent hfind).2.2.le
  | some old =>
      rw [(Memtable.del_present hfind).2.2]
      exact Nat.le_add_right _ _

theorem Store.delLoop_bytes_le (keys : List Bytes) :
    ∀ (s : Store) (clock : Nat → Reading),
      (s.delLoop clock keys).2.bytes ≤
        s.memtable.bytes + batchCost (keys.map Mutation.delete) := by
  induction keys with
  | nil => exact fun s _ => Nat.le_refl _
  | cons key keys ih =>
      intro s clock
      have hrest := ih { s with memtable := (s.memtable.del key).2 } (fun n => clock (n + 1))
      have hone := s.memtable.del_bytes_le key
      have hcost : batchCost ((key :: keys).map Mutation.delete) =
          entryCost key [] + batchCost (keys.map Mutation.delete) := rfl
      rw [Store.delLoop, hcost]
      dsimp only at hrest ⊢
      omega

/-! ## The store -/

/-- From `s` to `s'` there were so many flushes, and what was accepted between
the two pays for them. -/
structure Store.Flushes (n : Nat) (s : Store) (events : List Event) (s' : Store) : Prop where
  options : s'.options = s.options
  paid : n * s.options.memtableLimitBytes + s'.memtable.bytes ≤
    s.memtable.bytes + acceptedCost events
  numbers : s'.nextSequence ≤ max s.nextSequence 1 + n
  tables : s'.sstables.length ≤ s.sstables.length + n

namespace Store

variable {s s₁ s₂ : Store} {xs ys : List Event} {m n : Nat}

theorem Flushes.trans (h : s.Flushes m xs s₁) (h' : s₁.Flushes n ys s₂) :
    s.Flushes (m + n) (xs ++ ys) s₂ where
  options := h'.options.trans h.options
  paid := by
    have hfirst := h.paid
    have hsecond := h'.paid
    rw [h.options] at hsecond
    rw [acceptedCost_append, Nat.add_mul]
    omega
  numbers := by
    have hfirst := h.numbers
    have hsecond := h'.numbers
    omega
  tables := by
    have hfirst := h.tables
    have hsecond := h'.tables
    omega

/-- No flush: the log alone may have changed. -/
theorem Flushes.log (s : Store) (wal : Option Wal) (events : List Event) :
    s.Flushes 0 events { s with wal } where
  options := rfl
  paid := by dsimp only; omega
  numbers := Nat.le_max_left _ _
  tables := Nat.le_refl _

theorem Flushes.onLog (s : Store) (f : Wal → Logged) (events : List Event) :
    s.Flushes 0 events (s.onLog f).store := by
  rw [onLog_store]
  exact .log s _ events

/-- A flush that is due counts for one at most. -/
theorem flush_once (s : Store) (now : Reading) (fate : FlushFate)
    (hdue : s.options.memtableLimitBytes ≤ s.memtable.bytes) :
    ∃ n, s.Flushes n (s.flush now fate).events (s.flush now fate).store := by
  rw [flush]
  split
  · exact ⟨0, .log s s.wal _⟩
  · simp only []
    split
    · exact ⟨0, .log s s.wal _⟩
    · split
      · exact ⟨0, .log s s.wal _⟩
      · split
        · exact ⟨0, .onLog s _ _⟩
        · split
          · exact ⟨0, .onLog s _ _⟩
          · refine ⟨1, by rw [onLog_store], ?_, ?_, Nat.le_refl _⟩
            · show 1 * s.options.memtableLimitBytes + 0 ≤ _
              omega
            · dsimp only
              omega

theorem maybeFlush_paid (s : Store) (now : Reading) (fate : FlushFate) :
    ∃ n, s.Flushes n (s.maybeFlush now fate).events (s.maybeFlush now fate).store := by
  have hsame : s.Flushes 0 [] s := .log s s.wal []
  rw [maybeFlush]
  split
  · exact ⟨0, hsame⟩
  · split
    · exact ⟨0, hsame⟩
    · next hdue =>
        obtain ⟨n, h⟩ := s.flush_once now fate (Nat.le_of_not_lt hdue)
        exact ⟨n, h.options, h.paid, h.numbers, h.tables⟩

theorem mutate_paid {α : Type} (s : Store) (ms : List Mutation) (log : Wal → Logged)
    {mt : Memtable} (hmt : mt.bytes ≤ s.memtable.bytes + batchCost ms) (now : Reading)
    (fate : FlushFate) (refused accepted : α) :
    ∃ n, s.Flushes n (s.mutate ms log mt now fate refused accepted).events
      (s.mutate ms log mt now fate refused accepted).store := by
  cases hlog : (s.onLog log).ret with
  | false =>
      rw [mutate_refused hlog]
      exact ⟨0, .log s _ _⟩
  | true =>
      rw [mutate_accepted hlog]
      obtain ⟨n, h⟩ := maybeFlush_paid { s with memtable := mt, wal := (s.onLog log).store.wal }
        now fate
      -- The mutations themselves, before the flush they may have made due.
      have happlied : s.Flushes 0 (.began ms :: (s.onLog log).events ++ [.applied ms])
          { s with memtable := mt, wal := (s.onLog log).store.wal } := by
        have hcost : batchCost ms ≤
            acceptedCost (.began ms :: (s.onLog log).events ++ [.applied ms]) :=
          batchCost_le (List.mem_append_right _ List.mem_cons_self)
        refine ⟨rfl, ?_, Nat.le_max_left _ _, Nat.le_refl _⟩
        dsimp only
        omega
      have hboth := happlied.trans h
      rw [List.append_assoc, List.singleton_append] at hboth
      exact ⟨0 + n, hboth⟩

theorem set_paid (s : Store) (key value : Bytes) (stamp : Int64) (env : Env) :
    ∃ n, s.Flushes n (s.set key value stamp env).events (s.set key value stamp env).store :=
  s.mutate_paid [{ op := .kSet, key, value, expiresAtMs := stamp }] _
    (s.memtable.set_bytes_le key value stamp) _ _ _ _

theorem del_paid (s : Store) (key : Bytes) (env : Env) :
    ∃ n, s.Flushes n (s.del key env).events (s.del key env).store :=
  s.mutate_paid [Mutation.delete key] _ (s.memtable.del_bytes_le key) _ _ _ _

theorem delMany_paid (s : Store) (keys : List Bytes) (env : Env) :
    ∃ n, s.Flushes n (s.delMany keys env).events (s.delMany keys env).store :=
  s.mutate_paid _ _ (s.delLoop_bytes_le keys env.later.clock) _ _ _ _

theorem expire_paid (s : Store) (key : Bytes) (stamp : Int64) (env : Env) :
    ∃ n, s.Flushes n (s.expire key stamp env).events (s.expire key stamp env).store := by
  rw [expire]
  split
  · exact ⟨0, .log s s.wal _⟩
  · exact s.set_paid key _ stamp env.later

theorem flushAll_paid (s : Store) (env : Env) (events : List Event) :
    s.Flushes 0 events (s.flushAll env).store := by
  rw [flushAll]
  simp only []
  split
  · exact ⟨rfl, by dsimp only; omega, Nat.le_max_left _ _, Nat.zero_le _⟩
  · rw [onLog_store]
    split
    · exact ⟨rfl, by dsimp only; omega, Nat.le_max_left _ _, Nat.zero_le _⟩
    · refine ⟨rfl, ?_, Nat.le_max_right _ _, Nat.zero_le _⟩
      show 0 * s.options.memtableLimitBytes + 0 ≤ _
      omega

theorem execute_paid (s : Store) (cmd : Command) (env : Env) :
    ∃ n, s.Flushes n (execute cmd s env).events (execute cmd s env).store := by
  have hcases := execute_cases cmd s {} env
  generalize execute cmd s env = o at hcases
  cases hcases with
  | replied => exact ⟨0, .log s s.wal _⟩
  | called c env' _ hkind =>
      cases c with
      | set key value stamp => exact s.set_paid key value stamp env'
      | del key => exact s.del_paid key env'
      | delMany keys => exact s.delMany_paid keys env'
      | expire key stamp => exact s.expire_paid key stamp env'
      | flushAll => exact ⟨0, s.flushAll_paid env' _⟩
      | flush => exact absurd hkind (by simp [Call.Writes])
      | sweepExpired budget => exact absurd hkind (by simp [Call.Writes])
      | maybeCompact => exact absurd hkind (by simp [Call.Writes])

theorem maybeCompact_rest (s : Store) (d : Disk) (env : Env) :
    (s.maybeCompact d env).store.options = s.options ∧
      (s.maybeCompact d env).store.memtable = s.memtable ∧
      (s.maybeCompact d env).store.nextSequence = s.nextSequence := by
  rw [maybeCompact]
  split
  · exact ⟨rfl, rfl, rfl⟩
  · rw [compactRun]
    simp only []
    split
    · exact ⟨rfl, rfl, rfl⟩
    · split
      · exact ⟨rfl, rfl, rfl⟩
      · split
        · split <;> exact ⟨rfl, rfl, rfl⟩
        · exact ⟨rfl, rfl, rfl⟩

theorem maybeCompact_paid (s : Store) (d : Disk) (env : Env) (events : List Event) :
    s.Flushes 0 events (s.maybeCompact d env).store := by
  have hfewer := (s.maybeCompact_fewer d env).2
  obtain ⟨hoptions, hmemtable, hnumber⟩ := s.maybeCompact_rest d env
  refine ⟨hoptions, ?_, ?_, ?_⟩
  · rw [hmemtable]
    omega
  · rw [hnumber]
    exact Nat.le_max_left _ _
  · omega

theorem sweepExpired_paid (s : Store) (budget : Nat) (env : Env) (events : List Event) :
    s.Flushes 0 events (s.sweepExpired budget env).store := by
  refine ⟨rfl, ?_, Nat.le_max_left _ _, Nat.le_refl _⟩
  rw [sweepExpired]
  dsimp only
  rw [Memtable.sweepExpired_bytes]
  omega

end Store

theorem Server.housekeeping_paid (s : Server) (it : Iteration) :
    s.engine.store.Flushes 0 (s.housekeeping it).events
      (s.housekeeping it).server.engine.store :=
  ((s.engine.store.sweepExpired_paid kSweepBudget it.sweep _).trans
    (Store.maybeCompact_paid _ _ it.compact _)).trans (.onLog _ _ _)

/-! ## Whole runs -/

theorem flushes_rule : LoopRule (fun _ => True) (fun _ => True) (fun _ => True)
    fun e events e' => ∃ n, e.store.Flushes n events e'.store where
  refl e := ⟨0, .log e.store e.store.wal []⟩
  trans h h' := by
    obtain ⟨m, h⟩ := h
    obtain ⟨n, h'⟩ := h'
    exact ⟨m + n, h.trans h'⟩
  command e cmd env _ _ := e.store.execute_paid cmd env
  gaveUp s it _ _ := ⟨0, .onLog _ _ _⟩
  released s it sent _ _ _ := ⟨0, .onLog _ _ _⟩
  kept s it _ := ⟨0, s.housekeeping_paid it⟩

/-- Any run of a server, whatever fails in it: its flushes, at the limit each,
and what is now in the memtable cost no more than what was there before and
what was accepted. There are no other file numbers and no other tables. -/
theorem flushes_paid (s : Server) (its : List Iteration) :
    ∃ flushes,
      flushes * s.engine.store.options.memtableLimitBytes +
          (s.run its).server.engine.store.memtable.bytes ≤
        s.engine.store.memtable.bytes + acceptedCost (s.run its).events ∧
      (s.run its).server.engine.store.nextSequence ≤
        max s.engine.store.nextSequence 1 + flushes ∧
      (s.run its).server.engine.store.sstables.length ≤
        s.engine.store.sstables.length + flushes := by
  obtain ⟨n, h⟩ := flushes_rule.run its s (fun _ _ => ⟨trivial, fun _ _ _ _ => trivial⟩)
    (fun _ _ => trivial)
  exact ⟨n, h.paid, h.numbers, h.tables⟩

end Cachedb
