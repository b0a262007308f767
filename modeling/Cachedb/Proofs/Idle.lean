import Cachedb.Lib.Potential
import Cachedb.Proofs.Loop
import Cachedb.Proofs.StoreSteps

/-!
# A server without clients comes to rest

The loop goes on while nobody talks to the server: every turn it may sync the
log, sweep, and merge tables. It does not do so for ever. What was appended is
synced once. A merge makes at most one table of four or more, so there are
fewer tables to merge after it. The potential of a server is what it has left to
do: a third of its tables, and one if its log has to be synced.
-/

namespace Cachedb

open Potential

/-! ## One merge -/

/-- A merge leaves the log alone, and it does nothing, or fails, or there are at
least three tables fewer. -/
theorem Store.maybeCompact_fewer (s : Store) (d : Disk) (env : Env) :
    (s.maybeCompact d env).store.wal = s.wal ∧
      ((s.maybeCompact d env).ret = 0 ∧
          (s.maybeCompact d env).store.sstables.length ≤ s.sstables.length ∨
        (s.maybeCompact d env).store.sstables.length + 3 ≤ s.sstables.length) := by
  rw [Store.maybeCompact]
  cases hrun : s.chooseRun d with
  | none => exact ⟨rfl, Or.inl ⟨rfl, Nat.le_refl _⟩⟩
  | some run =>
      obtain ⟨first, len⟩ := run
      obtain ⟨_, _, hlen, hend⟩ := Store.chooseRun_bounds hrun
      rw [kCompactionTrigger] at hlen
      have hcut : (s.sstables.take first ++ s.sstables.drop (first + len)).length + len =
          s.sstables.length := by
        rw [List.length_append, List.length_take, List.length_drop]
        omega
      rw [List.length_append] at hcut
      dsimp only
      rw [Store.compactRun]
      dsimp only
      split
      · exact ⟨rfl, Or.inl ⟨rfl, Nat.le_refl _⟩⟩
      · split
        · exact ⟨rfl, Or.inl ⟨rfl, Nat.le_refl _⟩⟩
        · split
          · split
            · refine ⟨rfl, Or.inl ⟨rfl, ?_⟩⟩
              dsimp only
              rw [List.length_append]
              omega
            · refine ⟨rfl, Or.inr ?_⟩
              dsimp only
              rw [List.length_append, List.length_cons]
              omega
          · refine ⟨rfl, Or.inr ?_⟩
            dsimp only
            rw [List.length_append]
            omega

/-! ## One turn -/

/-- One if the log has to be synced. -/
def Store.unsynced (s : Store) : Nat := if s.wal.any Wal.needsSync then 1 else 0

/-- After the sync nothing has to be synced. A sync that asks something of the
directory had something to do. -/
theorem Server.syncLog_once (s : Server) (now : Reading) {sync : Bool} (hsync : sync = true) :
    (s.syncLog now sync).ok = true ∧
      (s.syncLog now sync).server.engine.store.unsynced = 0 ∧
      (s.syncLog now sync).server.engine.store.sstables = s.engine.store.sstables ∧
      ((s.syncLog now sync).events = [] ∨ s.engine.store.unsynced = 1) := by
  subst hsync
  rw [Server.syncLog]
  dsimp only [Server.after]
  cases hw : s.engine.store.wal with
  | none =>
      rw [Store.onLog_none _ hw]
      exact ⟨rfl, by rw [Store.unsynced, hw]; rfl, rfl, Or.inl rfl⟩
  | some w =>
      rw [Store.onLog_some _ hw]
      split
      · next hneeds => exact ⟨rfl, rfl, rfl, Or.inr (by simp [Store.unsynced, hw, hneeds])⟩
      · next hneeds => exact ⟨rfl, by simp [Store.unsynced, hneeds], rfl, Or.inl rfl⟩

/-- A log that was synced is left alone by the tick. -/
theorem Store.maybeSync_unsynced {s : Store} (h : s.unsynced = 0) (now : Reading) (ok : Bool) :
    (s.onLog fun w => w.maybeSync now ok).events = [] ∧
      (s.onLog fun w => w.maybeSync now ok).store = s := by
  cases hw : s.wal with
  | none =>
      rw [Store.onLog_none _ hw]
      exact ⟨rfl, rfl⟩
  | some w =>
      have hzero : w.bytesSinceSync = 0 := by
        simpa [Store.unsynced, hw, Wal.needsSync] using h
      have hlogged : w.maybeSync now ok = { ok := true, wal := w, events := [] } := by
        rw [Wal.maybeSync, if_pos hzero]
        split <;> rfl
      rw [Store.onLog_some _ hw, hlogged]
      refine ⟨rfl, ?_⟩
      rw [← hw]

/-- What the merge of a turn without clients comes to. -/
def Server.merge (s : Server) (it : Iteration) : Outcome Nat :=
  let s := (s.syncLog it.now it.sync).server
  let s := s.after (s.engine.store.sweepExpired kSweepBudget it.sweep)
  s.engine.store.maybeCompact s.engine.disk it.compact

/-- Nobody is there, the log can be synced, and if there is something to merge
it is merged. -/
structure Server.Undisturbed (s : Server) (it : Iteration) : Prop where
  nobody : it.ready = []
  sync : it.sync = true
  merge : (s.merge it).events = [] ∨ 0 < (s.merge it).ret

/-- What is left to do. -/
def Server.pending (s : Server) : Nat :=
  s.engine.store.sstables.length / 3 + s.engine.store.unsynced

/-- The server after a turn. -/
def Server.next (s : Server) (it : Iteration) : Server := (s.iterate it).server

/-- One if a turn asks something of the directory. -/
def Server.busy (s : Server) (it : Iteration) : Nat := if (s.iterate it).events = [] then 0 else 1

/-- A turn without clients is a sync and a merge. -/
theorem Server.Undisturbed.turn {s : Server} {it : Iteration} (h : s.Undisturbed it) :
    (s.iterate it).events = (s.syncLog it.now it.sync).events ++ (s.merge it).events ∧
      (s.next it).engine.store = (s.merge it).store := by
  obtain ⟨hok, hsynced, _, _⟩ := s.syncLog_once it.now h.sync
  have hleft : (s.merge it).store.unsynced = 0 := by
    rw [Server.merge, Store.unsynced, (Store.maybeCompact_fewer _ _ _).1]
    exact hsynced
  obtain ⟨htick, hsame⟩ := Store.maybeSync_unsynced hleft it.tick it.tickSync
  have hserved : s.serviceAll it.ready = ([], { server := s }) := by
    rw [h.nobody]
    rfl
  rw [Server.next, Server.iterate, hserved]
  simp only []
  split
  · next hfailed =>
      rw [hok] at hfailed
      cases hfailed
  · simp only [Server.releaseAll, Server.housekeeping, List.nil_append, List.append_nil]
    exact ⟨congrArg ((s.syncLog it.now it.sync).events ++ ·)
      ((congrArg ((s.merge it).events ++ ·) htick).trans (List.append_nil _)), hsame⟩

theorem Server.Undisturbed.paid {s : Server} {it : Iteration} (h : s.Undisturbed it) :
    s.busy it + (s.next it).pending ≤ s.pending := by
  obtain ⟨_, hsynced, htables, hsync⟩ := s.syncLog_once it.now h.sync
  obtain ⟨hevents, hstore⟩ := h.turn
  have hfewer : (s.merge it).store.unsynced = 0 ∧
      ((s.merge it).ret = 0 ∧
          (s.merge it).store.sstables.length ≤ s.engine.store.sstables.length ∨
        (s.merge it).store.sstables.length + 3 ≤ s.engine.store.sstables.length) := by
    rw [Server.merge, ← htables]
    obtain ⟨hwal, hfewer⟩ := Store.maybeCompact_fewer
      ((s.syncLog it.now it.sync).server.engine.store.sweepExpired kSweepBudget it.sweep).store
      (s.syncLog it.now it.sync).server.engine.disk it.compact
    refine ⟨?_, hfewer⟩
    rw [← hsynced, Store.unsynced, Store.unsynced]
    exact congrArg (fun w : Option Wal => if w.any Wal.needsSync then 1 else 0) hwal
  have hmerge := h.merge
  rw [Server.pending, Server.pending, hstore, hfewer.1, Server.busy, hevents]
  rcases hfewer.2 with ⟨hret, hle⟩ | hle
  · -- Nothing was merged, so what was asked of the directory was the sync.
    have hnone : (s.merge it).events = [] := hmerge.resolve_right (by omega)
    rw [hnone, List.append_nil]
    split
    · omega
    · next hsome =>
        have hone := hsync.resolve_left hsome
        omega
  · split <;> omega

end Cachedb
