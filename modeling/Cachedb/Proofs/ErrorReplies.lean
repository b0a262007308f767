import Cachedb.Proofs.Dispatch
import Cachedb.Proofs.Recency

/-!
# An error reply means nothing changed

A handler checks in stages: its options, then its numbers, then the range of a
deadline or of a sum, and for some of that it has to look a key up. Each of
these checks replies and returns before anything is written. The one call at
the end of a handler turns into an error only if the store could not do it,
which takes a system call that failed.
-/

namespace Cachedb

theorem Env.NoFailure.later {env : Env} (h : env.NoFailure) : env.later.NoFailure :=
  ⟨h.log, h.flush, h.compact, h.flushAll⟩

theorem Store.mutate_ret {α : Type} {s : Store} {ms : List Mutation} {log : Wal → Logged}
    {memtable : Memtable} {now : Reading} {fate : FlushFate} {refused accepted : α}
    (hlog : ∀ w, (log w).ok = true) :
    (s.mutate ms log memtable now fate refused accepted).ret = accepted := by
  rw [Store.mutate_accepted (Store.onLog_ret hlog)]

theorem Store.set_ret (s : Store) (key value : Bytes) (stamp : Int64) {env : Env}
    (hlog : env.log = {}) : (s.set key value stamp env).ret = true :=
  Store.mutate_ret fun w => by rw [hlog]; exact w.commit_ok _ _

/-- Without a failing system call, no call on the store fails. -/
theorem Store.call_not_failed (s : Store) (d : Disk) {env : Env} (henv : env.NoFailure) {c : Call}
    (hc : c.Writes ∨ c = .flushAll) : (s.call d env c).ret.failed = false := by
  cases c with
  | set key value stamp =>
      show (!(s.set key value stamp env).ret) = false
      rw [s.set_ret key value stamp henv.log]
      rfl
  | del key =>
      have hret : (s.del key env).ret = ⟨true, (s.get (env.clock 0).wall key).isSome⟩ :=
        Store.mutate_ret fun w => by rw [henv.log]; exact w.commit_ok _ _
      show (!(s.del key env).ret.durable) = false
      rw [hret]
      rfl
  | delMany keys =>
      have hret : (s.delMany keys env).ret = ⟨true, (s.delLoop env.later.clock keys).1⟩ :=
        Store.mutate_ret fun w => by rw [henv.log]; exact w.appendBatch_ok _ _
      show (!(s.delMany keys env).ret.durable) = false
      rw [hret]
      rfl
  | expire key stamp =>
      show (!(s.expire key stamp env).ret.durable) = false
      rw [Store.expire]
      split
      · rfl
      · next found _ =>
          simp only [s.set_ret key found.value stamp henv.later.log]
          rfl
  | flushAll =>
      show (!(s.flushAll env).ret) = false
      rw [(Store.flushAll_refines henv.flushAllSucceeds 0).1]
      rfl
  | flush => rcases hc with h | h <;> cases h
  | sweepExpired budget => rcases hc with h | h <;> cases h
  | maybeCompact => rcases hc with h | h <;> cases h

/-- Whatever the command and the store: if no system call failed and the reply
is an error, then memtable, tables and log are what they were, nothing was
asked of the directory, and every lookup gives what it gave. -/
theorem error_changes_nothing (cmd : Command) (e : Engine) (env : Env) (henv : env.NoFailure)
    (herr : IsError (execute cmd e.store env).ret) :
    (execute cmd e.store env).store = e.store ∧ (execute cmd e.store env).events = [] ∧
      ((execute cmd e.store env).engine e.disk).disk = e.disk ∧
      ∀ t key, (execute cmd e.store env).store.lookup t key = e.store.lookup t key := by
  have hran := execute_ran cmd e.store e.disk env
  generalize execute cmd e.store env = o at hran herr
  cases hran with
  | replied out => exact ⟨rfl, rfl, rfl, fun _ _ => rfl⟩
  | called c env' hlater hkind _ _ f hok =>
      have henv' : env'.NoFailure := by
        rcases hlater with rfl | rfl
        · exact henv
        · exact henv.later
      have hdone := e.store.call_not_failed e.disk henv' (hkind.imp_right And.left)
      exact absurd herr (hok _ hdone)

/-- A counter that is no number is left alone. -/
theorem error_changes_nothing_incr :
    let s : Store := { memtable := ({} : Memtable).set (text "k") (text "one") 7, wal := some {} }
    let o := execute [text "INCR", text "k"] s {}
    o.ret = errorReply kNotAnInteger ∧ o.store = s ∧ o.events = [] ∧
      ∀ t key, o.store.lookup t key = s.lookup t key := by
  intro s o
  have hret : o.ret = errorReply kNotAnInteger := by decide +kernel
  have herr : IsError o.ret := by
    rw [hret]
    exact isError_errorReply _
  obtain ⟨hstore, hevents, _, hlookup⟩ :=
    error_changes_nothing [text "INCR", text "k"] ⟨s, {}⟩ {} ⟨rfl, rfl, rfl, rfl⟩ herr
  exact ⟨hret, hstore, hevents, hlookup⟩

end Cachedb
