import Cachedb.Proofs.Restart
import Cachedb.Proofs.StoreMap

/-!
# What a call can be

Eight entry points come down to six shapes. Whatever writes a key hands a list
of mutations to the log, puts what they say over the memtable, and may flush;
everything else is a flush, a sweep, a merge, the removal of everything, or
nothing at all. `Store.Called` is that list, with what is known of each shape
whatever the system calls in it return. An invariant of whole runs is proved
from it, and does not look at the entry points.
-/

namespace Cachedb

/-! ## What logged mutations leave -/

/-- What one logged mutation leaves under a key. -/
theorem recordsFind_batch_cons (m : Mutation) (ms : List Mutation) (ts : Int64) (key : Bytes) :
    recordsFind (batchRecords (m :: ms) ts) key =
      (recordsFind (batchRecords ms ts) key).or
        (if key = m.key then some (m.record ts).entry else none) :=
  recordsFind_cons _ _ _

theorem Memtable.find_set_record (mt : Memtable) (key value : Bytes) (stamp ts : Int64)
    (k : Bytes) :
    (mt.set key value stamp).find k =
      (recordsFind (batchRecords [{ op := .kSet, key, value, expiresAtMs := stamp }] ts) k).or
        (mt.find k) := by
  rw [Memtable.find_set, recordsFind_batch_cons]
  show _ = (if k = key then some _ else none).or _
  split <;> rfl

theorem Memtable.find_del_record (mt : Memtable) (key : Bytes) (ts : Int64) (k : Bytes) :
    (mt.del key).2.find k =
      (recordsFind (batchRecords [Mutation.delete key] ts) k).or (mt.find k) := by
  rw [Memtable.find_del, recordsFind_batch_cons]
  show _ = (if k = key then some _ else none).or _
  split <;> rfl

theorem Store.find_delLoop (keys : List Bytes) (ts : Int64) :
    ∀ (s : Store) (clock : Nat → Reading) (k : Bytes),
      (s.delLoop clock keys).2.find k =
        (recordsFind (batchRecords (keys.map Mutation.delete) ts) k).or (s.memtable.find k) := by
  induction keys with
  | nil => intro s clock k; rfl
  | cons key keys ih =>
      intro s clock k
      rw [Store.delLoop, List.map_cons, recordsFind_batch_cons, Option.or_assoc]
      simp only []
      rw [ih, Memtable.find_del]
      congr 1
      show _ = (if k = key then some _ else none).or _
      split <;> rfl

/-! ## The shapes -/

/-- The caller is told that nothing was applied. -/
def Reply.refused : Reply → Bool
  | .set durable => !durable
  | .del r => !r.durable
  | .delMany r => !r.durable
  | .expire r => !r.durable
  | _ => false

/-- What a call hands to the log. -/
def Store.logStep (s : Store) (env : Env) : Call → Option LogStep
  | .set key value expiresAtMs =>
      some { call := .append { op := .kSet, key, value, expiresAtMs }
             now := env.clock 0, fate := env.log }
  | .del key =>
      some { call := .append (Mutation.delete key), now := env.clock 1, fate := env.log }
  | .delMany keys =>
      some { call := .appendBatch (keys.map Mutation.delete)
             now := env.clock 0, fate := env.log }
  | .expire key expiresAtMs =>
      (s.lookup (env.clock 0).wall key).map fun found =>
        { call := .append { op := .kSet, key, value := found.value, expiresAtMs }
          now := env.clock 1, fate := env.log }
  | _ => none

/-- The call makes these mutations on every map the store agrees with. -/
def Store.Makes (s : Store) (env : Env) (c : Call) (ms : List Mutation) : Prop :=
  ∀ t m, s.Refines t m → t ≤ (env.clock 0).wall → RefMap.mutations m env c = ms

/-- The ways a call can go. A mutation is logged by `step` and leaves `mt`;
what is short enough for the formats before is so after. -/
inductive Store.Called (s : Store) (d : Disk) (env : Env) (c : Call) : Outcome Reply → Prop
  | nothing (r : Reply) (hr : r.refused = false) (hms : s.Makes env c []) :
      Called s d env c { ret := r, store := s }
  | mutated {α : Type} (step : LogStep) (hfate : step.fate = env.log) (mt : Memtable)
      (hfits : s.Sane → c.Fits →
        (∀ m ∈ step.mutations, m.Fits) ∧ ∀ k e, mt.find k = some e → EntryFits (k, e))
      (hmt : ∀ key, mt.find key =
        (recordsFind (batchRecords step.mutations step.now.wall) key).or (s.memtable.find key))
      (now : Reading) (refused accepted : α) (f : α → Reply)
      (hrefused : (f refused).refused = true) (haccepted : (f accepted).refused = false)
      (hms : s.Makes env c step.mutations) (hstep : s.logStep env c = some step) :
      Called s d env c ((s.mutate step.mutations (fun w => w.step step) mt now env.flush
        refused accepted).map f)
  | flushed (now : Reading) (hms : s.Makes env c []) :
      Called s d env c ((s.flush now env.flush).map .flush)
  | swept (r : Reply) (n budget count : Nat) (hr : r.refused = false) (hms : s.Makes env c []) :
      Called s d env c {
        ret := r
        store := { s with
          memtable := (s.memtable.sweepExpired (env.clock n).wall budget).2
          sweptKeys := count } }
  | merged (h : c = .maybeCompact) : Called s d env c ((s.maybeCompact d env).map .compacted)
  | cleared (h : c = .flushAll) : Called s d env c ((s.flushAll env).map .flushAll)

theorem Store.called_set (s : Store) (d : Disk) (env env' : Env) (c : Call)
    (hlog : env'.log = env.log) (hflush : env'.flush = env.flush) (key value : Bytes)
    (hfits : s.Sane → c.Fits → key.length < 2 ^ 32 ∧ value.length < 2 ^ 32) (stamp : Int64)
    (f : Bool → Reply) (hf : ∀ ok, (f ok).refused = !ok)
    (hms : s.Makes env c [{ op := .kSet, key, value, expiresAtMs := stamp }])
    (hstep : s.logStep env c = some {
      call := .append { op := .kSet, key, value, expiresAtMs := stamp }
      now := env'.clock 0, fate := env'.log }) :
    s.Called d env c ((s.set key value stamp env').map f) := by
  have hcalled : s.Called d env c _ := .mutated
    { call := .append { op := .kSet, key, value, expiresAtMs := stamp }
      now := env'.clock 0, fate := env'.log } hlog
    (s.memtable.set key value stamp)
    (fun hs hc => ⟨fun m hm => by rw [List.mem_singleton.mp hm]; exact hfits hs hc,
      Memtable.fits_set hs.fits (hfits hs hc).1 (hfits hs hc).2⟩)
    (s.memtable.find_set_record key value stamp _) (env'.clock 1) false true f (hf false)
    (hf true) hms hstep
  rw [← hflush] at hcalled
  exact hcalled

theorem Store.call_cases (s : Store) (d : Disk) (env : Env) (c : Call) :
    s.Called d env c (s.call d env c) := by
  cases c with
  | set key value stamp =>
      exact Store.called_set s d env env (.set key value stamp) rfl rfl key value
        (fun _ hc => hc) stamp .set (fun _ => rfl) (fun _ _ _ _ => rfl) rfl
  | del key =>
      exact .mutated { call := .append (Mutation.delete key), now := env.clock 1
                       fate := env.log } rfl (s.memtable.del key).2
        (fun hs (hc : Call.Fits (.del key)) => ⟨fun m hm => by
          rw [List.mem_singleton.mp hm]; exact ⟨hc, Nat.two_pow_pos 32⟩,
          Memtable.fits_del hs.fits hc⟩)
        (s.memtable.find_del_record key _) (env.clock 2) _ _ .del rfl rfl
        (fun _ _ _ _ => rfl) rfl
  | delMany keys =>
      exact .mutated { call := .appendBatch (keys.map Mutation.delete), now := env.clock 0
                       fate := env.log } rfl (s.delLoop env.later.clock keys).2
        (fun hs (hc : Call.Fits (.delMany keys)) => ⟨fun m hm => by
          obtain ⟨key, hkey, rfl⟩ := List.mem_map.mp hm
          exact ⟨hc key hkey, Nat.two_pow_pos 32⟩, Store.fits_delLoop hs.fits hc⟩)
        (Store.find_delLoop keys _ s env.later.clock) (env.clock (keys.length + 1)) _ _ .delMany
        rfl rfl (fun _ _ _ _ => rfl) rfl
  | expire key stamp =>
      show s.Called d env _ ((s.expire key stamp env).map .expire)
      rw [Store.expire]
      cases hfound : s.lookup (env.clock 0).wall key with
      | none =>
          refine .nothing _ rfl fun t m hr ht => ?_
          rw [RefMap.mutations, ← hr.lookup ht, hfound]
      | some found =>
          exact Store.called_set s d env env.later (.expire key stamp) rfl rfl key found.value
            (fun hs hc => ⟨hc, hs.fits_lookup hfound⟩) stamp
            (fun ok => .expire (if ok then { durable := true, applied := true } else {}))
            (fun ok => by cases ok <;> rfl)
            (fun t m hr ht => by rw [RefMap.mutations, ← hr.lookup ht, hfound])
            (by rw [Store.logStep, hfound]; rfl)
  | flush => exact .flushed _ fun _ _ _ _ => rfl
  | sweepExpired budget => exact .swept _ 0 budget _ rfl fun _ _ _ _ => rfl
  | maybeCompact => exact .merged rfl
  | flushAll => exact .cleared rfl

end Cachedb
