import Cachedb.Proofs.PlainServer
import Cachedb.Proofs.SyncPolicy

/-!
# A sync policy decides about syncs only

Two servers that differ in the sync policy and in group commit are given the
same turns, and no `fsync` of the log fails where a client waits for it. They
ask the same of the directory and of their clients, in the same order, but for
the `fsync`s of the log. So at every moment the directories hold the same, and
a process that is killed leaves the same behind under every policy: a policy is
about the power supply alone.

Two stores are `Alike` if they differ in the log's bookkeeping at most. What a
store answers and does never depends on it, except in `INFO` and `CONFIG`, which
report it.
-/

namespace Cachedb

/-! ## Calls but for the syncs -/

/-- What is left of calls without the `fsync`s of the log. -/
def unsyncedCalls (events : List Event) : List Event := events.filter fun e => !e.isLogSync

theorem unsyncedCalls_append (xs ys : List Event) :
    unsyncedCalls (xs ++ ys) = unsyncedCalls xs ++ unsyncedCalls ys := List.filter_append ..

theorem unsyncedCalls_behind (before : List Event) {xs ys : List Event}
    (h : unsyncedCalls xs = unsyncedCalls ys) :
    unsyncedCalls (before ++ xs) = unsyncedCalls (before ++ ys) := by
  rw [unsyncedCalls_append, unsyncedCalls_append, h]

/-- A directory does not notice an `fsync`. -/
theorem Disk.run_unsyncedCalls (es : List Event) :
    ∀ d : Disk, d.run (unsyncedCalls es) = d.run es := by
  induction es with
  | nil => exact fun _ => rfl
  | cons e es ih =>
      intro d
      rw [unsyncedCalls, List.filter_cons]
      split
      · exact ih (d.apply e)
      · next hsync =>
          have hsame : d.apply e = d := by
            unfold Event.isLogSync at hsync
            split at hsync
            · rfl
            · exact absurd rfl hsync
          refine (ih d).trans ?_
          rw [Disk.run, Disk.run, List.foldl_cons, hsame]

/-! ## Stores -/

/-- The stores differ in the bookkeeping of the log at most. -/
def Store.Alike (s s' : Store) : Prop :=
  ∃ wal, s' = { s with wal } ∧ wal.isSome = s.wal.isSome

structure Outcome.Alike {α : Type} (o o' : Outcome α) : Prop where
  ret : o'.ret = o.ret
  store : o.store.Alike o'.store
  events : unsyncedCalls o'.events = unsyncedCalls o.events

theorem Outcome.Alike.map {α β : Type} {o o' : Outcome α} (h : o.Alike o') (f : α → β) :
    (o.map f).Alike (o'.map f) := ⟨congrArg f h.ret, h.store, h.events⟩

/-- Two steps of logs, however those are kept. -/
structure Logged.Alike (l l' : Logged) : Prop where
  ok : l'.ok = l.ok
  events : unsyncedCalls l'.events = unsyncedCalls l.events

theorem Wal.truncate_alike (w w' : Wal) (now : Reading) (fate : TruncateFate) :
    (w.truncate now fate).Alike (w'.truncate now fate) := by
  unfold Wal.truncate Wal.sync
  split
  · exact ⟨rfl, rfl⟩
  · dsimp only
    split
    · exact ⟨rfl, rfl⟩
    · exact ⟨rfl, rfl⟩

theorem Wal.commit_alike (w w' : Wal) (buf : Bytes) (now : Reading) {fate : LogFate}
    (hfate : fate.sync = true) : (w.commit buf now fate).Alike (w'.commit buf now fate) := by
  have hlands : ∀ w : Wal, (writeAll buf fate.cut).2 = true →
      (w.commit buf now fate).ok = true ∧
        unsyncedCalls (w.commit buf now fate).events = [.write .log buf] := by
    intro w hall
    unfold Wal.commit Wal.sync
    simp only [hall, hfate]
    rw [if_neg (by decide)]
    split
    · exact ⟨rfl, rfl⟩
    · exact ⟨rfl, rfl⟩
  cases hall : (writeAll buf fate.cut).2 with
  | true =>
      obtain ⟨hok, hevents⟩ := hlands w hall
      obtain ⟨hok', hevents'⟩ := hlands w' hall
      exact ⟨hok'.trans hok.symm, hevents'.trans hevents.symm⟩
  | false =>
      unfold Wal.commit
      simp only [hall]
      exact ⟨rfl, rfl⟩

theorem Wal.step_alike (w w' : Wal) {step : LogStep} (hfate : step.fate.sync = true) :
    (w.step step).Alike (w'.step step) := by
  rw [Wal.step_eq, Wal.step_eq]
  split
  · exact ⟨rfl, rfl⟩
  · exact w.commit_alike w' _ _ hfate

namespace Store

variable {s s' : Store}

/-- Steps of the two logs, which may come to different ends. -/
theorem onLog_kept (h : s.Alike s') {f f' : Wal → Logged}
    (hf : ∀ w w', unsyncedCalls (f' w').events = unsyncedCalls (f w).events) :
    (s.onLog f).store.Alike (s'.onLog f').store ∧
      unsyncedCalls (s'.onLog f').events = unsyncedCalls (s.onLog f).events := by
  obtain ⟨wal, rfl, hwal⟩ := h
  cases hw : s.wal with
  | none =>
      rw [hw, Option.isSome_none, Option.isSome_eq_false_iff, Option.isNone_iff_eq_none] at hwal
      subst hwal
      rw [onLog_none _ hw, onLog_none _ rfl]
      exact ⟨⟨none, rfl, by rw [hw]⟩, rfl⟩
  | some w =>
      rw [hw, Option.isSome_some, Option.isSome_iff_exists] at hwal
      obtain ⟨w', rfl⟩ := hwal
      rw [onLog_some _ hw, onLog_some _ rfl]
      exact ⟨⟨some (f' w').wal, rfl, rfl⟩, hf w w'⟩

theorem onLog_alike (h : s.Alike s') {f f' : Wal → Logged} (hf : ∀ w w', (f w).Alike (f' w')) :
    (s.onLog f).Alike (s'.onLog f') := by
  obtain ⟨hstore, hevents⟩ := onLog_kept h fun w w' => (hf w w').events
  refine ⟨?_, hstore, hevents⟩
  obtain ⟨wal, rfl, hwal⟩ := h
  cases hw : s.wal with
  | none =>
      rw [hw, Option.isSome_none, Option.isSome_eq_false_iff, Option.isNone_iff_eq_none] at hwal
      rw [onLog_none _ hw, onLog_none _ hwal]
  | some w =>
      rw [hw, Option.isSome_some, Option.isSome_iff_exists] at hwal
      obtain ⟨w', rfl⟩ := hwal
      rw [onLog_some _ hw, onLog_some _ rfl]
      exact (hf w w').ok

theorem flush_alike (h : s.Alike s') (now : Reading) (fate : FlushFate) :
    (s.flush now fate).Alike (s'.flush now fate) := by
  have hcut := onLog_alike h fun w w' => w.truncate_alike w' now fate.truncate
  obtain ⟨wal, rfl, hwal⟩ := h
  have hsame : ∀ (ret : Bool) (events : List Event),
      Outcome.Alike { ret, store := s, events } { ret, store := { s with wal }, events } :=
    fun ret events => ⟨rfl, ⟨wal, rfl, hwal⟩, rfl⟩
  have hwriter : flushWriter { s with wal } = s.flushWriter := rfl
  rw [flush, flush, hwriter]
  dsimp only
  generalize s.flushWriter.finish = file at hsame ⊢
  generalize writeTemp .flushTmp _ _ _ = temp
  split
  · exact hsame _ _
  · split
    · exact hsame _ _
    · split
      · exact hsame _ _
      · generalize s.onLog _ = cut at hcut ⊢
        generalize onLog { s with wal } _ = cut' at hcut ⊢
        obtain ⟨hret, ⟨log, hstore, hlog⟩, hevents⟩ := hcut
        rw [hret, hstore]
        have hall := unsyncedCalls_behind
          (temp.2 ++ [.rename .flushTmp (.table s.nextSequence), .fsyncDir fate.fsyncDir]) hevents
        split
        · exact ⟨rfl, ⟨log, rfl, hlog⟩, hall⟩
        · split
          · exact ⟨rfl, ⟨log, rfl, hlog⟩, hall⟩
          · exact ⟨rfl, ⟨log, rfl, hlog⟩, hall⟩

theorem maybeFlush_alike (h : s.Alike s') (now : Reading) (fate : FlushFate) :
    (s.maybeFlush now fate).Alike (s'.maybeFlush now fate) := by
  obtain ⟨hret, ⟨log, hstore, hlog⟩, hevents⟩ := flush_alike h now fate
  rw [maybeFlush, maybeFlush]
  dsimp only
  rw [hret, hstore]
  obtain ⟨wal, rfl, hwal⟩ := h
  dsimp only
  split
  · exact ⟨rfl, ⟨wal, rfl, hwal⟩, rfl⟩
  · split
    · exact ⟨rfl, ⟨wal, rfl, hwal⟩, rfl⟩
    · exact ⟨rfl, ⟨log, rfl, hlog⟩, hevents⟩

theorem mutate_alike {α : Type} (h : s.Alike s') (step : LogStep)
    (hfate : step.fate.sync = true) (mt : Memtable) (now : Reading) (fate : FlushFate)
    (refused accepted : α) :
    (s.mutate step.mutations (fun w => w.step step) mt now fate refused accepted).Alike
      (s'.mutate step.mutations (fun w => w.step step) mt now fate refused accepted) := by
  obtain ⟨hret, ⟨log, hstore, hlog⟩, hevents⟩ := onLog_alike h fun w w' => w.step_alike w' hfate
  rw [mutate, mutate]
  dsimp only
  rw [hret, hstore]
  have hbegan := unsyncedCalls_behind [.began step.mutations] hevents
  split
  · exact ⟨rfl, ⟨log, rfl, hlog⟩, hbegan⟩
  · have hflushed := maybeFlush_alike (s := { (s.onLog fun w => w.step step).store with
      memtable := mt }) ⟨log, rfl, hlog⟩ now fate
    refine ⟨rfl, hflushed.store, ?_⟩
    rw [unsyncedCalls_append, unsyncedCalls_append]
    exact congrArg₂ _ hbegan (unsyncedCalls_behind [.applied step.mutations] hflushed.events)

theorem sweepExpired_alike (h : s.Alike s') (budget : Nat) (env : Env) :
    (s.sweepExpired budget env).Alike (s'.sweepExpired budget env) := by
  obtain ⟨wal, rfl, hwal⟩ := h
  exact ⟨rfl, ⟨wal, rfl, hwal⟩, rfl⟩

theorem maybeCompact_alike (h : s.Alike s') (d : Disk) (env : Env) :
    (s.maybeCompact d env).Alike (s'.maybeCompact d env) := by
  obtain ⟨wal, rfl, hwal⟩ := h
  have hrun : chooseRun { s with wal } d = s.chooseRun d := rfl
  rw [maybeCompact, maybeCompact, hrun]
  split
  · exact ⟨rfl, ⟨wal, rfl, hwal⟩, rfl⟩
  · rw [compactRun, compactRun]
    dsimp only
    split
    · exact ⟨rfl, ⟨wal, rfl, hwal⟩, rfl⟩
    · split
      · exact ⟨rfl, ⟨wal, rfl, hwal⟩, rfl⟩
      · split
        · split
          · exact ⟨rfl, ⟨wal, rfl, hwal⟩, rfl⟩
          · exact ⟨rfl, ⟨wal, rfl, hwal⟩, rfl⟩
        · exact ⟨rfl, ⟨wal, rfl, hwal⟩, rfl⟩

theorem flushAll_alike (h : s.Alike s') (env : Env) :
    (s.flushAll env).Alike (s'.flushAll env) := by
  obtain ⟨wal, rfl, hwal⟩ := h
  have hcut := onLog_alike (s := { s with sstables := [] }) ⟨wal, rfl, hwal⟩
    fun w w' => w.truncate_alike w' (env.clock 0) env.flushAll.truncate
  rw [flushAll, flushAll]
  dsimp only at hcut ⊢
  split
  · exact ⟨rfl, ⟨wal, rfl, hwal⟩, rfl⟩
  · obtain ⟨hret, ⟨log, hstore, hlog⟩, hevents⟩ := hcut
    rw [hret, hstore]
    have hall := fun before => unsyncedCalls_behind before hevents
    split
    · exact ⟨rfl, ⟨log, rfl, hlog⟩, hall _⟩
    · exact ⟨rfl, ⟨log, rfl, hlog⟩, hall _⟩

theorem set_alike (h : s.Alike s') (env : Env) (henv : env.log.sync = true) (key value : Bytes)
    (stamp : Int64) : (s.set key value stamp env).Alike (s'.set key value stamp env) := by
  have hall := mutate_alike h
    { call := .append { op := .kSet, key, value, expiresAtMs := stamp }
      now := env.clock 0, fate := env.log } henv
    (s.memtable.set key value stamp) (env.clock 1) env.flush false true
  obtain ⟨wal, rfl, _⟩ := h
  exact hall

theorem del_alike (h : s.Alike s') (env : Env) (henv : env.log.sync = true) (key : Bytes) :
    (s.del key env).Alike (s'.del key env) := by
  have hall := mutate_alike h
    { call := .append (Mutation.delete key), now := env.clock 1, fate := env.log } henv
    (s.memtable.del key).2 (env.clock 2) env.flush ({} : DelResult)
    { durable := true, wasLive := (s.get (env.clock 0).wall key).isSome }
  obtain ⟨wal, rfl, _⟩ := h
  exact hall

theorem delLoop_wal (wal : Option Wal) (keys : List Bytes) :
    ∀ (s : Store) (clock : Nat → Reading),
      delLoop { s with wal } clock keys = s.delLoop clock keys := by
  induction keys with
  | nil => exact fun _ _ => rfl
  | cons key keys ih =>
      intro s clock
      rw [delLoop, delLoop]
      have hrest := ih { s with memtable := (s.memtable.del key).2 } fun n => clock (n + 1)
      dsimp only at hrest ⊢
      rw [hrest]
      rfl

theorem delMany_alike (h : s.Alike s') (env : Env) (henv : env.log.sync = true)
    (keys : List Bytes) : (s.delMany keys env).Alike (s'.delMany keys env) := by
  have hall := mutate_alike h
    { call := .appendBatch (keys.map Mutation.delete), now := env.clock 0, fate := env.log } henv
    (s.delLoop env.later.clock keys).2 (env.clock (keys.length + 1)) env.flush
    ({} : DelBatchResult)
    { durable := true, removed := (s.delLoop env.later.clock keys).1 }
  obtain ⟨wal, rfl, _⟩ := h
  rw [delMany, delMany, delLoop_wal wal keys s]
  exact hall

theorem expire_alike (h : s.Alike s') (env : Env) (henv : env.log.sync = true) (key : Bytes)
    (stamp : Int64) : (s.expire key stamp env).Alike (s'.expire key stamp env) := by
  have hset := fun value => set_alike h env.later henv key value stamp
  have hlook : s'.lookup (env.clock 0).wall key = s.lookup (env.clock 0).wall key := by
    obtain ⟨wal, rfl, _⟩ := h
    rfl
  rw [expire, expire, hlook]
  split
  · exact ⟨rfl, h, rfl⟩
  · next found _ =>
      exact (hset found.value).map fun ok =>
        if ok then ({ durable := true, applied := true } : ExpireResult) else {}

end Store

/-! ## Commands -/

section Commands

variable {s s' : Store}

theorem Store.reply_alike (h : s.Alike s') (out : Bytes) : (s.reply out).Alike (s'.reply out) :=
  ⟨rfl, h, rfl⟩

theorem Store.Alike.lookup (h : s.Alike s') (t : Int64) (key : Bytes) :
    s'.lookup t key = s.lookup t key := by
  obtain ⟨wal, rfl, _⟩ := h
  rfl

theorem Store.Alike.countExisting (h : s.Alike s') (keys : List Bytes) :
    ∀ clock : Nat → Reading, s'.countExisting clock keys = s.countExisting clock keys := by
  induction keys with
  | nil => exact fun _ => rfl
  | cons key keys ih =>
      intro clock
      rw [Store.countExisting, Store.countExisting, ih, Store.get, Store.get, h.lookup]

theorem cmdSet_alike (h : s.Alike s') (c : Command) {env : Env} (henv : env.log.sync = true) :
    (cmdSet c s env).Alike (cmdSet c s' env) := by
  unfold cmdSet
  split
  · split
    · exact Store.reply_alike h _
    · split
      · exact Store.reply_alike h _
      · split
        · exact Store.reply_alike h _
        · split
          · exact Store.reply_alike h _
          · split
            · exact Store.reply_alike h _
            · exact (Store.set_alike h env.later henv _ _ _).map _
  · split
    · exact Store.reply_alike h _
    · exact (Store.set_alike h env henv _ _ _).map _

theorem cmdDel_alike (h : s.Alike s') (c : Command) {env : Env} (henv : env.log.sync = true) :
    (cmdDel c s env).Alike (cmdDel c s' env) := by
  unfold cmdDel
  split
  · exact (Store.del_alike h env henv _).map _
  · exact (Store.delMany_alike h env henv _).map _

theorem cmdExpire_alike (h : s.Alike s') (c : Command) {env : Env} (henv : env.log.sync = true) :
    (cmdExpire c s env).Alike (cmdExpire c s' env) := by
  unfold cmdExpire
  split
  · exact Store.reply_alike h _
  · split
    · exact (Store.expire_alike h env henv _ _).map _
    · split
      · exact Store.reply_alike h _
      · exact (Store.expire_alike h env.later henv _ _).map _

theorem cmdIncrFrom_alike (h : s.Alike s') (c : Command) (env : Env)
    (henv : env.log.sync = true) (value stamp : Int64) :
    (cmdIncrFrom c s env value stamp).Alike (cmdIncrFrom c s' env value stamp) := by
  unfold cmdIncrFrom
  split
  · exact Store.reply_alike h _
  · exact (Store.set_alike h env henv _ _ _).map _

theorem cmdIncr_alike (h : s.Alike s') (c : Command) {env : Env} (henv : env.log.sync = true) :
    (cmdIncr c s env).Alike (cmdIncr c s' env) := by
  unfold cmdIncr
  rw [h.lookup]
  split
  · exact cmdIncrFrom_alike h c env.later henv _ _
  · split
    · exact Store.reply_alike h _
    · exact cmdIncrFrom_alike h c env.later henv _ _

/-- The two commands that report how the log is kept. -/
def Command.Reports (cmd : Command) : Prop := cmd.IsNamed "info" ∨ cmd.IsNamed "config"

theorem execute_alike (h : s.Alike s') {cmd : Command} (hcmd : ¬cmd.Reports) {env : Env}
    (henv : env.log.sync = true) : (execute cmd s env).Alike (execute cmd s' env) := by
  unfold execute
  split
  · exact Store.reply_alike h _
  · next raw args =>
      split
      · exact Store.reply_alike h _
      · next name hname =>
          split
          · exact Store.reply_alike h _
          · next spec hspec =>
              split
              · exact Store.reply_alike h _
              · have hmem := mem_of_lookup hspec
                simp only [dispatchTable, List.mem_cons, Prod.mk.injEq, List.not_mem_nil,
                  or_false] at hmem
                rcases hmem with ⟨_, rfl⟩ | ⟨_, rfl⟩ | ⟨_, rfl⟩ | ⟨_, rfl⟩ | ⟨_, rfl⟩ | ⟨_, rfl⟩ |
                  ⟨_, rfl⟩ | ⟨hinfo, rfl⟩ | ⟨hconfig, rfl⟩ | ⟨_, rfl⟩ | ⟨_, rfl⟩ | ⟨_, rfl⟩
                · exact Store.reply_alike h _
                · exact cmdSet_alike h _ henv
                · show (cmdGet _ s env).Alike (cmdGet _ s' env)
                  rw [cmdGet, cmdGet, Store.get, Store.get, h.lookup]
                  exact Store.reply_alike h _
                · exact cmdExpire_alike h _ henv
                · show (cmdTtl _ s env).Alike (cmdTtl _ s' env)
                  rw [cmdTtl, cmdTtl, Store.ttl, Store.ttl, h.lookup]
                  exact Store.reply_alike h _
                · exact cmdIncr_alike h _ henv
                · show (cmdFlushall (raw :: args) s env).Alike (cmdFlushall (raw :: args) s' env)
                  rw [cmdFlushall, cmdFlushall]
                  exact (Store.flushAll_alike h env).map _
                · exact absurd (Or.inl (hname.trans (congrArg some hinfo))) hcmd
                · exact absurd (Or.inr (hname.trans (congrArg some hconfig))) hcmd
                · exact cmdDel_alike h _ henv
                · show (cmdExists _ s env).Alike (cmdExists _ s' env)
                  rw [cmdExists, cmdExists, h.countExisting]
                  exact Store.reply_alike h _
                · exact Store.reply_alike h _

end Commands

/-! ## Connections -/

/-- What a read came to on two servers. -/
structure Connection.Fed.Alike (f f' : Connection.Fed) : Prop where
  conn : f'.conn = f.conn
  store : f.store.Alike f'.store
  events : unsyncedCalls f'.events = unsyncedCalls f.events
  commands : f'.commands = f.commands

theorem Connection.drain_alike (fuel : Nat) :
    ∀ (c : Connection) {s s' : Store} {envs : Nat → Env}, s.Alike s' →
      (∀ n, (envs n).log.sync = true) →
      (∀ cmd ∈ (c.drain envs fuel s).commands, ¬cmd.Reports) →
      (c.drain envs fuel s).Alike (c.drain envs fuel s') := by
  induction fuel with
  | zero => exact fun c _ _ _ h _ _ => ⟨rfl, h, rfl, rfl⟩
  | succ fuel ih =>
      intro c s s' envs h henvs hcmds
      rw [drain] at hcmds
      rw [drain, drain]
      dsimp only at hcmds ⊢
      split at hcmds
      · next cmd hstatus hcmd =>
          rw [List.forall_mem_cons] at hcmds
          have hone := execute_alike h hcmds.1 (henvs 0)
          have hrest := ih
            { c with parser := (c.parser.parse c.inBuf).1
                     inBuf := c.inBuf.drop (c.parser.parse c.inBuf).2.1.consumed
                     out := c.out ++ (execute cmd s (envs 0)).ret }
            hone.store (fun n => henvs (n + 1)) hcmds.2
          rw [hone.ret]
          refine ⟨hrest.conn, hrest.store, ?_, congrArg (List.cons cmd) hrest.commands⟩
          rw [unsyncedCalls_append, unsyncedCalls_append, hone.events, hrest.events]
      · exact ⟨rfl, h, rfl, rfl⟩
      · exact ⟨rfl, h, rfl, rfl⟩

theorem Connection.onBytes_alike (c : Connection) (bytes : Bytes) {s s' : Store}
    {envs : Nat → Env} (h : s.Alike s') (henvs : ∀ n, (envs n).log.sync = true)
    (hcmds : ∀ cmd ∈ (c.onBytes bytes s envs).commands, ¬cmd.Reports) :
    (c.onBytes bytes s envs).Alike (c.onBytes bytes s' envs) := by
  unfold onBytes at hcmds ⊢
  split
  · exact ⟨rfl, h, rfl, rfl⟩
  · next hopen =>
      rw [if_neg hopen] at hcmds
      split
      · exact ⟨rfl, h, rfl, rfl⟩
      · next hroom =>
          rw [if_neg hroom] at hcmds
          exact Connection.drain_alike _ _ h henvs hcmds

/-! ## Servers -/

structure Server.Alike (s s' : Server) : Prop where
  store : s.engine.store.Alike s'.engine.store
  disk : s'.engine.disk = s.engine.disk
  conns : s'.conns = s.conns

structure Turn.Alike (t t' : Turn) : Prop where
  server : t.server.Alike t'.server
  events : unsyncedCalls t'.events = unsyncedCalls t.events
  commands : t'.commands = t.commands
  ok : t'.ok = t.ok

/-- No `fsync` of the log fails before a client is answered. -/
def Ready.SyncsLog : Ready → Prop
  | .listener _ => True
  | .socket _ _ _ envs => ∀ n, (envs n).log.sync = true

namespace Server

variable {s s' : Server}

theorem Alike.quiet (h : s.Alike s') : Turn.Alike { server := s } { server := s' } :=
  ⟨h, rfl, rfl, rfl⟩

theorem Alike.after {α : Type} (h : s.Alike s') {o o' : Outcome α}
    (hstore : o.store.Alike o'.store) (hevents : unsyncedCalls o'.events = unsyncedCalls o.events) :
    (s.after o).Alike (s'.after o') where
  store := hstore
  disk := by
    show s'.engine.disk.run o'.events = s.engine.disk.run o.events
    rw [← Disk.run_unsyncedCalls, hevents, Disk.run_unsyncedCalls, h.disk]
  conns := h.conns

theorem Alike.closeConnection (h : s.Alike s') (fd : Nat) :
    (s.closeConnection fd).Alike (s'.closeConnection fd) :=
  ⟨h.store, h.disk, congrArg (fun conns => conns.erase fd) h.conns⟩

theorem Alike.setConn (h : s.Alike s') (fd : Nat) (state : ConnState) :
    (s.setConn fd state).Alike (s'.setConn fd state) :=
  ⟨h.store, h.disk, congrArg (fun conns => conns.insert fd state) h.conns⟩

theorem Alike.acceptReady (accepted : List (Nat × Bool)) :
    ∀ {s s' : Server}, s.Alike s' → (s.acceptReady accepted).Alike (s'.acceptReady accepted) := by
  induction accepted with
  | nil => exact fun h => h
  | cons x rest ih =>
      intro s s' h
      rw [Server.acceptReady, Server.acceptReady, h.conns]
      split
      · exact ih (h.setConn _ _)
      · exact ih h

theorem Alike.service (h : s.Alike s') (fd : Nat) (hungUp : Bool) (read : Option Read)
    {envs : Nat → Env} (henvs : ∀ n, (envs n).log.sync = true)
    (hcmds : ∀ cmd ∈ (s.service fd hungUp read envs).2.commands, ¬cmd.Reports) :
    (s'.service fd hungUp read envs).1 = (s.service fd hungUp read envs).1 ∧
      (s.service fd hungUp read envs).2.Alike (s'.service fd hungUp read envs).2 := by
  unfold Server.service at hcmds ⊢
  rw [h.conns]
  split
  · exact ⟨rfl, h.quiet⟩
  · next state hstate =>
      rw [hstate] at hcmds
      split
      · exact ⟨rfl, (h.closeConnection fd).quiet⟩
      · next hup =>
          dsimp only at hcmds
          rw [if_neg hup] at hcmds
          split
          · exact ⟨rfl, h.quiet⟩
          · exact ⟨rfl, h.quiet⟩
          · exact ⟨rfl, (h.closeConnection fd).quiet⟩
          · exact ⟨rfl, (h.closeConnection fd).quiet⟩
          · next bytes =>
              have hfed := state.conn.onBytes_alike bytes h.store henvs hcmds
              have hengine : Server.Alike
                  { s with engine :=
                    { store := (state.conn.onBytes bytes s.engine.store envs).store
                      disk := s.engine.disk.run
                        (state.conn.onBytes bytes s.engine.store envs).events } }
                  { s with engine :=
                    { store := (state.conn.onBytes bytes s'.engine.store envs).store
                      disk := s'.engine.disk.run
                        (state.conn.onBytes bytes s'.engine.store envs).events } } := by
                refine ⟨hfed.store, ?_, rfl⟩
                dsimp only
                rw [← Disk.run_unsyncedCalls, hfed.events, Disk.run_unsyncedCalls, h.disk]
              refine ⟨rfl, ?_, hfed.events, hfed.commands, rfl⟩
              dsimp only
              rw [hfed.conn]
              exact hengine.setConn fd _

theorem Alike.serviceAll (ready : List Ready) :
    ∀ {s s' : Server}, s.Alike s' → (∀ r ∈ ready, r.SyncsLog) →
      (∀ cmd ∈ (s.serviceAll ready).2.commands, ¬cmd.Reports) →
      (s'.serviceAll ready).1 = (s.serviceAll ready).1 ∧
        (s.serviceAll ready).2.Alike (s'.serviceAll ready).2 := by
  induction ready with
  | nil => exact fun h _ _ => ⟨rfl, h.quiet⟩
  | cons r ready ih =>
      intro s s' h hsyncs hcmds
      rw [List.forall_mem_cons] at hsyncs
      cases r with
      | listener accepted => exact ih (h.acceptReady accepted) hsyncs.2 hcmds
      | socket fd hungUp read envs =>
          rw [Server.serviceAll] at hcmds
          dsimp only at hcmds
          rw [List.forall_mem_append] at hcmds
          obtain ⟨hthere, hone⟩ := h.service fd hungUp read hsyncs.1 hcmds.1
          obtain ⟨htouched, hrest⟩ := ih hone.server hsyncs.2 hcmds.2
          rw [Server.serviceAll, Server.serviceAll]
          dsimp only
          rw [hthere, htouched]
          refine ⟨rfl, hrest.server, ?_, ?_, hrest.ok⟩
          · dsimp only
            rw [unsyncedCalls_append, unsyncedCalls_append, hone.events, hrest.events]
          · exact congrArg₂ _ hone.commands hrest.commands

/-- A sync that succeeds, or is not needed, is no call that is left. -/
theorem Alike.syncLog (h : s.Alike s') (now : Reading) {sync : Bool} (hsync : sync = true) :
    (s.syncLog now sync).Alike (s'.syncLog now sync) := by
  subst hsync
  have hone : ∀ w : Wal,
      (if w.needsSync then w.sync now true else { ok := true, wal := w, events := [] }).ok = true ∧
        unsyncedCalls (if w.needsSync then w.sync now true
          else { ok := true, wal := w, events := [] }).events = [] := by
    intro w
    split <;> exact ⟨rfl, rfl⟩
  have hlog := Store.onLog_alike h.store fun w w' => (⟨(hone w').1.trans (hone w).1.symm,
    (hone w').2.trans (hone w).2.symm⟩ : Logged.Alike _ _)
  exact ⟨h.after hlog.store hlog.events, hlog.events, rfl, hlog.ret⟩

theorem Alike.release (h : s.Alike s') (fd : Nat) (sends : List Send) (epollCtl : Bool) :
    (s.release fd sends epollCtl).Alike (s'.release fd sends epollCtl) := by
  unfold Server.release
  rw [h.conns]
  split
  · exact h.quiet
  · dsimp only
    split
    · exact ⟨h.closeConnection fd, rfl, rfl, rfl⟩
    · exact ⟨h.setConn fd _, rfl, rfl, rfl⟩

theorem Alike.releaseAll (fds : List Nat) :
    ∀ {s s' : Server} (sends : Nat → List Send) (epollCtl : Nat → Bool), s.Alike s' →
      (s.releaseAll sends epollCtl fds).Alike (s'.releaseAll sends epollCtl fds) := by
  induction fds with
  | nil => exact fun _ _ h => h.quiet
  | cons fd fds ih =>
      intro s s' sends epollCtl h
      have hone := h.release fd (sends 0) (epollCtl 0)
      have hrest := ih (fun n => sends (n + 1)) (fun n => epollCtl (n + 1)) hone.server
      refine ⟨hrest.server, ?_, hrest.commands, hrest.ok⟩
      rw [Server.releaseAll, Server.releaseAll]
      dsimp only
      rw [unsyncedCalls_append, unsyncedCalls_append, hone.events, hrest.events]

theorem maybeSync_unsyncedCalls (w : Wal) (now : Reading) (ok : Bool) :
    unsyncedCalls (w.maybeSync now ok).events = [] := by
  unfold Wal.maybeSync
  split
  · rfl
  · split
    · rfl
    · split
      · rfl
      · cases ok <;> rfl

theorem Alike.housekeeping (h : s.Alike s') (it : Iteration) :
    (s.housekeeping it).Alike (s'.housekeeping it) := by
  have hswept := Store.sweepExpired_alike h.store kSweepBudget it.sweep
  have hs := h.after hswept.store hswept.events
  have hmerged := Store.maybeCompact_alike hs.store
    (s.after (s.engine.store.sweepExpired kSweepBudget it.sweep)).engine.disk it.compact
  have hs' := hs.after hmerged.store hmerged.events
  obtain ⟨htick, hevents⟩ := Store.onLog_kept hs'.store fun w w' =>
    (maybeSync_unsyncedCalls w' it.tick it.tickSync).trans
      (maybeSync_unsyncedCalls w it.tick it.tickSync).symm
  rw [Server.housekeeping, Server.housekeeping, hs.disk]
  refine ⟨hs'.after htick hevents, ?_, rfl, rfl⟩
  rw [unsyncedCalls_append, unsyncedCalls_append, unsyncedCalls_append, unsyncedCalls_append,
    hevents, hmerged.events, hswept.events]

/-- One turn. -/
theorem Alike.iterate (h : s.Alike s') {it : Iteration} (hready : ∀ r ∈ it.ready, r.SyncsLog)
    (hsync : it.sync = true) (hcmds : ∀ cmd ∈ (s.iterate it).commands, ¬cmd.Reports) :
    (s.iterate it).Alike (s'.iterate it) := by
  rw [iterate_commands] at hcmds
  obtain ⟨htouched, hserved⟩ := h.serviceAll it.ready hready hcmds
  have hsynced := hserved.server.syncLog it.now hsync
  have hreleased := hsynced.server.releaseAll (s.serviceAll it.ready).1 it.sends it.epollCtl
  have hkept := hreleased.server.housekeeping it
  have hbefore : unsyncedCalls ((s'.serviceAll it.ready).2.events ++
        ((s'.serviceAll it.ready).2.server.syncLog it.now it.sync).events) =
      unsyncedCalls ((s.serviceAll it.ready).2.events ++
        ((s.serviceAll it.ready).2.server.syncLog it.now it.sync).events) := by
    rw [unsyncedCalls_append, unsyncedCalls_append, hserved.events, hsynced.events]
  rw [Server.iterate, Server.iterate]
  dsimp only
  rw [htouched, hsynced.ok]
  split
  · exact ⟨hsynced.server, hbefore, hserved.commands, rfl⟩
  · refine ⟨hkept.server, ?_, hserved.commands, hkept.ok⟩
    dsimp only
    rw [unsyncedCalls_append, unsyncedCalls_append, hbefore, hreleased.events, hkept.events,
      ← unsyncedCalls_append, ← unsyncedCalls_append]

theorem Alike.run (its : List Iteration) :
    ∀ {s s' : Server}, s.Alike s' →
      (∀ it ∈ its, it.sync = true ∧ ∀ r ∈ it.ready, r.SyncsLog) →
      (∀ cmd ∈ (s.run its).commands, ¬cmd.Reports) → (s.run its).Alike (s'.run its) := by
  induction its with
  | nil => exact fun h _ _ => h.quiet
  | cons it its ih =>
      intro s s' h hits hcmds
      rw [List.forall_mem_cons] at hits
      rw [Server.run] at hcmds
      rw [Server.run, Server.run]
      dsimp only at hcmds ⊢
      split at hcmds
      · next hstop =>
          have hone := h.iterate hits.1.2 hits.1.1 hcmds
          rwa [hone.ok, if_pos hstop, if_pos hstop]
      · next hgo =>
          rw [List.forall_mem_append] at hcmds
          have hone := h.iterate hits.1.2 hits.1.1 hcmds.1
          have hrest := ih hone.server hits.2 hcmds.2
          rw [hone.ok, if_neg hgo, if_neg hgo]
          refine ⟨hrest.server, ?_, congrArg₂ _ hone.commands hrest.commands, hrest.ok⟩
          dsimp only
          rw [unsyncedCalls_append, unsyncedCalls_append, hone.events, hrest.events]

end Server

/-- A server is started twice on the same directory, with two sync policies and
with group commit or without, and given the same turns. No `fsync` of the log
fails before a client is answered, and nobody asks how the log is kept.
Whatever else fails, but for the `fsync`s of the log the two ask the same of
the directory and tell their clients the same, in the same order, and they end
with the same directory and the same connections. -/
theorem policy_only_syncs {cfg cfg' : Config} (hoptions : cfg'.options = cfg.options) {d : Disk}
    {boot : Reading} {o o' : Outcome Unit} (h : startup cfg d boot = some o)
    (h' : startup cfg' d boot = some o') (its : List Iteration)
    (hsyncs : ∀ it ∈ its, it.sync = true ∧ ∀ r ∈ it.ready, r.SyncsLog)
    (hcmds : ∀ cmd ∈ ((o.serve d).run its).commands, ¬cmd.Reports) :
    unsyncedCalls ((o'.serve d).run its).events = unsyncedCalls ((o.serve d).run its).events ∧
      ((o'.serve d).run its).commands = ((o.serve d).run its).commands ∧
      ((o'.serve d).run its).server.engine.disk = ((o.serve d).run its).server.engine.disk ∧
      ((o'.serve d).run its).server.conns = ((o.serve d).run its).server.conns := by
  have hstart : (o.serve d).Alike (o'.serve d) := by
    rw [startup] at h h'
    rw [hoptions] at h'
    split at h
    · cases h
    · next opened hopened =>
        rw [hopened] at h'
        cases h
        cases h'
        exact ⟨⟨_, rfl, rfl⟩, rfl, rfl⟩
  have hrun := hstart.run its hsyncs hcmds
  exact ⟨hrun.events, hrun.commands, hrun.server.disk, hrun.server.conns⟩

/-- One server syncs the log behind the write of a record, the other before it
answers. -/
theorem policy_only_syncs_set :
    (((freshStart { groupCommit := false }).serve {}).run oneSet).events ≠
        (((freshStart {}).serve {}).run oneSet).events ∧
      (((freshStart { groupCommit := false }).serve {}).run oneSet).server.engine.disk =
        (((freshStart {}).serve {}).run oneSet).server.engine.disk := by
  have hcmds : (((freshStart {}).serve {}).run oneSet).commands =
      [[text "SET", text "k", text "v"]] := by decide +kernel
  have hsyncs : ∀ it ∈ oneSet, it.sync = true ∧ ∀ r ∈ it.ready, r.SyncsLog := by
    simp only [oneSet, List.forall_mem_cons, Ready.SyncsLog]
    exact ⟨⟨trivial, trivial, fun _ h => absurd h List.not_mem_nil⟩,
      ⟨trivial, fun _ => trivial, fun _ h => absurd h List.not_mem_nil⟩,
      fun _ h => absurd h List.not_mem_nil⟩
  have hstart : startup {} {} {} = some (freshStart {}) := startup_empty rfl
  refine ⟨by decide +kernel, ?_⟩
  refine (policy_only_syncs rfl hstart (startup_empty rfl) oneSet hsyncs ?_).2.2.1
  rw [hcmds, List.forall_mem_cons]
  exact ⟨by rw [Command.Reports]; decide, fun _ h => absurd h List.not_mem_nil⟩

end Cachedb
