import Cachedb.Proofs.Dispatch
import Cachedb.Spec.Operations

/-!
# Commands do what they mean

A row of the dispatch table, with its bounds on the arguments and its handler,
is compared with the reader of the same name (`Row`): where store and map agree
the handler answers what the operation is answered, and store and map agree
again. The two tables have the same names in the same order, so a command finds
its row in the one exactly when it finds its reader in the other
(`execute_answers`).

The surroundings of a command may let a flush or a merge fail, but not the log.
-/

namespace Cachedb

open Operation

/-! ## What never changes -/

/-- How a log was opened. -/
def Wal.settings (w : Wal) : SyncPolicy × Bool × Nat := (w.policy, w.groupCommit, w.syncInterval)

/-- How a store was started. -/
def Store.settings (s : Store) : StoreOptions × Option (SyncPolicy × Bool × Nat) :=
  (s.options, s.wal.map Wal.settings)

theorem Wal.sync_settings (w : Wal) (now : Reading) (ok : Bool) :
    (w.sync now ok).wal.settings = w.settings := by
  cases ok <;> rfl

theorem Wal.truncate_settings (w : Wal) (now : Reading) (fate : TruncateFate) :
    (w.truncate now fate).wal.settings = w.settings := by
  rw [Wal.truncate]
  split
  · rfl
  · exact Wal.sync_settings _ now fate.sync

theorem Wal.step_settings (w : Wal) (step : LogStep) :
    (w.step step).wal.settings = w.settings := by
  rw [Wal.step_eq]
  split
  · rfl
  · have hcases := w.commit_cases (Wal.batchBytes step.mutations step.now.wall) step.now step.fate
    generalize w.commit _ _ _ = l at hcases
    cases hcases <;> rfl

theorem Wal.maybeSync_settings (w : Wal) (now : Reading) (ok : Bool) :
    (w.maybeSync now ok).wal.settings = w.settings := by
  unfold Wal.maybeSync
  split
  · rfl
  · split
    · rfl
    · split
      · rfl
      · exact w.sync_settings now ok

namespace Store

theorem onLog_settings {f : Wal → Logged} (h : ∀ w, (f w).wal.settings = w.settings) (s : Store) :
    (s.onLog f).store.settings = s.settings := by
  cases hw : s.wal with
  | none => rw [s.onLog_none f hw]
  | some w => simp [s.onLog_some f hw, settings, hw, h w]

theorem flush_settings (s : Store) (now : Reading) (fate : FlushFate) :
    (s.flush now fate).store.settings = s.settings := by
  have hcut : (s.onLog fun w => w.truncate now fate.truncate).store.settings = s.settings :=
    onLog_settings (fun w => w.truncate_settings now fate.truncate) s
  unfold flush
  split
  · rfl
  · simp only []
    split
    · rfl
    · split
      · rfl
      · split
        · exact hcut
        · split
          · exact hcut
          · exact hcut

theorem maybeFlush_settings (s : Store) (now : Reading) (fate : FlushFate) :
    (s.maybeFlush now fate).store.settings = s.settings := by
  rcases s.maybeFlush_cases now fate with h | h
  · rw [h]
  · rw [h]
    exact s.flush_settings now fate

theorem mutate_settings {α : Type} (s : Store) (ms : List Mutation) {log : Wal → Logged}
    (hlog : ∀ w, (log w).wal.settings = w.settings) (mt : Memtable) (now : Reading)
    (fate : FlushFate) (refused accepted : α) :
    (s.mutate ms log mt now fate refused accepted).store.settings = s.settings := by
  unfold mutate
  simp only []
  split
  · exact onLog_settings hlog s
  · rw [maybeFlush_settings]
    exact onLog_settings hlog s

theorem compactRun_settings (s : Store) (first len : Nat) (env : Env) :
    (s.compactRun first len env).store.settings = s.settings := by
  unfold compactRun
  simp only []
  split
  · rfl
  · split
    · rfl
    · split
      · split <;> rfl
      · rfl

theorem flushAll_settings (s : Store) (env : Env) :
    (s.flushAll env).store.settings = s.settings := by
  have hcut := onLog_settings (fun w => w.truncate_settings (env.clock 0) env.flushAll.truncate)
    { s with sstables := [] }
  unfold flushAll
  simp only []
  split
  · rfl
  · split
    · exact hcut
    · exact hcut

/-- No call changes how the store was started. -/
theorem call_settings (s : Store) (d : Disk) (env : Env) (c : Call) :
    (s.call d env c).store.settings = s.settings := by
  have hcases := s.call_cases d env c
  generalize s.call d env c = o at hcases
  cases hcases with
  | nothing => rfl
  | mutated step => exact s.mutate_settings _ (fun w => w.step_settings step) _ _ _ _ _
  | flushed now => exact s.flush_settings now env.flush
  | swept => rfl
  | merged =>
      show (s.maybeCompact d env).store.settings = _
      rw [maybeCompact]
      split
      · rfl
      · exact s.compactRun_settings _ _ env
  | cleared => exact s.flushAll_settings env

theorem execute_settings (s : Store) (cmd : Command) (env : Env) :
    (execute cmd s env).store.settings = s.settings := by
  have hcases := execute_cases cmd s {} env
  generalize execute cmd s env = o at hcases
  cases hcases with
  | replied => rfl
  | called c env' => exact s.call_settings {} env' c

end Store

/-! ## Handlers -/

/-- A store and a map that agree, before a command in these surroundings. -/
structure Faces (s : Store) (m : RefMap) (env : Env) (now upTo : Int64) : Prop where
  sane : s.Sane
  refines : s.Refines now m
  log : env.log = {}
  clock : ∀ n, now ≤ (env.clock n).wall ∧ (env.clock n).wall ≤ upTo
  le : now ≤ upTo

/-- The reply is the one of the map, and store and map agree again. -/
structure Answers (upTo : Int64) (o : Outcome Bytes) (x : RefMap × Bytes) : Prop where
  reply : o.ret = x.2
  sane : o.store.Sane
  refines : o.store.Refines upTo x.1

section Handlers

variable {s : Store} {m : RefMap} {env : Env} {now upTo : Int64}

theorem Faces.later (h : Faces s m env now upTo) : Faces s m env.later now upTo where
  sane := h.sane
  refines := h.refines
  log := h.log
  clock n := h.clock (n + 1)
  le := h.le

theorem Faces.lookup (h : Faces s m env now upTo) (n : Nat) (key : Bytes) :
    s.lookup (env.clock n).wall key = m.lookup (env.clock n).wall key :=
  h.refines.lookup (h.clock n).1 key

theorem Faces.replied (h : Faces s m env now upTo) {out : Bytes} {x : RefMap × Bytes}
    (hx : x = (m, out)) : Answers upTo (s.reply out) x := by
  subst hx
  exact ⟨rfl, h.sane, h.refines.mono h.le⟩

/-- A write that the log takes. -/
theorem Faces.set (h : Faces s m env now upTo) {key value : Bytes} (hkey : key.length < 2 ^ 32)
    (hvalue : value.length < 2 ^ 32) (stamp : Int64) (f : Bool → Bytes) :
    Answers upTo ((s.set key value stamp env).map f) (m.set key value stamp, f true) := by
  obtain ⟨hret, hsane, hrefines⟩ :=
    Store.set_refines h.sane (h.refines.mono h.le) hkey hvalue stamp h.log
  exact ⟨congrArg f hret, hsane, hrefines⟩

/-- What is made of an answer that was logged. -/
theorem cmdExpireAt_answers (h : Faces s m env now upTo) {c : Command} {key : Bytes}
    (hc : c.arg 1 = key) (hkey : key.length < 2 ^ 32) (deadline : Int64) :
    Answers upTo (cmdExpireAt c s env deadline)
      ((expireAt m (env.clock 0).wall key deadline).1,
        (expireAt m (env.clock 0).wall key deadline).2.encode) := by
  have hlookup := h.lookup 0 key
  rw [cmdExpireAt, hc, Store.expire, expireAt, ← hlookup]
  cases hfound : s.lookup (env.clock 0).wall key with
  | none => exact ⟨rfl, h.sane, h.refines.mono h.le⟩
  | some found =>
      exact h.later.set hkey (h.sane.fits_lookup hfound) deadline fun ok =>
        expireAnswer (.expire (if ok then { durable := true, applied := true } else {}))

theorem cmdSetTo_answers (h : Faces s m env now upTo) {c : Command} {key value : Bytes}
    (hkey : c.arg 1 = key) (hvalue : c.arg 2 = value) (hfits : c.Fits) (stamp : Int64) :
    Answers upTo (cmdSetTo c s env stamp) (m.set key value stamp, Answer.ok.encode) := by
  subst hkey hvalue
  exact h.set (hfits.arg 1) (hfits.arg 2) stamp _

theorem cmdIncrFrom_answers (h : Faces s m env now upTo) {c : Command} {key : Bytes}
    (hc : c.arg 1 = key) (hfits : c.Fits) (value stamp : Int64) :
    Answers upTo (cmdIncrFrom c s env value stamp)
      ((increment m key value stamp).1, (increment m key value stamp).2.encode) := by
  subst hc
  rw [cmdIncrFrom, increment]
  split
  · exact h.replied rfl
  · refine h.set (hfits.arg 1) ?_ stamp _
    exact Nat.lt_of_le_of_lt (decimalInt_length_le _) (by decide)

theorem countExisting_eq (h : s.Refines now m) (keys : List Bytes) :
    ∀ {clock : Nat → Reading}, (∀ n, now ≤ (clock n).wall) →
      s.countExisting clock keys = Operation.count m clock keys := by
  induction keys with
  | nil => exact fun _ => rfl
  | cons key keys ih =>
      intro clock hclock
      rw [Store.countExisting, Operation.count, h.get_isSome (hclock 0),
        ih fun n => hclock (n + 1)]

end Handlers

/-! ## Rows -/

/-- What the command of a name needs besides: a `FLUSHALL` runs through,
`CONFIG GET` tells the policy of the log, and `INFO` reports what it reports. -/
structure Provided (name : Bytes) (cmd : Command) (s : Store) (env : Env)
    (policy : Option SyncPolicy) (report : Bytes) : Prop where
  flushall : name = text "flushall" → env.FlushAllSucceeds
  config : name = text "config" → s.wal.map Wal.policy = policy
  info : name = text "info" → (cmdInfo cmd s env).ret = bulkString report

/-- A row of the dispatch table does what the reader of its name reads. -/
def Row (name : Bytes) (spec : Spec) (reader : List Bytes → Except Bytes Operation) : Prop :=
  ∀ ⦃raw : Bytes⦄ ⦃args : List Bytes⦄ ⦃s : Store⦄ ⦃m : RefMap⦄ ⦃env : Env⦄ ⦃now upTo : Int64⦄
    ⦃policy : Option SyncPolicy⦄ ⦃report : Bytes⦄,
    Faces s m env now upTo → Command.Fits (raw :: args) →
    Provided name (raw :: args) s env policy report →
    Answers upTo
      (if (raw :: args).length < spec.minArgs ∨ ∃ n ∈ spec.maxArgs, n < (raw :: args).length then
        s.reply (errorReply (wrongNumber name))
      else spec.handler (raw :: args) s env)
      (result policy report m env (reader args))

theorem row_ping : Row (text "ping") { handler := cmdPing, minArgs := 1, maxArgs := some 2 }
    readPing := by
  intro raw args s m env now upTo policy report h hfits _
  match args with
  | [] => exact h.replied rfl
  | [message] => exact h.replied rfl
  | _ :: _ :: _ =>
      rw [if_pos (by simp)]
      exact h.replied rfl

/-- The options of a `SET`, as the handler and as the reader see them. -/
theorem unitOf_eq (option : Bytes) :
    unitOf option =
      (normalizeName option).bind fun name =>
        if name ≠ text "ex" ∧ name ≠ text "px" then none
        else some (if name = text "ex" then 1000 else 1) := by
  unfold unitOf
  cases normalizeName option with
  | none => rfl
  | some name =>
      by_cases hex : name = text "ex"
      · simp [hex]
      · by_cases hpx : name = text "px"
        · simp [hpx, show text "px" ≠ text "ex" by decide]
        · simp [hex, hpx]

theorem row_set : Row (text "set") { handler := cmdSet, minArgs := 3 } readSet := by
  intro raw args s m env now upTo policy report h hfits _
  match args with
  | [] => exact h.replied rfl
  | [_] => exact h.replied rfl
  | [key, value] => exact cmdSetTo_answers h rfl rfl hfits 0
  | [key, value, option, number] =>
      rw [if_neg (by simp), readSet, unitOf_eq]
      simp only [cmdSet, List.length_cons, List.length_nil, if_true, Command.arg,
        List.getD_cons_succ, List.getD_cons_zero]
      cases normalizeName option with
      | none => exact h.replied rfl
      | some name =>
          simp only [Option.bind_some]
          split
          · exact h.replied rfl
          · cases parseInt64 number with
            | none => exact h.replied rfl
            | some amount =>
                simp only []
                split
                · exact h.replied rfl
                · simp only [result, Operation.run]
                  cases deadlineFrom amount _ (env.clock 0).wall with
                  | none => exact h.replied rfl
                  | some deadline => exact cmdSetTo_answers h.later rfl rfl hfits deadline
  | [_, _, _] => exact h.replied rfl
  | _ :: _ :: _ :: _ :: _ :: _ =>
      rw [if_neg (by simp)]
      dsimp only
      rw [cmdSet, if_neg (by simp), if_pos (by simp)]
      exact h.replied rfl

theorem row_get : Row (text "get") { handler := cmdGet, minArgs := 2, maxArgs := some 2 }
    (readKey (text "get") .get) := by
  intro raw args s m env now upTo policy report h hfits _
  match args with
  | [] => exact h.replied rfl
  | [key] =>
      refine h.replied ?_
      simp only [readKey, result, Operation.run, Command.arg, Store.get, List.getD_cons_succ,
        List.getD_cons_zero, h.lookup 0 key]
      cases m.lookup (env.clock 0).wall key <;> rfl
  | _ :: _ :: _ =>
      rw [if_pos (by simp)]
      exact h.replied rfl

theorem row_expire : Row (text "expire") { handler := cmdExpire, minArgs := 3, maxArgs := some 3 }
    readExpire := by
  intro raw args s m env now upTo policy report h hfits _
  match args with
  | [] => exact h.replied rfl
  | [_] => exact h.replied rfl
  | [key, number] =>
      rw [if_neg (by simp), readExpire]
      simp only [cmdExpire, Command.arg, List.getD_cons_succ, List.getD_cons_zero]
      cases parseInt64 number with
      | none => exact h.replied rfl
      | some seconds =>
          simp only [result, Operation.run]
          split
          · exact cmdExpireAt_answers h rfl (hfits.arg 1) (-1)
          · cases deadlineFrom seconds 1000 (env.clock 0).wall with
            | none => exact h.replied rfl
            | some deadline => exact cmdExpireAt_answers h.later rfl (hfits.arg 1) deadline
  | _ :: _ :: _ :: _ =>
      rw [if_pos (by simp)]
      exact h.replied rfl

theorem row_ttl : Row (text "ttl") { handler := cmdTtl, minArgs := 2, maxArgs := some 2 }
    (readKey (text "ttl") .ttl) := by
  intro raw args s m env now upTo policy report h hfits _
  match args with
  | [] => exact h.replied rfl
  | [key] =>
      refine h.replied ?_
      simp only [readKey, result, Operation.run, Command.arg, Store.ttl, List.getD_cons_succ,
        List.getD_cons_zero, h.lookup 0 key]
      cases m.lookup (env.clock 0).wall key with
      | none => rfl
      | some found =>
          simp only []
          split <;> rfl
  | _ :: _ :: _ =>
      rw [if_pos (by simp)]
      exact h.replied rfl

theorem row_incr : Row (text "incr") { handler := cmdIncr, minArgs := 2, maxArgs := some 2 }
    (readKey (text "incr") .incr) := by
  intro raw args s m env now upTo policy report h hfits _
  match args with
  | [] => exact h.replied rfl
  | [key] =>
      rw [if_neg (by simp)]
      simp only [cmdIncr, readKey, result, Operation.run, Command.arg, List.getD_cons_succ,
        List.getD_cons_zero, h.lookup 0 key]
      cases m.lookup (env.clock 0).wall key with
      | none => exact cmdIncrFrom_answers h.later rfl hfits 0 0
      | some found =>
          simp only []
          cases parseInt64 found.value with
          | none => exact h.replied rfl
          | some value => exact cmdIncrFrom_answers h.later rfl hfits value _
  | _ :: _ :: _ =>
      rw [if_pos (by simp)]
      exact h.replied rfl

theorem row_flushall : Row (text "flushall") { handler := cmdFlushall, minArgs := 1 }
    fun _ => .ok .flushall := by
  intro raw args s m env now upTo policy report h hfits hp
  rw [if_neg (by simp)]
  obtain ⟨hret, hsane, hrefines⟩ := Store.flushAll_refines (s := s) (hp.flushall rfl) upTo
  exact ⟨congrArg (fun ok => flushallAnswer (.flushAll ok)) hret, hsane, hrefines⟩

theorem row_info : Row (text "info") { handler := cmdInfo, minArgs := 1, maxArgs := some 2 }
    readInfo := by
  intro raw args s m env now upTo policy report h hfits hp
  have hinfo : Answers upTo (cmdInfo (raw :: args) s env) (m, bulkString report) :=
    ⟨hp.info rfl, h.sane, h.refines.mono h.le⟩
  match args, hinfo with
  | [], hinfo => exact hinfo
  | [_], hinfo => exact hinfo
  | _ :: _ :: _, _ =>
      rw [if_pos (by simp)]
      exact h.replied rfl

theorem configValue_eq (s : Store) (param : Bytes) :
    configValue s param = parameter (s.wal.map Wal.policy) param := by
  unfold configValue parameter
  cases s.wal <;> rfl

theorem row_config : Row (text "config") { handler := cmdConfig, minArgs := 2 } readConfig := by
  intro raw args s m env now upTo policy report h hfits hp
  cases args with
  | nil => exact h.replied rfl
  | cons sub params =>
      rw [if_neg (by simp)]
      refine h.replied ?_
      simp only [readConfig, Command.arg, List.getD_cons_succ, List.getD_cons_zero]
      split
      · rcases params with _ | ⟨param, _ | _⟩
        · rfl
        · have hvalue : configValue s = parameter policy := by
            funext name
            rw [configValue_eq, hp.config rfl]
          simp only [result, Operation.run, hvalue, List.length_cons, List.length_nil,
            List.getD_cons_zero]
          cases (normalizeName param).bind (parameter policy) with
          | none => rfl
          | some value => simp [Answer.encode]
        · rw [if_pos (by simp)]
          rfl
      · rfl

theorem row_del : Row (text "del") { handler := cmdDel, minArgs := 2 }
    (readKeys (text "del") .del) := by
  intro raw args s m env now upTo policy report h hfits _
  match args with
  | [] => exact h.replied rfl
  | [key] =>
      rw [if_neg (by simp)]
      obtain ⟨hret, hsane, hrefines⟩ :=
        Store.del_refines h.sane h.refines (hfits.arg 1) h.log (h.clock 0).1
      refine ⟨(congrArg (fun r => delAnswer (.del r)) hret).trans ?_, hsane,
        hrefines.mono h.le⟩
      show integerReply (if (m.lookup (env.clock 0).wall key).isSome then 1 else 0) =
        integerReply ((0 + (m.lookup (env.clock 0).wall key).isSome.toNat : Nat) : Int)
      cases (m.lookup (env.clock 0).wall key).isSome <;> rfl
  | key :: key' :: keys =>
      rw [if_neg (by simp)]
      dsimp only
      rw [cmdDel, if_neg (by simp)]
      obtain ⟨hret, hsane, hrefines⟩ := Store.delMany_refines h.sane h.refines
        (fun k hk => hfits k (List.mem_cons_of_mem raw hk)) h.log fun n => (h.clock n).1
      exact ⟨congrArg (fun r => delAnswer (.delMany r)) hret, hsane, hrefines.mono h.le⟩

theorem row_exists : Row (text "exists") { handler := cmdExists, minArgs := 2 }
    (readKeys (text "exists") .exists) := by
  intro raw args s m env now upTo policy report h hfits _
  match args with
  | [] => exact h.replied rfl
  | key :: keys =>
      rw [if_neg (by simp)]
      refine h.replied ?_
      rw [List.tail_cons, countExisting_eq h.refines _ fun n => (h.clock n).1]
      rfl

theorem row_command : Row (text "command") { handler := cmdCommand, minArgs := 1 }
    fun _ => .ok .command := by
  intro raw args s m env now upTo policy report h hfits _
  rw [if_neg (by simp)]
  exact h.replied rfl

/-! ## Dispatch -/

/-- Tables with the same names in the same order find alike. -/
theorem lookup_rows {R : Bytes → Spec → (List Bytes → Except Bytes Operation) → Prop}
    {rows : List (Bytes × Spec)} {rs : List (Bytes × (List Bytes → Except Bytes Operation))}
    (h : List.Forall₂ (fun row r => row.1 = r.1 ∧ R row.1 row.2 r.2) rows rs) (name : Bytes) :
    (rows.lookup name = none ∧ rs.lookup name = none) ∨
      ∃ spec reader, rows.lookup name = some spec ∧ rs.lookup name = some reader ∧
        R name spec reader := by
  induction h with
  | nil => exact Or.inl ⟨rfl, rfl⟩
  | @cons row r rows rs hhead _ ih =>
      obtain ⟨hname, hrow⟩ := hhead
      rw [List.lookup_cons, List.lookup_cons, ← hname]
      cases heq : name == row.1 with
      | false => exact ih
      | true =>
          rw [beq_iff_eq] at heq
          exact Or.inr ⟨row.2, r.2, rfl, rfl, heq ▸ hrow⟩

theorem dispatchTable_rows :
    List.Forall₂ (fun row r => row.1 = r.1 ∧ Row row.1 row.2 r.2) dispatchTable readers :=
  .cons ⟨rfl, row_ping⟩ <| .cons ⟨rfl, row_set⟩ <| .cons ⟨rfl, row_get⟩ <|
    .cons ⟨rfl, row_expire⟩ <| .cons ⟨rfl, row_ttl⟩ <| .cons ⟨rfl, row_incr⟩ <|
    .cons ⟨rfl, row_flushall⟩ <| .cons ⟨rfl, row_info⟩ <| .cons ⟨rfl, row_config⟩ <|
    .cons ⟨rfl, row_del⟩ <| .cons ⟨rfl, row_exists⟩ <| .cons ⟨rfl, row_command⟩ .nil

/-- Where store and map agree a command does what it means, and they agree
again. -/
theorem execute_answers {cmd : Command} {s : Store} {m : RefMap} {env : Env} {now upTo : Int64}
    (h : Faces s m env now upTo) (hfits : cmd.Fits) {policy : Option SyncPolicy} {report : Bytes}
    (hflushall : cmd.IsNamed "flushall" → env.FlushAllSucceeds)
    (hconfig : cmd.IsNamed "config" → s.wal.map Wal.policy = policy)
    (hinfo : cmd.IsNamed "info" → (cmdInfo cmd s env).ret = bulkString report) :
    Answers upTo (execute cmd s env) (cmd.answer policy report m env) := by
  cases cmd with
  | nil => exact h.replied rfl
  | cons raw args =>
      rw [execute, Command.answer, Operation.read]
      cases hname : normalizeName raw with
      | none => exact h.replied rfl
      | some name =>
          rw [Option.bind_some]
          rcases lookup_rows dispatchTable_rows name with ⟨hrow, hread⟩ | ⟨spec, reader, hrow,
            hread, hboth⟩
          · simp only [hrow, hread]
            exact h.replied rfl
          · simp only [hrow, hread]
            refine hboth h hfits ⟨fun heq => ?_, fun heq => ?_, fun heq => ?_⟩
            · exact hflushall (by rw [Command.IsNamed, ← heq]; exact hname)
            · exact hconfig (by rw [Command.IsNamed, ← heq]; exact hname)
            · exact hinfo (by rw [Command.IsNamed, ← heq]; exact hname)

end Cachedb
