import Cachedb.Model.Server
import Cachedb.Proofs.Calls
import Cachedb.Proofs.Replies

/-!
# What a command does to the store

Whatever its bytes, a command makes at most one call on the store: a reply
that needs none leaves the store as it was, and every other handler ends in
one writing call or in `flush_all`. `execute_ran` says so, with the keys the
call may write, all of them arguments of the command, and with what becomes of
its answer: a handler that got as far as the store replies with an error only
if the store failed. `execute_cases` is the part of it that needs no keys.
-/

namespace Cachedb

/-- The entry points that hand mutations to the log. -/
def Call.Writes : Call → Prop
  | .set _ _ _ => True
  | .del _ => True
  | .delMany _ => True
  | .expire _ _ => True
  | _ => False

/-- The command is a `FLUSHALL`, in whatever case. -/
def Command.isFlushall (cmd : Command) : Prop :=
  normalizeName (cmd.headD []) = some (text "flushall")

instance (cmd : Command) : Decidable cmd.isFlushall := by
  unfold Command.isFlushall; infer_instance

/-- Every argument fits the 32-bit lengths of the file formats. -/
def Command.Fits (cmd : Command) : Prop := ∀ arg ∈ cmd, arg.length < 2 ^ 32

/-- The ways a command can go. -/
inductive Executed (cmd : Command) (s : Store) (d : Disk) (env : Env) : Outcome Bytes → Prop
  | replied (out : Bytes) : Executed cmd s d env (s.reply out)
  | called (c : Call) (env' : Env) (henv : env' = env ∨ env' = env.later)
      (hkind : c.Writes ∨ c = .flushAll ∧ cmd.isFlushall) (hfits : cmd.Fits → c.Fits)
      (f : Reply → Bytes) : Executed cmd s d env ((s.call d env' c).map f)

/-! ## Lengths -/

theorem Command.Fits.arg {cmd : Command} (h : cmd.Fits) (i : Nat) :
    (cmd.arg i).length < 2 ^ 32 := by
  rw [Command.arg, List.getD_eq_getElem?_getD]
  cases hget : cmd[i]? with
  | none => exact Nat.two_pow_pos 32
  | some arg => exact h arg (List.mem_of_getElem? hget)

/-! ## What a command may write -/

/-- The keys a call may write to, short of removing everything. -/
def Call.keys : Call → List Bytes
  | .set key _ _ => [key]
  | .del key => [key]
  | .delMany keys => keys
  | .expire key _ => [key]
  | _ => []

/-- The keys a command may write to, short of removing everything: every
argument of a `DEL`, the first of a `SET`, an `EXPIRE` or an `INCR`. -/
def Command.writes (cmd : Command) : List Bytes :=
  let name := normalizeName (cmd.headD [])
  if name = some (text "del") then cmd.tail
  else if name ∈ [some (text "set"), some (text "expire"), some (text "incr")] then [cmd.arg 1]
  else []

/-- The reply is an error: it starts with a minus sign. -/
def IsError (out : Bytes) : Prop := out.head? = some 45

instance (out : Bytes) : Decidable (IsError out) := by unfold IsError; infer_instance

theorem isError_errorReply (msg : Bytes) : IsError (errorReply msg) := rfl

theorem not_isError_nil : ¬IsError [] := by decide

theorem not_isError_integer (n : Int) : ¬IsError (integerReply n) := by
  intro h
  cases h

theorem not_isError_ok : ¬IsError (simpleString (text "OK")) := by decide

/-- The store could not do what it was asked to. -/
def Reply.failed : Reply → Bool
  | .flushAll ok => !ok
  | r => r.refused

/-- The ways a command can go, with the keys of the call it makes and what is
made of the answer: an error only where the store failed. -/
inductive Ran (cmd : Command) (s : Store) (d : Disk) (env : Env) : Outcome Bytes → Prop
  | replied (out : Bytes) : Ran cmd s d env (s.reply out)
  | called (c : Call) (env' : Env) (henv : env' = env ∨ env' = env.later)
      (hkind : c.Writes ∨ c = .flushAll ∧ cmd.isFlushall) (hfits : cmd.Fits → c.Fits)
      (hkeys : ∀ key ∈ c.keys, key ∈ cmd.writes) (f : Reply → Bytes)
      (hok : ∀ r : Reply, r.failed = false → ¬IsError (f r)) :
      Ran cmd s d env ((s.call d env' c).map f)

/-! ## What is made of an answer -/

/-- A `SET` or an `INCR` answers `out` once its write is logged. -/
def setAnswer (out : Bytes) : Reply → Bytes
  | .set ok => if ok then out else errorReply kSetFailed
  | _ => []

def delAnswer : Reply → Bytes
  | .del r =>
      if !r.durable then errorReply kDelFailed else integerReply (if r.wasLive then 1 else 0)
  | .delMany r => if !r.durable then errorReply kDelFailed else integerReply r.removed
  | _ => []

def expireAnswer : Reply → Bytes
  | .expire r =>
      if !r.durable then
        errorReply (text "ERR the expiry could not be logged and was not applied")
      else integerReply (if r.applied then 1 else 0)
  | _ => []

def flushallAnswer : Reply → Bytes
  | .flushAll ok =>
      if ok then simpleString (text "OK")
      else errorReply (text "ERR the flush could not be completed")
  | _ => []

theorem setAnswer_ok {out : Bytes} (hout : ¬IsError out) (r : Reply) (h : r.failed = false) :
    ¬IsError (setAnswer out r) := by
  cases r with
  | set ok =>
      cases ok with
      | false => cases h
      | true => exact hout
  | _ => exact not_isError_nil

theorem delAnswer_ok (r : Reply) (h : r.failed = false) : ¬IsError (delAnswer r) := by
  cases r with
  | del r =>
      have hdurable : ¬(!r.durable) = true := Bool.not_eq_true _ ▸ h
      rw [delAnswer, if_neg hdurable]
      exact not_isError_integer _
  | delMany r =>
      have hdurable : ¬(!r.durable) = true := Bool.not_eq_true _ ▸ h
      rw [delAnswer, if_neg hdurable]
      exact not_isError_integer _
  | _ => exact not_isError_nil

theorem expireAnswer_ok (r : Reply) (h : r.failed = false) : ¬IsError (expireAnswer r) := by
  cases r with
  | expire r =>
      have hdurable : ¬(!r.durable) = true := Bool.not_eq_true _ ▸ h
      rw [expireAnswer, if_neg hdurable]
      exact not_isError_integer _
  | _ => exact not_isError_nil

theorem flushallAnswer_ok (r : Reply) (h : r.failed = false) : ¬IsError (flushallAnswer r) := by
  cases r with
  | flushAll ok =>
      cases ok with
      | false => cases h
      | true => exact not_isError_ok
  | _ => exact not_isError_nil

/-! ## Handlers -/

section

variable {cmd : Command} {s : Store} {d : Disk} {env env' : Env}

/-- A command that writes its first argument only. -/
theorem mem_writes_first (h : cmd.writes = [cmd.arg 1]) :
    ∀ key ∈ [cmd.arg 1], key ∈ cmd.writes := by
  intro key hkey
  rw [h]
  exact hkey

theorem cmdSetTo_ran (hwrites : cmd.writes = [cmd.arg 1])
    (henv : env' = env ∨ env' = env.later) (stamp : Int64) :
    Ran cmd s d env (cmdSetTo cmd s env' stamp) :=
  .called (.set (cmd.arg 1) (cmd.arg 2) stamp) env' henv (Or.inl trivial)
    (fun h => ⟨h.arg 1, h.arg 2⟩) (mem_writes_first hwrites) (setAnswer (simpleString (text "OK")))
    (setAnswer_ok not_isError_ok)

theorem cmdSet_ran (hwrites : cmd.writes = [cmd.arg 1]) :
    Ran cmd s d env (cmdSet cmd s env) := by
  unfold cmdSet
  split
  · split
    · exact .replied _
    · split
      · exact .replied _
      · split
        · exact .replied _
        · split
          · exact .replied _
          · split
            · exact .replied _
            · exact cmdSetTo_ran hwrites (Or.inr rfl) _
  · split
    · exact .replied _
    · exact cmdSetTo_ran hwrites (Or.inl rfl) _

/-- Both forms of `DEL` write arguments of the command. -/
theorem cmdDel_ran (hwrites : cmd.writes = cmd.tail) :
    Ran cmd s d env (cmdDel cmd s env) := by
  unfold cmdDel
  split
  · next htwo =>
      refine .called (.del (cmd.arg 1)) env (Or.inl rfl) (Or.inl trivial) (fun h => h.arg 1)
        (fun key hkey => ?_) delAnswer delAnswer_ok
      obtain ⟨raw, arg, rfl⟩ := List.length_eq_two.mp htwo
      rw [hwrites]
      exact hkey
  · exact .called (.delMany cmd.tail) env (Or.inl rfl) (Or.inl trivial)
      (fun h key hkey => h key (List.mem_of_mem_tail hkey))
      (fun key hkey => by rw [hwrites]; exact hkey) delAnswer delAnswer_ok

theorem cmdExpireAt_ran (hwrites : cmd.writes = [cmd.arg 1])
    (henv : env' = env ∨ env' = env.later) (deadline : Int64) :
    Ran cmd s d env (cmdExpireAt cmd s env' deadline) :=
  .called (.expire (cmd.arg 1) deadline) env' henv (Or.inl trivial) (fun h => h.arg 1)
    (mem_writes_first hwrites) expireAnswer expireAnswer_ok

theorem cmdExpire_ran (hwrites : cmd.writes = [cmd.arg 1]) :
    Ran cmd s d env (cmdExpire cmd s env) := by
  unfold cmdExpire
  split
  · exact .replied _
  · split
    · exact cmdExpireAt_ran hwrites (Or.inl rfl) _
    · split
      · exact .replied _
      · exact cmdExpireAt_ran hwrites (Or.inr rfl) _

theorem cmdIncrFrom_ran (hwrites : cmd.writes = [cmd.arg 1])
    (henv : env' = env ∨ env' = env.later) (value stamp : Int64) :
    Ran cmd s d env (cmdIncrFrom cmd s env' value stamp) := by
  unfold cmdIncrFrom
  split
  · exact .replied _
  · refine .called (.set (cmd.arg 1) (decimalInt (value + 1).toInt) stamp) env' henv
      (Or.inl trivial) (fun h => ⟨h.arg 1, ?_⟩) (mem_writes_first hwrites)
      (setAnswer (integerReply (value + 1).toInt)) (setAnswer_ok (not_isError_integer _))
    exact Nat.lt_of_le_of_lt (decimalInt_length_le _) (by decide)

theorem cmdIncr_ran (hwrites : cmd.writes = [cmd.arg 1]) :
    Ran cmd s d env (cmdIncr cmd s env) := by
  unfold cmdIncr
  split
  · exact cmdIncrFrom_ran hwrites (Or.inr rfl) _ _
  · split
    · exact .replied _
    · exact cmdIncrFrom_ran hwrites (Or.inr rfl) _ _

theorem cmdFlushall_ran (h : cmd.isFlushall) : Ran cmd s d env (cmdFlushall cmd s env) :=
  .called .flushAll env (Or.inl rfl) (Or.inr ⟨rfl, h⟩) (fun _ => trivial)
    (List.forall_mem_nil _) flushallAnswer flushallAnswer_ok

end

/-! ## Dispatch -/

theorem writes_first {raw name : Bytes} {args : List Bytes} (hname : normalizeName raw = some name)
    (h : name = text "set" ∨ name = text "expire" ∨ name = text "incr") :
    Command.writes (raw :: args) = [Command.arg (raw :: args) 1] := by
  simp only [Command.writes, List.headD_cons, hname]
  rcases h with rfl | rfl | rfl
  · rfl
  · rfl
  · rfl

theorem writes_del {raw : Bytes} {args : List Bytes}
    (hname : normalizeName raw = some (text "del")) : Command.writes (raw :: args) = args := by
  simp only [Command.writes, List.headD_cons, hname]
  rfl

/-- The handler of each name makes the one call the name stands for. -/
theorem execute_ran (cmd : Command) (s : Store) (d : Disk) (env : Env) :
    Ran cmd s d env (execute cmd s env) := by
  unfold execute
  split
  · exact .replied _
  · next raw args =>
      split
      · exact .replied _
      · next name hname =>
          split
          · exact .replied _
          · next spec hspec =>
              split
              · exact .replied _
              · have hmem := mem_of_lookup hspec
                simp only [dispatchTable, List.mem_cons, Prod.mk.injEq, List.not_mem_nil,
                  or_false] at hmem
                rcases hmem with ⟨_, rfl⟩ | ⟨hset, rfl⟩ | ⟨_, rfl⟩ | ⟨hexpire, rfl⟩ | ⟨_, rfl⟩ |
                  ⟨hincr, rfl⟩ | ⟨hflush, rfl⟩ | ⟨_, rfl⟩ | ⟨_, rfl⟩ | ⟨hdel, rfl⟩ | ⟨_, rfl⟩ |
                  ⟨_, rfl⟩
                · exact .replied _
                · exact cmdSet_ran (writes_first hname (Or.inl hset))
                · exact .replied _
                · exact cmdExpire_ran (writes_first hname (Or.inr (Or.inl hexpire)))
                · exact .replied _
                · exact cmdIncr_ran (writes_first hname (Or.inr (Or.inr hincr)))
                · exact cmdFlushall_ran (by rw [Command.isFlushall, ← hflush]; exact hname)
                · exact .replied _
                · exact .replied _
                · exact cmdDel_ran (writes_del (hdel ▸ hname))
                · exact .replied _
                · exact .replied _

/-- A command replies, or makes the one call its name stands for. -/
theorem execute_cases (cmd : Command) (s : Store) (d : Disk) (env : Env) :
    Executed cmd s d env (execute cmd s env) := by
  have hran := execute_ran cmd s d env
  generalize execute cmd s env = o at hran
  cases hran with
  | replied out => exact .replied out
  | called c env' henv hkind hfits _ f _ => exact .called c env' henv hkind hfits f

/-! ## Handlers by name -/

/-- A command whose name is in the table, with as many arguments as its row
allows, goes to its handler. -/
theorem execute_handler {raw name : Bytes} {spec : Spec} (args : List Bytes)
    (hname : normalizeName raw = some name) (hspec : dispatchTable.lookup name = some spec)
    (hmin : spec.minArgs ≤ args.length + 1) (hmax : ∀ n ∈ spec.maxArgs, args.length + 1 ≤ n)
    (s : Store) (env : Env) : execute (raw :: args) s env = spec.handler (raw :: args) s env := by
  unfold execute
  simp only [hname, hspec]
  rw [if_neg]
  rintro (hfew | ⟨n, hn, hmany⟩)
  · exact Nat.not_lt.mpr hmin hfew
  · exact Nat.not_lt.mpr (hmax n hn) hmany

end Cachedb
