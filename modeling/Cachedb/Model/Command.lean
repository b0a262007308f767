import Cachedb.Model.Resp
import Cachedb.Model.Store

/-!
# Commands

A handler is given the request, the store and its surroundings, and answers
with the bytes of its reply, the store it leaves and the calls it made on the
data directory. Which reading of the clock goes where is the order of the
readings in the source: a handler that turns a lifetime into a deadline takes
the first and leaves the later ones to the store.

`isprint` and `tolower` are those of the C locale.
-/

namespace Cachedb

def kMaxNameLen : Nat := 16

def toLower (c : UInt8) : UInt8 := if 65 ≤ c ∧ c ≤ 90 then c + 32 else c

def isPrint (c : UInt8) : Bool := 32 ≤ c && c ≤ 126

/-- `normalize_name`. -/
def normalizeName (name : Bytes) : Option Bytes :=
  if kMaxNameLen < name.length then none else some (name.map toLower)

def kMaxEcho : Nat := 64

/-- `append_printable`. -/
def printable (s : Bytes) : Bytes := (s.take kMaxEcho).map fun c => if isPrint c then c else 46

def kNotAnInteger : Bytes := text "ERR value is not an integer or out of range"

/-- `INT64_MAX`. -/
def kMax : Int64 := 9223372036854775807

/-- The loop of `parse_int64`. -/
def parseDigits (value : Int64) : Bytes → Option Int64
  | [] => some value
  | c :: rest =>
      if !isDigit c then none
      else
        let digit := Int64.ofNat (digitValue c)
        if (kMax - digit) / 10 < value then none else parseDigits (value * 10 + digit) rest

/-- `parse_int64`. -/
def parseInt64 (text : Bytes) : Option Int64 :=
  if text = [] ∨ 20 < text.length then none
  else
    let negative := text.head? = some 45
    let digits := if negative then text.tail else text
    if digits = [] then none
    else if digits.head? = some 48 ∧ (1 < digits.length ∨ negative) then none
    else (parseDigits 0 digits).map fun value => if negative then -value else value

/-- `deadline_from`, at clock reading `now`. -/
def deadlineFrom (amount unitMs now : Int64) : Option Int64 :=
  if kMax / unitMs < amount then none
  else
    let delta := amount * unitMs
    if kMax - now < delta then none
    else
      let deadline := now + delta
      some (if deadline = 0 then -1 else deadline)

/-! ## Handlers -/

/-- `c.args[i]`. -/
def Command.arg (c : Command) (i : Nat) : Bytes := c.getD i []

/-- A reply and nothing else. -/
def Store.reply (s : Store) (out : Bytes) : Outcome Bytes := { ret := out, store := s }

def cmdPing (c : Command) (s : Store) (_ : Env) : Outcome Bytes :=
  s.reply (if c.length = 1 then simpleString (text "PONG") else bulkString (c.arg 1))

def kSetFailed : Bytes := text "ERR the write could not be logged and was not applied"

/-- The write at the end of `cmd_set`. -/
def cmdSetTo (c : Command) (s : Store) (env : Env) (expiresAtMs : Int64) : Outcome Bytes :=
  (s.set (c.arg 1) (c.arg 2) expiresAtMs env).map fun ok =>
    if ok then simpleString (text "OK") else errorReply kSetFailed

def cmdSet (c : Command) (s : Store) (env : Env) : Outcome Bytes :=
  if c.length = 5 then
    match normalizeName (c.arg 3) with
    | none => s.reply (errorReply (text "ERR syntax error"))
    | some option =>
        if option ≠ text "ex" ∧ option ≠ text "px" then
          s.reply (errorReply (text "ERR syntax error"))
        else
          match parseInt64 (c.arg 4) with
          | none => s.reply (errorReply kNotAnInteger)
          | some amount =>
              if amount ≤ 0 then
                s.reply (errorReply (text "ERR invalid expire time in 'set' command"))
              else
                match deadlineFrom amount (if option = text "ex" then 1000 else 1)
                  (env.clock 0).wall with
                | none => s.reply (errorReply (text "ERR invalid expire time in 'set' command"))
                | some deadline => cmdSetTo c s env.later deadline
  else if c.length ≠ 3 then s.reply (errorReply (text "ERR syntax error"))
  else cmdSetTo c s env 0

def cmdGet (c : Command) (s : Store) (env : Env) : Outcome Bytes :=
  s.reply <| match s.get (env.clock 0).wall (c.arg 1) with
    | some value => bulkString value
    | none => nullBulk

def kDelFailed : Bytes := text "ERR the delete could not be logged and was not applied"

def cmdDel (c : Command) (s : Store) (env : Env) : Outcome Bytes :=
  if c.length = 2 then
    (s.del (c.arg 1) env).map fun r =>
      if !r.durable then errorReply kDelFailed else integerReply (if r.wasLive then 1 else 0)
  else
    (s.delMany c.tail env).map fun r =>
      if !r.durable then errorReply kDelFailed else integerReply r.removed

/-- The loop of `cmd_exists`: one lookup, with its own clock, per key. -/
def Store.countExisting (s : Store) (clock : Nat → Reading) : List Bytes → Nat
  | [] => 0
  | key :: keys =>
      (s.get (clock 0).wall key).isSome.toNat + s.countExisting (fun n => clock (n + 1)) keys

def cmdExists (c : Command) (s : Store) (env : Env) : Outcome Bytes :=
  s.reply (integerReply (s.countExisting env.clock c.tail))

/-- The write at the end of `cmd_expire`. -/
def cmdExpireAt (c : Command) (s : Store) (env : Env) (deadline : Int64) : Outcome Bytes :=
  (s.expire (c.arg 1) deadline env).map fun r =>
    if !r.durable then
      errorReply (text "ERR the expiry could not be logged and was not applied")
    else integerReply (if r.applied then 1 else 0)

def cmdExpire (c : Command) (s : Store) (env : Env) : Outcome Bytes :=
  match parseInt64 (c.arg 2) with
  | none => s.reply (errorReply kNotAnInteger)
  | some seconds =>
      if seconds ≤ 0 then cmdExpireAt c s env (-1)
      else
        match deadlineFrom seconds 1000 (env.clock 0).wall with
        | none => s.reply (errorReply (text "ERR invalid expire time in 'expire' command"))
        | some deadline => cmdExpireAt c s env.later deadline

def cmdTtl (c : Command) (s : Store) (env : Env) : Outcome Bytes :=
  let r := s.ttl (env.clock 0).wall (env.clock 1).wall (c.arg 1)
  s.reply <|
    if !r.isThere then integerReply (-2)
    else if !r.hasExpiry then integerReply (-1)
    else integerReply ((r.remainingMs + 999) / 1000).toInt

/-- The write at the end of `cmd_incr`. -/
def cmdIncrFrom (c : Command) (s : Store) (env : Env) (value expiresAtMs : Int64) :
    Outcome Bytes :=
  if value = kMax then
    s.reply (errorReply (text "ERR increment or decrement would overflow"))
  else
    let value := value + 1
    (s.set (c.arg 1) (decimalInt value.toInt) expiresAtMs env).map fun ok =>
      if ok then integerReply value.toInt else errorReply kSetFailed

def cmdIncr (c : Command) (s : Store) (env : Env) : Outcome Bytes :=
  match s.lookup (env.clock 0).wall (c.arg 1) with
  | none => cmdIncrFrom c s env.later 0 0
  | some found =>
      match parseInt64 found.value with
      | none => s.reply (errorReply kNotAnInteger)
      | some value => cmdIncrFrom c s env.later value found.expiresAtMs

def cmdFlushall (_ : Command) (s : Store) (env : Env) : Outcome Bytes :=
  (s.flushAll env).map fun ok =>
    if ok then simpleString (text "OK")
    else errorReply (text "ERR the flush could not be completed")

def policyName : SyncPolicy → Bytes
  | .kAlways => text "always"
  | .kEverySec => text "everysec"
  | .kNo => text "no"

/-- The `line` of `cmd_info`. -/
def infoLine (key : String) (value : Nat) : Bytes :=
  text key ++ text ":" ++ decimal value ++ crlf

def cmdInfo (_ : Command) (s : Store) (env : Env) : Outcome Bytes :=
  let uptime := ((env.clock 0).wall - env.startedMs) / 1000
  s.reply <| bulkString <|
    text "# Server" ++ crlf ++
    infoLine "uptime_in_seconds" uptime.toUInt64.toNat ++
    crlf ++ text "# Memtable" ++ crlf ++
    infoLine "memtable_keys" s.memtable.liveCount ++
    infoLine "memtable_bytes" s.memtable.bytes ++
    infoLine "memtable_limit_bytes" s.options.memtableLimitBytes ++
    crlf ++ text "# Persistence" ++ crlf ++
    infoLine "sstable_count" s.sstables.length ++
    infoLine "wal_bytes" (s.wal.elim 0 Wal.size) ++
    infoLine "wal_fsyncs" (s.wal.elim 0 Wal.syncs) ++
    text "wal_fsync_policy:" ++ s.wal.elim (text "none") (fun w => policyName w.policy) ++ crlf ++
    infoLine "flush_failed" s.flushFailed.toNat ++
    crlf ++ text "# Expiry" ++ crlf ++
    infoLine "expired_keys_swept" s.sweptKeys

/-- What `CONFIG GET` answers for a parameter. -/
def configValue (s : Store) (param : Bytes) : Option Bytes :=
  if param = text "save" then some []
  else if param = text "appendonly" then some (text "yes")
  else if param = text "appendfsync" then
    some (s.wal.elim (text "no") fun w => policyName w.policy)
  else if param = text "maxmemory" then some (text "0")
  else none

def cmdConfig (c : Command) (s : Store) (_ : Env) : Outcome Bytes :=
  s.reply <|
    if normalizeName (c.arg 1) = some (text "get") then
      if c.length ≠ 3 then arrayHeader 0
      else
        match (normalizeName (c.arg 2)).bind (configValue s) with
        | none => arrayHeader 0
        | some value => arrayHeader 2 ++ bulkString (c.arg 2) ++ bulkString value
    else
      errorReply (text "ERR Unknown CONFIG subcommand or wrong number of arguments for '" ++
        printable (c.arg 1) ++ text "'")

def cmdCommand (_ : Command) (s : Store) (_ : Env) : Outcome Bytes := s.reply (arrayHeader 0)

/-! ## Dispatch -/

structure Spec where
  handler : Command → Store → Env → Outcome Bytes
  minArgs : Nat
  /-- `none` is the source's `-1`. -/
  maxArgs : Option Nat := none

def dispatchTable : List (Bytes × Spec) := [
  (text "ping", { handler := cmdPing, minArgs := 1, maxArgs := some 2 }),
  (text "set", { handler := cmdSet, minArgs := 3 }),
  (text "get", { handler := cmdGet, minArgs := 2, maxArgs := some 2 }),
  (text "expire", { handler := cmdExpire, minArgs := 3, maxArgs := some 3 }),
  (text "ttl", { handler := cmdTtl, minArgs := 2, maxArgs := some 2 }),
  (text "incr", { handler := cmdIncr, minArgs := 2, maxArgs := some 2 }),
  (text "flushall", { handler := cmdFlushall, minArgs := 1 }),
  (text "info", { handler := cmdInfo, minArgs := 1, maxArgs := some 2 }),
  (text "config", { handler := cmdConfig, minArgs := 2 }),
  (text "del", { handler := cmdDel, minArgs := 2 }),
  (text "exists", { handler := cmdExists, minArgs := 2 }),
  (text "command", { handler := cmdCommand, minArgs := 1 })]

/-- `execute`. -/
def execute (cmd : Command) (s : Store) (env : Env) : Outcome Bytes :=
  match cmd with
  | [] => s.reply []
  | raw :: _ =>
      match normalizeName raw with
      | none =>
          s.reply (errorReply (text "ERR unknown command '" ++ printable raw ++ text "'"))
      | some name =>
          match dispatchTable.lookup name with
          | none =>
              s.reply (errorReply (text "ERR unknown command '" ++ printable raw ++ text "'"))
          | some spec =>
              if cmd.length < spec.minArgs ∨ ∃ n ∈ spec.maxArgs, n < cmd.length then
                s.reply (errorReply
                  (text "ERR wrong number of arguments for '" ++ name ++ text "' command"))
              else spec.handler cmd s env

end Cachedb
