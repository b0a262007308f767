import Cachedb.Model.Command
import Cachedb.Spec.ReferenceMap

/-!
# What the commands mean

A client sees neither layers nor files. What it is told depends on a plain map,
the clock and the words of its request. `Operation.read` makes an operation of
the words, or finds the error they deserve, and does not look at the map.
`Operation.run` is what an operation does to the map and what it is answered.

`INFO` reports on layers and files, of which the map knows nothing, so it has
no answer here. `CONFIG GET` tells how the log is synced; the policy is a
parameter.
-/

namespace Cachedb

/-- A reply before it is written down. -/
inductive Answer where
  | status (line : Bytes)
  | error (msg : Bytes)
  | integer (n : Int)
  | bulk (data : Bytes)
  | nothing
  | list (items : List Bytes)
  deriving DecidableEq, Repr

def Answer.encode : Answer → Bytes
  | .status line => simpleString line
  | .error msg => errorReply msg
  | .integer n => integerReply n
  | .bulk data => bulkString data
  | .nothing => nullBulk
  | .list items => arrayHeader items.length ++ (items.map bulkString).flatten

def Answer.ok : Answer := .status (text "OK")

/-- One if so. -/
def Answer.flag (b : Bool) : Answer := .integer (if b then 1 else 0)

/-- What a client can ask for. -/
inductive Operation where
  | ping (message : Option Bytes)
  | set (key value : Bytes)
  /-- A `SET` with a lifetime, in units of so many milliseconds. -/
  | setFor (key value : Bytes) (amount unitMs : Int64)
  | get (key : Bytes)
  | del (keys : List Bytes)
  | exists (keys : List Bytes)
  | expire (key : Bytes) (seconds : Int64)
  | ttl (key : Bytes)
  | incr (key : Bytes)
  | flushall
  | info
  /-- A `CONFIG GET`, of one parameter if it is well formed. -/
  | configGet (param : Option Bytes)
  | command
  deriving DecidableEq, Repr

namespace Operation

/-! ## Reading -/

def kSyntaxError : Bytes := text "ERR syntax error"

def unknown (raw : Bytes) : Bytes := text "ERR unknown command '" ++ printable raw ++ text "'"

def wrongNumber (name : Bytes) : Bytes :=
  text "ERR wrong number of arguments for '" ++ name ++ text "' command"

/-- What `EX` and `PX` count in. -/
def unitOf (option : Bytes) : Option Int64 :=
  if normalizeName option = some (text "ex") then some 1000
  else if normalizeName option = some (text "px") then some 1
  else none

def readSet : List Bytes → Except Bytes Operation
  | [key, value] => .ok (.set key value)
  | [key, value, option, number] =>
      match unitOf option with
      | none => .error kSyntaxError
      | some unitMs =>
          match parseInt64 number with
          | none => .error kNotAnInteger
          | some amount =>
              if amount ≤ 0 then .error (text "ERR invalid expire time in 'set' command")
              else .ok (.setFor key value amount unitMs)
  | [] | [_] => .error (wrongNumber (text "set"))
  | _ => .error kSyntaxError

def readExpire : List Bytes → Except Bytes Operation
  | [key, number] =>
      match parseInt64 number with
      | none => .error kNotAnInteger
      | some seconds => .ok (.expire key seconds)
  | _ => .error (wrongNumber (text "expire"))

def readConfig : List Bytes → Except Bytes Operation
  | [] => .error (wrongNumber (text "config"))
  | sub :: params =>
      if normalizeName sub = some (text "get") then
        .ok (.configGet (match params with | [param] => some param | _ => none))
      else
        .error (text "ERR Unknown CONFIG subcommand or wrong number of arguments for '" ++
          printable sub ++ text "'")

/-- A command with one argument. -/
def readKey (name : Bytes) (op : Bytes → Operation) : List Bytes → Except Bytes Operation
  | [key] => .ok (op key)
  | _ => .error (wrongNumber name)

/-- A command with one argument or more. -/
def readKeys (name : Bytes) (op : List Bytes → Operation) : List Bytes → Except Bytes Operation
  | [] => .error (wrongNumber name)
  | keys => .ok (op keys)

def readPing : List Bytes → Except Bytes Operation
  | [] => .ok (.ping none)
  | [message] => .ok (.ping (some message))
  | _ => .error (wrongNumber (text "ping"))

def readInfo : List Bytes → Except Bytes Operation
  | [] | [_] => .ok .info
  | _ => .error (wrongNumber (text "info"))

/-- The readers by name. -/
def readers : List (Bytes × (List Bytes → Except Bytes Operation)) := [
  (text "ping", readPing),
  (text "set", readSet),
  (text "get", readKey (text "get") .get),
  (text "expire", readExpire),
  (text "ttl", readKey (text "ttl") .ttl),
  (text "incr", readKey (text "incr") .incr),
  (text "flushall", fun _ => .ok .flushall),
  (text "info", readInfo),
  (text "config", readConfig),
  (text "del", readKeys (text "del") .del),
  (text "exists", readKeys (text "exists") .exists),
  (text "command", fun _ => .ok .command)]

/-- What the words of a request ask for. -/
def read (raw : Bytes) (args : List Bytes) : Except Bytes Operation :=
  match (normalizeName raw).bind fun name => readers.lookup name with
  | none => .error (unknown raw)
  | some reader => reader args

/-! ## Running -/

/-- How many of the keys are there, each looked up at a reading of its own. -/
def count (m : RefMap) (clock : Nat → Reading) : List Bytes → Nat
  | [] => 0
  | key :: keys =>
      (m.lookup (clock 0).wall key).isSome.toNat + count m (fun n => clock (n + 1)) keys

/-- A key that is there gets the deadline. -/
def expireAt (m : RefMap) (now : Int64) (key : Bytes) (deadline : Int64) : RefMap × Answer :=
  match m.lookup now key with
  | none => (m, .flag false)
  | some found => (m.set key found.value deadline, .flag true)

/-- The seconds until a deadline, rounded up. -/
def secondsLeft (deadline now : Int64) : Int :=
  ((if deadline - now > 0 then deadline - now else 0) + 999) / 1000 |>.toInt

/-- One more than `value`, kept until `stamp`. -/
def increment (m : RefMap) (key : Bytes) (value stamp : Int64) : RefMap × Answer :=
  if value = kMax then (m, .error (text "ERR increment or decrement would overflow"))
  else (m.set key (decimalInt (value + 1).toInt) stamp, .integer (value + 1).toInt)

/-- What `CONFIG GET` knows. -/
def parameter (policy : Option SyncPolicy) (param : Bytes) : Option Bytes :=
  if param = text "save" then some []
  else if param = text "appendonly" then some (text "yes")
  else if param = text "appendfsync" then some (policy.elim (text "no") policyName)
  else if param = text "maxmemory" then some (text "0")
  else none

/-- What an operation does to the map, and its answer. A lifetime is counted
from the first reading of the clock and a lookup takes the next; the keys of a
`DEL` with several are looked up from the second reading on. -/
def run (policy : Option SyncPolicy) (m : RefMap) (env : Env) :
    Operation → RefMap × Option Answer
  | .ping none => (m, some (.status (text "PONG")))
  | .ping (some message) => (m, some (.bulk message))
  | .set key value => (m.set key value 0, some .ok)
  | .setFor key value amount unitMs =>
      match deadlineFrom amount unitMs (env.clock 0).wall with
      | none => (m, some (.error (text "ERR invalid expire time in 'set' command")))
      | some deadline => (m.set key value deadline, some .ok)
  | .get key =>
      (m, some ((m.lookup (env.clock 0).wall key).elim .nothing fun found => .bulk found.value))
  | .del keys =>
      let clock := if keys.length = 1 then env.clock else env.later.clock
      let done := m.eraseAll clock keys
      (done.2, some (.integer done.1))
  | .exists keys => (m, some (.integer (count m env.clock keys)))
  | .expire key seconds =>
      if seconds ≤ 0 then (expireAt m (env.clock 0).wall key (-1)).map id some
      else
        match deadlineFrom seconds 1000 (env.clock 0).wall with
        | none => (m, some (.error (text "ERR invalid expire time in 'expire' command")))
        | some deadline => (expireAt m (env.clock 1).wall key deadline).map id some
  | .ttl key =>
      match m.lookup (env.clock 0).wall key with
      | none => (m, some (.integer (-2)))
      | some found =>
          if found.expiresAtMs = 0 then (m, some (.integer (-1)))
          else (m, some (.integer (secondsLeft found.expiresAtMs (env.clock 1).wall)))
  | .incr key =>
      match m.lookup (env.clock 0).wall key with
      | none => (increment m key 0 0).map id some
      | some found =>
          match parseInt64 found.value with
          | none => (m, some (.error kNotAnInteger))
          | some value => (increment m key value found.expiresAtMs).map id some
  | .flushall => (RefMap.empty, some .ok)
  | .info => (m, none)
  | .configGet param =>
      (m, some (.list (match param with
        | none => []
        | some param =>
            ((normalizeName param).bind (parameter policy)).elim [] fun value =>
              [param, value])))
  | .command => (m, some (.list []))

/-- What becomes of a request that was read, `report` being what an `INFO`
reports. -/
def result (policy : Option SyncPolicy) (report : Bytes) (m : RefMap) (env : Env) :
    Except Bytes Operation → RefMap × Bytes
  | .error msg => (m, errorReply msg)
  | .ok op =>
      ((op.run policy m env).1, ((op.run policy m env).2.getD (.bulk report)).encode)

end Operation

/-- The name a command goes by, in whatever case. -/
def Command.IsNamed (cmd : Command) (name : String) : Prop :=
  normalizeName (cmd.headD []) = some (text name)

instance (cmd : Command) (name : String) : Decidable (cmd.IsNamed name) := by
  unfold Command.IsNamed; infer_instance

/-- What a command does to a map and what it is answered. An empty command is
not answered. -/
def Command.answer (policy : Option SyncPolicy) (report : Bytes) (m : RefMap) (env : Env) :
    Command → RefMap × Bytes
  | [] => (m, [])
  | raw :: args => Operation.result policy report m env (Operation.read raw args)

end Cachedb
