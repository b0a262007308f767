import Cachedb.Lib.Checked
import Cachedb.Model.Command

/-!
# The arithmetic of the commands

Numbers from clients go through `parse_int64`, lifetimes through
`deadline_from`, and what is left of a lifetime is rounded up to seconds. Here
is that code once more, with every operation on an `int64_t` checked
(`Checked.Run`): a signed overflow, which the source must not have, stops the
run.
-/

namespace Cachedb

open Checked (Run addWords subWords mulWords negWord divWords)

/-- The loop of `parse_int64`. -/
def parseDigitsChecked (value : Int64) : Bytes → Run (Option Int64)
  | [] => return some value
  | c :: rest => do
      if !isDigit c then return none
      else
        let digit := Int64.ofNat (digitValue c)
        let room ← divWords (← subWords kMax digit) 10
        if room < value then return none
        else parseDigitsChecked (← addWords (← mulWords value 10) digit) rest

/-- `parse_int64`. -/
def parseInt64Checked (text : Bytes) : Run (Option Int64) :=
  if text = [] ∨ 20 < text.length then return none
  else
    let negative := text.head? = some 45
    let digits := if negative then text.tail else text
    if digits = [] then return none
    else if digits.head? = some 48 ∧ (1 < digits.length ∨ negative) then return none
    else do
      match ← parseDigitsChecked 0 digits with
      | none => return none
      | some value => if negative then return some (← negWord value) else return some value

/-- `deadline_from`, at clock reading `now`. -/
def deadlineFromChecked (amount unitMs now : Int64) : Run (Option Int64) := do
  let most ← divWords kMax unitMs
  if most < amount then return none
  else
    let delta ← mulWords amount unitMs
    let room ← subWords kMax now
    if room < delta then return none
    else
      let deadline ← addWords now delta
      return some (if deadline = 0 then -1 else deadline)

/-- `Store::ttl`, with its own second reading of the clock. -/
def Store.ttlChecked (s : Store) (now now' : Int64) (key : Bytes) : Run TtlResult :=
  match s.lookup now key with
  | none => return {}
  | some found =>
      if found.expiresAtMs = 0 then return { isThere := true }
      else do
        let remaining ← subWords found.expiresAtMs now'
        return { isThere := true, hasExpiry := true
                 remainingMs := if remaining > 0 then remaining else 0 }

/-- The rounding of `cmd_ttl`. -/
def secondsChecked (remainingMs : Int64) : Run Int64 := do
  divWords (← addWords remainingMs 999) 1000

end Cachedb
