import Cachedb.Proofs.Integers
import Cachedb.Proofs.Interleaving

/-!
# Lifetimes are exact

A lifetime goes through three pieces of arithmetic on an `int64_t`: the amount
becomes a deadline when it is given, the deadline less the clock is what is
left of it, and that is rounded up to seconds. With the clock at a second or
more past its origin none of them overflows, the deadline is refused exactly
when it does not fit, and it is never the zero that stands for no deadline.
Whatever layers the stamp passes on the way, the key shows as long as the
clock is before it.
-/

namespace Cachedb

open Checked (Run addWords subWords mulWords divWords)

/-! ## The deadline -/

theorem zero_toInt : (0 : Int64).toInt = 0 := rfl

/-- The first guard of `deadline_from` is the test that the product fits. -/
theorem deadline_guard {unit : Int64} (hunit : 0 < unit) (amount : Int64) :
    divWords kMax unit = .ok (kMax / unit) ∧
      (kMax / unit < amount ↔ 2 ^ 63 - 1 < amount.toInt * unit.toInt) := by
  have hpos := Int64.lt_iff_toInt_lt.mp hunit
  rw [zero_toInt] at hpos
  have hne : unit ≠ 0 := by
    rintro rfl
    exact absurd hunit (by decide)
  have hquot : kMax.toInt.tdiv unit.toInt = (2 ^ 63 - 1) / unit.toInt := by
    rw [kMax_toInt, Int.tdiv_eq_ediv_of_nonneg (by decide)]
  have hle : (2 ^ 63 - 1) / unit.toInt ≤ 2 ^ 63 - 1 := Int.ediv_le_self _ (by decide)
  have hge : 0 ≤ (2 ^ 63 - 1) / unit.toInt := Int.ediv_nonneg (by decide) (Int.le_of_lt hpos)
  obtain ⟨hdiv, hdivInt⟩ := Checked.divWords_ok (a := kMax) hne
    (by rw [hquot]; exact ⟨by omega, by omega⟩)
  refine ⟨hdiv, ?_⟩
  rw [Int64.lt_iff_toInt_lt, hdivInt, hquot, Int.ediv_lt_iff_lt_mul hpos]

/-- The second guard is the test that the sum fits. -/
theorem deadline_room {now : Int64} (hnow : 0 ≤ now) (delta : Int64) :
    subWords kMax now = .ok (kMax - now) ∧
      (kMax - now < delta ↔ 2 ^ 63 - 1 < now.toInt + delta.toInt) := by
  have hpos := Int64.le_iff_toInt_le.mp hnow
  rw [zero_toInt] at hpos
  have hhi := now.toInt_lt
  obtain ⟨hsub, hsubInt⟩ := Checked.subWords_ok (a := kMax) (b := now)
    (by rw [kMax_toInt]; exact ⟨by omega, by omega⟩)
  refine ⟨hsub, ?_⟩
  rw [Int64.lt_iff_toInt_lt, hsubInt, kMax_toInt]
  omega

/-- `deadline_from` refuses exactly the deadlines that do not fit, the others
it returns as they are, and nothing overflows. -/
theorem deadlineFrom_spec {amount unit now : Int64} (hamount : 0 < amount) (hunit : 0 < unit)
    (hnow : 0 ≤ now) :
    deadlineFromChecked amount unit now = .ok (deadlineFrom amount unit now) ∧
      (2 ^ 63 - 1 < now.toInt + amount.toInt * unit.toInt →
        deadlineFrom amount unit now = none) ∧
      (now.toInt + amount.toInt * unit.toInt ≤ 2 ^ 63 - 1 →
        ∃ stamp, deadlineFrom amount unit now = some stamp ∧
          stamp.toInt = now.toInt + amount.toInt * unit.toInt ∧ stamp ≠ 0) := by
  have hamountInt := Int64.lt_iff_toInt_lt.mp hamount
  have hunitInt := Int64.lt_iff_toInt_lt.mp hunit
  have hnowInt := Int64.le_iff_toInt_le.mp hnow
  rw [zero_toInt] at hamountInt hunitInt hnowInt
  have hproduct := Int.mul_pos hamountInt hunitInt
  obtain ⟨hdiv, hguard⟩ := deadline_guard hunit amount
  rw [deadlineFromChecked, deadlineFrom, hdiv, Checked.ok_bind]
  by_cases hbig : kMax / unit < amount
  · rw [if_pos hbig, if_pos hbig]
    have := hguard.mp hbig
    exact ⟨rfl, fun _ => rfl, fun hfits => by omega⟩
  · rw [if_neg hbig, if_neg hbig]
    have hsmall := mt hguard.mpr hbig
    obtain ⟨hmul, hmulInt⟩ := Checked.mulWords_ok (a := amount) (b := unit)
      ⟨by omega, by omega⟩
    obtain ⟨hsub, hroom⟩ := deadline_room hnow (amount * unit)
    rw [hmulInt] at hroom
    rw [hmul, Checked.ok_bind, hsub, Checked.ok_bind]
    simp only []
    by_cases hover : kMax - now < amount * unit
    · rw [if_pos hover, if_pos hover]
      have := hroom.mp hover
      exact ⟨rfl, fun _ => rfl, fun hfits => by omega⟩
    · rw [if_neg hover, if_neg hover]
      have hfits := mt hroom.mpr hover
      obtain ⟨hadd, haddInt⟩ := Checked.addWords_ok (a := now) (b := amount * unit)
        (by rw [hmulInt]; exact ⟨by omega, by omega⟩)
      rw [hmulInt] at haddInt
      -- The zero that stands for no deadline is out of reach: the sum is positive.
      have hne : now + amount * unit ≠ 0 := by
        intro hzero
        rw [hzero, zero_toInt] at haddInt
        omega
      rw [hadd, Checked.ok_bind, if_neg hne]
      exact ⟨rfl, fun hover => by omega, fun _ => ⟨_, rfl, haddInt, hne⟩⟩

/-! ## What is left of it -/

/-- The arithmetic of `TTL` on a stamp that has not passed: what is left is
rounded up, and nothing overflows. -/
theorem seconds_spec {stamp now : Int64} (hnow : 1000 ≤ now) (hlt : now < stamp) :
    subWords stamp now = .ok (stamp - now) ∧ stamp - now > 0 ∧
      secondsChecked (stamp - now) = .ok ((stamp - now + 999) / 1000) ∧
      1 ≤ ((stamp - now + 999) / 1000).toInt ∧
      1000 * (((stamp - now + 999) / 1000).toInt - 1) < stamp.toInt - now.toInt ∧
      stamp.toInt - now.toInt ≤ 1000 * ((stamp - now + 999) / 1000).toInt := by
  have hnowInt := Int64.le_iff_toInt_le.mp hnow
  have hltInt := Int64.lt_iff_toInt_lt.mp hlt
  have hthousand : (1000 : Int64).toInt = 1000 := rfl
  have hrest : (999 : Int64).toInt = 999 := rfl
  rw [hthousand] at hnowInt
  have hhi := stamp.toInt_lt
  obtain ⟨hsub, hsubInt⟩ := Checked.subWords_ok (a := stamp) (b := now) ⟨by omega, by omega⟩
  obtain ⟨hadd, haddInt⟩ := Checked.addWords_ok (a := stamp - now) (b := 999)
    (by rw [hsubInt, hrest]; exact ⟨by omega, by omega⟩)
  rw [hsubInt, hrest] at haddInt
  have hquot : (stamp - now + 999).toInt.tdiv (1000 : Int64).toInt =
      (stamp.toInt - now.toInt + 999) / 1000 := by
    rw [haddInt, hthousand, Int.tdiv_eq_ediv_of_nonneg (by omega)]
  obtain ⟨hdiv, hdivInt⟩ := Checked.divWords_ok (a := stamp - now + 999) (b := 1000) (by decide)
    (by rw [hquot]; exact ⟨by omega, by omega⟩)
  rw [hquot] at hdivInt
  have hpositive : stamp - now > 0 := by
    rw [gt_iff_lt, Int64.lt_iff_toInt_lt, hsubInt, zero_toInt]
    omega
  refine ⟨hsub, hpositive, ?_, ?_⟩
  · rw [secondsChecked, hadd, Checked.ok_bind, hdiv]
  · rw [hdivInt]
    omega

/-! ## Giving a key a lifetime -/

/-- The commands that give `key` a lifetime of `amount` units of `unit`
milliseconds at clock reading `now`: the key then holds `value`, and `out` is
the reply if it is accepted. -/
inductive Grants (s : Store) (now : Int64) (key value : Bytes) (amount : Int64) :
    Command → Int64 → Bytes → Prop
  | ex {raw option : Bytes} (hraw : normalizeName raw = some (text "set"))
      (hoption : normalizeName option = some (text "ex")) :
      Grants s now key value amount [raw, key, value, option, decimalInt amount.toInt] 1000
        (simpleString (text "OK"))
  | px {raw option : Bytes} (hraw : normalizeName raw = some (text "set"))
      (hoption : normalizeName option = some (text "px")) :
      Grants s now key value amount [raw, key, value, option, decimalInt amount.toInt] 1
        (simpleString (text "OK"))
  | expire {raw : Bytes} (hraw : normalizeName raw = some (text "expire")) {stamp : Int64}
      (hfound : s.lookup now key = some ⟨value, stamp⟩) :
      Grants s now key value amount [raw, key, decimalInt amount.toInt] 1000 (integerReply 1)

theorem parse_amount {amount : Int64} (h : 0 < amount) :
    parseInt64 (decimalInt amount.toInt) = some amount ∧ ¬amount ≤ 0 := by
  refine ⟨parse_of_canonical ?_, Int64.not_le.mpr h⟩
  rintro rfl
  exact absurd h (by decide)

section

variable {s : Store} {key value raw : Bytes} {amount : Int64} {env : Env} (hamount : 0 < amount)

include hamount

/-- A `SET` with a lifetime comes down to its deadline. -/
theorem execute_set_for (hraw : normalizeName raw = some (text "set")) {option name : Bytes}
    (hoption : normalizeName option = some name) (hname : name = text "ex" ∨ name = text "px") :
    execute [raw, key, value, option, decimalInt amount.toInt] s env =
      (deadlineFrom amount (if name = text "ex" then 1000 else 1) (env.clock 0).wall).elim
        (s.reply (errorReply (text "ERR invalid expire time in 'set' command")))
        (cmdSetTo [raw, key, value, option, decimalInt amount.toInt] s env.later) := by
  have hspec : dispatchTable.lookup (text "set") = some { handler := cmdSet, minArgs := 3 } := rfl
  have hexec : execute [raw, key, value, option, decimalInt amount.toInt] s env =
      cmdSet [raw, key, value, option, decimalInt amount.toInt] s env :=
    execute_handler [key, value, option, decimalInt amount.toInt] hraw hspec
      (show 3 ≤ 5 by decide) (fun n hn => by cases hn) s env
  obtain ⟨hparse, hpos⟩ := parse_amount hamount
  have hknown : ¬(name ≠ text "ex" ∧ name ≠ text "px") := by
    rintro ⟨hex, hpx⟩
    rcases hname with rfl | rfl
    · exact hex rfl
    · exact hpx rfl
  have hfive : [raw, key, value, option, decimalInt amount.toInt].length = 5 := rfl
  have hthird : Command.arg [raw, key, value, option, decimalInt amount.toInt] 3 = option := rfl
  have hfourth : Command.arg [raw, key, value, option, decimalInt amount.toInt] 4 =
      decimalInt amount.toInt := rfl
  rw [hexec, cmdSet, if_pos hfive]
  simp only [hthird, hfourth, hoption, hparse]
  rw [if_neg hknown, if_neg hpos]
  cases deadlineFrom amount (if name = text "ex" then 1000 else 1) (env.clock 0).wall with
  | none => rfl
  | some deadline => rfl

/-- So does an `EXPIRE`. -/
theorem execute_expire_for (hraw : normalizeName raw = some (text "expire")) :
    execute [raw, key, decimalInt amount.toInt] s env =
      (deadlineFrom amount 1000 (env.clock 0).wall).elim
        (s.reply (errorReply (text "ERR invalid expire time in 'expire' command")))
        (cmdExpireAt [raw, key, decimalInt amount.toInt] s env.later) := by
  have hspec : dispatchTable.lookup (text "expire") =
      some { handler := cmdExpire, minArgs := 3, maxArgs := some 3 } := rfl
  have hexec : execute [raw, key, decimalInt amount.toInt] s env =
      cmdExpire [raw, key, decimalInt amount.toInt] s env :=
    execute_handler [key, decimalInt amount.toInt] hraw hspec (Nat.le_refl 3)
      (fun n hn => by cases hn; exact Nat.le_refl 3) s env
  obtain ⟨hparse, hpos⟩ := parse_amount hamount
  have hsecond : Command.arg [raw, key, decimalInt amount.toInt] 2 = decimalInt amount.toInt := rfl
  rw [hexec, cmdExpire]
  simp only [hsecond, hparse]
  rw [if_neg hpos]
  cases deadlineFrom amount 1000 (env.clock 0).wall with
  | none => rfl
  | some deadline => rfl

end

section

variable {s : Store} {now : Int64} {key value : Bytes} {amount unit : Int64} {cmd : Command}
  {out : Bytes} {env : Env} (h : Grants s now key value amount cmd unit out)
  (hamount : 0 < amount) (hclock : ∀ n, (env.clock n).wall = now)

include h

theorem Grants.unit_pos : 0 < unit := by
  cases h with
  | ex _ _ => decide
  | px _ _ => decide
  | expire _ _ => decide

include hamount hclock

theorem Grants.refused (hnone : deadlineFrom amount unit now = none) :
    ∃ msg, execute cmd s env = s.reply (errorReply msg) := by
  cases h with
  | ex hraw hoption =>
      rw [execute_set_for hamount hraw hoption (Or.inl rfl), hclock 0, if_pos rfl, hnone]
      exact ⟨_, rfl⟩
  | px hraw hoption =>
      rw [execute_set_for hamount hraw hoption (Or.inr rfl), hclock 0, if_neg (by decide), hnone]
      exact ⟨_, rfl⟩
  | expire hraw hfound =>
      rw [execute_expire_for hamount hraw, hclock 0, hnone]
      exact ⟨_, rfl⟩

/-- An accepted lifetime is in the map, under the deadline. -/
theorem Grants.accepted (hs : s.Sane) (hfits : cmd.Fits) (hlog : env.log = {}) {stamp : Int64}
    (hsome : deadlineFrom amount unit now = some stamp) :
    (execute cmd s env).ret = out ∧ (execute cmd s env).store.Sane ∧
      ∃ m : RefMap, (execute cmd s env).store.Refines now m ∧ m key = some ⟨value, stamp⟩ := by
  obtain ⟨m, hm⟩ := s.exists_refines now
  have hlater : env.later.log = {} := hlog
  have hset : m.set key value stamp key = some ⟨value, stamp⟩ := if_pos rfl
  cases h with
  | ex hraw hoption =>
      rw [execute_set_for hamount hraw hoption (Or.inl rfl), hclock 0, if_pos rfl, hsome]
      obtain ⟨hret, hsane, href⟩ := Store.set_refines hs hm (hfits.arg 1) (hfits.arg 2) stamp hlater
      exact ⟨if_pos hret, hsane, _, href, hset⟩
  | px hraw hoption =>
      rw [execute_set_for hamount hraw hoption (Or.inr rfl), hclock 0, if_neg (by decide), hsome]
      obtain ⟨hret, hsane, href⟩ := Store.set_refines hs hm (hfits.arg 1) (hfits.arg 2) stamp hlater
      exact ⟨if_pos hret, hsane, _, href, hset⟩
  | @expire raw hraw stamp' hfound =>
      rw [execute_expire_for hamount hraw, hclock 0, hsome]
      have hnow : now ≤ (env.later.clock 0).wall := by
        show now ≤ (env.clock 1).wall
        rw [hclock 1]
      obtain ⟨hret, hsane, href⟩ := Store.expire_refines hs hm (hfits.arg 1) stamp hlater hnow
      have hlookup : m.lookup (env.later.clock 0).wall key = some ⟨value, stamp'⟩ := by
        show m.lookup (env.clock 1).wall key = _
        rw [hclock 1, ← hm.lookup (le_refl now), hfound]
      have hcall : m.call env.later (.expire key stamp) =
          (m.set key value stamp, some (.expire ⟨true, true⟩)) := by
        rw [RefMap.call, hlookup]
      have hdone : (s.expire key stamp env.later).ret = ⟨true, true⟩ :=
        Reply.expire.inj (Option.some.inj (hret.trans (congrArg Prod.snd hcall)))
      refine ⟨?_, hsane, _, href, ?_⟩
      · show expireAnswer (.expire (s.expire key stamp env.later).ret) = _
        rw [hdone]
        rfl
      · show (m.call env.later (.expire key stamp)).1 key = _
        rw [hcall]
        exact hset

end

/-! ## Living with it -/

/-- What a key with stamp `stamp` is at clock reading `t`: there exactly until
the stamp, with the seconds left, rounded up, as the answer of `TTL`, and no
overflow in `Store::ttl` or `cmd_ttl`. -/
structure LivesUntil (s : Store) (key value : Bytes) (stamp t : Int64) : Prop where
  visible : s.lookup t key = if t < stamp then some ⟨value, stamp⟩ else none
  remaining : s.ttlChecked t t key = .ok (s.ttl t t key)
  rounding : secondsChecked (s.ttl t t key).remainingMs =
    .ok (((s.ttl t t key).remainingMs + 999) / 1000)
  ttl : t < stamp → ∃ n : Int, 1 ≤ n ∧ 1000 * (n - 1) < stamp.toInt - t.toInt ∧
    stamp.toInt - t.toInt ≤ 1000 * n ∧
    ∀ (raw : Bytes) (env : Env), normalizeName raw = some (text "ttl") →
      (∀ k, (env.clock k).wall = t) → (execute [raw, key] s env).ret = integerReply n

/-- A stamp that is not zero hides its key from the moment it names. -/
theorem expired_iff {stamp t : Int64} (h : stamp ≠ 0) : expired stamp t = true ↔ ¬t < stamp := by
  rw [expired, Bool.and_eq_true, bne_iff_ne, decide_eq_true_eq, Int64.not_lt]
  exact and_iff_right h

theorem execute_ttl {raw : Bytes} (hraw : normalizeName raw = some (text "ttl")) (key : Bytes)
    (s : Store) (env : Env) : execute [raw, key] s env = cmdTtl [raw, key] s env := by
  have hspec : dispatchTable.lookup (text "ttl") =
      some { handler := cmdTtl, minArgs := 2, maxArgs := some 2 } := rfl
  exact execute_handler [key] hraw hspec (Nat.le_refl 2)
    (fun n hn => by cases hn; exact Nat.le_refl 2) s env

theorem livesUntil_of_map {s : Store} {m : RefMap} {t : Int64} (href : s.Refines t m)
    {key value : Bytes} {stamp : Int64} (hkey : m key = some ⟨value, stamp⟩) (hstamp : stamp ≠ 0)
    (ht : 1000 ≤ t) : LivesUntil s key value stamp t := by
  have hvisible : s.lookup t key = if t < stamp then some ⟨value, stamp⟩ else none := by
    rw [href.lookup (le_refl t), RefMap.lookup, hkey, Option.bind_some]
    by_cases hlt : t < stamp
    · rw [if_pos hlt, if_neg (fun hexpired => (expired_iff hstamp).mp hexpired hlt)]
    · rw [if_neg hlt, if_pos ((expired_iff hstamp).mpr hlt)]
  by_cases hlt : t < stamp
  · have hlookup := hvisible.trans (if_pos hlt)
    obtain ⟨hsub, hpositive, hseconds, hone, hlow, hhigh⟩ := seconds_spec ht hlt
    have httl : s.ttl t t key =
        { isThere := true, hasExpiry := true, remainingMs := stamp - t } := by
      rw [Store.ttl, hlookup]
      simp only []
      rw [if_neg hstamp, if_pos hpositive]
    refine ⟨hvisible, ?_, ?_, fun _ => ⟨_, hone, hlow, hhigh, fun raw env hraw hclock => ?_⟩⟩
    · rw [Store.ttlChecked, hlookup, httl]
      simp only []
      rw [if_neg hstamp, hsub, Checked.ok_bind, if_pos hpositive]
      rfl
    · rw [httl]
      exact hseconds
    · have hanswer : (cmdTtl [raw, key] s env).ret =
          if !(s.ttl (env.clock 0).wall (env.clock 1).wall key).isThere then integerReply (-2)
          else if !(s.ttl (env.clock 0).wall (env.clock 1).wall key).hasExpiry then
            integerReply (-1)
          else integerReply (((s.ttl (env.clock 0).wall (env.clock 1).wall key).remainingMs + 999)
            / 1000).toInt := rfl
      rw [execute_ttl hraw, hanswer, hclock 0, hclock 1, httl]
      rfl
  · have hlookup := hvisible.trans (if_neg hlt)
    have httl : s.ttl t t key = {} := by
      rw [Store.ttl, hlookup]
    refine ⟨hvisible, ?_, ?_, fun h => absurd h hlt⟩
    · rw [Store.ttlChecked, hlookup, httl]
      rfl
    · rw [httl]
      decide

/-- Lifetimes are exact and never wrap. At clock reading `now`, a second or
more past the origin, a positive lifetime is accepted exactly when its deadline
fits an `int64_t`; otherwise nothing changes. The stamp is that deadline, and
whatever flushes, sweeps, merges and commands that leave the key alone follow
up to a reading `t`, the key then lives until the stamp. -/
theorem lifetimes_exact (e : Engine) (hs : e.store.Sane) (now amount : Int64) (hnow : 1000 ≤ now)
    (hamount : 0 < amount) (key value : Bytes) (cmd : Command) (unit : Int64) (out : Bytes)
    (hgrants : Grants e.store now key value amount cmd unit out) (hfits : cmd.Fits) (env : Env)
    (hclock : ∀ n, (env.clock n).wall = now) (hlog : env.log = {}) :
    deadlineFromChecked amount unit now = .ok (deadlineFrom amount unit now) ∧
      (2 ^ 63 - 1 < now.toInt + amount.toInt * unit.toInt →
        IsError (execute cmd e.store env).ret ∧ (execute cmd e.store env).store = e.store ∧
          (execute cmd e.store env).events = []) ∧
      (now.toInt + amount.toInt * unit.toInt ≤ 2 ^ 63 - 1 →
        (execute cmd e.store env).ret = out ∧
          ∃ stamp : Int64, stamp.toInt = now.toInt + amount.toInt * unit.toInt ∧ stamp ≠ 0 ∧
            ∀ (acts : List Happening) (t : Int64), Paced now acts t →
              (∀ h ∈ acts, h.1.Leaves key ∧ h.1.Fits ∧ h.2.log = {}) →
              LivesUntil (((execute cmd e.store env).engine e.disk).happenAll acts).store
                key value stamp t) := by
  have hnonneg : 0 ≤ now := le_trans (by decide) hnow
  obtain ⟨hchecked, hrefused, haccepted⟩ := deadlineFrom_spec hamount hgrants.unit_pos hnonneg
  refine ⟨hchecked, fun hover => ?_, fun hroom => ?_⟩
  · obtain ⟨msg, hmsg⟩ := hgrants.refused hamount hclock (hrefused hover)
    rw [hmsg]
    exact ⟨rfl, rfl, rfl⟩
  · obtain ⟨stamp, hsome, hstamp, hne⟩ := haccepted hroom
    obtain ⟨hret, hsane, m, href, hkey⟩ := hgrants.accepted hamount hclock hs hfits hlog hsome
    refine ⟨hret, stamp, hstamp, hne, fun acts t hpaced hall => ?_⟩
    obtain ⟨_, m', href', hsame⟩ := Engine.happenAll_refines acts
      (e := (execute cmd e.store env).engine e.disk) hsane href hpaced hall
    exact livesUntil_of_map href' (hsame.trans hkey) hne (le_trans hnow hpaced.le)

/-- A second for a key, with a sweep and a merge on the way: it shows until the
millisecond it ends. A deadline just out of range is refused. -/
theorem lifetimes_exact_second :
    let e : Engine := ⟨Store.fresh { memtableLimitBytes := 0 } (some {}), {}⟩
    let acts : List Happening := [(.sweepExpired 5, Env.at 1200), (.maybeCompact, Env.at 1300)]
    let o := execute [text "SET", text "k", text "v", text "EX", text "1"] e.store (Env.at 1000)
    let s := ((o.engine e.disk).happenAll acts).store
    s.lookup 1999 (text "k") = some ⟨text "v", 2000⟩ ∧ s.lookup 2000 (text "k") = none ∧
      IsError (execute [text "set", text "k", text "v", text "px", text "9223372036854774808"]
        e.store (Env.at 1000)).ret := by
  intro e acts o s
  have hclock : ∀ n, ((Env.at 1000).clock n).wall = 1000 := fun _ => rfl
  have hshort : ∀ amount, amount ∈ [text "1", text "9223372036854774808"] →
      ∀ name ∈ [text "SET", text "set"], ∀ option ∈ [text "EX", text "px"],
        Command.Fits [name, text "k", text "v", option, amount] := by
    unfold Command.Fits
    decide
  have hall : ∀ h ∈ acts, h.1.Leaves (text "k") ∧ h.1.Fits ∧ h.2.log = {} := by
    intro h hh
    simp only [acts, List.mem_cons, List.not_mem_nil, or_false] at hh
    rcases hh with rfl | rfl
    · exact ⟨trivial, trivial, rfl⟩
    · exact ⟨trivial, trivial, rfl⟩
  have hpaced : ∀ t, 1300 ≤ t → Paced 1000 acts t := fun t ht =>
    .stand _ (by decide) (.stand _ (by decide) ht)
  obtain ⟨_, _, haccepted⟩ := lifetimes_exact e (Store.fresh_sane _ _) 1000 1 (by decide)
    (by decide) (text "k") (text "v") _ _ _ (.ex (by decide) (by decide))
    (hshort (text "1") (by decide) (text "SET") (by decide) (text "EX") (by decide))
    (Env.at 1000) hclock rfl
  obtain ⟨_, stamp, hstamp, _, hlives⟩ := haccepted (by decide)
  have hsecond : stamp = 2000 := Int64.toInt_inj.mp (hstamp.trans (by decide))
  rw [hsecond] at hlives
  obtain ⟨_, hrefused, _⟩ := lifetimes_exact e (Store.fresh_sane _ _) 1000 9223372036854774808
    (by decide) (by decide) (text "k") (text "v") _ _ _ (.px (by decide) (by decide))
    (hshort (text "9223372036854774808") (by decide) (text "set") (by decide) (text "px")
      (by decide))
    (Env.at 1000) hclock rfl
  exact ⟨(hlives acts 1999 (hpaced 1999 (by decide)) hall).visible.trans (by decide),
    (hlives acts 2000 (hpaced 2000 (by decide)) hall).visible.trans (by decide),
    (hrefused (by decide)).1⟩

end Cachedb
