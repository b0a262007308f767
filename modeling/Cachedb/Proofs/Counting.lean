import Cachedb.Proofs.Integers
import Cachedb.Proofs.Interleaving

/-!
# `INCR` counts

`cmd_incr` reads a key, wherever its newest copy lies, and writes one more
under the same stamp. What it wrote is a canonical text, so the next `INCR`
reads it back, whatever became of the copy in between. From a key that is not
there the replies of a run are therefore 1, 2, 3 and so on, as far as an
`int64_t` goes.
-/

namespace Cachedb

/-! ## One `INCR` -/

/-- What an `INCR` of `key` does to the store, at clock reading `now`. -/
structure Incremented (s : Store) (key : Bytes) (now : Int64) (o : Outcome Bytes) : Prop where
  absent : s.lookup now key = none →
    o.ret = integerReply 1 ∧ ∀ t, o.store.lookup t key = some ⟨text "1", 0⟩
  number : ∀ found v, s.lookup now key = some found → parseInt64 found.value = some v →
    v < kMax → o.ret = integerReply (v.toInt + 1) ∧
      ∀ t, o.store.lookup t key =
        if expired found.expiresAtMs t then none
        else some ⟨decimalInt (v.toInt + 1), found.expiresAtMs⟩
  refused : ∀ found, s.lookup now key = some found →
    (∀ v, parseInt64 found.value = some v → ¬v < kMax) →
    IsError o.ret ∧ o.store = s ∧ o.events = []
  others : ∀ t k, k ≠ key → o.store.lookup t k = s.lookup t k

theorem lt_kMax_iff {v : Int64} : v < kMax ↔ v.toInt + 1 < 2 ^ 63 := by
  rw [Int64.lt_iff_toInt_lt, kMax_toInt]
  omega

theorem ne_kMax {v : Int64} (h : v < kMax) : v ≠ kMax := by
  rintro rfl
  exact absurd h (by decide)

theorem lt_kMax {v : Int64} (h : v ≠ kMax) : v < kMax := by
  have hhi := v.toInt_lt
  have hne : v.toInt ≠ 2 ^ 63 - 1 :=
    fun heq => h (Int64.toInt_inj.mp (heq.trans kMax_toInt.symm))
  rw [lt_kMax_iff]
  omega

theorem succ_toInt {v : Int64} (h : v < kMax) : (v + 1).toInt = v.toInt + 1 := by
  have hlo := v.le_toInt
  have hhi := lt_kMax_iff.mp h
  have hone : (1 : Int64).toInt = 1 := rfl
  have hsum : Checked.Fits (v.toInt + (1 : Int64).toInt) := by
    rw [hone]
    exact ⟨by omega, hhi⟩
  rw [(Checked.addWords_ok hsum).2, hone]

theorem execute_incr {raw : Bytes} (hraw : normalizeName raw = some (text "incr")) (key : Bytes)
    (s : Store) (env : Env) : execute [raw, key] s env = cmdIncr [raw, key] s env := by
  have hspec : dispatchTable.lookup (text "incr") =
      some { handler := cmdIncr, minArgs := 2, maxArgs := some 2 } := rfl
  exact execute_handler [key] hraw hspec (Nat.le_refl 2)
    (fun n hn => by cases hn; exact Nat.le_refl 2) s env

section

variable {s : Store} {key : Bytes} {env : Env} (hs : s.Sane) (hkey : key.length < 2 ^ 32)
  (hlog : env.log = {}) (raw : Bytes)

include hs hkey hlog

/-- A number below the largest is written one higher. -/
theorem cmdIncrFrom_writes {v : Int64} (hv : v < kMax) (stamp : Int64) :
    (cmdIncrFrom [raw, key] s env v stamp).ret = integerReply (v.toInt + 1) ∧
      ∀ t m, s.Refines t m → (cmdIncrFrom [raw, key] s env v stamp).store.Sane ∧
        (cmdIncrFrom [raw, key] s env v stamp).store.Refines t
          (m.set key (decimalInt (v.toInt + 1)) stamp) := by
  rw [cmdIncrFrom, if_neg (ne_kMax hv)]
  simp only [succ_toInt hv]
  have hvalue : (decimalInt (v.toInt + 1)).length < 2 ^ 32 := by
    rw [← succ_toInt hv]
    exact Nat.lt_of_le_of_lt (decimalInt_length_le _) (by decide)
  constructor
  · obtain ⟨m, hm⟩ := s.exists_refines 0
    have hret := (Store.set_refines hs hm hkey hvalue stamp hlog).1
    show (if (s.set key _ stamp env).ret then _ else _) = _
    rw [if_pos hret]
  · intro t m hm
    exact (Store.set_refines hs hm hkey hvalue stamp hlog).2

/-- The write of an `INCR`, as lookups show it. -/
theorem cmdIncrFrom_lookup {v : Int64} (hv : v < kMax) (stamp t : Int64) (k : Bytes) :
    (cmdIncrFrom [raw, key] s env v stamp).store.lookup t k =
      if k = key then
        if expired stamp t then none else some ⟨decimalInt (v.toInt + 1), stamp⟩
      else s.lookup t k := by
  obtain ⟨m, hm⟩ := s.exists_refines t
  have href := ((cmdIncrFrom_writes hs hkey hlog raw hv stamp).2 t m hm).2
  rw [href.lookup (le_refl t), RefMap.lookup, RefMap.set]
  split
  · rfl
  · rw [hm.lookup (le_refl t), RefMap.lookup]

end

/-! The three ways of `cmd_incr`. -/

theorem arg_key (raw key : Bytes) : Command.arg [raw, key] 1 = key := rfl

section

variable {s : Store} {key raw : Bytes} {env : Env}
  (hraw : normalizeName raw = some (text "incr"))

include hraw

theorem execute_incr_absent (h : s.lookup (env.clock 0).wall key = none) :
    execute [raw, key] s env = cmdIncrFrom [raw, key] s env.later 0 0 := by
  rw [execute_incr hraw, cmdIncr]
  simp only [arg_key, h]

theorem execute_incr_number {found : Found} (h : s.lookup (env.clock 0).wall key = some found)
    {v : Int64} (hv : parseInt64 found.value = some v) :
    execute [raw, key] s env = cmdIncrFrom [raw, key] s env.later v found.expiresAtMs := by
  rw [execute_incr hraw, cmdIncr]
  simp only [arg_key, h, hv]

/-- What is no number, or has no successor, is refused. -/
theorem execute_incr_refused {found : Found} (h : s.lookup (env.clock 0).wall key = some found)
    (hv : ∀ v, parseInt64 found.value = some v → ¬v < kMax) :
    ∃ msg, execute [raw, key] s env = s.reply (errorReply msg) := by
  cases hparse : parseInt64 found.value with
  | none =>
      refine ⟨kNotAnInteger, ?_⟩
      rw [execute_incr hraw, cmdIncr]
      simp only [arg_key, h, hparse]
  | some v =>
      have hmax : v = kMax := by
        by_contra hne
        exact hv v hparse (lt_kMax hne)
      exact ⟨_, by rw [execute_incr_number hraw h hparse, cmdIncrFrom, if_pos hmax]⟩

end

/-- An `INCR` does what `Incremented` says. -/
theorem execute_incremented {s : Store} (hs : s.Sane) {key : Bytes} (hkey : key.length < 2 ^ 32)
    {raw : Bytes} (hraw : normalizeName raw = some (text "incr")) {env : Env}
    (hlog : env.log = {}) :
    Incremented s key (env.clock 0).wall (execute [raw, key] s env) := by
  have hlater : env.later.log = {} := hlog
  have hzero : (0 : Int64) < kMax := by decide
  constructor
  · intro habsent
    rw [execute_incr_absent hraw habsent]
    refine ⟨(cmdIncrFrom_writes hs hkey hlater raw hzero 0).1, fun t => ?_⟩
    rw [cmdIncrFrom_lookup hs hkey hlater raw hzero, if_pos rfl]
    rfl
  · intro found v hfound hparse hv
    rw [execute_incr_number hraw hfound hparse]
    refine ⟨(cmdIncrFrom_writes hs hkey hlater raw hv _).1, fun t => ?_⟩
    rw [cmdIncrFrom_lookup hs hkey hlater raw hv, if_pos rfl]
  · intro found hfound hall
    obtain ⟨msg, hmsg⟩ := execute_incr_refused hraw hfound hall
    rw [hmsg]
    exact ⟨rfl, rfl, rfl⟩
  · intro t k hk
    cases hfound : s.lookup (env.clock 0).wall key with
    | none =>
        rw [execute_incr_absent hraw hfound, cmdIncrFrom_lookup hs hkey hlater raw hzero,
          if_neg hk]
    | some found =>
        by_cases hv : ∃ v, parseInt64 found.value = some v ∧ v < kMax
        · obtain ⟨v, hparse, hlt⟩ := hv
          rw [execute_incr_number hraw hfound hparse, cmdIncrFrom_lookup hs hkey hlater raw hlt,
            if_neg hk]
        · obtain ⟨msg, hmsg⟩ := execute_incr_refused hraw hfound
            fun v hparse hlt => hv ⟨v, hparse, hlt⟩
          rw [hmsg]
          rfl

/-! ## Runs -/

/-- The act is an `INCR` of the key. -/
def Act.counts (key : Bytes) : Act → Bool
  | .execute [raw, arg] => normalizeName raw = some (text "incr") && arg = key
  | _ => false

/-- The replies to the `INCR`s of a key, in order. -/
def Engine.counted (key : Bytes) (e : Engine) : List Happening → List Bytes
  | [] => []
  | h :: hs =>
      if h.1.counts key then (e.act h.2 h.1).ret :: (e.happen h).counted key hs
      else (e.happen h).counted key hs

/-- The reply to the `i`-th `INCR`. -/
def countReply (i : Nat) : Bytes :=
  if i < 2 ^ 63 then integerReply i
  else errorReply (text "ERR increment or decrement would overflow")

/-- Where a counter stands after `i` `INCR`s: it stops at the largest value. -/
def counterAt (i : Nat) : Int64 := Int64.ofNat (min i (2 ^ 63 - 1))

/-- What is found under a key after `i` `INCR`s. -/
def countFound (i : Nat) : Option Found :=
  if i = 0 then none else some ⟨decimalInt (counterAt i).toInt, 0⟩

/-- From `now` on the key of the store is a counter that was incremented `i`
times. -/
def Store.CountsAt (s : Store) (key : Bytes) (now : Int64) (i : Nat) : Prop :=
  s.Sane ∧ ∃ m : RefMap, s.Refines now m ∧ ∀ t, now ≤ t → m.lookup t key = countFound i

theorem counts_iff {key : Bytes} {a : Act} : a.counts key = true ↔
    ∃ raw, a = .execute [raw, key] ∧ normalizeName raw = some (text "incr") := by
  constructor
  · intro h
    unfold Act.counts at h
    split at h
    · next raw arg =>
        rw [Bool.and_eq_true, decide_eq_true_eq, decide_eq_true_eq] at h
        exact ⟨raw, by rw [h.2], h.1⟩
    · cases h
  · rintro ⟨raw, rfl, hraw⟩
    rw [Act.counts, hraw]
    simp

theorem counterAt_toInt (i : Nat) : (counterAt i).toInt = min (i : Int) (2 ^ 63 - 1) := by
  rw [counterAt, Int64.toInt_ofNat_of_lt (by omega)]
  omega

theorem counterAt_lt_iff {i : Nat} : counterAt i < kMax ↔ i + 1 < 2 ^ 63 := by
  rw [lt_kMax_iff, counterAt_toInt]
  omega

theorem counterAt_succ {i : Nat} (h : counterAt i < kMax) :
    (counterAt (i + 1)).toInt = (counterAt i).toInt + 1 := by
  have hi := counterAt_lt_iff.mp h
  rw [counterAt_toInt, counterAt_toInt]
  omega

/-- Past the end of the range a counter stands still. -/
theorem counterAt_full {i : Nat} (h : ¬counterAt i < kMax) : counterAt (i + 1) = counterAt i := by
  rw [counterAt_lt_iff] at h
  apply Int64.toInt_inj.mp
  rw [counterAt_toInt, counterAt_toInt]
  omega

theorem parse_counterAt (i : Nat) :
    parseInt64 (decimalInt (counterAt i).toInt) = some (counterAt i) := by
  apply parse_of_canonical
  intro hmin
  have htoInt := counterAt_toInt i
  rw [hmin] at htoInt
  have hsmallest : Int64.minValue.toInt = -2 ^ 63 := by decide
  omega

section

variable {s : Store} {key : Bytes} {now upTo : Int64} {i : Nat} {env : Env}

/-- Whether there is a counter yet or not, an `INCR` goes on from where it
stands. -/
theorem Store.CountsAt.execute_incr (h : s.CountsAt key now i) {raw : Bytes}
    (hraw : normalizeName raw = some (text "incr")) (hclock : now ≤ (env.clock 0).wall) :
    execute [raw, key] s env = cmdIncrFrom [raw, key] s env.later (counterAt i) 0 := by
  obtain ⟨_, m, hm, hcount⟩ := h
  have hlookup := (hm.lookup hclock key).trans (hcount _ hclock)
  by_cases hi : i = 0
  · rw [countFound, if_pos hi] at hlookup
    rw [execute_incr_absent hraw hlookup, hi]
    rfl
  · rw [countFound, if_neg hi] at hlookup
    exact execute_incr_number hraw hlookup (parse_counterAt i)

/-- The step of the counter: one `INCR` more. -/
theorem Store.CountsAt.incr (h : s.CountsAt key now i) (hkey : key.length < 2 ^ 32) {raw : Bytes}
    (hraw : normalizeName raw = some (text "incr")) (hlog : env.log = {})
    (hclock : now ≤ (env.clock 0).wall) (hupTo : now ≤ upTo) :
    (execute [raw, key] s env).ret = countReply (i + 1) ∧
      (execute [raw, key] s env).store.CountsAt key upTo (i + 1) := by
  rw [h.execute_incr hraw hclock]
  obtain ⟨hs, m, hm, hcount⟩ := h
  have hlater : env.later.log = {} := hlog
  by_cases hv : counterAt i < kMax
  · obtain ⟨hret, hstore⟩ := cmdIncrFrom_writes hs hkey hlater raw hv 0
    obtain ⟨hsane, href⟩ := hstore now m hm
    rw [← counterAt_succ hv] at hret href
    have hi := counterAt_lt_iff.mp hv
    have hvalue : (counterAt (i + 1)).toInt = (i + 1 : Nat) := by
      rw [counterAt_toInt]
      omega
    refine ⟨?_, hsane, _, href.mono hupTo, fun t _ => ?_⟩
    · rw [hret, hvalue, countReply, if_pos hi]
    · rw [RefMap.lookup, RefMap.set, if_pos rfl, countFound, if_neg (Nat.succ_ne_zero i)]
      rfl
  · have hmax : counterAt i = kMax := by
      by_contra hne
      exact hv (lt_kMax hne)
    have hi : ¬i + 1 < 2 ^ 63 := fun hi => hv (counterAt_lt_iff.mpr hi)
    have hfound : countFound (i + 1) = countFound i := by
      rw [countFound, countFound, if_neg (Nat.succ_ne_zero i), if_neg (by omega),
        counterAt_full hv]
    rw [cmdIncrFrom, if_pos hmax, countReply, if_neg hi]
    refine ⟨rfl, hs, m, hm.mono hupTo, fun t ht => ?_⟩
    rw [hfound]
    exact hcount t (le_trans hupTo ht)

end

/-- The step of the counter: something else happens. -/
theorem Store.CountsAt.happen {e : Engine} {key : Bytes} {now upTo : Int64} {i : Nat}
    (h : e.store.CountsAt key now i) {act : Happening} (hleaves : act.1.Leaves key)
    (hfits : act.1.Fits) (hlog : act.2.log = {})
    (hclock : ∀ n, now ≤ (act.2.clock n).wall ∧ (act.2.clock n).wall ≤ upTo)
    (hupTo : now ≤ upTo) : (e.happen act).store.CountsAt key upTo i := by
  obtain ⟨hs, m, hm, hcount⟩ := h
  obtain ⟨hsane, m', hm', hkey⟩ :=
    (e.act_left act.2 hleaves hfits).refines hs hm hlog hclock hupTo
  refine ⟨hsane, m', hm', fun t ht => ?_⟩
  rw [RefMap.lookup, hkey]
  exact hcount t (le_trans hupTo ht)

/-- From a counter that was incremented `i` times, the replies go on counting. -/
theorem Engine.counted_from {key : Bytes} (hkey : key.length < 2 ^ 32) {last : Int64} :
    ∀ (acts : List Happening) {e : Engine} {now : Int64} {i : Nat},
      e.store.CountsAt key now i → Paced now acts last →
      (∀ h ∈ acts, (h.1.counts key = true ∨ h.1.Leaves key ∧ h.1.Fits) ∧ h.2.log = {}) →
      e.counted key acts =
        (List.range (acts.countP fun h => h.1.counts key)).map fun k => countReply (i + k + 1) := by
  intro acts
  induction acts with
  | nil => intro e now i _ _ _; rfl
  | cons h acts ih =>
      intro e now i hat hpaced hall
      obtain ⟨upTo, hclock, hupTo, hrest⟩ := hpaced
      obtain ⟨hkind, hlog⟩ := hall h List.mem_cons_self
      have htail := fun h' (hh' : h' ∈ acts) => hall h' (List.mem_cons_of_mem _ hh')
      rw [Engine.counted, List.countP_cons]
      by_cases hcounts : h.1.counts key = true
      · obtain ⟨raw, hact, hraw⟩ := counts_iff.mp hcounts
        obtain ⟨hret, hnext⟩ := hat.incr hkey hraw hlog (hclock 0).1 hupTo
        have hengine : (e.happen h).store.CountsAt key upTo (i + 1) := by
          rw [Engine.happen, hact]
          exact hnext
        rw [if_pos hcounts, if_pos hcounts, List.range_succ_eq_map, List.map_cons, List.map_map,
          ih hengine hrest htail, hact]
        refine congr (congrArg List.cons hret) (List.map_congr_left fun k _ => ?_)
        show countReply (i + 1 + k + 1) = countReply (i + (k + 1) + 1)
        congr 2
        omega
      · rcases hkind with hyes | ⟨hleaves, hfits⟩
        · exact absurd hyes hcounts
        · rw [if_neg hcounts, if_neg hcounts, Nat.add_zero]
          exact ih (hat.happen hleaves hfits hlog hclock hupTo) hrest htail

/-- A key that is hidden stays hidden. -/
theorem Store.lookup_none_mono {s : Store} {now t : Int64} {key : Bytes}
    (h : s.lookup now key = none) (ht : now ≤ t) : s.lookup t key = none := by
  rw [Store.lookup] at h ⊢
  cases hfind : s.find key with
  | none => rfl
  | some e =>
      rw [hfind, Option.bind_some] at h
      rw [Option.bind_some, Entry.view]
      rw [Entry.view] at h
      split at h
      · next htomb => rw [if_pos htomb]
      · next htomb =>
          rw [if_neg htomb]
          split at h
          · next hexpired => rw [if_pos (expired_mono hexpired ht)]
          · cases h

/-- `INCR` counts without losing the lifetime. On every store, an `INCR` starts
an absent key at 1, writes one more with the same stamp over a number that has
a successor, refuses everything else without a trace, and touches no other
key. So from an absent key the `INCR`s of a run, among flushes, sweeps, merges
and commands that leave the key alone, are answered 1, 2, 3 and so on. -/
theorem incr_counts (e : Engine) (hs : e.store.Sane) (key : Bytes) (hkey : key.length < 2 ^ 32) :
    (∀ (raw : Bytes) (env : Env), normalizeName raw = some (text "incr") → env.log = {} →
        Incremented e.store key (env.clock 0).wall (execute [raw, key] e.store env)) ∧
      ∀ (now last : Int64) (acts : List Happening), e.store.lookup now key = none →
        Paced now acts last →
        (∀ h ∈ acts, (h.1.counts key = true ∨ h.1.Leaves key ∧ h.1.Fits) ∧ h.2.log = {}) →
        e.counted key acts =
          (List.range (acts.countP fun h => h.1.counts key)).map fun k => countReply (k + 1) := by
  refine ⟨fun raw env hraw hlog => execute_incremented hs hkey hraw hlog,
    fun now last acts habsent hpaced hall => ?_⟩
  obtain ⟨m, hm⟩ := e.store.exists_refines now
  have hat : e.store.CountsAt key now 0 := by
    refine ⟨hs, m, hm, fun t ht => ?_⟩
    rw [← hm.lookup ht]
    exact Store.lookup_none_mono habsent ht
  rw [Engine.counted_from hkey acts hat hpaced hall]
  simp only [Nat.zero_add]

/-- Three `INCR`s, in any case, with a sweep, another key and a merge in
between; every write is flushed. -/
theorem incr_counts_three :
    let e : Engine := ⟨Store.fresh { memtableLimitBytes := 0 } (some {}), {}⟩
    let acts : List Happening := [
      (.execute [text "INCR", text "k"], Env.at 1), (.sweepExpired 5, Env.at 2),
      (.execute [text "set", text "other", text "k"], Env.at 3),
      (.execute [text "incr", text "k"], Env.at 4), (.maybeCompact, Env.at 5),
      (.execute [text "Incr", text "k"], Env.at 6)]
    e.counted (text "k") acts = [integerReply 1, integerReply 2, integerReply 3] ∧
      Incremented e.store (text "k") 1 (execute [text "INCR", text "k"] e.store (Env.at 1)) := by
  intro e acts
  have hpaced : Paced 0 acts 6 :=
    .stand _ (by decide) (.stand _ (by decide) (.stand _ (by decide) (.stand _ (by decide)
      (.stand _ (by decide) (.stand _ (by decide) (le_refl (6 : Int64)))))))
  have hall : ∀ h ∈ acts, (h.1.counts (text "k") = true ∨ h.1.Leaves (text "k") ∧ h.1.Fits) ∧
      h.2.log = {} := by
    intro h hh
    simp only [acts, List.mem_cons, List.not_mem_nil, or_false] at hh
    rcases hh with rfl | rfl | rfl | rfl | rfl | rfl
    · exact ⟨Or.inl (by decide), rfl⟩
    · exact ⟨Or.inr ⟨trivial, trivial⟩, rfl⟩
    · refine ⟨Or.inr ⟨⟨by decide, by decide⟩, ?_⟩, rfl⟩
      show ∀ arg ∈ [text "set", text "other", text "k"], arg.length < 2 ^ 32
      decide
    · exact ⟨Or.inl (by decide), rfl⟩
    · exact ⟨Or.inr ⟨trivial, trivial⟩, rfl⟩
    · exact ⟨Or.inl (by decide), rfl⟩
  obtain ⟨hone, hrun⟩ := incr_counts e (Store.fresh_sane _ _) (text "k") (by decide)
  exact ⟨(hrun 0 6 acts rfl hpaced hall).trans (by decide), hone _ (Env.at 1) (by decide) rfl⟩

end Cachedb
