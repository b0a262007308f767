import Mathlib.Data.List.Dedup
import Cachedb.Proofs.Recency

/-!
# Deleting many keys is deleting each of them

`del_many` logs its whole batch before it looks at the first key and may flush
once at the end; a `del` after another looks, logs, applies and may flush for
each. Both are calls of the reference map, and there they do the same: each key
is looked up and forgotten in turn. A key that comes twice is gone the second
time, so what is counted is the distinct keys that were visible.
-/

namespace Cachedb

/-- One `del` after the other, each in its own surroundings. -/
def delSteps : List Bytes → (Nat → Env) → List Step
  | [], _ => []
  | key :: keys, envs => (.del key, envs 0) :: delSteps keys fun n => envs (n + 1)

/-- The answer of a `del` that found its key. -/
def Reply.wasLive : Reply → Bool
  | .del r => r.wasLive
  | _ => false

/-! ## The steps of a sequence -/

theorem mem_delSteps {keys : List Bytes} : ∀ {envs : Nat → Env} {step : Step},
    step ∈ delSteps keys envs → ∃ key ∈ keys, ∃ i, step = (.del key, envs i) := by
  induction keys with
  | nil => intro envs step h; cases h
  | cons key keys ih =>
      intro envs step h
      rcases List.mem_cons.mp h with rfl | h
      · exact ⟨key, List.mem_cons_self, 0, rfl⟩
      · obtain ⟨key', hkey', i, rfl⟩ := ih h
        exact ⟨key', List.mem_cons_of_mem _ hkey', i + 1, rfl⟩

theorem timely_delSteps {t : Int64} (keys : List Bytes) : ∀ {envs : Nat → Env},
    (∀ i n, ((envs i).clock n).wall = t) → Timely t (delSteps keys envs) t := by
  induction keys with
  | nil => intro envs _; exact le_refl t
  | cons key keys ih =>
      intro envs hclock
      refine ⟨t, fun n => ?_, le_refl t, ih fun i n => hclock (i + 1) n⟩
      show t ≤ ((envs 0).clock n).wall ∧ ((envs 0).clock n).wall ≤ t
      rw [hclock 0 n]
      exact ⟨le_refl t, le_refl t⟩

/-! ## On the map -/

namespace RefMap

theorem lookup_erase (m : RefMap) (t : Int64) (key k : Bytes) :
    (m.erase key).lookup t k = if k = key then none else m.lookup t k := by
  rw [lookup, erase]
  split
  · rfl
  · rfl

/-- What is visible in a list without repetitions, with and without a key. -/
theorem countP_erase (m : RefMap) (t : Int64) (key : Bytes) {keys : List Bytes}
    (hnodup : keys.Nodup) :
    keys.countP (fun k => (m.lookup t k).isSome) =
      keys.countP (fun k => ((m.erase key).lookup t k).isSome) +
        if key ∈ keys then (m.lookup t key).isSome.toNat else 0 := by
  induction keys with
  | nil => rfl
  | cons k keys ih =>
      obtain ⟨hk, hrest⟩ := List.nodup_cons.mp hnodup
      have ih := ih hrest
      rw [List.countP_cons, List.countP_cons, ih, lookup_erase]
      by_cases hkey : k = key
      · subst hkey
        rw [if_neg hk, if_pos rfl, if_pos List.mem_cons_self]
        cases (m.lookup t k).isSome <;> rfl
      · have hmem : key ∈ k :: keys ↔ key ∈ keys := by
          rw [List.mem_cons]
          exact or_iff_right (Ne.symm hkey)
        rw [if_neg hkey]
        simp only [hmem]
        omega

/-- While the clock stands still, each visible key is counted once. -/
theorem eraseAll_count {t : Int64} (keys : List Bytes) : ∀ (m : RefMap) {clock : Nat → Reading},
    (∀ n, (clock n).wall = t) →
    (m.eraseAll clock keys).1 = keys.dedup.countP fun key => (m.lookup t key).isSome := by
  induction keys with
  | nil => intro m clock _; rfl
  | cons key keys ih =>
      intro m clock hclock
      have hrest := ih (m.erase key) fun n => hclock (n + 1)
      have hsplit := m.countP_erase t key (keys.nodup_dedup)
      rw [eraseAll]
      simp only [hclock 0, hrest]
      by_cases hmem : key ∈ keys
      · rw [List.dedup_cons_of_mem hmem, hsplit, if_pos (List.mem_dedup.mpr hmem)]
      · rw [List.dedup_cons_of_notMem hmem, List.countP_cons, hsplit,
          if_neg (fun h => hmem (List.mem_dedup.mp h)), Nat.add_zero]
        cases (m.lookup t key).isSome <;> rfl

/-- The sequence makes of the map what the batch makes of it. -/
theorem run_delSteps (keys : List Bytes) : ∀ (m : RefMap) (clock : Nat → Reading)
    (envs : Nat → Env), m.run (delSteps keys envs) = (m.eraseAll clock keys).2 := by
  induction keys with
  | nil => intro m clock envs; rfl
  | cons key keys ih => intro m clock envs; exact ih (m.erase key) _ _

/-- It finds as many keys. -/
theorem replies_delSteps {t : Int64} (keys : List Bytes) : ∀ (m : RefMap)
    {clock : Nat → Reading} {envs : Nat → Env}, (∀ n, (clock n).wall = t) →
    (∀ i n, ((envs i).clock n).wall = t) →
    (m.replies (delSteps keys envs)).countP (fun r => r.any Reply.wasLive) =
      (m.eraseAll clock keys).1 := by
  induction keys with
  | nil => intro m clock envs _ _; rfl
  | cons key keys ih =>
      intro m clock envs hclock henvs
      have hrest := ih (m.erase key) (fun n => hclock (n + 1)) fun i n => henvs (i + 1) n
      rw [delSteps, replies, List.countP_cons, eraseAll]
      simp only [hclock 0]
      show List.countP _ ((m.erase key).replies _) + _ = _
      rw [hrest]
      show _ + (if (m.lookup ((envs 0).clock 0).wall key).isSome = true then 1 else 0) = _
      rw [henvs 0 0]
      cases (m.lookup t key).isSome <;> rfl

end RefMap

/-! ## On the store -/

theorem Reply.wasLive_visible (r : Reply) : r.visible.any Reply.wasLive = r.wasLive := by
  cases r <;> rfl

/-- A restart shows what the store showed. -/
theorem Engine.Backed.restart {t : Int64} {e : Engine} (hb : e.Backed t) (cfg : Config)
    (hdir : cfg.options.hasDir = true) (boot : Reading) :
    ∃ o, startup cfg e.disk boot = some o ∧
      ∀ t', t ≤ t' → ∀ key, o.store.lookup t' key = e.store.lookup t' key := by
  obtain ⟨o, ho, hstarted⟩ := startup_spec hb.kept.files cfg hdir boot
  refine ⟨o, ho, fun t' ht' key => ?_⟩
  rw [Store.lookup, hstarted.find key]
  exact hb.find key t' ht'

section

variable {t : Int64} {keys : List Bytes} {envs : Nat → Env}
  (hkeys : ∀ key ∈ keys, key.length < 2 ^ 32) (henvs : ∀ i n, ((envs i).clock n).wall = t)
  (hlogs : ∀ i, (envs i).log = {})

include hkeys hlogs

theorem delSteps_fit :
    ∀ step ∈ delSteps keys envs, step.1.Fits ∧ step.1.Plain ∧ step.2.log = {} := by
  intro step hstep
  obtain ⟨key, hkey, i, rfl⟩ := mem_delSteps hstep
  exact ⟨hkeys key hkey, ⟨Call.noConfusion, Call.noConfusion⟩, hlogs i⟩

include henvs

/-- The sequence on a store that agrees with a map. -/
theorem Engine.dels_refine {e : Engine} (hs : e.store.Sane) {m : RefMap}
    (hm : e.store.Refines t m) {clock : Nat → Reading} (hclock : ∀ n, (clock n).wall = t) :
    (e.replies (delSteps keys envs)).countP Reply.wasLive = (m.eraseAll clock keys).1 ∧
      (e.run (delSteps keys envs)).store.Refines t (m.eraseAll clock keys).2 := by
  have hsteps : ∀ step ∈ delSteps keys envs, step.1.Fits ∧ Step.Succeeds step := by
    intro step hstep
    obtain ⟨hfits, hplain, hlog⟩ := delSteps_fit hkeys hlogs step hstep
    exact ⟨hfits, hlog, fun h => absurd h hplain.2⟩
  obtain ⟨hreplies, _, href⟩ :=
    Engine.run_refines (delSteps keys envs) hs hm (timely_delSteps keys henvs) hsteps
  rw [m.run_delSteps keys clock envs] at href
  refine ⟨?_, href⟩
  rw [← m.replies_delSteps keys hclock henvs, ← hreplies, List.countP_map]
  congr 1
  funext r
  exact r.wasLive_visible.symm

end

/-- A multi-key `DEL` is the sequence of its single ones. With the clock at
`t` and a log that takes what it is given, `del_many` counts the distinct keys
that were visible, and so do the answers of one `del` after the other. From
then on every lookup gives the same on both ways, and if no system call has
failed before either and the numbers of the tables have not run out, also after
a restart. -/
theorem del_many_is_dels (e : Engine) (hs : e.store.Sane) (keys : List Bytes)
    (hkeys : ∀ key ∈ keys, key.length < 2 ^ 32) (t : Int64) (env : Env) (envs : Nat → Env)
    (hclock : ∀ n, (env.clock n).wall = t) (henvs : ∀ i n, ((envs i).clock n).wall = t)
    (hlog : env.log = {}) (hlogs : ∀ i, (envs i).log = {}) :
    let batch := e.step (.delMany keys, env)
    let single := e.run (delSteps keys envs)
    let visible := keys.dedup.countP fun key => (e.store.lookup t key).isSome
    (e.store.delMany keys env).ret = ⟨true, visible⟩ ∧
      (e.replies (delSteps keys envs)).countP Reply.wasLive = visible ∧
      (∀ t', t ≤ t' → ∀ key, batch.store.lookup t' key = single.store.lookup t' key) ∧
      (e.Reached t → NumbersLeft (e.outcome (.delMany keys, env)).events →
        NumbersLeft (e.events (delSteps keys envs)) →
        ∀ (cfg : Config) (boot : Reading), cfg.options.hasDir = true →
        ∃ o o', startup cfg batch.disk boot = some o ∧ startup cfg single.disk boot = some o' ∧
          ∀ t', t ≤ t' → ∀ key, o.store.lookup t' key = o'.store.lookup t' key) := by
  intro batch single visible
  obtain ⟨m, hm⟩ := e.store.exists_refines t
  have hlater : ∀ n, (env.later.clock n).wall = t := fun n => hclock (n + 1)
  have hvisible : (m.eraseAll env.later.clock keys).1 = visible := by
    rw [m.eraseAll_count keys hlater]
    congr 1
    funext key
    rw [hm.lookup (le_refl t)]
  obtain ⟨hret, _, hbatch⟩ :=
    Store.delMany_refines hs hm hkeys hlog fun n => le_of_eq (hclock n).symm
  obtain ⟨hcount, hsingle⟩ := Engine.dels_refine hkeys henvs hlogs hs hm hlater
  have hsame : ∀ t', t ≤ t' → ∀ key, batch.store.lookup t' key = single.store.lookup t' key := by
    intro t' ht' key
    rw [hsingle.lookup ht']
    exact hbatch.lookup ht' key
  refine ⟨by rw [hret, hvisible], by rw [hcount, hvisible], hsame,
    fun hreached hleft hlefts cfg boot hdir => ?_⟩
  have hb := hreached.inOrder.backed
  have hfits : Call.Fits (.delMany keys) := hkeys
  have hbatchBacked : batch.Backed t :=
    hb.plain hfits ⟨Call.noConfusion, Call.noConfusion⟩ hlog (fun n => le_of_eq (hclock n)) hleft
  have hsingleBacked : single.Backed t :=
    (Engine.Backed.run (delSteps keys envs) hb hm (timely_delSteps keys henvs)
      (delSteps_fit hkeys hlogs) hlefts).1
  obtain ⟨o, ho, hshows⟩ := hbatchBacked.restart cfg hdir boot
  obtain ⟨o', ho', hshows'⟩ := hsingleBacked.restart cfg hdir boot
  refine ⟨o, o', ho, ho', fun t' ht' key => ?_⟩
  rw [hshows t' ht' key, hshows' t' ht' key]
  exact hsame t' ht' key

/-- A key in a table, one whose stamp has passed, and one that never was. -/
def threeSorts : Engine :=
  ((freshStart { options := { memtableLimitBytes := 0 } }).engine {}).run
    [(.set [1] [7] 0, Env.at 1), (.set [2] [8] 5, Env.at 2)]

/-- Only the first counts, and once. -/
theorem del_many_is_dels_three :
    threeSorts.Reached 9 ∧
      (threeSorts.store.delMany [[1], [2], [1], [3]] (Env.at 9)).ret = ⟨true, 1⟩ ∧
      (threeSorts.replies (delSteps [[1], [2], [1], [3]] fun _ => Env.at 9)).countP
        Reply.wasLive = 1 ∧
      ∃ o o', startup {} (threeSorts.step (.delMany [[1], [2], [1], [3]], Env.at 9)).disk {} =
          some o ∧
        startup {} (threeSorts.run (delSteps [[1], [2], [1], [3]] fun _ => Env.at 9)).disk {} =
          some o' ∧
        ∀ t, 9 ≤ t → ∀ key, o.store.lookup t key = o'.store.lookup t key := by
  have hreached : threeSorts.Reached 9 := by
    refine Engine.Reached.run _ (.first _ rfl {} _ (startup_empty rfl)) (fun step hstep => ?_)
      (by decide +kernel)
    simp only [List.mem_cons, List.not_mem_nil, or_false] at hstep
    rcases hstep with rfl | rfl
    · exact ⟨by simp [Call.Fits], Env.at_le (by decide)⟩
    · exact ⟨by simp [Call.Fits], Env.at_le (by decide)⟩
  have hcount : ([[1], [2], [1], [3]] : List Bytes).dedup.countP
      (fun key => (threeSorts.store.lookup 9 key).isSome) = 1 := by decide +kernel
  obtain ⟨hret, hlive, _, hrestart⟩ := del_many_is_dels threeSorts
    hreached.inOrder.backed.sane [[1], [2], [1], [3]] (by decide) 9 (Env.at 9)
    (fun _ => Env.at 9) (fun _ => rfl) (fun _ _ => rfl) rfl fun _ => rfl
  rw [hcount] at hret hlive
  exact ⟨hreached, hret, hlive,
    hrestart hreached (by decide +kernel) (by decide +kernel) {} {} rfl⟩

end Cachedb
