import Cachedb.Proofs.CrashCompaction
import Cachedb.Proofs.LogFailure

/-!
# Removing everything

`flush_all` unlinks the tables the store has open, newest first, then syncs
the directory and empties the log. Two things can go wrong, and both are about
which files are left.

Stopped between two unlinks, it has taken the newest versions away and left
the older ones, which the newer ones were hiding. `flushAll_stopped_iff` says
for which directories that shows.

And it only unlinks what the store has open. A flush that failed after its
rename, or a merge whose unlinks failed, has left a table in the directory
that the store does not know; it outlives a `flush_all` that returns true.
`flushAll_final_iff` says that such a table is the only way for a key to
survive, and that a run whose failures all come before a rename leaves none.

What such failures do not touch is the order of the store's own tables, which
is that of their numbers as long as numbers are left (`Engine.Kept.ranked`).
-/

namespace Cachedb

open KMerge Layers

/-! ## The calls of `flush_all` -/

/-- If no unlink failed, every name was unlinked. -/
theorem mem_unlinkAll {unlink : Nat → Bool} :
    ∀ {n : Nat} {paths : List FileName}, (unlinkAll unlink n paths).1 = true →
      ∀ path ∈ paths, Event.unlink path ∈ (unlinkAll unlink n paths).2 := by
  intro n paths
  induction paths generalizing n with
  | nil => intro _ path hpath; cases hpath
  | cons path paths ih =>
      intro hok path' hpath'
      rw [unlinkAll, Bool.and_eq_true] at hok
      rw [unlinkAll, hok.1]
      rcases List.mem_cons.mp hpath' with rfl | hpath'
      · exact List.mem_append_left _ List.mem_cons_self
      · exact List.mem_append_right _ (ih hok.2 path' hpath')

/-- What a `flush_all` does: the names of the store's tables, then the
directory and the log. -/
structure Store.Cleared (s : Store) (o : Outcome Bool) : Prop where
  tables : o.store.sstables = []
  calls : ∀ e ∈ o.events, (∃ path ∈ s.sstables.map (·.path), e = .unlink path) ∨
    (∃ ok, e = .fsyncDir ok) ∨ e = .ftruncate .log 0 ∨ ∃ ok, e = .fsync .log ok
  sane : s.Sane → o.store.Sane
  wal : ∀ w, s.wal = some w → ∃ w', o.store.wal = some w'
  unlinked : o.ret = true → ∀ path ∈ s.sstables.map (·.path), Event.unlink path ∈ o.events
  emptied : o.ret = true → ∀ w, s.wal = some w → Event.ftruncate .log 0 ∈ o.events
  forgotten : o.ret = true → ∀ key, o.store.memtable.find key = none

theorem Store.flushAll_cleared (s : Store) (env : Env) : s.Cleared (s.flushAll env) := by
  have hunlinks : ∀ e ∈ (unlinkAll env.flushAll.unlink 0 (s.sstables.map (·.path))).2,
      ∃ path ∈ s.sstables.map (·.path), e = .unlink path := by
    intro e he
    rw [unlinkAll_snd] at he
    exact mem_unlinkRun he
  have hsynced : ∀ e ∈ (if s.options.hasDir then [Event.fsyncDir env.flushAll.fsyncDir]
      else []), ∃ ok, e = .fsyncDir ok := by
    intro e he
    split at he
    · exact ⟨_, List.mem_singleton.mp he⟩
    · cases he
  have hsane : ∀ mt : Memtable, (∀ k e, mt.find k = some e → EntryFits (k, e)) →
      ∀ w next failed, Store.Sane
        { s with sstables := [], memtable := mt, wal := w, nextSequence := next
                 flushFailed := failed } := fun mt hfits w _ _ => ⟨⟨[], .nil⟩, hfits⟩
  obtain ⟨cut, hcut⟩ : ∃ cut, cut = Store.onLog { s with sstables := [] }
    (fun w => w.truncate (env.clock 0) env.flushAll.truncate) := ⟨_, rfl⟩
  have hstore : cut.store = { s with sstables := [], wal := cut.store.wal } := by
    rw [hcut]
    exact Store.onLog_store _ _
  have hlog : ∀ e ∈ cut.events, e = .ftruncate .log 0 ∨ ∃ ok, e = .fsync .log ok := by
    intro e he
    rw [hcut] at he
    rcases Store.onLog_cutEvents { s with sstables := [] } (env.clock 0)
      env.flushAll.truncate with h | ⟨ok, h⟩ <;> rw [h] at he
    · cases he
    · rcases List.mem_pair.mp he with rfl | rfl
      · exact Or.inl rfl
      · exact Or.inr ⟨_, rfl⟩
  have hwal : ∀ w, s.wal = some w → ∃ w', cut.store.wal = some w' := by
    intro w hw
    rw [hcut, Store.onLog_some _ (s := { s with sstables := [] }) hw]
    exact ⟨_, rfl⟩
  rw [Store.flushAll]
  simp only [← hcut]
  split
  · refine ⟨rfl, fun e he => ?_, fun hs => hsane _ hs.fits _ _ _, fun w hw => ⟨w, hw⟩,
      fun h => (by cases h), fun h => (by cases h), fun h => (by cases h)⟩
    rcases List.mem_append.mp he with he | he
    · exact Or.inl (hunlinks e he)
    · exact Or.inr (Or.inl (hsynced e he))
  · next hok =>
      simp only [Bool.not_eq_true', Bool.and_eq_false_iff, not_or, Bool.not_eq_false] at hok
      have hcalls : ∀ e ∈ (unlinkAll env.flushAll.unlink 0 (s.sstables.map (·.path))).2 ++
          (if s.options.hasDir then [Event.fsyncDir env.flushAll.fsyncDir] else []) ++
          cut.events, (∃ path ∈ s.sstables.map (·.path), e = .unlink path) ∨
            (∃ ok, e = .fsyncDir ok) ∨ e = .ftruncate .log 0 ∨ ∃ ok, e = .fsync .log ok := by
        intro e he
        rcases List.mem_append.mp he with he | he
        · rcases List.mem_append.mp he with he | he
          · exact Or.inl (hunlinks e he)
          · exact Or.inr (Or.inl (hsynced e he))
        · exact Or.inr (Or.inr (hlog e he))
      split
      · refine ⟨by rw [hstore], hcalls, fun hs => ?_, hwal,
          fun h => (by cases h), fun h => (by cases h), fun h => (by cases h)⟩
        rw [hstore]
        exact hsane _ hs.fits _ _ _
      · next hret =>
          refine ⟨by rw [hstore], hcalls, fun _ => ?_, hwal, fun _ path hpath => ?_,
            fun _ w hw => ?_, fun _ _ => rfl⟩
          · rw [hstore]
            exact hsane _ (fun k e he => by cases he) _ _ _
          · exact List.mem_append_left _ (List.mem_append_left _ (mem_unlinkAll hok.1 path hpath))
          · refine List.mem_append_right _ ?_
            rw [hcut, Store.onLog_some _ (s := { s with sstables := [] }) hw] at hret ⊢
            rcases w.truncate_cases (env.clock 0) env.flushAll.truncate with h | ⟨_, h⟩
            · rw [h] at hret; exact absurd rfl hret
            · rw [h]; exact List.mem_cons_self

/-- The names of the tables a store has open are table names. -/
def Store.Numbered (s : Store) : Prop :=
  ∃ seqs : List Nat, s.sstables.map (·.path) = seqs.map FileName.table

theorem Store.Cleared.clears {s : Store} {o : Outcome Bool} (h : s.Cleared o) {seqs : List Nat}
    (hseqs : s.sstables.map (·.path) = seqs.map FileName.table) :
    ∀ e ∈ o.events, e.Clears seqs := by
  intro e he
  rcases h.calls e he with ⟨path, hpath, rfl⟩ | ⟨_, rfl⟩ | rfl | ⟨_, rfl⟩
  · rw [hseqs] at hpath
    exact hpath
  · trivial
  · exact ⟨rfl, rfl⟩
  · rfl

/-- What a directory says after some of the calls. -/
theorem Disk.find_clears {seqs : List Nat} {done : List Event}
    (h : ∀ e ∈ done, e.Clears seqs) (d : Disk) (key : Bytes) :
    (d.run done).find key =
      (if Event.ftruncate .log 0 ∈ done then none else logFind d.logBytes key).or
        (tablesFind (remaining done d.newestFirst) key) := by
  obtain ⟨hn, hl⟩ := Disk.run_clears h d
  rw [Disk.find, hn, hl]
  split
  · rw [logFind_nil]
  · rfl

theorem Disk.sane_clears {seqs : List Nat} {done : List Event}
    (h : ∀ e ∈ done, e.Clears seqs) {d : Disk} (hd : d.Sane) : (d.run done).Sane := by
  rw [Disk.Sane, (Disk.run_clears h d).1]
  exact fun p hp => hd p (List.mem_filter.mp hp).1

/-! ## Stopping it -/

/-- What is left of a key, in the log unless it was cut, and else in the tables
that were not unlinked, shows nothing, or what the store showed. -/
def NothingOlderShows (now : Int64) (s : Store) (d : Disk) (done : List Event) : Prop :=
  ∀ key e, (if Event.ftruncate .log 0 ∈ done then none else logFind d.logBytes key).or
      (tablesFind (remaining done d.newestFirst) key) = some e →
    e.obsolete now = true ∨ e.view now = s.lookup now key

/-- Versions that show the same now do so until they lapse together. -/
theorem Entry.view_congr {e e' : Entry} {now : Int64} (hsome : e.obsolete now ≠ true)
    (h : e.view now = e'.view now) (t : Int64) : e.view t = e'.view t := by
  unfold Entry.view at h ⊢
  rw [Entry.obsolete, ne_eq, Bool.or_eq_true, not_or] at hsome
  rw [if_neg hsome.1, if_neg hsome.2] at h
  split at h
  · cases h
  · next htomb =>
      split at h
      · cases h
      · obtain ⟨hvalue, hstamp⟩ := Found.mk.inj (Option.some.inj h)
        rw [if_neg hsome.1, if_neg htomb, hvalue, hstamp]

/-- One key: `after` is what is left to be found of it, `before` what was. -/
theorem shows_old_iff {now : Int64} {before after : Option Entry} :
    (∀ t, now ≤ t → after.bind (Entry.view t) = before.bind (Entry.view t) ∨
        after.bind (Entry.view t) = none) ↔
      ∀ e, after = some e → e.obsolete now = true ∨ e.view now = before.bind (Entry.view now) := by
  constructor
  · rintro h e rfl
    rcases h now (le_refl _) with hsame | hnone
    · exact Or.inr hsame
    · exact Or.inl (Entry.obsolete_iff.mpr hnone)
  · intro h t ht
    cases after with
    | none => exact Or.inr rfl
    | some e =>
        by_cases hobs : e.obsolete now = true
        · exact Or.inr (Entry.obsolete_iff.mp (Entry.obsolete_mono hobs ht))
        · have hnow := (h e rfl).resolve_left hobs
          cases before with
          | none => exact absurd (Entry.obsolete_iff.mpr hnow) hobs
          | some e' => exact Or.inl (Entry.view_congr hobs hnow t)

/-- A `flush_all` is stopped having made the calls `done`, on any directory of
tables. After a restart every key shows what it showed before the call, or
nothing, exactly if nothing that is left shows anything else. -/
theorem flushAll_stopped_iff (s : Store) (hs : s.Numbered) (d : Disk) (hd : d.Sane) (now : Int64)
    (env : Env) (done : List Event) (hcut : Cut Event.Torn (s.flushAll env).events done)
    (cfg : Config) (hdir : cfg.options.hasDir = true) (boot : Reading) :
    ∃ o, startup cfg (d.run done) boot = some o ∧
      ((∀ t, now ≤ t → ∀ key,
          o.store.lookup t key = s.lookup t key ∨ o.store.lookup t key = none) ↔
        NothingOlderShows now s d done) := by
  obtain ⟨seqs, hseqs⟩ := hs
  have hevents := (s.flushAll_cleared env).clears hseqs
  have hdone : ∀ e ∈ done, e.Clears seqs := fun e he => hevents e (cut_clears hcut hevents e he)
  obtain ⟨o, ho, hlook⟩ := startup_lookup (Disk.sane_clears hdone hd) cfg hdir boot
  refine ⟨o, ho, ?_⟩
  simp only [hlook]
  rw [NothingOlderShows]
  constructor
  · intro h key
    rw [← Disk.find_clears hdone]
    exact shows_old_iff.mp fun t ht => h t ht key
  · intro h t ht key
    have hkey := h key
    rw [← Disk.find_clears hdone] at hkey
    exact shows_old_iff.mpr hkey t ht

/-- Two tables of one key, the newer with the newer value. -/
def twoTables : Engine :=
  ((freshStart { options := { memtableLimitBytes := 0 } }).engine {}).run
    [(.set [1] [7] 0, Env.at 1), (.set [1] [8] 0, Env.at 2)]

theorem twoTables_backed : twoTables.Backed 2 := by
  have htime : Timely 0 [(.set [1] [7] 0, Env.at 1), (.set [1] [8] 0, Env.at 2)] 2 :=
    .stand _ (by decide) (.stand _ (by decide) (le_refl (2 : Int64)))
  refine (Engine.Backed.run _ (freshStart_backed rfl 0) (m := RefMap.empty) (fun _ => .refl _)
    htime (fun step hstep => ?_) (by decide +kernel)).1
  simp only [List.mem_cons, List.not_mem_nil, or_false] at hstep
  rcases hstep with rfl | rfl <;> exact ⟨by simp [Call.Fits], ⟨by simp, by simp⟩, rfl⟩

theorem Engine.Backed.numbered {now : Int64} {e : Engine} (hb : e.Backed now) :
    e.store.Numbered := by
  obtain ⟨ps, hopened, _⟩ := hb.stands
  exact ⟨_, opened_paths hopened⟩

/-- Both tables were unlinked, and the log was not yet cut. -/
theorem flushAll_stopped_late :
    let done := (twoTables.store.flushAll (Env.at 3)).events.take 2
    ∃ o, startup {} (twoTables.disk.run done) {} = some o ∧
      ∀ t, 2 ≤ t → ∀ key,
        o.store.lookup t key = twoTables.store.lookup t key ∨ o.store.lookup t key = none := by
  intro done
  have hfiles : twoTables.disk.Sane := by
    obtain ⟨_, _, hstands⟩ := twoTables_backed.stands
    exact hstands.files
  obtain ⟨o, ho, hiff⟩ := flushAll_stopped_iff twoTables.store twoTables_backed.numbered
    twoTables.disk hfiles 2 (Env.at 3) done (Cut.take _ 2) {} rfl {}
  refine ⟨o, ho, hiff.mpr fun key e he => ?_⟩
  have hnone : remaining done twoTables.disk.newestFirst = [] := by decide +kernel
  have hlog : twoTables.disk.logBytes = [] := by decide +kernel
  rw [hnone, hlog, logFind_nil, ite_self] at he
  cases he

/-- The newer table is unlinked first; stopped there, the restart shows the
value of the older one. -/
theorem flushAll_stopped_older :
    let done := (twoTables.store.flushAll (Env.at 3)).events.take 1
    Cut Event.Torn (twoTables.store.flushAll (Env.at 3)).events done ∧
      twoTables.store.lookup 3 [1] = some ⟨[8], 0⟩ ∧
      (startup {} (twoTables.disk.run done) {}).map (fun o => o.store.lookup 3 [1]) =
        some (some ⟨[7], 0⟩) :=
  ⟨Cut.take _ 1, by decide +kernel, by decide +kernel⟩

/-! ## Which tables the store does not list -/

/-- What every run keeps, whatever fails in it. -/
structure Engine.Kept (e : Engine) : Prop where
  sane : e.store.Sane
  files : e.disk.Sane
  numbered : e.store.Numbered
  wal : ∃ w, e.store.wal = some w

/-- Every table in the directory is one the store has open. -/
def Engine.Listed (e : Engine) : Prop :=
  ∀ p ∈ e.disk.newestFirst, FileName.table p.1 ∈ e.store.sstables.map (·.path)

/-- The tables in the directory that the store does not have open. -/
def Engine.unlisted (e : Engine) : List (Nat × Bytes) :=
  e.disk.newestFirst.filter fun p => FileName.table p.1 ∉ e.store.sstables.map (·.path)

/-- A flush that renames its table completes, and no table the store gives up
stays behind. What comes before a rename may fail. -/
structure Env.TidiesUp (env : Env) : Prop where
  fsyncDir : env.flush.fsyncDir = true
  truncate : env.flush.truncate = {}
  unlink : ∀ n, env.compact.unlink n = true
  unlinkTarget : env.compact.unlinkTarget = true
  flushAll : ∀ n, env.flushAll.unlink n = true

theorem mem_newestFirst_insert {d d' : Disk} {seq : Nat} {file : Bytes}
    (h : d'.tables = d.tables.insert seq file) {p : Nat × Bytes} (hp : p ∈ d'.newestFirst) :
    p = (seq, file) ∨ p ∈ d.newestFirst := by
  rw [Disk.newestFirst, h, List.mem_reverse] at hp
  rcases SortedMap.mem_insertIn hp with rfl | hp
  · exact Or.inl rfl
  · exact Or.inr (List.mem_reverse.mpr hp)

/-- A call that leaves the store's tables and the directory's alone. -/
theorem Engine.Kept.congr {s s' : Store} {d d' : Disk} (h : Engine.Kept ⟨s, d⟩)
    (hsane : s'.Sane) (hstore : s'.sstables = s.sstables) (hwal : ∃ w, s'.wal = some w)
    (htables : d'.tables = d.tables) :
    Engine.Kept ⟨s', d'⟩ ∧ (Engine.Listed ⟨s, d⟩ → Engine.Listed ⟨s', d'⟩) := by
  have hn := newestFirst_congr htables
  refine ⟨⟨hsane, ?_, ?_, hwal⟩, fun hl => ?_⟩
  · rw [Disk.Sane, hn]; exact h.files
  · rw [Store.Numbered, hstore]; exact h.numbered
  · rw [Engine.Listed, hn, hstore]; exact hl

/-- A table was put under a number; the store may have opened it. -/
theorem Engine.Kept.insert {s s' : Store} {d d' : Disk} (h : Engine.Kept ⟨s, d⟩)
    (hsane : s'.Sane) (hwal : ∃ w, s'.wal = some w) {seq : Nat} {file : Bytes}
    {es : List (Bytes × Entry)} (hfile : FileHolds file es)
    (htables : d'.tables = d.tables.insert seq file)
    (hstore : s'.sstables = s.sstables ∨
      ∃ t, t.path = .table seq ∧ s'.sstables = t :: s.sstables) :
    Engine.Kept ⟨s', d'⟩ := by
  refine ⟨hsane, fun p hp => ?_, ?_, hwal⟩
  · rcases mem_newestFirst_insert htables hp with rfl | hp
    · exact ⟨_, hfile⟩
    · exact h.files p hp
  · obtain ⟨seqs, hseqs⟩ := h.numbered
    rcases hstore with hstore | ⟨t, ht, hstore⟩
    · exact ⟨seqs, by rw [hstore]; exact hseqs⟩
    · exact ⟨seq :: seqs, by rw [hstore, List.map_cons, ht, hseqs]; rfl⟩

theorem Store.Flushed.kept {s : Store} {now : Reading} {fate : FlushFate} {o : Outcome Bool}
    (h : s.Flushed now fate o) {d : Disk} (hk : Engine.Kept ⟨s, d⟩) :
    Engine.Kept ⟨o.store, d.run o.events⟩ ∧
      (fate.fsyncDir = true → fate.truncate = {} → Engine.Listed ⟨s, d⟩ →
        Engine.Listed ⟨o.store, d.run o.events⟩) := by
  obtain ⟨w, hw⟩ := hk.wal
  have hsane := (h.same hk.sane).1
  have hcutWal : ∃ w', (s.onLog fun w => w.truncate now fate.truncate).store.wal = some w' :=
    ⟨_, by rw [Store.onLog_some _ hw]⟩
  cases h with
  | idle _ => exact ⟨hk, fun _ _ hl => hl⟩
  | unnamed events hevents =>
      obtain ⟨hk', hl⟩ := hk.congr hsane rfl hk.wal
        (Disk.run_onlyTemp (Or.inl rfl) hevents d).1
      exact ⟨hk', fun _ _ => hl⟩
  | unsynced file hfile hfate =>
      refine ⟨hk.insert hsane hk.wal (hk.sane.fileHolds hfile)
        (named_run d file s.nextSequence (Or.inl rfl) (Cut.full _)).1 (Or.inl rfl), ?_⟩
      intro htrue
      rw [hfate] at htrue
      cases htrue
  | uncut file hfile hcut =>
      have htables := (named_run d file s.nextSequence
        (s.onLog_cutEvents now fate.truncate) (Cut.full (Event.fsyncDir true :: _))).1
      rw [List.append_assoc]
      refine ⟨hk.insert hsane hcutWal (hk.sane.fileHolds hfile) htables
        (Or.inl (by rw [Store.onLog_store])), fun _ htrunc => ?_⟩
      rw [htrunc, Store.onLog_ret fun w => w.truncate_ok now] at hcut
      cases hcut
  | done file table hfile hcut hopen _ _ =>
      have htables := (named_run d file s.nextSequence
        (s.onLog_cutEvents now fate.truncate) (Cut.full (Event.fsyncDir true :: _))).1
      have hpath := (openTable_fields hopen).1
      rw [List.append_assoc]
      refine ⟨hk.insert hsane hcutWal (hk.sane.fileHolds hfile) htables
        (Or.inr ⟨table, hpath, rfl⟩), fun _ _ hl p hp => ?_⟩
      rcases mem_newestFirst_insert htables hp with rfl | hp
      · exact List.mem_map.mpr ⟨table, List.mem_cons_self, hpath⟩
      · exact List.mem_cons_of_mem _ (hl p hp)

theorem Engine.Kept.mutate {α : Type} {s : Store} {d : Disk} (hk : Engine.Kept ⟨s, d⟩)
    (step : LogStep) {mt : Memtable} (hfits : ∀ k e, mt.find k = some e → EntryFits (k, e))
    (now : Reading) (fate : FlushFate) (refused accepted : α) (o : Outcome α)
    (ho : s.mutate step.mutations (fun w => w.step step) mt now fate refused accepted = o) :
    Engine.Kept ⟨o.store, d.run o.events⟩ ∧
      (fate.fsyncDir = true → fate.truncate = {} → Engine.Listed ⟨s, d⟩ →
        Engine.Listed ⟨o.store, d.run o.events⟩) := by
  obtain ⟨w, hw⟩ := hk.wal
  have honlog := Store.onLog_some (fun w => w.step step) hw
  cases hok : (w.step step).ok with
  | false =>
      rw [Store.mutate_refused (by rw [honlog]; exact hok), honlog] at ho
      rw [← ho]
      have hsane : Store.Sane { s with wal := some (w.step step).wal } :=
        ⟨hk.sane.tables, hk.sane.fits⟩
      obtain ⟨hk', hl⟩ := hk.congr hsane rfl ⟨_, rfl⟩ (w.step_tables step d)
      exact ⟨hk', fun _ _ => hl⟩
  | true =>
      rw [Store.mutate_accepted (by rw [honlog]; exact hok), honlog] at ho
      simp only [] at ho
      obtain ⟨s₁, hs₁⟩ : ∃ s₁, s₁ =
        { s with memtable := mt, wal := some (w.step step).wal } := ⟨_, rfl⟩
      rw [← hs₁] at ho
      have hsane : s₁.Sane := by rw [hs₁]; exact ⟨hk.sane.tables, hfits⟩
      obtain ⟨hk₁, hl₁⟩ := hk.congr hsane (by rw [hs₁]) ⟨_, by rw [hs₁]⟩ (w.step_tables step d)
      rw [← ho]
      show Engine.Kept ⟨_, d.run (_ :: _ ++ _ :: _)⟩ ∧
        (_ → _ → _ → Engine.Listed ⟨_, d.run (_ :: _ ++ _ :: _)⟩)
      rw [List.cons_append, Disk.run_cons, Disk.run_append, Disk.run_cons]
      rcases s₁.maybeFlush_cases now fate with h | h
      · rw [h]
        exact ⟨hk₁, fun _ _ hl => hl₁ hl⟩
      · rw [h]
        obtain ⟨hk₂, hl₂⟩ := (Store.flush_cases hk₁.sane now fate).kept hk₁
        exact ⟨⟨⟨hk₂.sane.tables, hk₂.sane.fits⟩, hk₂.files, hk₂.numbered, hk₂.wal⟩,
          fun hdir htrunc hl => hl₂ hdir htrunc (hl₁ hl)⟩

/-! ## Merges -/

/-- What is in the directory after a merge was there before or is its output,
and was not unlinked. -/
theorem mem_newestFirst_merged {d : Disk} {file : Bytes} {seq : Nat} {seqs : List Nat}
    {rest : List Event} (hrest : ∀ e ∈ rest, e.Removes seqs) {p : Nat × Bytes}
    (hp : p ∈ (d.run (tempEvents .compactTmp file ++
      .rename .compactTmp (.table seq) :: rest)).newestFirst) :
    (p = (seq, file) ∨ p ∈ d.newestFirst) ∧ Event.unlink (.table p.1) ∉ rest := by
  obtain ⟨d₁, htables, _, hrun⟩ := d.run_renamed file seq rest
  rw [hrun, (Disk.run_removes hrest d₁).1] at hp
  obtain ⟨hp, hleft⟩ := List.mem_filter.mp hp
  exact ⟨mem_newestFirst_insert htables hp, by simpa using hleft⟩

/-- The names of a run and of what lies on either side of it. -/
structure RunNames (s : Store) (first len : Nat) (above : List Nat) (seq : Nat)
    (tail below : List Nat) : Prop where
  run : s.runPaths first len = (seq :: tail).map FileName.table
  newer : (s.sstables.take first).map (·.path) = above.map FileName.table
  older : (s.sstables.drop (first + len)).map (·.path) = below.map FileName.table
  all : s.sstables.map (·.path) = above.map FileName.table ++
    (FileName.table seq :: tail.map FileName.table) ++ below.map FileName.table

theorem exists_runNames {s : Store} {seqs : List Nat}
    (hseqs : s.sstables.map (·.path) = seqs.map FileName.table) {first len : Nat}
    (hlen : 0 < len) (hbound : first + len ≤ s.sstables.length) :
    ∃ above seq tail below, RunNames s first len above seq tail below := by
  have hlength : s.sstables.length = seqs.length := by
    simpa using congrArg List.length hseqs
  have hrun : s.runPaths first len = ((seqs.drop first).take len).map FileName.table := by
    rw [Store.runPaths, List.map_take, List.map_drop, hseqs, ← List.map_drop, ← List.map_take]
  have hsplit := run_split seqs first len
  cases h : (seqs.drop first).take len with
  | nil =>
      have := congrArg List.length h
      rw [List.length_take, List.length_drop, List.length_nil] at this
      omega
  | cons seq tail =>
      refine ⟨seqs.take first, seq, tail, seqs.drop (first + len), by rw [hrun, h], ?_, ?_, ?_⟩
      · rw [List.map_take, hseqs, ← List.map_take]
      · rw [List.map_drop, hseqs, ← List.map_drop]
      · rw [h] at hsplit
        rw [hseqs]
        nth_rewrite 1 [← hsplit]
        rw [List.map_append, List.map_append]
        rfl

/-- A name of the store's that is not among the rest of the run. -/
theorem mem_outside {α : Type} {x y : α} {xs ys zs : List α} (h : x ∈ xs ++ (y :: ys) ++ zs)
    (hx : x ∉ ys) : x = y ∨ x ∈ xs ++ zs := by
  simp only [List.mem_append, List.mem_cons] at h ⊢
  tauto

theorem Store.Compacted.kept {s : Store} {d : Disk} (hk : Engine.Kept ⟨s, d⟩) {first len : Nat}
    (hlen : 0 < len) (hbound : first + len ≤ s.sstables.length) {env : Env}
    {out : List (Bytes × Entry)} {o : Outcome Nat} (h : s.Compacted first len env out o)
    (hsane : o.store.Sane)
    (hout : ∀ file, TableWritten s.options.bloomBitsPerKey out file → FileHolds file out) :
    Engine.Kept ⟨o.store, d.run o.events⟩ ∧
      (env.TidiesUp → Engine.Listed ⟨s, d⟩ → Engine.Listed ⟨o.store, d.run o.events⟩) := by
  have hwal : ∃ w, o.store.wal = some w := by cases h <;> exact hk.wal
  obtain ⟨seqs, hseqs⟩ := hk.numbered
  obtain ⟨above, seq, tail, below, hnames⟩ := exists_runNames hseqs hlen hbound
  have htarget : s.runTarget first len = .table seq := by rw [Store.runTarget, hnames.run]; rfl
  rcases h.shape hnames.run with ⟨hstore, htemp⟩ | ⟨file, rest, hfile, hevents, hrest, _, hleaves⟩
  · obtain ⟨hk', hl⟩ := hk.congr hsane (by rw [hstore]) hwal
      (Disk.run_onlyTemp (Or.inr rfl) htemp d).1
    exact ⟨hk', fun _ => hl⟩
  · rw [hevents]
    have hfiles : (d.run (tempEvents .compactTmp file ++
        .rename .compactTmp (.table seq) :: rest)).Sane := by
      intro p hp
      rcases (mem_newestFirst_merged hrest hp).1 with rfl | hp
      · exact ⟨_, hout _ hfile⟩
      · exact hk.files p hp
    -- A table in the directory is the output or was listed, and was not unlinked.
    have hmem : Engine.Listed ⟨s, d⟩ → ∀ p ∈ (d.run (tempEvents .compactTmp file ++
        .rename .compactTmp (.table seq) :: rest)).newestFirst,
        FileName.table p.1 ∈ s.sstables.map (·.path) ∧ Event.unlink (.table p.1) ∉ rest := by
      intro hl p hp
      obtain ⟨hp, hleft⟩ := mem_newestFirst_merged hrest hp
      refine ⟨?_, hleft⟩
      rcases hp with rfl | hp
      · rw [hnames.all]; simp
      · exact hl p hp
    generalize hts : o.store.sstables = ts at hleaves
    cases hleaves with
    | same _ =>
        refine ⟨⟨hsane, hfiles, ⟨seqs, by rw [hts]; exact hseqs⟩, hwal⟩,
          fun _ hl p hp => ?_⟩
        rw [hts]
        exact (hmem hl p hp).1
    | output table hopen _ hgone =>
        have hpath := (openTable_fields hopen).1
        have hkept : o.store.sstables.map (·.path) =
            (above ++ seq :: below).map FileName.table := by
          rw [hts, List.map_append, List.map_cons, hnames.newer, hnames.older, hpath, htarget,
            List.map_append]
          rfl
        refine ⟨⟨hsane, hfiles, ⟨_, hkept⟩, hwal⟩, fun htidy hl p hp => ?_⟩
        obtain ⟨hin, hleft⟩ := hmem hl p hp
        rw [hnames.all] at hin
        have hout := mem_outside hin fun hp => hleft (hgone htidy.unlink _ (by
          rw [hnames.run]; exact hp))
        show FileName.table p.1 ∈ o.store.sstables.map (·.path)
        rw [hkept, List.map_append, List.map_cons]
        rcases hout with heq | hout
        · rw [heq]; simp
        · rcases List.mem_append.mp hout with hout | hout
          · exact List.mem_append_left _ hout
          · exact List.mem_append_right _ (List.mem_cons_of_mem _ hout)
    | none hgone =>
        have hkept : o.store.sstables.map (·.path) = (above ++ below).map FileName.table := by
          rw [hts, List.map_append, hnames.newer, hnames.older, List.map_append]
        refine ⟨⟨hsane, hfiles, ⟨_, hkept⟩, hwal⟩, fun htidy hl p hp => ?_⟩
        obtain ⟨hin, hleft⟩ := hmem hl p hp
        rw [hnames.all] at hin
        have hnot : FileName.table p.1 ∉ FileName.table seq :: tail.map FileName.table :=
          fun hp => hleft (hgone htidy.unlink htidy.unlinkTarget _ (by rw [hnames.run]; exact hp))
        rw [List.mem_cons, not_or] at hnot
        show FileName.table p.1 ∈ o.store.sstables.map (·.path)
        rw [hkept, List.map_append]
        exact (mem_outside hin hnot.2).resolve_left hnot.1

theorem Store.maybeCompact_kept {s : Store} {d : Disk} (hk : Engine.Kept ⟨s, d⟩) (env : Env)
    (o : Outcome Nat) (ho : s.maybeCompact d env = o) :
    Engine.Kept ⟨o.store, d.run o.events⟩ ∧
      (env.TidiesUp → Engine.Listed ⟨s, d⟩ → Engine.Listed ⟨o.store, d.run o.events⟩) := by
  rw [Store.maybeCompact] at ho
  split at ho
  · rw [← ho]
    exact ⟨hk, fun _ hl => hl⟩
  · next first len hchosen =>
      obtain ⟨_, _, hlen, hbound⟩ := Store.chooseRun_bounds hchosen
      obtain ⟨ess, hess⟩ := hk.sane.tables
      obtain ⟨out, hout, hcases⟩ := Store.compactRun_cases hess first len env
      rw [ho] at hcases
      exact Store.Compacted.kept hk (Nat.lt_of_lt_of_le (by decide) hlen) hbound hcases
        (hcases.same hk.sane hess hout).1
        fun file hfile => fileHolds_writeTable hout.sorted hout.fits hfile

/-! ## Runs -/

theorem Store.flushAll_kept {s : Store} {d : Disk} (hk : Engine.Kept ⟨s, d⟩) (env : Env)
    (o : Outcome Bool) (ho : s.flushAll env = o) :
    Engine.Kept ⟨o.store, d.run o.events⟩ ∧
      (env.TidiesUp → Engine.Listed ⟨s, d⟩ → Engine.Listed ⟨o.store, d.run o.events⟩) := by
  obtain ⟨seqs, hseqs⟩ := hk.numbered
  obtain ⟨w, hw⟩ := hk.wal
  have hcleared := s.flushAll_cleared env
  have hclears := hcleared.clears hseqs
  rw [ho] at hcleared hclears
  refine ⟨⟨hcleared.sane hk.sane, Disk.sane_clears hclears hk.files,
    ⟨[], by rw [hcleared.tables]; rfl⟩, hcleared.wal w hw⟩, fun htidy hl p hp => ?_⟩
  -- Every table was listed, and every listed table was unlinked.
  rw [(Disk.run_clears hclears d).1] at hp
  obtain ⟨hp, hleft⟩ := List.mem_filter.mp hp
  refine absurd ?_ (of_decide_eq_true hleft)
  have hunlinked : Event.unlink (.table p.1) ∈
      (unlinkAll env.flushAll.unlink 0 (s.sstables.map (·.path))).2 := by
    rw [unlinkAll_snd]
    exact unlinkRun_all htidy.flushAll _ (hl p hp)
  rw [← ho, Store.flushAll]
  simp only []
  split
  · exact List.mem_append_left _ hunlinked
  · split
    · exact List.mem_append_left _ (List.mem_append_left _ hunlinked)
    · exact List.mem_append_left _ (List.mem_append_left _ hunlinked)

/-- One call keeps the tables in order, whatever fails in it, and a call that
tidies up leaves no table unlisted. -/
theorem Engine.Kept.step {e : Engine} (hk : e.Kept) {step : Step} (hfits : step.1.Fits) :
    (e.step step).Kept ∧ (step.2.TidiesUp → e.Listed → (e.step step).Listed) := by
  obtain ⟨s, d⟩ := e
  obtain ⟨c, env⟩ := step
  have hcases := s.call_cases d env c
  show Engine.Kept ⟨(s.call d env c).store, d.run (s.call d env c).events⟩ ∧
    (_ → _ → Engine.Listed ⟨(s.call d env c).store, d.run (s.call d env c).events⟩)
  generalize s.call d env c = o at hcases
  cases hcases with
  | nothing r => exact ⟨hk, fun _ hl => hl⟩
  | mutated step hfate mt hfit hmt now refused accepted f =>
      obtain ⟨hk', hl⟩ := hk.mutate step (hfit hk.sane hfits).2 now env.flush refused accepted _
        rfl
      exact ⟨hk', fun htidy => hl htidy.fsyncDir htidy.truncate⟩
  | flushed now =>
      obtain ⟨hk', hl⟩ := (Store.flush_cases hk.sane now env.flush).kept hk
      exact ⟨hk', fun htidy => hl htidy.fsyncDir htidy.truncate⟩
  | swept r n budget count =>
      have hsane : Store.Sane { s with
          memtable := (s.memtable.sweepExpired (env.clock n).wall budget).2
          sweptKeys := count } :=
        ⟨hk.sane.tables, Memtable.fits_sweepExpired hk.sane.fits⟩
      obtain ⟨hk', hl⟩ := hk.congr hsane rfl hk.wal (rfl : d.tables = d.tables)
      exact ⟨hk', fun _ => hl⟩
  | merged _ => exact Store.maybeCompact_kept hk env _ rfl
  | cleared _ => exact Store.flushAll_kept hk env _ rfl

theorem Engine.Kept.run (steps : List Step) :
    ∀ {e : Engine}, e.Kept → (∀ step ∈ steps, step.1.Fits) →
      (e.run steps).Kept ∧
        ((∀ step ∈ steps, step.2.TidiesUp) → e.Listed → (e.run steps).Listed) := by
  induction steps with
  | nil => intro e hk _; exact ⟨hk, fun _ hl => hl⟩
  | cons step steps ih =>
      intro e hk hfits
      obtain ⟨hk₁, hl₁⟩ := hk.step (hfits step List.mem_cons_self)
      obtain ⟨hk₂, hl₂⟩ := ih hk₁ fun step' hstep' => hfits step' (List.mem_cons_of_mem _ hstep')
      refine ⟨hk₂, fun htidy hl => ?_⟩
      exact hl₂ (fun step' hstep' => htidy step' (List.mem_cons_of_mem _ hstep'))
        (hl₁ (htidy step List.mem_cons_self) hl)

theorem Started.kept {cfg : Config} {d : Disk} {o : Outcome Unit} (hd : d.Sane)
    (h : Started cfg d o) : (o.engine d).Kept ∧ (o.engine d).Listed := by
  have hn : (d.run o.events).newestFirst = d.newestFirst := newestFirst_congr h.tables
  obtain ⟨w, hw, _⟩ := h.wal
  refine ⟨⟨h.sane, ?_, ⟨_, opened_paths h.opened⟩, w, hw⟩, fun p hp => ?_⟩
  · show TablesSane (d.run o.events).newestFirst
    rw [hn]; exact hd
  · have hp : p ∈ d.newestFirst := hn ▸ hp
    show FileName.table p.1 ∈ o.store.sstables.map (·.path)
    rw [opened_paths h.opened]
    exact List.mem_map.mpr ⟨p.1, List.mem_map.mpr ⟨p, hp, rfl⟩, rfl⟩

/-! ## Numbers -/

/-- The tables of a store come in the order of their numbers, and the next
number is larger than all of them. -/
structure Store.Ranked (s : Store) : Prop where
  descends : ∃ seqs, s.Descends seqs ∧ ∀ seq ∈ seqs, seq < s.nextSequence
  next : s.nextSequence < 2 ^ 64

theorem Store.Ranked.congr {s s' : Store} (h : s.Ranked) (ht : s'.sstables = s.sstables)
    (hn : s'.nextSequence = s.nextSequence) : s'.Ranked := by
  obtain ⟨⟨seqs, hseqs, hbelow⟩, hnext⟩ := h
  refine ⟨⟨seqs, ⟨by rw [ht]; exact hseqs.1, hseqs.2⟩, by rw [hn]; exact hbelow⟩, ?_⟩
  rw [hn]
  exact hnext

theorem Store.Flushed.ranked {s : Store} {now : Reading} {fate : FlushFate} {o : Outcome Bool}
    (h : s.Flushed now fate o) (hr : s.Ranked) (hleft : NumbersLeft o.events) :
    o.store.Ranked := by
  cases h with
  | idle _ => exact hr
  | unnamed _ _ => exact hr
  | unsynced _ _ _ => exact hr
  | uncut _ _ _ => exact hr.congr (by rw [Store.onLog_store]) (by rw [Store.onLog_store])
  | done file table _ _ hopen _ _ =>
      have hnumber : NumberLeft s.nextSequence :=
        hleft (.rename .flushTmp (.table s.nextSequence)) (by simp)
      obtain ⟨⟨seqs, ⟨hpaths, hpairs⟩, hbelow⟩, _⟩ := hr
      refine ⟨⟨s.nextSequence :: seqs, ⟨?_, List.pairwise_cons.mpr ⟨hbelow, hpairs⟩⟩, ?_⟩, ?_⟩
      · show table.path :: s.sstables.map (·.path) = _
        rw [(openTable_fields hopen).1, hpaths]
        rfl
      · show ∀ seq ∈ s.nextSequence :: seqs, seq < (s.nextSequence + 1) % 2 ^ 64
        rw [Nat.mod_eq_of_lt hnumber]
        intro seq hseq
        rcases List.mem_cons.mp hseq with rfl | hseq
        · exact Nat.lt_succ_self _
        · exact Nat.lt_succ_of_lt (hbelow seq hseq)
      · exact Nat.mod_lt _ (Nat.two_pow_pos 64)

theorem Store.maybeFlush_ranked {s : Store} (hs : s.Sane) (hr : s.Ranked) (now : Reading)
    (fate : FlushFate) (hleft : NumbersLeft (s.maybeFlush now fate).events) :
    (s.maybeFlush now fate).store.Ranked := by
  rcases s.maybeFlush_cases now fate with h | h
  · rw [h]
    exact hr
  · rw [h] at hleft ⊢
    exact ((Store.flush_cases hs now fate).ranked hr hleft).congr rfl rfl

theorem Store.Compacted.ranked {s : Store} {first len : Nat} (hlen : 0 < len)
    (hbound : first + len ≤ s.sstables.length) {env : Env} {out : List (Bytes × Entry)}
    {o : Outcome Nat} (h : s.Compacted first len env out o) (hr : s.Ranked) :
    o.store.Ranked := by
  obtain ⟨⟨seqs, ⟨hpaths, hpairs⟩, hbelow⟩, hnext⟩ := hr
  obtain ⟨above, seq, tail, below, hnames⟩ := exists_runNames hpaths hlen hbound
  have hall : seqs = above ++ seq :: tail ++ below := by
    refine List.map_injective_iff.mpr (fun _ _ => FileName.table.inj) (hpaths.symm.trans ?_)
    rw [hnames.all]
    simp only [List.map_append, List.map_cons]
  -- A merge leaves some of the names it found, in their order.
  have hkept : ∀ seqs' : List Nat, seqs'.Sublist seqs → ∀ s' : Store,
      s'.sstables.map (·.path) = seqs'.map FileName.table → s'.nextSequence = s.nextSequence →
      s'.Ranked := by
    intro seqs' hsub s' hpaths' hnext'
    refine ⟨⟨seqs', ⟨hpaths', hpairs.sublist hsub⟩, fun q hq => ?_⟩, by rw [hnext']; exact hnext⟩
    rw [hnext']
    exact hbelow q (hsub.subset hq)
  cases h with
  | unnamed _ _ => exact hkept seqs (.refl _) _ hpaths rfl
  | unsynced _ _ _ => exact hkept seqs (.refl _) _ hpaths rfl
  | replaced file table _ hopen _ _ =>
      refine hkept (above ++ seq :: below) ?_ _ ?_ rfl
      · rw [hall, List.append_assoc]
        exact ((List.sublist_append_right tail below).cons_cons seq).append_left above
      · have htarget : table.path = .table seq := by
          rw [(openTable_fields hopen).1, Store.runTarget, hnames.run]
          rfl
        show (s.sstables.take first ++ table :: s.sstables.drop (first + len)).map (·.path) = _
        rw [List.map_append, List.map_cons, hnames.newer, hnames.older, htarget, List.map_append]
        rfl
  | emptied _ _ _ =>
      refine hkept (above ++ below) ?_ _ ?_ rfl
      · rw [hall, List.append_assoc]
        exact (List.sublist_append_right (seq :: tail) below).append_left above
      · show (s.sstables.take first ++ s.sstables.drop (first + len)).map (·.path) = _
        rw [List.map_append, hnames.newer, hnames.older, List.map_append]

theorem Store.flushAll_ranked {s : Store} (hr : s.Ranked) (env : Env) :
    (s.flushAll env).store.Ranked := by
  have hnext : (s.flushAll env).store.nextSequence < 2 ^ 64 := by
    rw [Store.flushAll]
    simp only []
    split
    · exact hr.next
    · split
      · rw [Store.onLog_store]
        exact hr.next
      · exact (by decide : 1 < 2 ^ 64)
  exact ⟨⟨[], ⟨by rw [(s.flushAll_cleared env).tables]; rfl, .nil⟩, List.forall_mem_nil _⟩, hnext⟩

/-- One call keeps the order, whatever fails in it. -/
theorem Engine.Kept.ranked {e : Engine} (hk : e.Kept) (hr : e.store.Ranked) {step : Step}
    (hfits : step.1.Fits) (hleft : NumbersLeft (e.outcome step).events) :
    (e.step step).store.Ranked := by
  obtain ⟨s, d⟩ := e
  obtain ⟨c, env⟩ := step
  have hcases := s.call_cases d env c
  show (s.call d env c).store.Ranked
  have hleft : NumbersLeft (s.call d env c).events := hleft
  generalize s.call d env c = o at hcases hleft
  cases hcases with
  | nothing r => exact hr
  | mutated step hfate mt hfit hmt now refused accepted f =>
      obtain ⟨w, hw⟩ := hk.wal
      have honlog := Store.onLog_some (fun w => w.step step) hw
      have hsane : Store.Sane
          { s with memtable := mt, wal := (s.onLog fun w => w.step step).store.wal } :=
        ⟨hk.sane.tables, (hfit hk.sane hfits).2⟩
      cases hok : (w.step step).ok with
      | false =>
          rw [Store.mutate_refused (by rw [honlog]; exact hok)]
          exact hr.congr rfl rfl
      | true =>
          rw [Store.mutate_accepted (by rw [honlog]; exact hok)] at hleft ⊢
          exact Store.maybeFlush_ranked hsane (hr.congr rfl rfl) now env.flush
            hleft.behind
  | flushed now => exact (Store.flush_cases hk.sane now env.flush).ranked hr hleft
  | swept r n budget count => exact hr.congr rfl rfl
  | merged _ =>
      show (s.maybeCompact d env).store.Ranked
      rw [Store.maybeCompact]
      split
      · exact hr
      · next first len hchosen =>
          obtain ⟨_, _, hlen, hbound⟩ := Store.chooseRun_bounds hchosen
          obtain ⟨ess, hess⟩ := hk.sane.tables
          obtain ⟨out, _, hcompacted⟩ := Store.compactRun_cases hess first len env
          exact hcompacted.ranked (Nat.lt_of_lt_of_le (by decide) hlen) hbound hr
  | cleared _ => exact Store.flushAll_ranked hr env

theorem Started.ranked {cfg : Config} {d : Disk} {o : Outcome Unit} (hleft : d.NumbersLeft)
    (h : Started cfg d o) : o.store.Ranked := by
  refine ⟨⟨d.newestFirst.map Prod.fst, ⟨opened_paths h.opened, ?_⟩, fun seq hseq => ?_⟩, h.next_lt⟩
  · exact List.pairwise_map.mpr (newestFirst_pairwise d)
  · obtain ⟨p, hp, rfl⟩ := List.mem_map.mp hseq
    exact h.next hleft p hp

/-! ## A `flush_all` that returns true -/

theorem Engine.unlisted_eq_nil {e : Engine} (h : e.Listed) : e.unlisted = [] := by
  rw [Engine.unlisted, List.filter_eq_nil_iff]
  exact fun p hp => by simpa using h p hp

/-- A `flush_all` that returns true leaves exactly the tables the store does
not list, and an empty log. -/
theorem Engine.Kept.find_cleared {e : Engine} (hk : e.Kept) {env : Env}
    (hret : (e.store.flushAll env).ret = true) (key : Bytes) :
    (e.disk.run (e.store.flushAll env).events).find key = tablesFind e.unlisted key := by
  obtain ⟨seqs, hseqs⟩ := hk.numbered
  obtain ⟨w, hw⟩ := hk.wal
  have hcleared := e.store.flushAll_cleared env
  rw [Disk.find_clears (hcleared.clears hseqs), if_pos (hcleared.emptied hret w hw),
    Option.none_or, Engine.unlisted, remaining]
  congr 1
  refine List.filter_congr fun p _ => ?_
  rw [Bool.eq_iff_iff, decide_eq_true_iff, decide_eq_true_iff, not_iff_not]
  constructor
  · intro hmem
    rcases hcleared.calls _ hmem with ⟨path, hpath, heq⟩ | ⟨_, heq⟩ | heq | ⟨_, heq⟩
    · rw [Event.unlink.inj heq]; exact hpath
    · cases heq
    · cases heq
    · cases heq
  · exact hcleared.unlinked hret _

/-- A process that was started on a directory of tables makes `steps`, in which
anything may fail, and then a `flush_all` that returns true. After a restart
no key is visible exactly if no table the store did not list shows one; and
there is no such table if every failure among the steps came before a rename
and every unlink succeeded. -/
theorem flushAll_final_iff (cfg cfg' : Config) (hdir : cfg.options.hasDir = true)
    (hdir' : cfg'.options.hasDir = true) (d : Disk) (hd : d.Sane) (boot boot' : Reading)
    (o : Outcome Unit) (ho : startup cfg d boot = some o) (steps : List Step)
    (hfits : ∀ step ∈ steps, step.1.Fits) (e : Engine) (he : e = (o.engine d).run steps)
    (env : Env) (hret : (e.store.flushAll env).ret = true) (now : Int64) :
    ∃ o', startup cfg' (e.disk.run (e.store.flushAll env).events) boot' = some o' ∧
      ((∀ t, now ≤ t → ∀ key, o'.store.lookup t key = none) ↔
        ∀ key v, tablesFind e.unlisted key = some v → v.obsolete now = true) ∧
      ((∀ step ∈ steps, step.2.TidiesUp) → e.unlisted = []) := by
  obtain ⟨o₁, ho₁, hstarted⟩ := startup_spec hd cfg hdir boot
  obtain rfl : o = o₁ := by rw [ho] at ho₁; exact Option.some.inj ho₁
  obtain ⟨hk₀, hl₀⟩ := hstarted.kept hd
  obtain ⟨hk, hl⟩ := hk₀.run steps hfits
  rw [← he] at hk hl
  have hfiles := (Store.flushAll_kept hk env _ rfl).1.files
  obtain ⟨o', ho', hlook⟩ := startup_lookup hfiles cfg' hdir' boot'
  refine ⟨o', ho', ?_, fun htidy => Engine.unlisted_eq_nil (hl htidy hl₀)⟩
  have hfind : ∀ t key, o'.store.lookup t key =
      (tablesFind e.unlisted key).bind (Entry.view t) := fun t key => by
    rw [hlook, Disk.lookup, hk.find_cleared hret]
  constructor
  · intro h key v hv
    have := h now (le_refl _) key
    rw [hfind, hv] at this
    exact Entry.obsolete_iff.mpr this
  · intro h t ht key
    rw [hfind]
    cases hv : tablesFind e.unlisted key with
    | none => rfl
    | some v => exact Entry.obsolete_iff.mp (Entry.obsolete_mono (h key v hv) ht)

/-- A flush fails at its rename; the `flush_all` after it is final. -/
theorem flushAll_final_renameFailed :
    let cfg : Config := { options := { memtableLimitBytes := 0 } }
    let env : Env := { Env.at 1 with flush := { rename := false } }
    let e := ((freshStart cfg).engine {}).run [(.set [1] [7] 0, env)]
    e.store.lookup 5 [1] = some ⟨[7], 0⟩ ∧
      ∃ o', startup {} (e.disk.run (e.store.flushAll (Env.at 2)).events) {} = some o' ∧
        ∀ t, 5 ≤ t → ∀ key, o'.store.lookup t key = none := by
  intro cfg env e
  have hfits : ∀ step ∈ [((.set [1] [7] 0, env) : Step)], step.1.Fits := by
    intro step hstep
    rw [List.mem_singleton.mp hstep]
    exact ⟨by decide, by decide⟩
  obtain ⟨o', ho', hiff, htidy⟩ := flushAll_final_iff cfg {} rfl rfl {} (fun p hp => by cases hp)
    {} {} (freshStart cfg) (startup_empty rfl) [(.set [1] [7] 0, env)] hfits e rfl (Env.at 2)
    (by decide +kernel) 5
  have hnone := htidy fun step hstep => by
    rw [List.mem_singleton.mp hstep]
    exact ⟨rfl, rfl, fun _ => rfl, rfl, fun _ => rfl⟩
  refine ⟨by decide +kernel, o', ho', hiff.mpr fun key v hv => ?_⟩
  rw [hnone] at hv
  cases hv

/-- A flush renames its table, and the fsync of the emptied log fails; the
`flush_all` after it returns true, and a restart shows the key. -/
theorem flushAll_leaves_orphan :
    let cfg : Config := { options := { memtableLimitBytes := 0 } }
    let env : Env := { Env.at 1 with flush := { truncate := { sync := false } } }
    let e := ((freshStart cfg).engine {}).run [(.set [1] [7] 0, env)]
    (e.store.flushAll (Env.at 2)).ret = true ∧
      (startup {} (e.disk.run (e.store.flushAll (Env.at 2)).events) {}).map
        (fun o => o.store.lookup 5 [1]) = some (some ⟨[7], 0⟩) := by
  decide +kernel

end Cachedb
