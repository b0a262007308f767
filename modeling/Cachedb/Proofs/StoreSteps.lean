import Cachedb.Model.Store
import Cachedb.Proofs.Compaction

/-!
# What each call on the store can do

One inversion lemma for every call that has many ways to end. Each lists the
outcomes there are, with the store each leaves and the calls it made on the
directory; everything later is proved from these lists and not from the
definitions. They are stated for a store whose tables hold sorted entries and
whose memtable fits the file format (`Store.Sane`), which every call keeps.
-/

namespace Cachedb

open KMerge

/-- The tables hold entry lists, and the memtable can be written to one. -/
structure Store.Sane (s : Store) : Prop where
  tables : ∃ ess, List.Forall₂ Sstable.Holds s.sstables ess
  fits : ∀ k e, s.memtable.find k = some e → EntryFits (k, e)

theorem Store.Sane.entries_fit {s : Store} (h : s.Sane) :
    ∀ p ∈ s.memtable.entries.entries, EntryFits p :=
  fun p hp => h.fits p.1 p.2 (SortedMap.find_eq_some_iff.mpr hp)

/-- What the tables know, in terms of the entries they hold. -/
theorem findSome?_get {ts : List Sstable} {ess : List (List (Bytes × Entry))}
    (h : List.Forall₂ Sstable.Holds ts ess) (key : Bytes) :
    (ts.findSome? fun t => t.get key) = (firstIn key ess).map Entry.settled := by
  induction h with
  | nil => rfl
  | @cons t es ts ess ht _ ih =>
      rw [List.findSome?_cons, ht.get key, firstIn_cons, ih]
      cases SortedMap.findIn key es <;> rfl

/-! ## A temporary file -/

/-- Calls that concern one temporary file and nothing else. -/
def Event.OnlyTemp (temp : FileName) : Event → Prop
  | .openTrunc file => file = temp
  | .write file _ => file = temp
  | .fsync file _ => file = temp
  | .unlink file => file = temp
  | _ => False

/-- The calls that put a whole file under a temporary name. -/
def tempEvents (temp : FileName) (file : Bytes) : List Event :=
  [.openTrunc temp, .write temp file, .fsync temp true]

theorem writeTemp_true {temp : FileName} {ok : Bool} {content : Bytes} {fate : FileFate}
    (h : (writeTemp temp ok content fate).1 = true) :
    ok = true ∧ content.length ≤ indexableBytes ∧
      (writeTemp temp ok content fate).2 = tempEvents temp content := by
  rw [writeTemp] at h ⊢
  split at h
  · cases h
  · next hok =>
      rw [if_neg hok]
      simp only [] at h ⊢
      split at h
      · cases h
      · next hlanded =>
          have hsync : fate.sync = true := h
          have hroom : content.length ≤ fate.room.bytes := by
            by_contra hlong
            exact hlanded (by rw [writeAll, if_pos (by omega)]; rfl)
          rw [if_neg hlanded, hsync]
          exact ⟨by simpa using hok, hroom.trans fate.room.indexable, rfl⟩

theorem writeTemp_ok (temp : FileName) {content : Bytes} {fate : FileFate}
    (hroom : content.length ≤ fate.room.bytes) (hsync : fate.sync = true) :
    writeTemp temp true content fate = (true, tempEvents temp content) := by
  rw [writeTemp, if_neg (by decide), writeAll, if_neg (Nat.not_lt.mpr hroom), hsync]
  rfl

theorem writeTemp_onlyTemp (temp : FileName) (ok : Bool) (content : Bytes) (fate : FileFate) :
    ∀ e ∈ (writeTemp temp ok content fate).2, e.OnlyTemp temp := by
  intro e he
  rw [writeTemp] at he
  split at he
  · rcases List.mem_pair.mp he with rfl | rfl <;> rfl
  · simp only [] at he
    split at he
    · rcases List.mem_pair.mp he with rfl | rfl <;> rfl
    · simp only [List.mem_cons, List.not_mem_nil, or_false] at he
      rcases he with rfl | rfl | rfl <;> rfl

theorem unlinkEvents_onlyTemp (ok : Bool) (temp : FileName) :
    ∀ e ∈ unlinkEvents ok temp, e.OnlyTemp temp := by
  intro e he
  rw [unlinkEvents] at he
  split at he
  · rw [List.mem_singleton.mp he]; rfl
  · cases he

theorem giveUp_onlyTemp (temp : FileName) (ok ok' : Bool) (content : Bytes) (fate : FileFate) :
    ∀ e ∈ (writeTemp temp ok content fate).2 ++ unlinkEvents ok' temp, e.OnlyTemp temp := by
  intro e he
  rcases List.mem_append.mp he with he | he
  · exact writeTemp_onlyTemp _ _ _ _ e he
  · exact unlinkEvents_onlyTemp _ _ e he

/-! ## The log -/

/-- A step on the log changes the store's log and nothing else. -/
theorem Store.onLog_store (s : Store) (f : Wal → Logged) :
    (s.onLog f).store = { s with wal := (s.onLog f).store.wal } := by
  unfold Store.onLog
  split <;> rfl

theorem Store.onLog_none {s : Store} (f : Wal → Logged) (h : s.wal = none) :
    s.onLog f = { ret := true, store := s } := by
  rw [Store.onLog, h]

theorem Store.onLog_some {s : Store} {w : Wal} (f : Wal → Logged) (h : s.wal = some w) :
    s.onLog f =
      { ret := (f w).ok, store := { s with wal := some (f w).wal }, events := (f w).events } := by
  rw [Store.onLog, h]

/-- The ways an append can end. -/
inductive Wal.Committed (w : Wal) (buf : Bytes) (now : Reading) (fate : LogFate) :
    Logged → Prop
  /-- The write failed part way. -/
  | torn (n : Nat) (hcut : fate.cut = some n) (hn : n < buf.length) :
      Committed w buf now fate { ok := false, wal := w, events := [.write .log (buf.take n)] }
  /-- Syncing is left to somebody else. -/
  | landed (hpolicy : ¬(w.policy = .kAlways ∧ w.groupCommit = false)) :
      Committed w buf now fate {
        ok := true
        wal := { w with
          size := w.size + buf.length, bytesSinceSync := w.bytesSinceSync + buf.length }
        events := [.write .log buf] }
  | synced (hpolicy : w.policy = .kAlways ∧ w.groupCommit = false) (hsync : fate.sync = true) :
      Committed w buf now fate {
        ok := true
        wal := { w with
          size := w.size + buf.length, bytesSinceSync := 0, lastSync := now.steady
          syncs := w.syncs + 1 }
        events := [.write .log buf, .fsync .log true] }
  | unsynced (hpolicy : w.policy = .kAlways ∧ w.groupCommit = false)
      (hsync : fate.sync = false) :
      Committed w buf now fate {
        ok := false
        wal := { w with
          size := w.size + buf.length, bytesSinceSync := w.bytesSinceSync + buf.length }
        events := [.write .log buf, .fsync .log false] }

theorem writeAll_cases (data : Bytes) (cut : Option Nat) :
    writeAll data cut = (data, true) ∨
      ∃ n, cut = some n ∧ n < data.length ∧ writeAll data cut = (data.take n, false) := by
  cases cut with
  | none => exact Or.inl rfl
  | some n =>
      rw [writeAll]
      split
      · next h => exact Or.inr ⟨n, rfl, h, rfl⟩
      · exact Or.inl rfl

theorem Wal.commit_cases (w : Wal) (buf : Bytes) (now : Reading) (fate : LogFate) :
    w.Committed buf now fate (w.commit buf now fate) := by
  rw [Wal.commit]
  rcases writeAll_cases buf fate.cut with h | ⟨n, hcut, hn, h⟩
  · rw [h]
    simp only []
    rw [if_neg (by decide)]
    split
    · next hpolicy =>
        cases hsync : fate.sync with
        | true => exact .synced hpolicy hsync
        | false => exact .unsynced hpolicy hsync
    · next hpolicy => exact .landed hpolicy
  · rw [h]
    exact .torn n hcut hn

theorem batchBytes_singleton (m : Mutation) (ts : Int64) :
    Wal.batchBytes [m] ts = encodeRecord m ts := by
  simp [Wal.batchBytes]

theorem Wal.append_eq (w : Wal) (m : Mutation) (now : Reading) (fate : LogFate) :
    w.append m now fate = w.commit (Wal.batchBytes [m] now.wall) now fate := by
  rw [Wal.append, batchBytes_singleton]

theorem Wal.appendBatch_eq (w : Wal) (ms : List Mutation) (now : Reading) (fate : LogFate) :
    w.appendBatch ms now fate =
      if ms = [] then { ok := true, wal := w, events := [] }
      else w.commit (Wal.batchBytes ms now.wall) now fate := by
  rw [Wal.appendBatch]
  cases ms <;> rfl

theorem Wal.step_eq (w : Wal) (step : LogStep) :
    w.step step =
      if step.mutations = [] then { ok := true, wal := w, events := [] }
      else w.commit (Wal.batchBytes step.mutations step.now.wall) step.now step.fate := by
  obtain ⟨call, now, fate⟩ := step
  cases call with
  | append m => exact w.append_eq m now fate
  | appendBatch ms => exact w.appendBatch_eq ms now fate

/-- An append does not touch the tables, however it ends. -/
theorem Wal.step_tables (w : Wal) (step : LogStep) (d : Disk) :
    (d.run (w.step step).events).tables = d.tables := by
  rw [Wal.step_eq]
  split
  · rfl
  · have hcases := w.commit_cases (Wal.batchBytes step.mutations step.now.wall) step.now step.fate
    generalize w.commit _ _ _ = l at hcases
    cases hcases <;> rfl

/-- The calls of a `truncate`: none, or the cut and the sync that follows it. -/
theorem Wal.truncate_cases (w : Wal) (now : Reading) (fate : TruncateFate) :
    (w.truncate now fate = { ok := false, wal := w, events := [] }) ∨
      (w.truncate now fate).ok = fate.sync ∧
        (w.truncate now fate).events = [.ftruncate .log 0, .fsync .log fate.sync] := by
  rw [Wal.truncate]
  split
  · exact Or.inl rfl
  · right
    rw [Wal.sync]
    cases fate.sync <;> exact ⟨rfl, rfl⟩

/-! ## Flush -/

/-- The ways a flush can end. -/
inductive Store.Flushed (s : Store) (now : Reading) (fate : FlushFate) : Outcome Bool → Prop
  /-- There was nothing to do. -/
  | idle (h : (!s.options.hasDir || s.memtable.isEmpty) = true) :
      Flushed s now fate { ret := true, store := s }
  /-- No table got its name. -/
  | unnamed (events : List Event) (h : ∀ e ∈ events, e.OnlyTemp .flushTmp) :
      Flushed s now fate { ret := false, store := s, events }
  /-- The table has its name, but the directory was not synced. -/
  | unsynced (file : Bytes)
      (hfile : TableWritten s.options.bloomBitsPerKey s.memtable.entries.entries file)
      (hdir : fate.fsyncDir = false) :
      Flushed s now fate {
        ret := false, store := s
        events := tempEvents .flushTmp file ++
          [.rename .flushTmp (.table s.nextSequence), .fsyncDir false] }
  /-- The table is durable, but the log was not cut, or not durably. -/
  | uncut (file : Bytes)
      (hfile : TableWritten s.options.bloomBitsPerKey s.memtable.entries.entries file)
      (hcut : (s.onLog fun w => w.truncate now fate.truncate).ret = false) :
      Flushed s now fate {
        ret := false, store := (s.onLog fun w => w.truncate now fate.truncate).store
        events := tempEvents .flushTmp file ++
          [.rename .flushTmp (.table s.nextSequence), .fsyncDir true] ++
          (s.onLog fun w => w.truncate now fate.truncate).events }
  | done (file : Bytes) (table : Sstable)
      (hfile : TableWritten s.options.bloomBitsPerKey s.memtable.entries.entries file)
      (hcut : (s.onLog fun w => w.truncate now fate.truncate).ret = true)
      (hopen : openTable (.table s.nextSequence) file s.options.useBloom = some table)
      (hholds : table.Holds s.memtable.entries.entries)
      (hdir : s.options.hasDir = true) :
      Flushed s now fate {
        ret := true
        store := { (s.onLog fun w => w.truncate now fate.truncate).store with
          sstables := table :: s.sstables
          nextSequence := (s.nextSequence + 1) % 2 ^ 64
          memtable := s.memtable.clear }
        events := tempEvents .flushTmp file ++
          [.rename .flushTmp (.table s.nextSequence), .fsyncDir true] ++
          (s.onLog fun w => w.truncate now fate.truncate).events }

theorem Store.flush_cases {s : Store} (hs : s.Sane) (now : Reading) (fate : FlushFate) :
    s.Flushed now fate (s.flush now fate) := by
  rw [Store.flush]
  split
  · next h => exact .idle h
  · next hwork =>
      simp only []
      split
      · exact .unnamed _ (giveUp_onlyTemp _ _ _ _ _)
      · next htemp =>
          simp only [Bool.or_eq_true, Bool.not_eq_true', not_or, Bool.not_eq_false] at htemp
          obtain ⟨_, hsmall, hevents⟩ := writeTemp_true htemp.1
          have hfile : TableWritten s.options.bloomBitsPerKey s.memtable.entries.entries
              s.flushWriter.finish := ⟨rfl, hsmall⟩
          rw [hevents]
          split
          · next hdir =>
              have hfalse : fate.fsyncDir = false := by simpa using hdir
              rw [hfalse]
              exact .unsynced _ hfile hfalse
          · next hdir =>
              have htrue : fate.fsyncDir = true := by simpa using hdir
              rw [htrue]
              split
              · next hcut => exact .uncut _ hfile (by simpa using hcut)
              · next hcut =>
                  obtain ⟨t, ht, hholds, _⟩ := openTable_writeTable s.memtable.entries.sorted
                    hs.entries_fit hfile (.table s.nextSequence) s.options.useBloom
                  rw [ht]
                  have hhas : s.options.hasDir = true := by
                    cases hd : s.options.hasDir with
                    | true => rfl
                    | false => rw [hd] at hwork; exact absurd rfl hwork
                  exact .done _ t hfile (by simpa using hcut) ht hholds hhas

/-- A threshold flush is no flush, or a flush whose success is remembered. -/
theorem Store.maybeFlush_cases (s : Store) (now : Reading) (fate : FlushFate) :
    s.maybeFlush now fate = { ret := (), store := s } ∨
      s.maybeFlush now fate =
        { ret := ()
          store := { (s.flush now fate).store with flushFailed := !(s.flush now fate).ret }
          events := (s.flush now fate).events } := by
  rw [Store.maybeFlush]
  split
  · exact Or.inl rfl
  · split
    · exact Or.inl rfl
    · exact Or.inr rfl

/-! ## Mutations -/

theorem Store.mutate_refused {α : Type} {s : Store} {ms : List Mutation} {log : Wal → Logged}
    {memtable : Memtable} {now : Reading} {fate : FlushFate} {refused accepted : α}
    (h : (s.onLog log).ret = false) :
    s.mutate ms log memtable now fate refused accepted =
      { ret := refused, store := { s with wal := (s.onLog log).store.wal }
        events := .began ms :: (s.onLog log).events } := by
  rw [Store.mutate]
  simp only [h]
  rw [if_pos (by decide), ← Store.onLog_store]

theorem Store.mutate_accepted {α : Type} {s : Store} {ms : List Mutation}
    {log : Wal → Logged} {memtable : Memtable} {now : Reading} {fate : FlushFate}
    {refused accepted : α} (h : (s.onLog log).ret = true) :
    s.mutate ms log memtable now fate refused accepted =
      { ret := accepted
        store := (Store.maybeFlush { s with memtable, wal := (s.onLog log).store.wal }
          now fate).store
        events := .began ms :: (s.onLog log).events ++ .applied ms ::
          (Store.maybeFlush { s with memtable, wal := (s.onLog log).store.wal }
            now fate).events } := by
  have hstore : { (s.onLog log).store with memtable } =
      { s with memtable, wal := (s.onLog log).store.wal } := by
    rw [Store.onLog_store]
  rw [Store.mutate]
  simp only [h]
  rw [if_neg (by decide), hstore]

/-! ## Compaction -/

theorem extendRun_le (sizes : List Nat) : ∀ i smallest, extendRun sizes i smallest ≤ i := by
  intro i
  induction i with
  | zero => intro _; exact Nat.le_refl _
  | succ i ih =>
      intro smallest
      rw [extendRun]
      split
      · exact Nat.le_refl _
      · exact Nat.le_succ_of_le (ih _)

/-- The run chosen is long enough and lies within the tables. -/
theorem pickRun_bounds {sizes : List Nat} :
    ∀ {fuel i first len : Nat}, pickRun sizes fuel i = some (first, len) →
      kCompactionTrigger ≤ len ∧ first + len ≤ i := by
  intro fuel
  induction fuel with
  | zero => intro i first len h; cases h
  | succ fuel ih =>
      intro i first len h
      have hext := extendRun_le sizes i (sizes.getD (i - 1) 0)
      rw [pickRun] at h
      split at h
      · cases h
      · simp only [] at h
        split at h
        · next hlong =>
            simp only [Option.some.injEq, Prod.mk.injEq] at h
            omega
        · obtain ⟨hlen, hle⟩ := ih h
          refine ⟨hlen, ?_⟩
          split at hle <;> omega

theorem Store.chooseRun_bounds {s : Store} {d : Disk} {first len : Nat}
    (h : s.chooseRun d = some (first, len)) :
    s.options.useCompaction = true ∧ s.options.hasDir = true ∧ kCompactionTrigger ≤ len ∧
      first + len ≤ s.sstables.length := by
  rw [Store.chooseRun] at h
  split at h
  · cases h
  · next hc =>
      split at h
      · cases h
      · next hd =>
          simp only [Bool.or_eq_true, Bool.not_eq_true', not_or, Bool.not_eq_false] at hd
          exact ⟨by simpa using hc, hd.1, pickRun_bounds h⟩

/-- A run and what lies on either side of it. -/
theorem run_split {α : Type} (xs : List α) (first len : Nat) :
    xs.take first ++ (xs.drop first).take len ++ xs.drop (first + len) = xs := by
  rw [List.append_assoc, ← List.drop_drop, List.take_append_drop, List.take_append_drop]

/-- The entries of a run of tables. -/
theorem holds_run {ts : List Sstable} {ess : List (List (Bytes × Entry))}
    (h : List.Forall₂ Sstable.Holds ts ess) (first len : Nat) :
    List.Forall₂ Sstable.Holds ((ts.drop first).take len) ((ess.drop first).take len) :=
  List.forall₂_take len (List.forall₂_drop first h)

theorem mem_unlinkEvents {ok : Bool} {file : FileName} {e : Event}
    (h : e ∈ unlinkEvents ok file) : e = .unlink file := by
  rw [unlinkEvents] at h
  split at h
  · exact List.mem_singleton.mp h
  · cases h

theorem mem_unlinkRun {unlink : Nat → Bool} {e : Event} :
    ∀ {n : Nat} {paths : List FileName}, e ∈ unlinkRun unlink n paths →
      ∃ path ∈ paths, e = .unlink path := by
  intro n paths
  induction paths generalizing n with
  | nil => intro he; cases he
  | cons path paths ih =>
      intro he
      rw [unlinkRun, List.mem_append] at he
      rcases he with he | he
      · exact ⟨path, List.mem_cons_self, mem_unlinkEvents he⟩
      · obtain ⟨path', hpath', rfl⟩ := ih he
        exact ⟨path', List.mem_cons_of_mem _ hpath', rfl⟩

theorem unlinkRun_all {unlink : Nat → Bool} (h : ∀ n, unlink n = true) :
    ∀ {n : Nat} {paths : List FileName}, ∀ path ∈ paths,
      Event.unlink path ∈ unlinkRun unlink n paths := by
  intro n paths
  induction paths generalizing n with
  | nil => intro path hpath; cases hpath
  | cons path paths ih =>
      intro path' hpath'
      rw [unlinkRun, unlinkEvents, h n]
      rcases List.mem_cons.mp hpath' with rfl | hpath'
      · exact List.mem_append_left _ List.mem_cons_self
      · exact List.mem_append_right _ (ih path' hpath')

theorem unlinkAll_snd (unlink : Nat → Bool) : ∀ (n : Nat) (paths : List FileName),
    (unlinkAll unlink n paths).2 = unlinkRun unlink n paths := by
  intro n paths
  induction paths generalizing n with
  | nil => rfl
  | cons path paths ih => rw [unlinkAll, unlinkRun, ← ih]

/-- The names of the tables of a run. -/
def Store.runPaths (s : Store) (first len : Nat) : List FileName :=
  ((s.sstables.drop first).take len).map (·.path)

/-- The name the merged table of a run gets. -/
def Store.runTarget (s : Store) (first len : Nat) : FileName :=
  (s.runPaths first len).headD .compactTmp

/-- The ways a merge of one run can end. `out` is what the merge wrote. -/
inductive Store.Compacted (s : Store) (first len : Nat) (env : Env)
    (out : List (Bytes × Entry)) : Outcome Nat → Prop
  /-- The merged table did not get its name. -/
  | unnamed (events : List Event) (h : ∀ e ∈ events, e.OnlyTemp .compactTmp) :
      Compacted s first len env out { ret := 0, store := s, events }
  /-- It did, but the directory was not synced. -/
  | unsynced (file : Bytes) (hfile : TableWritten s.options.bloomBitsPerKey out file)
      (hdir : env.compact.fsyncDir = false) :
      Compacted s first len env out {
        ret := 0, store := s
        events := tempEvents .compactTmp file ++
          .rename .compactTmp (s.runTarget first len) :: [.fsyncDir false] }
  | replaced (file : Bytes) (table : Sstable)
      (hfile : TableWritten s.options.bloomBitsPerKey out file)
      (hopen : openTable (s.runTarget first len) file s.options.useBloom = some table)
      (hholds : table.Holds out) (hne : out ≠ []) :
      Compacted s first len env out {
        ret := len - 1
        store := { s with
          sstables := s.sstables.take first ++ table :: s.sstables.drop (first + len)
          compactions := s.compactions + 1 }
        events := tempEvents .compactTmp file ++
          .rename .compactTmp (s.runTarget first len) :: .fsyncDir true ::
            (unlinkRun env.compact.unlink 1 (s.runPaths first len).tail ++
              [.fsyncDir env.compact.fsyncDirAfter]) }
  /-- Nothing was worth keeping. -/
  | emptied (file : Bytes) (hfile : TableWritten s.options.bloomBitsPerKey out file)
      (hnil : out = []) :
      Compacted s first len env out {
        ret := len
        store := { s with
          sstables := s.sstables.take first ++ s.sstables.drop (first + len)
          compactions := s.compactions + 1 }
        events := tempEvents .compactTmp file ++
          .rename .compactTmp (s.runTarget first len) :: .fsyncDir true ::
            (unlinkRun env.compact.unlink 1 (s.runPaths first len).tail ++
              .fsyncDir env.compact.fsyncDirAfter ::
              (unlinkEvents env.compact.unlinkTarget (s.runTarget first len) ++
                [.fsyncDir env.compact.fsyncDirLast])) }

theorem Store.compactRun_cases {s : Store} {ess : List (List (Bytes × Entry))}
    (h : List.Forall₂ Sstable.Holds s.sstables ess) (first len : Nat) (env : Env) :
    ∃ out, Merged (first + len == s.sstables.length) (env.clock 0).wall
        ((ess.drop first).take len) out ∧
      s.Compacted first len env out (s.compactRun first len env) := by
  obtain ⟨out, hout, hcompact⟩ := compact_eq (holds_run h first len) s.options.bloomBitsPerKey
    (first + len == s.sstables.length) (env.clock 0).wall
  refine ⟨out, hout, ?_⟩
  rw [Store.compactRun]
  simp only [hcompact]
  rw [← Store.runPaths, ← Store.runTarget]
  split
  · exact .unnamed _ (giveUp_onlyTemp _ _ _ _ _)
  · next htemp =>
      simp only [Bool.or_eq_true, Bool.not_eq_true', not_or, Bool.not_eq_false] at htemp
      obtain ⟨_, hsmall, hevents⟩ := writeTemp_true htemp.1
      have hfile : TableWritten s.options.bloomBitsPerKey out
          (writeTable s.options.bloomBitsPerKey out) := ⟨rfl, hsmall⟩
      rw [hevents]
      split
      · next hdir =>
          have hfalse : env.compact.fsyncDir = false := by simpa using hdir
          rw [hfalse]
          exact .unsynced _ hfile hfalse
      · next hdir =>
          have htrue : env.compact.fsyncDir = true := by simpa using hdir
          rw [htrue]
          simp only [List.append_assoc, List.cons_append, List.nil_append]
          split
          · next hpos =>
              obtain ⟨t, ht, hholds, _⟩ := openTable_writeTable hout.sorted hout.fits hfile
                (s.runTarget first len) s.options.useBloom
              rw [ht]
              exact .replaced _ t hfile ht hholds (List.length_pos_iff.mp hpos)
          · next hpos =>
              exact .emptied _ hfile (List.length_eq_zero_iff.mp (by omega))

end Cachedb
