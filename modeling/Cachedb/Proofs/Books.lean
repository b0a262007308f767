import Cachedb.Proofs.Loop
import Cachedb.Proofs.Recency
import Cachedb.Proofs.Requests

/-!
# The books are right

The server counts: `Wal` adds up the bytes it wrote and its successful
`fsync`s, the store lists the tables it has open, and `INFO` reports the
numbers. None of them is ever looked up in the directory again, so they have to
follow it through every append, flush, merge and `FLUSHALL`, and through every
call that fails.

`LogRule` is the rule for what concerns the log: a relation that the four
operations of `Wal` keep, and the calls that do not name the log, holds of
every run of the server. The number of tables follows from what is known about
their order.
-/

namespace Cachedb

/-! ## Calls beside the log -/

/-- A call that is not about the log. -/
def Event.OffLog : Event → Prop
  | .openTrunc file => file ≠ .log
  | .openAppend file => file ≠ .log
  | .write file _ => file ≠ .log
  | .fsync file _ => file ≠ .log
  | .ftruncate file _ => file ≠ .log
  | .rename src dst => src ≠ .log ∧ dst ≠ .log
  | .unlink file => file ≠ .log
  | _ => True

theorem Event.OnlyTemp.offLog {temp : FileName} (ht : temp ≠ .log) {e : Event}
    (h : e.OnlyTemp temp) : e.OffLog := by
  cases e with
  | openTrunc file => cases h; exact ht
  | write file data => cases h; exact ht
  | fsync file ok => cases h; exact ht
  | unlink file => cases h; exact ht
  | _ => cases h

theorem Disk.put_log {d : Disk} {file : FileName} (h : file ≠ .log) (data : Bytes) :
    (d.put file data).log = d.log := by
  cases file with
  | log => exact absurd rfl h
  | _ => rfl

theorem Disk.remove_log {d : Disk} {file : FileName} (h : file ≠ .log) :
    (d.remove file).log = d.log := by
  cases file with
  | log => exact absurd rfl h
  | _ => rfl

theorem Disk.apply_offLog (d : Disk) {e : Event} (h : e.OffLog) : (d.apply e).log = d.log := by
  cases e with
  | openTrunc file => exact Disk.put_log h _
  | openAppend file => exact Disk.put_log h _
  | write file data => exact Disk.put_log h _
  | ftruncate file n => exact Disk.put_log h _
  | unlink file => exact Disk.remove_log h
  | rename src dst =>
      rw [Disk.apply]
      split
      · exact (Disk.put_log h.2 _).trans (Disk.remove_log h.1)
      · rfl
  | _ => rfl

theorem Disk.run_offLog (es : List Event) :
    ∀ d : Disk, (∀ e ∈ es, e.OffLog) → (d.run es).log = d.log := by
  induction es with
  | nil => exact fun _ _ => rfl
  | cons e es ih =>
      intro d h
      rw [List.forall_mem_cons] at h
      exact (ih (d.apply e) h.2).trans (d.apply_offLog h.1)

/-! ## The rule -/

/-- What the operations of the log keep, as long as appends end in a way that is
`fine`, and what nothing else can break. -/
structure LogRule (fine : LogFate → Prop) (R : Option Wal → List Event → Option Wal → Prop) :
    Prop where
  trans : ∀ {log₁ log₂ log₃ xs ys}, R log₁ xs log₂ → R log₂ ys log₃ → R log₁ (xs ++ ys) log₃
  other : ∀ log {es}, (∀ e ∈ es, Event.OffLog e) → R log es log
  step : ∀ w step, fine step.fate → R (some w) (w.step step).events (some (w.step step).wal)
  truncate : ∀ w now fate,
    R (some w) (w.truncate now fate).events (some (w.truncate now fate).wal)
  sync : ∀ w now ok, R (some w) (w.sync now ok).events (some (w.sync now ok).wal)

/-- No table goes by the name of the log. -/
def Store.Tabled (s : Store) : Prop := ∀ t ∈ s.sstables, t.path ≠ .log

/-- The relation holds from one store to the other, and no table has taken the
name of the log. -/
def Store.Follows (R : Option Wal → List Event → Option Wal → Prop) (s : Store)
    (es : List Event) (s' : Store) : Prop :=
  s.Tabled → s'.Tabled ∧ R s.wal es s'.wal

namespace LogRule

variable {fine : LogFate → Prop} {R : Option Wal → List Event → Option Wal → Prop}

theorem follows_trans (h : LogRule fine R) {s s₁ s₂ : Store} {xs ys : List Event}
    (hx : s.Follows R xs s₁) (hy : s₁.Follows R ys s₂) : s.Follows R (xs ++ ys) s₂ := by
  intro hs
  obtain ⟨hs₁, hfirst⟩ := hx hs
  obtain ⟨hs₂, hsecond⟩ := hy hs₁
  exact ⟨hs₂, h.trans hfirst hsecond⟩

theorem follows_other (h : LogRule fine R) {s s' : Store} (hwal : s'.wal = s.wal)
    (htables : s.Tabled → s'.Tabled) {es : List Event} (hes : s.Tabled → ∀ e ∈ es, e.OffLog) :
    s.Follows R es s' := by
  intro hs
  rw [hwal]
  exact ⟨htables hs, h.other s.wal (hes hs)⟩

theorem onLog (h : LogRule fine R) (s : Store) {f : Wal → Logged}
    (hf : ∀ w, R (some w) (f w).events (some (f w).wal)) :
    s.Follows R (s.onLog f).events (s.onLog f).store := by
  intro hs
  cases hw : s.wal with
  | none =>
      rw [Store.onLog_none f hw, ← hw]
      exact ⟨hs, h.other _ (List.forall_mem_nil _)⟩
  | some w =>
      rw [Store.onLog_some f hw]
      exact ⟨hs, hf w⟩

/-! ### Calls on the store -/

theorem flush (h : LogRule fine R) (s : Store) (now : Reading) (fate : FlushFate) :
    s.Follows R (s.flush now fate).events (s.flush now fate).store := by
  have hcut := h.onLog s fun w => h.truncate w now fate.truncate
  have htemp : ∀ ok content, ∀ e ∈ (writeTemp .flushTmp ok content fate.file).2, e.OffLog :=
    fun ok content e he => (writeTemp_onlyTemp _ _ _ _ e he).offLog (by decide)
  have hnamed : ∀ e ∈ [Event.rename .flushTmp (.table s.nextSequence), .fsyncDir fate.fsyncDir],
      e.OffLog := by
    intro e he
    rcases List.mem_pair.mp he with rfl | rfl
    · exact ⟨by decide, FileName.noConfusion⟩
    · trivial
  have hfile : ∀ {events}, (∀ e ∈ events, Event.OffLog e) → s.Follows R events s := fun he =>
    h.follows_other rfl id fun _ => he
  rw [Store.flush]
  split
  · exact hfile (List.forall_mem_nil _)
  · simp only []
    split
    · exact hfile fun e he => (giveUp_onlyTemp _ _ _ _ _ e he).offLog (by decide)
    · have hput := List.forall_mem_append.mpr ⟨htemp true s.flushWriter.finish, hnamed⟩
      split
      · exact hfile hput
      · have hall := h.follows_trans (hfile hput) hcut
        split
        · exact hall
        · split
          · exact hall
          · next table hopen =>
              intro hs
              refine ⟨?_, (hall hs).2⟩
              refine List.forall_mem_cons.mpr ⟨?_, hs⟩
              rw [(openTable_fields hopen).1]
              exact FileName.noConfusion

theorem maybeFlush (h : LogRule fine R) (s : Store) (now : Reading) (fate : FlushFate) :
    s.Follows R (s.maybeFlush now fate).events (s.maybeFlush now fate).store := by
  rcases s.maybeFlush_cases now fate with hidle | hflush
  · rw [hidle]
    exact h.follows_other rfl id fun _ => List.forall_mem_nil _
  · rw [hflush]
    exact h.flush s now fate

theorem mutate {α : Type} (h : LogRule fine R) (s : Store) (step : LogStep)
    (hfine : fine step.fate) (mt : Memtable) (now : Reading) (fate : FlushFate)
    (refused accepted : α) :
    s.Follows R
      (s.mutate step.mutations (fun w => w.step step) mt now fate refused accepted).events
      (s.mutate step.mutations (fun w => w.step step) mt now fate refused accepted).store := by
  have hmark : ∀ {s : Store} {e : Event}, e.OffLog → s.Follows R [e] s := fun he =>
    h.follows_other rfl id fun _ => List.forall_mem_singleton.mpr he
  have hlogged := h.onLog s fun w => h.step w step hfine
  have hbegan := h.follows_trans (hmark (e := .began step.mutations) trivial) hlogged
  rw [Store.mutate]
  simp only []
  split
  · exact hbegan
  · have happlied : Store.Follows R (s.onLog fun w => w.step step).store
        [.applied step.mutations]
        { (s.onLog fun w => w.step step).store with memtable := mt } :=
      hmark (e := .applied step.mutations) trivial
    have hall := h.follows_trans hbegan (h.follows_trans happlied (h.maybeFlush _ now fate))
    exact hall

theorem compactRun (h : LogRule fine R) (s : Store) (first len : Nat) (env : Env) :
    s.Follows R (s.compactRun first len env).events (s.compactRun first len env).store := by
  intro hs
  have hpaths : ∀ path ∈ ((s.sstables.drop first).take len).map (·.path), path ≠ .log := by
    rw [List.forall_mem_map]
    exact fun t ht => hs t (List.mem_of_mem_drop (List.mem_of_mem_take ht))
  have htarget : (((s.sstables.drop first).take len).map (·.path)).headD .compactTmp ≠ .log := by
    cases hrun : ((s.sstables.drop first).take len).map (·.path) with
    | nil => decide
    | cons path paths => exact hpaths path (by rw [hrun]; exact List.mem_cons_self)
  have hunlink : ∀ ok file, file ≠ .log → ∀ e ∈ unlinkEvents ok file, e.OffLog :=
    fun ok file hfile e he => by rw [mem_unlinkEvents he]; exact hfile
  have hunlinks : ∀ e ∈ unlinkRun env.compact.unlink 1
      (((s.sstables.drop first).take len).map (·.path)).tail, e.OffLog := by
    intro e he
    obtain ⟨path, hpath, rfl⟩ := mem_unlinkRun he
    exact hpaths path (List.mem_of_mem_tail hpath)
  have htemp : ∀ ok content fate, ∀ e ∈ (writeTemp .compactTmp ok content fate).2, e.OffLog :=
    fun ok content fate e he => (writeTemp_onlyTemp _ _ _ _ e he).offLog (by decide)
  have hnamed : ∀ ok, ∀ e ∈ [Event.rename .compactTmp
      ((((s.sstables.drop first).take len).map (·.path)).headD .compactTmp), .fsyncDir ok],
      e.OffLog := by
    intro ok e he
    rcases List.mem_pair.mp he with rfl | rfl
    · exact ⟨by decide, htarget⟩
    · trivial
  have hdir : ∀ ok, ∀ e ∈ [Event.fsyncDir ok], e.OffLog :=
    fun ok e he => by rw [List.mem_singleton.mp he]; trivial
  have hfewer : ∀ t ∈ s.sstables.take first ++ s.sstables.drop (first + len), t.path ≠ .log :=
    List.forall_mem_append.mpr ⟨fun t ht => hs t (List.mem_of_mem_take ht),
      fun t ht => hs t (List.mem_of_mem_drop ht)⟩
  rw [Store.compactRun]
  simp only []
  split
  · exact ⟨hs, h.other _ (List.forall_mem_append.mpr
      ⟨htemp _ _ _, hunlink _ _ (by decide)⟩)⟩
  · split
    · exact ⟨hs, h.other _ (List.forall_mem_append.mpr ⟨htemp _ _ _, hnamed _⟩)⟩
    · have hremoved := List.forall_mem_append.mpr ⟨List.forall_mem_append.mpr
        ⟨List.forall_mem_append.mpr ⟨htemp (compact ((s.sstables.drop first).take len)
          s.options.bloomBitsPerKey (first + len == s.sstables.length) (env.clock 0).wall).ok
          (compact ((s.sstables.drop first).take len) s.options.bloomBitsPerKey
            (first + len == s.sstables.length) (env.clock 0).wall).file env.compact.file,
          hnamed env.compact.fsyncDir⟩, hunlinks⟩, hdir env.compact.fsyncDirAfter⟩
      split
      · split
        · exact ⟨hfewer, h.other _ hremoved⟩
        · next table hopen =>
            refine ⟨?_, h.other _ hremoved⟩
            rw [List.forall_mem_append] at hfewer
            refine List.forall_mem_append.mpr ⟨hfewer.1, List.forall_mem_cons.mpr ⟨?_, hfewer.2⟩⟩
            rw [(openTable_fields hopen).1]
            exact htarget
      · exact ⟨hfewer, h.other _ (List.forall_mem_append.mpr
          ⟨List.forall_mem_append.mpr ⟨hremoved, hunlink _ _ htarget⟩, hdir _⟩)⟩

theorem flushAll (h : LogRule fine R) (s : Store) (env : Env) :
    s.Follows R (s.flushAll env).events (s.flushAll env).store := by
  have hnone : Store.Tabled { s with sstables := [] } := List.forall_mem_nil _
  have hgone : s.Follows R ((unlinkAll env.flushAll.unlink 0 (s.sstables.map (·.path))).2 ++
      if s.options.hasDir then [Event.fsyncDir env.flushAll.fsyncDir] else [])
      { s with sstables := [] } := by
    have hwal : ({ s with sstables := [] } : Store).wal = s.wal := rfl
    refine h.follows_other hwal (fun _ => hnone) fun hs => List.forall_mem_append.mpr ⟨?_, ?_⟩
    · intro e he
      rw [unlinkAll_snd] at he
      obtain ⟨path, hpath, rfl⟩ := mem_unlinkRun he
      obtain ⟨t, ht, rfl⟩ := List.mem_map.mp hpath
      exact hs t ht
    · split
      · exact List.forall_mem_singleton.mpr trivial
      · exact List.forall_mem_nil _
  have hcut := h.follows_trans hgone
    (h.onLog { s with sstables := [] } fun w => h.truncate w (env.clock 0) env.flushAll.truncate)
  rw [Store.flushAll]
  simp only []
  split
  · exact hgone
  · split
    · exact hcut
    · exact hcut

theorem follows_memtable (h : LogRule fine R) {s s' : Store} (hwal : s'.wal = s.wal)
    (htables : s'.sstables = s.sstables) : s.Follows R [] s' :=
  h.follows_other hwal (fun hs => by rwa [Store.Tabled, htables]) fun _ => List.forall_mem_nil _

theorem maybeCompact (h : LogRule fine R) (s : Store) (d : Disk) (env : Env) :
    s.Follows R (s.maybeCompact d env).events (s.maybeCompact d env).store := by
  rw [Store.maybeCompact]
  split
  · exact h.follows_memtable rfl rfl
  · exact h.compactRun s _ _ env

theorem call (h : LogRule fine R) (s : Store) (d : Disk) {env : Env} (hfine : fine env.log)
    (c : Call) : s.Follows R (s.call d env c).events (s.call d env c).store := by
  have hcalled := s.call_cases d env c
  generalize s.call d env c = o at hcalled
  cases hcalled with
  | nothing r => exact h.follows_memtable rfl rfl
  | mutated step hfate mt hfits hmt now refused accepted f =>
      exact h.mutate s step (hfate ▸ hfine) mt now env.flush refused accepted
  | flushed now => exact h.flush s now env.flush
  | swept r n budget count => exact h.follows_memtable rfl rfl
  | merged _ => exact h.maybeCompact s d env
  | cleared _ => exact h.flushAll s env

/-! ### Runs -/

theorem syncLog (h : LogRule fine R) (s : Server) (now : Reading) (sync : Bool) :
    s.engine.store.Follows R (s.syncLog now sync).events
      (s.syncLog now sync).server.engine.store := by
  refine h.onLog s.engine.store fun w => ?_
  split
  · exact h.sync w now sync
  · exact h.other _ (List.forall_mem_nil _)

theorem housekeeping (h : LogRule fine R) (s : Server) (it : Iteration) :
    s.engine.store.Follows R (s.housekeeping it).events
      (s.housekeeping it).server.engine.store := by
  have hswept : s.engine.store.Follows R []
      (s.engine.store.sweepExpired kSweepBudget it.sweep).store := h.follows_memtable rfl rfl
  refine h.follows_trans (h.follows_trans hswept (h.maybeCompact _ _ _)) (h.onLog _ fun w => ?_)
  unfold Wal.maybeSync
  split
  · exact h.other _ (List.forall_mem_nil _)
  · split
    · exact h.other _ (List.forall_mem_nil _)
    · split
      · exact h.other _ (List.forall_mem_nil _)
      · exact h.sync w it.tick it.tickSync

/-- What the log keeps holds of every run of the server. -/
theorem loopRule (h : LogRule fine R) :
    LoopRule (fun env => fine env.log) (fun _ => True)
      (fun _ => True) (fun e es e' => e.store.Follows R es e'.store) where
  refl e := h.follows_memtable rfl rfl
  trans := h.follows_trans
  command e cmd env henv _ := by
    have hexec := execute_cases cmd e.store {} env
    rw [Engine.command]
    generalize execute cmd e.store env = o at hexec
    cases hexec with
    | replied out => exact h.follows_memtable rfl rfl
    | called c env' hsame hkind hfits f =>
        refine h.call e.store {} ?_ c
        rcases hsame with rfl | rfl
        · exact henv
        · exact henv
  gaveUp s it _ _ := h.syncLog s it.now it.sync
  released s it sent _ _ hsent := by
    refine h.follows_trans (h.syncLog s it.now it.sync) (h.follows_other rfl id fun _ e he => ?_)
    have hone := hsent e he
    cases e with
    | sent fd data => trivial
    | _ => cases hone
  kept s it _ := h.housekeeping s it

end LogRule

/-! ## The log's own books -/

/-- How often the log was synced. -/
def logSyncs (es : List Event) : Nat := es.count (.fsync .log true)

/-- From one log to the other by these calls. The syncs are counted. The file is
at least as long as the log takes it to be, and exactly so long where no append
was cut short. -/
def Booked (whole : Prop) (log : Option Wal) (es : List Event) (log' : Option Wal) : Prop :=
  ∀ w, log = some w → ∃ w', log' = some w' ∧ w'.syncs = w.syncs + logSyncs es ∧
    ∀ d : Disk, (w.size ≤ d.logBytes.length → w'.size ≤ (d.run es).logBytes.length) ∧
      (whole → w.size = d.logBytes.length → w'.size = (d.run es).logBytes.length)

section Booked

variable {whole : Prop}

theorem Booked.trans {log₁ log₂ log₃ : Option Wal} {xs ys : List Event}
    (h : Booked whole log₁ xs log₂) (h' : Booked whole log₂ ys log₃) :
    Booked whole log₁ (xs ++ ys) log₃ := by
  intro w hw
  obtain ⟨w₁, hw₁, hsyncs, hsize⟩ := h w hw
  obtain ⟨w₂, hw₂, hsyncs', hsize'⟩ := h' w₁ hw₁
  refine ⟨w₂, hw₂, ?_, fun d => ?_⟩
  · rw [hsyncs', hsyncs, logSyncs, logSyncs, logSyncs, List.count_append, Nat.add_assoc]
  · rw [Disk.run_append]
    exact ⟨fun hle => (hsize' _).1 ((hsize d).1 hle),
      fun hwhole heq => (hsize' _).2 hwhole ((hsize d).2 hwhole heq)⟩

theorem logSyncs_offLog {es : List Event} (h : ∀ e ∈ es, e.OffLog) : logSyncs es = 0 :=
  List.count_eq_zero.mpr fun hmem => h _ hmem rfl

theorem Booked.other (log : Option Wal) {es : List Event} (h : ∀ e ∈ es, e.OffLog) :
    Booked whole log es log := by
  intro w hw
  refine ⟨w, hw, by rw [logSyncs_offLog h, Nat.add_zero], fun d => ?_⟩
  rw [Disk.logBytes, Disk.logBytes, Disk.run_offLog es d h]
  exact ⟨id, fun _ => id⟩

theorem Booked.commit (w : Wal) (buf : Bytes) (now : Reading) {fate : LogFate}
    (hfate : whole → fate.cut = none) :
    Booked whole (some w) (w.commit buf now fate).events (some (w.commit buf now fate).wal) := by
  rintro _ ⟨⟩
  have hgrown : ∀ d : Disk,
      (w.size ≤ d.logBytes.length → w.size + buf.length ≤ (d.logBytes ++ buf).length) ∧
        (whole → w.size = d.logBytes.length →
          w.size + buf.length = (d.logBytes ++ buf).length) := by
    intro d
    rw [List.length_append]
    exact ⟨fun hle => Nat.add_le_add_right hle _, fun _ heq => by rw [heq]⟩
  have hcases := w.commit_cases buf now fate
  generalize w.commit buf now fate = l at hcases
  cases hcases with
  | torn n hcut hn =>
      refine ⟨w, rfl, rfl, fun d => ⟨fun hle => ?_, fun hwhole => ?_⟩⟩
      · show w.size ≤ (d.logBytes ++ buf.take n).length
        rw [List.length_append]
        exact Nat.le_add_right_of_le hle
      · rw [hfate hwhole] at hcut
        cases hcut
  | landed _ => exact ⟨_, rfl, rfl, hgrown⟩
  | synced _ _ => exact ⟨_, rfl, rfl, hgrown⟩
  | unsynced _ _ => exact ⟨_, rfl, rfl, hgrown⟩

theorem bookedRule : LogRule (fun fate => whole → fate.cut = none) (Booked whole) where
  trans h h' := h.trans h'
  other log _ h := .other log h
  step w step hfate := by
    rw [Wal.step_eq]
    split
    · exact .other _ (List.forall_mem_nil _)
    · exact .commit w _ _ hfate
  truncate w now fate := by
    rintro _ ⟨⟩
    unfold Wal.truncate Wal.sync
    split
    · exact ⟨w, rfl, rfl, fun d => ⟨id, fun _ => id⟩⟩
    · dsimp only
      split
      · exact ⟨_, rfl, rfl, fun d => ⟨fun _ => Nat.zero_le _, fun _ _ => rfl⟩⟩
      · exact ⟨_, rfl, rfl, fun d => ⟨fun _ => Nat.zero_le _, fun _ _ => rfl⟩⟩
  sync w now ok := by
    rintro _ ⟨⟩
    cases ok with
    | true => exact ⟨_, rfl, rfl, fun d => ⟨id, fun _ => id⟩⟩
    | false => exact ⟨_, rfl, rfl, fun d => ⟨id, fun _ => id⟩⟩

end Booked

/-! ## The directory of a server -/

/-- The directory of a server is what its calls made of it. -/
theorem diskRule : LoopRule (fun _ => True) (fun _ => True) (fun _ => True)
    (fun e es e' => e'.disk = e.disk.run es) where
  refl e := rfl
  trans h h' := by rw [h', h, Disk.run_append]
  command e cmd env _ _ := rfl
  gaveUp s it _ _ := rfl
  released s it sent _ _ hsent := by
    have hquiet : ∀ (es : List Event) (d : Disk), (∀ e ∈ es, e.IsSent) → d.run es = d := by
      intro es
      induction es with
      | nil => exact fun _ _ => rfl
      | cons e es ih =>
          intro d h
          rw [List.forall_mem_cons] at h
          cases e with
          | sent fd data => exact ih d h.2
          | _ => cases h.1
    rw [Disk.run_append, hquiet sent _ hsent]
    rfl
  kept s it _ := by
    rw [Server.housekeeping]
    simp only [Disk.run_append]
    rfl

theorem Server.run_disk (s : Server) (its : List Iteration) :
    (s.run its).server.engine.disk = s.engine.disk.run (s.run its).events :=
  diskRule.run its s (fun _ _ => ⟨trivial, fun _ _ _ _ => trivial⟩) fun _ _ => trivial

/-! ## The tables -/

/-- No call fails, and no reading lies behind `last`. -/
def Env.Smooth (last : Int64) (env : Env) : Prop :=
  env.NoFailure ∧ ∀ n, (env.clock n).wall ≤ last

/-- A sync is no change to the directory, and none to the tables. -/
theorem Engine.InOrder.onLog {last : Int64} {s : Store} {d : Disk}
    (h : Engine.InOrder last ⟨s, d⟩) {f : Wal → Logged}
    (hf : ∀ w, (f w).events = [] ∨ ∃ ok, (f w).events = [.fsync .log ok]) :
    Engine.InOrder last ⟨(s.onLog f).store, d.run (s.onLog f).events⟩ := by
  obtain ⟨w, hw⟩ := h.backed.wal
  have hw : s.wal = some w := hw
  have hdisk : d.run (s.onLog f).events = d := by
    rw [Store.onLog_some f hw]
    rcases hf w with hnone | ⟨ok, hsync⟩
    · rw [hnone]
      rfl
    · rw [hsync]
      rfl
  rw [hdisk, Store.onLog_some f hw]
  exact ⟨⟨⟨h.backed.sane.tables, h.backed.sane.fits⟩, ⟨_, rfl⟩, h.backed.stands⟩, h.listed,
    h.ranked.congr rfl rfl⟩

theorem Server.syncLog_inOrder {last : Int64} (s : Server) (now : Reading) (sync : Bool)
    (h : s.engine.InOrder last) : (s.syncLog now sync).server.engine.InOrder last := by
  refine Engine.InOrder.onLog (s := s.engine.store) h fun w => ?_
  split
  · cases sync with
    | true => exact Or.inr ⟨true, rfl⟩
    | false => exact Or.inr ⟨false, rfl⟩
  · exact Or.inl rfl

theorem inOrderRule (last : Int64) : LoopRule (Env.Smooth last) Command.Fits
    (fun it => it.sweep.Smooth last ∧ it.compact.Smooth last)
    (fun e es e' => NumbersLeft es → e.InOrder last → e'.InOrder last) where
  refl e _ h := h
  trans h h' hleft := h' (numbersLeft_append.mp hleft).2 ∘ h (numbersLeft_append.mp hleft).1
  command e cmd env henv hcmd := by
    intro hleft h
    have hexec := execute_cases cmd e.store e.disk env
    rw [Engine.command]
    generalize execute cmd e.store env = o at hexec hleft
    cases hexec with
    | replied out => exact h
    | called c env' hsame hkind hfits f =>
        have hsmooth : env'.Smooth last := by
          rcases hsame with rfl | rfl
          · exact henv
          · exact ⟨⟨henv.1.log, henv.1.flush, henv.1.compact, henv.1.flushAll⟩,
              fun n => henv.2 (n + 1)⟩
        have hstep : (e.step (c, env')).InOrder last :=
          h.step (hfits hcmd) hsmooth.1 hsmooth.2 hleft
        exact hstep
  gaveUp s it _ _ _ h := s.syncLog_inOrder it.now it.sync h
  released s it _ _ _ _ _ h := s.syncLog_inOrder it.now it.sync h
  kept s it hit hleft h := by
    rw [Server.housekeeping] at hleft
    obtain ⟨hleft, _⟩ := numbersLeft_append.mp hleft
    obtain ⟨hleft₁, hleft₂⟩ := numbersLeft_append.mp hleft
    have hswept : (s.engine.step (.sweepExpired kSweepBudget, it.sweep)).InOrder last :=
      h.step trivial hit.1.1 hit.1.2 hleft₁
    have hmerged : ((s.engine.step (.sweepExpired kSweepBudget, it.sweep)).step
        (.maybeCompact, it.compact)).InOrder last := hswept.step trivial hit.2.1 hit.2.2 hleft₂
    refine Engine.InOrder.onLog hmerged fun w => ?_
    unfold Wal.maybeSync
    split
    · exact Or.inl rfl
    · split
      · exact Or.inl rfl
      · split
        · exact Or.inl rfl
        · cases it.tickSync with
          | true => exact Or.inr ⟨true, rfl⟩
          | false => exact Or.inr ⟨false, rfl⟩

/-! ## What `INFO` reports -/

/-- The lines of `INFO` about the directory. -/
def persistenceLines (tables bytes syncs : Nat) : Bytes :=
  infoLine "sstable_count" tables ++ (infoLine "wal_bytes" bytes ++ infoLine "wal_fsyncs" syncs)

theorem info_lines (s : Store) (env : Env) :
    persistenceLines s.sstables.length (s.wal.elim 0 Wal.size) (s.wal.elim 0 Wal.syncs) <:+:
      (execute [text "INFO"] s env).ret := by
  have hinfo : execute [text "INFO"] s env = cmdInfo [text "INFO"] s env := by
    have hname : normalizeName (text "INFO") = some (text "info") := by decide
    have hspec : dispatchTable.lookup (text "info") =
        some { handler := cmdInfo, minArgs := 1, maxArgs := some 2 } := rfl
    exact execute_handler [] hname hspec (by decide) (by decide) s env
  rw [hinfo, cmdInfo, Store.reply, bulkString]
  simp only [List.append_assoc]
  -- The header of the string, and the lines about the server and the memtable.
  iterate 15 refine List.IsInfix.trans ?_ (List.suffix_append _ _).isInfix
  exact List.IsPrefix.isInfix ((List.prefix_append_right_inj _).mpr
    ((List.prefix_append_right_inj _).mpr (List.prefix_append _ _)))

theorem Started.tabled {cfg : Config} {d : Disk} {o : Outcome Unit} (h : Started cfg d o) :
    o.store.Tabled := by
  intro t ht
  have hpath : t.path ∈ o.store.sstables.map (·.path) := List.mem_map_of_mem ht
  rw [opened_paths h.opened, List.mem_map] at hpath
  obtain ⟨seq, _, hseq⟩ := hpath
  rw [← hseq]
  exact FileName.noConfusion

/-- Opened for appending, a log that is missing is created empty. -/
theorem Disk.openAppend_logBytes (d : Disk) : (d.run [.openAppend .log]).logBytes = d.logBytes := by
  rcases d with ⟨_ | _⟩
  · rfl
  · rfl

theorem startup_size {cfg : Config} {d : Disk} {boot : Reading} {o : Outcome Unit}
    (h : startup cfg d boot = some o) :
    ∃ w, o.store.wal = some w ∧ w.syncs = 0 ∧ w.size = (d.run o.events).logBytes.length := by
  rw [startup] at h
  split at h
  · cases h
  · cases h
    refine ⟨_, rfl, rfl, ?_⟩
    exact congrArg List.length ((congrArg Disk.logBytes (Disk.run_append d _ _)).trans
      (Disk.openAppend_logBytes _)).symm

/-- A server is started and runs. Whatever fails, `INFO` reports as many
`fsync`s of the log as there were, and no more bytes than the log has. It
reports all of them if no write to the log is cut short; and if nothing fails at
all and no table has the last of the numbers, as many tables as there are in the
directory. -/
theorem info_tells {cfg : Config} {d : Disk} {boot : Reading} {o : Outcome Unit} (hd : d.Sane)
    (hdir : cfg.options.hasDir = true) (h : startup cfg d boot = some o) (last : Int64)
    (its : List Iteration) (env : Env) :
    ∃ tables bytes,
      persistenceLines tables bytes (logSyncs ((o.serve d).run its).events) <:+:
        (execute [text "INFO"] ((o.serve d).run its).server.engine.store env).ret ∧
      bytes ≤ ((o.serve d).run its).server.engine.disk.logBytes.length ∧
      ((∀ it ∈ its, it.Meets (fun env => env.log.cut = none) fun _ => True) →
        bytes = ((o.serve d).run its).server.engine.disk.logBytes.length) ∧
      ((∀ it ∈ its, it.Meets (Env.Smooth last) fun it =>
          it.sweep.Smooth last ∧ it.compact.Smooth last) →
        d.NumbersLeft → NumbersLeft ((o.serve d).run its).events →
        tables = ((o.serve d).run its).server.engine.disk.tables.entries.length) := by
  have hstarted := startup_started hdir hd h
  obtain ⟨w, hw, hsyncs, hsize⟩ := startup_size h
  have hbooked : o.store.Follows
      (Booked (∀ it ∈ its, it.Meets (fun env => env.log.cut = none) fun _ => True))
      ((o.serve d).run its).events ((o.serve d).run its).server.engine.store :=
    bookedRule.loopRule.run its (o.serve d)
      (fun it hit => ⟨trivial, fun r hr env hsup hwhole => (hwhole it hit).2 r hr env hsup⟩)
      (fun _ _ => trivial)
  obtain ⟨w', hw', hsyncs', hsize'⟩ := (hbooked hstarted.tabled).2 w hw
  have hlines := info_lines ((o.serve d).run its).server.engine.store env
  rw [hw', Option.elim_some, Option.elim_some, hsyncs', hsyncs, Nat.zero_add] at hlines
  have hdisk := (o.serve d).run_disk its
  refine ⟨_, _, hlines, ?_, fun hwhole => ?_, fun hsmooth hleft hnumbers => ?_⟩
  · rw [hdisk]
    exact (hsize' _).1 hsize.le
  · rw [hdisk]
    exact (hsize' _).2 hwhole hsize
  · have hfits := Server.run_fits its (o.serve_bounded d)
    have horder := (inOrderRule last).run its (o.serve d) hsmooth hfits hnumbers
      (hstarted.inOrder hd hleft last)
    rw [← horder.opened.1.length_eq, Disk.newestFirst, List.length_reverse]

/-- One client sets a key on an empty directory. The log has one record and was
synced once, and there is no table. -/
theorem info_tells_set :
    startup {} {} {} = some (freshStart {}) ∧
      persistenceLines 0 23 1 <:+:
        (execute [text "INFO"] (((freshStart {}).serve {}).run oneSet).server.engine.store
          {}).ret := by
  have hstart : startup {} {} {} = some (freshStart {}) := startup_empty rfl
  have hsmooth : Env.Smooth 5 {} :=
    ⟨⟨rfl, rfl, rfl, rfl⟩, fun _ => show (0 : Int64) ≤ 5 by decide⟩
  have hmeets : ∀ it ∈ oneSet, it.Meets (Env.Smooth 5) fun it =>
      it.sweep.Smooth 5 ∧ it.compact.Smooth 5 := by
    intro it hit
    rcases List.mem_pair.mp hit with rfl | rfl
    · refine ⟨⟨hsmooth, hsmooth⟩, fun r hr env hsup => ?_⟩
      rw [List.mem_singleton.mp hr] at hsup
      exact hsup.elim
    · refine ⟨⟨hsmooth, hsmooth⟩, fun r hr env hsup => ?_⟩
      rw [List.mem_singleton.mp hr] at hsup
      obtain ⟨n, rfl⟩ := hsup
      exact hsmooth
  have hsyncs : logSyncs (((freshStart {}).serve {}).run oneSet).events = 1 := by decide +kernel
  have hlog : (((freshStart {}).serve {}).run oneSet).server.engine.disk.logBytes.length = 23 := by
    decide +kernel
  have hnone : (((freshStart {}).serve {}).run oneSet).server.engine.disk.tables.entries.length =
      0 := by
    decide +kernel
  obtain ⟨tables, bytes, hlines, _, hbytes, htables⟩ :=
    info_tells (fun _ h => absurd h List.not_mem_nil) rfl hstart 5 oneSet {}
  have hwhole : ∀ it ∈ oneSet, it.Meets (fun env => env.log.cut = none) fun _ => True := by
    intro it hit
    exact ⟨trivial, fun r hr env hsup =>
      congrArg LogFate.cut ((hmeets it hit).2 r hr env hsup).1.log⟩
  have hnumbers : NumbersLeft (((freshStart {}).serve {}).run oneSet).events := by decide +kernel
  rw [hsyncs, htables hmeets (fun p hp => by cases hp) hnumbers, hnone, hbytes hwhole,
    hlog] at hlines
  exact ⟨hstart, hlines⟩

end Cachedb
