import Cachedb.Lib.Guarded
import Cachedb.Proofs.AckedWrites
import Cachedb.Proofs.FlushAll

/-!
# The directory always opens

The constructor refuses a directory with a table that is not whole, and then
the server does not start. Nothing the server does makes such a table: not a
kill, not a loss of power, not a system call that fails, in any order and any
number of times, with merges and `FLUSHALL`s among the commands.

A table is whole and synced before it gets its name, and no call is made on a
table but to remove it. `Orderly` says so of a sequence of calls. Every call on
the store makes orderly calls on the directory, whatever fails in it, and so
does every run of the server; stopped anywhere they are still orderly. Of the
directory the kernel shows that is enough. What a loss of power may leave is
`Volume.Guards`, with the tables as the final names.
-/

namespace Cachedb

open KMerge Layers

/-! ## Orderly calls -/

def FileName.IsTable (file : FileName) : Prop := ∃ seq, file = .table seq

theorem FileName.IsTemp.not_table {temp : FileName} (h : temp.IsTemp) : ¬temp.IsTable := by
  rintro ⟨seq, rfl⟩
  rcases h with h | h <;> cases h

theorem not_table_log : ¬FileName.log.IsTable := fun ⟨_, h⟩ => nomatch h

/-- A file that opens as a table. -/
def GoodTable (file : Bytes) : Prop := ∃ es, FileHolds file es

/-- The call gives no table its name and does not change one. It may remove
one. -/
def Event.Aloof : Event → Prop
  | .openTrunc file => ¬file.IsTable
  | .openAppend file => ¬file.IsTable
  | .write file _ => ¬file.IsTable
  | .fsync file _ => ¬file.IsTable
  | .ftruncate file _ => ¬file.IsTable
  | .rename _ _ => False
  | _ => True

/-- Every table that gets a name has just been written, whole, and synced. -/
inductive Orderly : List Event → Prop
  | nil : Orderly []
  | aloof {e : Event} {es : List Event} (he : e.Aloof) (h : Orderly es) : Orderly (e :: es)
  | named {temp : FileName} (ht : temp.IsTemp) {file : Bytes} (hfile : GoodTable file) (seq : Nat)
      {es : List Event} (h : Orderly es) :
      Orderly (tempEvents temp file ++ .rename temp (.table seq) :: es)

theorem Orderly.of_aloof {es : List Event} (h : ∀ e ∈ es, e.Aloof) : Orderly es := by
  induction es with
  | nil => exact .nil
  | cons e es ih =>
      rw [List.forall_mem_cons] at h
      exact .aloof h.1 (ih h.2)

theorem Orderly.append {xs ys : List Event} (h : Orderly xs) (h' : Orderly ys) :
    Orderly (xs ++ ys) := by
  induction h with
  | nil => exact h'
  | aloof he _ ih => exact .aloof he ih
  | named ht hfile seq _ ih =>
      rw [List.append_assoc]
      exact .named ht hfile seq ih

theorem aloof_onlyTemp {temp : FileName} (ht : temp.IsTemp) {e : Event} (h : e.OnlyTemp temp) :
    e.Aloof := by
  cases e with
  | openTrunc file => exact h ▸ ht.not_table
  | write file data => exact h ▸ ht.not_table
  | fsync file ok => exact h ▸ ht.not_table
  | unlink file => trivial
  | openAppend file => cases h
  | ftruncate file n => cases h
  | rename src dst => cases h
  | _ => trivial

theorem Event.Torn.aloof {e e' : Event} (h : Event.Torn e e') (he : e.Aloof) : e'.Aloof := by
  cases h
  exact he

/-- Stopped anywhere, orderly calls are orderly. -/
theorem Orderly.cut {es done : List Event} (h : Orderly es) (hcut : Cut Event.Torn es done) :
    Orderly done := by
  induction h generalizing done with
  | nil => rw [hcut.nil_inv]; exact .nil
  | aloof he _ ih =>
      cases hcut with
      | stop => exact .nil
      | inside _ htorn => exact .aloof (htorn.aloof he) .nil
      | next _ hcut => exact .aloof he (ih hcut)
  | @named temp ht file hfile seq es _ ih =>
      rcases hcut.append_inv with hcut | ⟨rest, rfl, hrest⟩
      · refine .of_aloof fun e he => aloof_onlyTemp ht ?_
        exact cut_onlyTemp hcut (tempEvents_onlyTemp temp file) e he
      · rcases hrest.cons_inv with rfl | ⟨e', htorn, _⟩ | ⟨later, rfl, hlater⟩
        · rw [List.append_nil]
          exact .of_aloof fun e he => aloof_onlyTemp ht (tempEvents_onlyTemp temp file e he)
        · cases htorn
        · exact .named ht hfile seq (ih hlater)

/-! ## What the kernel shows -/

theorem Disk.sane_iff (d : Disk) :
    d.Sane ↔ ∀ seq file, d.tables.find seq = some file → GoodTable file := by
  constructor
  · intro h seq file hfind
    exact h (seq, file) (List.mem_reverse.mpr (SortedMap.find_eq_some_iff.mp hfind))
  · intro h p hp
    exact h p.1 p.2 (SortedMap.find_eq_some_iff.mpr (List.mem_reverse.mp hp))

/-- A call that stays away from the tables takes some away at most. -/
theorem Disk.find_aloof {e : Event} (h : e.Aloof) (d : Disk) (seq : Nat) {file : Bytes}
    (hfind : (d.apply e).tables.find seq = some file) : d.tables.find seq = some file := by
  have hput : ∀ {name : FileName} (data : Bytes), ¬name.IsTable →
      (d.put name data).tables = d.tables := by
    intro name data hname
    cases name with
    | table k => exact absurd ⟨k, rfl⟩ hname
    | _ => rfl
  cases e with
  | openTrunc name => rwa [Disk.apply, hput _ h] at hfind
  | openAppend name => rwa [Disk.apply, hput _ h] at hfind
  | write name data => rwa [Disk.apply, hput _ h] at hfind
  | ftruncate name n => rwa [Disk.apply, hput _ h] at hfind
  | rename src dst => cases h
  | unlink name =>
      cases name with
      | table k =>
          rw [Disk.apply, Disk.remove, SortedMap.find_erase] at hfind
          split at hfind
          · cases hfind
          · exact hfind
      | _ => exact hfind
  | _ => exact hfind

theorem Disk.tables_named (d : Disk) {temp : FileName} (ht : temp.IsTemp) (file : Bytes)
    (seq : Nat) :
    (d.run (tempEvents temp file ++ [.rename temp (.table seq)])).tables =
      d.tables.insert seq file := by
  rcases ht with rfl | rfl <;> rfl

/-- Orderly calls leave a directory of tables. -/
theorem Orderly.sane {es : List Event} (h : Orderly es) :
    ∀ {d : Disk}, d.Sane → (d.run es).Sane := by
  induction h with
  | nil => exact fun hd => hd
  | aloof he _ ih =>
      intro d hd
      rw [Disk.sane_iff] at hd
      exact ih ((Disk.sane_iff _).mpr fun seq file hfind => hd seq file (d.find_aloof he seq hfind))
  | @named temp ht file hfile seq es _ ih =>
      intro d hd
      rw [Disk.sane_iff] at hd
      rw [List.append_cons, Disk.run_append]
      refine ih ((Disk.sane_iff _).mpr fun seq' file' hfind => ?_)
      rw [d.tables_named ht, SortedMap.find_insert] at hfind
      split at hfind
      · rw [← Option.some.inj hfind]
        exact hfile
      · exact hd seq' file' hfind

/-! ## What a loss of power leaves -/

/-- Nothing unfinished can turn up under the name of a table. -/
abbrev Media.Sound (m : Media) : Prop := m.Guards FileName.IsTable GoodTable

theorem Event.Aloof.keeps {e : Event} (h : e.Aloof) :
    ∀ op ∈ e.ops, ∀ m : Media, op.Keeps FileName.IsTable GoodTable m := by
  intro op hop m
  cases e with
  | openTrunc file =>
      simp only [Event.ops, List.mem_cons, List.not_mem_nil, or_false] at hop
      rcases hop with rfl | rfl
      · exact h
      · exact h
  | openAppend file => rw [List.mem_singleton.mp hop]; exact h
  | write file data => rw [List.mem_singleton.mp hop]; exact h
  | fsync file ok =>
      cases ok with
      | true => rw [List.mem_singleton.mp hop]; exact h
      | false => cases hop
  | ftruncate file n => rw [List.mem_singleton.mp hop]; exact h
  | rename src dst => cases h
  | unlink file => rw [List.mem_singleton.mp hop]; trivial
  | fsyncDir ok =>
      cases ok with
      | true => rw [List.mem_singleton.mp hop]; trivial
      | false => cases hop
  | _ => cases hop

theorem Media.Sound.orderly {es : List Event} (h : Orderly es) :
    ∀ {m : Media}, m.Sound → (m.after es).Sound := by
  induction h with
  | nil => exact fun hm => hm
  | @aloof e es he _ ih =>
      intro m hm
      rw [← List.singleton_append, Media.after_append]
      refine ih (Volume.Guards.run (fun op hop => ?_) hm)
      exact he.keeps op (by simpa using hop)
  | @named temp ht file hfile seq es _ ih =>
      intro m hm
      have htemp : (m.after (tempEvents temp file)).Sound := by
        refine Volume.Guards.run (fun op hop => ?_) hm
        obtain ⟨e, he, hop⟩ := List.mem_flatMap.mp hop
        exact (aloof_onlyTemp ht (tempEvents_onlyTemp temp file e he)).keeps op hop
      have hmove : (Volume.Op.move temp (.table seq)).Keeps FileName.IsTable GoodTable
          (m.after (tempEvents temp file)) :=
        ⟨⟨seq, rfl⟩, file, hfile, Media.view_tempEvents hm.wf temp file⟩
      rw [List.append_cons, Media.after_append, Media.after_append]
      exact ih (Volume.Guards.apply htemp hmove)

theorem Media.Sound.survives {m : Media} (h : m.Sound) {d : Disk} (hs : m.Survives d.read) :
    d.Sane :=
  d.sane_iff.mpr fun seq _ hfind => Volume.Guards.survives h hs ⟨seq, rfl⟩ hfind

/-- A directory of tables that nobody has touched since it was last safe. -/
theorem Disk.media_sound {d : Disk} (hd : d.Sane) : d.media.Sound := by
  have hfinal : ∀ i, d.media.MayBeFinal FileName.IsTable i →
      ∃ seq file, i = (FileName.table seq).inode ∧ d.tables.find seq = some file ∧
        d.media.names (.table seq) = some i := by
    rintro i (⟨_, ⟨seq, rfl⟩, hi⟩ | ⟨op, hop, _⟩)
    · have hsynced : (if (d.tables.find seq).isSome then some (FileName.table seq).inode
          else none) = some i := hi
      split at hsynced
      · next hsome =>
          obtain ⟨file, hfile⟩ := Option.isSome_iff_exists.mp hsome
          exact ⟨seq, file, (Option.some.inj hsynced).symm, hfile, hi⟩
      · cases hsynced
    · cases hop
  have hwf := d.media_wellFormed
  refine ⟨hwf, fun i hi => ?_, fun i hi => ?_, fun i name hi hname => ?_⟩
  · obtain ⟨seq, _, _, _, hnames⟩ := hfinal i hi
    exact hwf.bounded _ i hnames
  · obtain ⟨seq, file, rfl, hfile, _⟩ := hfinal i hi
    refine ⟨file, d.sane_iff.mp hd seq file hfile, ?_⟩
    show Inode.rest ((d.read (FileName.ofInode (FileName.table seq).inode)).getD []) = _
    rw [FileName.ofInode_inode]
    exact congrArg (fun o => Inode.rest (Option.getD o [])) hfile
  · obtain ⟨seq, _, _, _, hnames⟩ := hfinal i hi
    exact ⟨seq, hwf.injective name _ i hname hnames⟩

/-! ## Every call is orderly -/

theorem aloof_truncate (w : Wal) (now : Reading) (fate : TruncateFate) :
    ∀ e ∈ (w.truncate now fate).events, e.Aloof := by
  rcases w.truncate_cases now fate with h | ⟨_, h⟩
  · rw [h]; exact List.forall_mem_nil _
  · rw [h]
    exact List.forall_mem_cons.mpr ⟨not_table_log,
      List.forall_mem_cons.mpr ⟨not_table_log, List.forall_mem_nil _⟩⟩

theorem aloof_sync (w : Wal) (now : Reading) (ok : Bool) :
    ∀ e ∈ (w.sync now ok).events, e.Aloof := by
  cases ok <;> exact List.forall_mem_cons.mpr ⟨not_table_log, List.forall_mem_nil _⟩

theorem aloof_step (w : Wal) (step : LogStep) : ∀ e ∈ (w.step step).events, e.Aloof := by
  rw [Wal.step_eq]
  split
  · exact List.forall_mem_nil _
  · have hcases := w.commit_cases (Wal.batchBytes step.mutations step.now.wall) step.now step.fate
    generalize w.commit _ _ _ = l at hcases
    cases hcases <;> simp [Event.Aloof, not_table_log]

theorem aloof_onLog {f : Wal → Logged} (h : ∀ w, ∀ e ∈ (f w).events, e.Aloof) (s : Store) :
    ∀ e ∈ (s.onLog f).events, e.Aloof := by
  cases hw : s.wal with
  | none => rw [s.onLog_none f hw]; exact List.forall_mem_nil _
  | some w => rw [s.onLog_some f hw]; exact h w

theorem Store.Flushed.orderly {s : Store} {now : Reading} {fate : FlushFate} {o : Outcome Bool}
    (h : s.Flushed now fate o) (hs : s.Sane) : Orderly o.events := by
  have hcut : Orderly (s.onLog fun w => w.truncate now fate.truncate).events :=
    .of_aloof (aloof_onLog (fun w => aloof_truncate w now fate.truncate) s)
  cases h with
  | idle => exact .nil
  | unnamed events h => exact .of_aloof fun e he => aloof_onlyTemp (Or.inl rfl) (h e he)
  | unsynced file hfile => exact .named (Or.inl rfl) ⟨_, hs.fileHolds hfile⟩ _ (.aloof trivial .nil)
  | uncut file hfile =>
      rw [List.append_assoc]
      exact .named (Or.inl rfl) ⟨_, hs.fileHolds hfile⟩ _ (.aloof trivial hcut)
  | done file table hfile =>
      rw [List.append_assoc]
      exact .named (Or.inl rfl) ⟨_, hs.fileHolds hfile⟩ _ (.aloof trivial hcut)

theorem Store.maybeFlush_orderly {s : Store} (hs : s.Sane) (now : Reading) (fate : FlushFate) :
    Orderly (s.maybeFlush now fate).events := by
  rcases s.maybeFlush_cases now fate with h | h
  · rw [h]; exact .nil
  · rw [h]; exact (Store.flush_cases hs now fate).orderly hs

theorem Store.Compacted.orderly {s : Store} (hn : s.Numbered) {first len : Nat}
    (hlen : 0 < len) (hbound : first + len ≤ s.sstables.length) {env : Env}
    {out : List (Bytes × Entry)} {o : Outcome Nat} (h : s.Compacted first len env out o)
    (hout : ∀ file, TableWritten s.options.bloomBitsPerKey out file → GoodTable file) :
    Orderly o.events := by
  obtain ⟨seqs, hseqs⟩ := hn
  obtain ⟨above, seq, tail, below, hnames⟩ := exists_runNames hseqs hlen hbound
  have htarget : s.runTarget first len = .table seq := by
    rw [Store.runTarget, hnames.run]
    rfl
  have hunlinks : ∀ e ∈ unlinkRun env.compact.unlink 1 (s.runPaths first len).tail, e.Aloof := by
    intro e he
    obtain ⟨path, _, rfl⟩ := mem_unlinkRun he
    trivial
  cases h with
  | unnamed events h => exact .of_aloof fun e he => aloof_onlyTemp (Or.inr rfl) (h e he)
  | unsynced file hfile =>
      rw [htarget]
      exact .named (Or.inr rfl) (hout file hfile) seq (.aloof trivial .nil)
  | replaced file table hfile =>
      rw [htarget]
      refine .named (Or.inr rfl) (hout file hfile) seq (.aloof trivial ?_)
      exact (Orderly.of_aloof hunlinks).append (.aloof trivial .nil)
  | emptied file hfile =>
      rw [htarget]
      refine .named (Or.inr rfl) (hout file hfile) seq (.aloof trivial ?_)
      refine (Orderly.of_aloof hunlinks).append (.aloof trivial (Orderly.append ?_
        (.aloof trivial .nil)))
      exact .of_aloof fun e he => by rw [mem_unlinkEvents he]; trivial

theorem Store.maybeCompact_orderly {s : Store} (hs : s.Sane) (hn : s.Numbered) (d : Disk)
    (env : Env) : Orderly (s.maybeCompact d env).events := by
  rw [Store.maybeCompact]
  cases hrun : s.chooseRun d with
  | none => exact .nil
  | some run =>
      obtain ⟨_, _, hlen, hbound⟩ := Store.chooseRun_bounds hrun
      obtain ⟨ess, hess⟩ := hs.tables
      obtain ⟨out, hout, hcases⟩ := Store.compactRun_cases hess run.1 run.2 env
      refine hcases.orderly hn (Nat.lt_of_lt_of_le (by decide) hlen) hbound fun file hfile => ?_
      exact ⟨out, fileHolds_writeTable hout.sorted hout.fits hfile⟩

theorem Store.call_orderly {s : Store} (hs : s.Sane) (hn : s.Numbered) (d : Disk) (env : Env)
    {c : Call} (hc : c.Fits) : Orderly (s.call d env c).events := by
  have hcases := s.call_cases d env c
  generalize s.call d env c = o at hcases
  cases hcases with
  | nothing => exact .nil
  | mutated step hfate mt hfits hmt now refused accepted f =>
      have hlog : Orderly (s.onLog fun w => w.step step).events :=
        .of_aloof (aloof_onLog (fun w => aloof_step w step) s)
      cases hret : (s.onLog fun w => w.step step).ret with
      | false =>
          rw [Store.mutate_refused hret]
          exact .aloof trivial hlog
      | true =>
          rw [Store.mutate_accepted hret]
          refine .aloof trivial (hlog.append (.aloof trivial (Store.maybeFlush_orderly ?_ _ _)))
          exact ⟨hs.tables, (hfits hs hc).2⟩
  | flushed now => exact (Store.flush_cases hs now env.flush).orderly hs
  | swept => exact .nil
  | merged => exact Store.maybeCompact_orderly hs hn d env
  | cleared =>
      refine .of_aloof fun e he => ?_
      rcases (s.flushAll_cleared env).calls e he with ⟨path, _, rfl⟩ | ⟨ok, rfl⟩ | rfl | ⟨ok, rfl⟩
      · trivial
      · trivial
      · exact not_table_log
      · exact not_table_log

/-! ## The server -/

/-- The engine keeps its tables in order and its calls are orderly. -/
def KeepsOrder (e : Engine) (es : List Event) (e' : Engine) : Prop :=
  e.Kept → e'.Kept ∧ Orderly es

theorem Engine.Kept.called {s : Store} {d : Disk} (hk : Engine.Kept ⟨s, d⟩) {c : Call}
    (hc : c.Fits) (env : Env) :
    Engine.Kept ⟨(s.call d env c).store, d.run (s.call d env c).events⟩ ∧
      Orderly (s.call d env c).events := by
  have hstep : (Engine.step ⟨s, d⟩ (c, env)).Kept := (hk.step hc).1
  exact ⟨hstep, Store.call_orderly hk.sane hk.numbered d env hc⟩

theorem Engine.Kept.onLog {s : Store} {d : Disk} (hk : Engine.Kept ⟨s, d⟩) {f : Wal → Logged}
    (h : ∀ w, ∀ e ∈ (f w).events, e.Aloof) :
    Engine.Kept ⟨(s.onLog f).store, d.run (s.onLog f).events⟩ ∧ Orderly (s.onLog f).events := by
  have horderly := Orderly.of_aloof (aloof_onLog h s)
  obtain ⟨w, hw⟩ := hk.wal
  refine ⟨⟨?_, horderly.sane hk.files, ?_, ?_⟩, horderly⟩
  · rw [s.onLog_some f hw]
    exact ⟨hk.sane.tables, hk.sane.fits⟩
  · rw [s.onLog_some f hw]
    exact hk.numbered
  · rw [s.onLog_some f hw]
    exact ⟨_, rfl⟩

theorem aloof_syncLog (it : Iteration) (w : Wal) :
    ∀ e ∈ (if w.needsSync then w.sync it.now it.sync
      else { ok := true, wal := w, events := [] }).events, e.Aloof := by
  split
  · exact aloof_sync w it.now it.sync
  · exact List.forall_mem_nil _

theorem aloof_maybeSync (w : Wal) (now : Reading) (ok : Bool) :
    ∀ e ∈ (w.maybeSync now ok).events, e.Aloof := by
  unfold Wal.maybeSync
  split
  · exact List.forall_mem_nil _
  · split
    · exact List.forall_mem_nil _
    · split
      · exact List.forall_mem_nil _
      · exact aloof_sync w now ok

theorem aloof_sent {e : Event} (h : e.IsSent) : e.Aloof := by
  cases e with
  | sent fd data => trivial
  | _ => cases h

theorem keepsOrderRule : LoopRule (fun _ => True) Command.Fits (fun _ => True) KeepsOrder where
  refl e hk := ⟨hk, .nil⟩
  trans h h' hk := ⟨(h' (h hk).1).1, (h hk).2.append (h' (h hk).1).2⟩
  command e cmd env _ hcmd hk := by
    have hcases := execute_cases cmd e.store e.disk env
    rw [Engine.command]
    generalize execute cmd e.store env = o at hcases
    cases hcases with
    | replied => exact ⟨hk, .nil⟩
    | called c env' _ _ hfits f => exact hk.called (hfits hcmd) env'
  gaveUp s it _ _ hk := hk.onLog (aloof_syncLog it)
  released s it sent _ _ hsent hk := by
    obtain ⟨hkept, horderly⟩ := hk.onLog (aloof_syncLog it)
    exact ⟨hkept, horderly.append (.of_aloof fun e he => aloof_sent (hsent e he))⟩
  kept s it _ hk := by
    obtain ⟨hswept, hfirst⟩ := hk.called (c := .sweepExpired kSweepBudget) trivial it.sweep
    obtain ⟨hmerged, hsecond⟩ := hswept.called (c := .maybeCompact) trivial it.compact
    obtain ⟨hticked, hthird⟩ := hmerged.onLog fun w => aloof_maybeSync w it.tick it.tickSync
    exact ⟨hticked, (hfirst.append hsecond).append hthird⟩

/-! ## Lives of a directory -/

/-- What a directory may have been through: the volume, and what the kernel shows
of it. A process is started on it, serves for some turns and ends at any point,
be it that the process is killed or that the power goes. -/
inductive Lived : Media → Disk → Prop
  | fresh : Lived (Disk.media {}) {}
  | killed {m : Media} {d : Disk} (h : Lived m d) {cfg : Config}
      (hdir : cfg.options.hasDir = true) {boot : Reading} {o : Outcome Unit}
      (ho : startup cfg d boot = some o) (its : List Iteration) {done : List Event}
      (hcut : Cut Event.Torn (o.events ++ ((o.serve d).run its).events) done) :
      Lived (m.after done) (d.run done)
  | powerLost {m : Media} {d d' : Disk} (h : Lived m d) {cfg : Config}
      (hdir : cfg.options.hasDir = true) {boot : Reading} {o : Outcome Unit}
      (ho : startup cfg d boot = some o) (its : List Iteration) {done : List Event}
      (hcut : Cut Event.Torn (o.events ++ ((o.serve d).run its).events) done)
      (hleft : (m.after done).Survives d'.read) : Lived d'.media d'

/-- Everything a process asks of its directory is orderly. -/
theorem startup_run_orderly {cfg : Config} {d : Disk} (hd : d.Sane)
    (hdir : cfg.options.hasDir = true) {boot : Reading} {o : Outcome Unit}
    (ho : startup cfg d boot = some o) (its : List Iteration) :
    Orderly (o.events ++ ((o.serve d).run its).events) := by
  obtain ⟨o', ho', hstarted⟩ := startup_spec hd cfg hdir boot
  obtain rfl : o = o' := Option.some.inj (ho.symm.trans ho')
  have hkept : (o.serve d).engine.Kept := (hstarted.kept hd).1
  have hrun := keepsOrderRule.run its (o.serve d) (fun _ _ => ⟨trivial, fun _ _ _ _ => trivial⟩)
    (Server.run_fits its (o.serve_bounded d))
  refine Orderly.append (.of_aloof fun e he => ?_) (hrun hkept).2
  rw [startup_events hd hdir ho] at he
  simp only [List.mem_append, List.mem_singleton] at he
  rcases he with ((rfl | rfl) | he) | rfl
  · trivial
  · trivial
  · split at he
    · rw [List.mem_singleton.mp he]
      exact not_table_log
    · cases he
  · exact not_table_log

theorem Lived.sound {m : Media} {d : Disk} (h : Lived m d) : m.Sound ∧ d.Sane := by
  induction h with
  | fresh =>
      have hd : Disk.Sane {} := fun p hp => by cases hp
      exact ⟨Disk.media_sound hd, hd⟩
  | killed _ hdir ho its hcut ih =>
      have horderly := (startup_run_orderly ih.2 hdir ho its).cut hcut
      exact ⟨Media.Sound.orderly horderly ih.1, horderly.sane ih.2⟩
  | powerLost _ hdir ho its hcut hleft ih =>
      have horderly := (startup_run_orderly ih.2 hdir ho its).cut hcut
      have hd := Media.Sound.survives (Media.Sound.orderly horderly ih.1) hleft
      exact ⟨Disk.media_sound hd, hd⟩

/-- Whatever a directory has been through since it was empty, however often the
process was killed or the power went, at whatever point of a startup, a
command, a flush, a merge or a `FLUSHALL`, and whatever calls failed: it
opens. -/
theorem always_opens {m : Media} {d : Disk} (h : Lived m d) (cfg : Config)
    (hdir : cfg.options.hasDir = true) (boot : Reading) : ∃ o, startup cfg d boot = some o := by
  obtain ⟨o, ho, _⟩ := startup_spec h.sound.2 cfg hdir boot
  exact ⟨o, ho⟩

/-- A server that flushes every write is killed once its table has its name, and
the next one while it starts. -/
theorem always_opens_twice :
    let cfg : Config := { options := { memtableLimitBytes := 0 } }
    let d := Disk.run {} (((freshStart cfg).events ++
      (((freshStart cfg).serve {}).run oneSet).events).take 10)
    d.tables.entries.length = 1 ∧ ∃ o, startup {} d {} = some o ∧
      ∃ o', startup {} (d.run ((o.events ++ ((o.serve d).run []).events).take 1)) {} =
        some o' := by
  intro cfg d
  have hfirst : Lived _ d := .killed .fresh rfl (startup_empty rfl) oneSet (Cut.take _ 10)
  obtain ⟨o, ho⟩ := always_opens hfirst {} rfl {}
  exact ⟨by decide +kernel, o, ho,
    always_opens (.killed hfirst rfl ho [] (Cut.take _ 1)) {} rfl {}⟩

end Cachedb
