import Cachedb.Proofs.Calls

/-!
# A killed process loses nothing that was answered

Between two flushes the log holds the memtable. During a flush it is in up to
three places, and a flush that fails after its rename leaves it in a table the
store does not list, with the log perhaps already empty. What never changes is
this: the log over the one table that may lie above those the store has open
says what the memtable says. `Stands` is that invariant, on the directory
alone; `Engine.Backed` ties it to a store.

Every call keeps it, however its flush ends, and a kill at any point inside a
call leaves a directory that shows the state before the call, plus a beginning
of the call's mutations. All this is short of the last of the numbers a table
can have. The one after it is 0, and a restart takes the table that got it for
the oldest (`last_number_hides_flush`).
-/

namespace Cachedb

open KMerge Layers

/-! ## What one call on the directory leaves alone -/

/-- The two names a table is assembled under. -/
def FileName.IsTemp (temp : FileName) : Prop := temp = .flushTmp ∨ temp = .compactTmp

theorem Disk.apply_onlyTemp {temp : FileName} (ht : temp.IsTemp) {e : Event}
    (h : e.OnlyTemp temp) (d : Disk) :
    (d.apply e).tables = d.tables ∧ (d.apply e).log = d.log := by
  cases e with
  | openTrunc file => rcases ht with rfl | rfl <;> cases h <;> exact ⟨rfl, rfl⟩
  | write file data => rcases ht with rfl | rfl <;> cases h <;> exact ⟨rfl, rfl⟩
  | fsync file ok => exact ⟨rfl, rfl⟩
  | unlink file => rcases ht with rfl | rfl <;> cases h <;> exact ⟨rfl, rfl⟩
  | openAppend file => cases h
  | ftruncate file length => cases h
  | rename src dst => cases h
  | fsyncDir ok => cases h
  | began ms => cases h
  | applied ms => cases h
  | sent fd data => cases h

theorem Disk.run_onlyTemp {temp : FileName} (ht : temp.IsTemp) {es : List Event}
    (h : ∀ e ∈ es, e.OnlyTemp temp) (d : Disk) :
    (d.run es).tables = d.tables ∧ (d.run es).log = d.log := by
  induction es generalizing d with
  | nil => exact ⟨rfl, rfl⟩
  | cons e es ih =>
      obtain ⟨ht', hl'⟩ := ih (fun e' he' => h e' (List.mem_cons_of_mem _ he')) (d.apply e)
      obtain ⟨ht₁, hl₁⟩ := Disk.apply_onlyTemp ht (h e List.mem_cons_self) d
      rw [Disk.run_cons]
      exact ⟨ht'.trans ht₁, hl'.trans hl₁⟩

theorem cut_onlyTemp {temp : FileName} {es done : List Event} (hcut : Cut Event.Torn es done)
    (h : ∀ e ∈ es, e.OnlyTemp temp) : ∀ e ∈ done, e.OnlyTemp temp := by
  intro e he
  rcases hcut.mem he with he | ⟨e₀, he₀, ht⟩
  · exact h e he
  · have hwrite := h e₀ he₀
    cases ht
    exact hwrite

theorem tempEvents_onlyTemp (temp : FileName) (file : Bytes) :
    ∀ e ∈ tempEvents temp file, e.OnlyTemp temp := by
  intro e he
  simp only [tempEvents, List.mem_cons, List.not_mem_nil, or_false] at he
  rcases he with rfl | rfl | rfl <;> rfl

/-! ## The invariant of the directory -/

/-- The directory says what the memtable `mt` over the tables `ps` says. Above
`ps` there may be one table the store does not know, at its next number. -/
structure Stands (now : Int64) (d : Disk) (ps : List (Nat × Bytes)) (next : Nat)
    (mt : Memtable) : Prop where
  files : d.Sane
  whole : Whole d.logBytes
  below : ∀ p ∈ ps, p.1 < next
  layout : ∃ orphan, d.newestFirst = orphan ++ ps ∧
    (orphan = [] ∨ ∃ file, orphan = [(next, file)]) ∧
    ∀ key, AlikeFrom Entry.view now
      ((logFind d.logBytes key).or (tablesFind orphan key)) (mt.find key)

section Stands

variable {now : Int64} {d d' : Disk} {ps : List (Nat × Bytes)} {next : Nat} {mt mt' : Memtable}

theorem Stands.find (h : Stands now d ps next mt) (key : Bytes) :
    SameFrom Entry.view now (d.find key) ((mt.find key).or (tablesFind ps key)) := by
  obtain ⟨orphan, heq, _, hcovers⟩ := h.layout
  rw [Disk.find, heq, tablesFind_append, ← Option.or_assoc]
  exact SameFrom.or (hcovers key) (.refl _)

theorem Stands.congr (h : Stands now d ps next mt) (ht : d'.tables = d.tables)
    (hl : d'.logBytes = d.logBytes) : Stands now d' ps next mt := by
  have hn : d'.newestFirst = d.newestFirst := newestFirst_congr ht
  obtain ⟨hfiles, hwhole, hbelow, hlayout⟩ := h
  refine ⟨?_, by rw [hl]; exact hwhole, hbelow, by rw [hn, hl]; exact hlayout⟩
  rw [Disk.Sane, hn]
  exact hfiles

theorem Stands.alike (h : Stands now d ps next mt)
    (hmt : ∀ key, AlikeFrom Entry.view now (mt.find key) (mt'.find key)) :
    Stands now d ps next mt' := by
  obtain ⟨orphan, heq, horphan, hcovers⟩ := h.layout
  exact ⟨h.files, h.whole, h.below, orphan, heq, horphan,
    fun key => (hcovers key).trans (hmt key)⟩

theorem Stands.mono (h : Stands now d ps next mt) {t : Int64} (ht : now ≤ t) :
    Stands t d ps next mt := by
  obtain ⟨orphan, heq, horphan, hcovers⟩ := h.layout
  exact ⟨h.files, h.whole, h.below, orphan, heq, horphan, fun key => (hcovers key).mono ht⟩

/-- What a table read back shows is what was written to it. -/
theorem alike_settled (o : Option Entry) :
    AlikeFrom Entry.view now (o.map Entry.settled) o := by
  cases o with
  | none => exact .refl _
  | some e => exact ⟨rfl, fun t _ => e.view_settled t⟩

theorem newestFirst_insert (h : Stands now d ps next mt) {file : Bytes}
    (ht : d'.tables = d.tables.insert next file) : d'.newestFirst = (next, file) :: ps := by
  obtain ⟨orphan, heq, horphan, _⟩ := h.layout
  have hentries : d.tables.entries = ps.reverse ++ orphan := by
    have hrev : orphan.reverse = orphan := by
      rcases horphan with rfl | ⟨f, rfl⟩ <;> rfl
    rw [← List.reverse_reverse d.tables.entries]
    show d.newestFirst.reverse = _
    rw [heq, List.reverse_append, hrev]
  rw [Disk.newestFirst, ht]
  show (SortedMap.insertIn next file d.tables.entries).reverse = _
  have htop : SortedMap.insertIn next file orphan = [(next, file)] := by
    rcases horphan with rfl | ⟨f, rfl⟩
    · rfl
    · exact SortedMap.insertIn_self _ _ _ _
  rw [hentries, SortedMap.insertIn_append (fun p hp => h.below p (List.mem_reverse.mp hp)),
    htop, List.reverse_append, List.reverse_reverse]
  rfl

theorem Stands.tablesSane (h : Stands now d ps next mt) : TablesSane ps := by
  obtain ⟨orphan, heq, _, _⟩ := h.layout
  intro p hp
  exact h.files p (by rw [heq]; exact List.mem_append_right _ hp)

theorem Stands.named_sane (h : Stands now d ps next mt) {file : Bytes}
    {es : List (Bytes × Entry)} (hfile : FileHolds file es)
    (ht : d'.tables = d.tables.insert next file) : d'.Sane := by
  rw [Disk.Sane, newestFirst_insert h ht]
  intro p hp
  rcases List.mem_cons.mp hp with rfl | hp
  · exact ⟨_, hfile⟩
  · exact h.tablesSane p hp

/-- The memtable is in a table of its own now. The log may still be there, or
be gone. -/
theorem Stands.named (h : Stands now d ps next mt) {file : Bytes}
    (hfile : FileHolds file mt.entries.entries) (ht : d'.tables = d.tables.insert next file)
    (hl : d'.logBytes = d.logBytes ∨ d'.logBytes = []) : Stands now d' ps next mt := by
  have heq' := newestFirst_insert h ht
  have hself : ∀ key, AlikeFrom Entry.view now (tablesFind [(next, file)] key) (mt.find key) := by
    intro key
    rw [tablesFind_cons, tablesFind_nil, Option.or_none, hfile.find]
    exact alike_settled _
  refine ⟨h.named_sane hfile ht, ?_, h.below, [(next, file)], heq', Or.inr ⟨file, rfl⟩,
    fun key => ?_⟩
  · rcases hl with hl | hl
    · rw [hl]; exact h.whole
    · rw [hl]; exact whole_nil
  · rcases hl with hl | hl
    · rw [hl]
      obtain ⟨orphan, _, _, hcovers⟩ := h.layout
      -- A key the log knows was covered by the log before.
      have hkey := hcovers key
      cases hlog : logFind d.logBytes key with
      | none => exact hself key
      | some e => rw [hlog] at hkey; exact hkey
    · rw [hl, logFind_nil]
      exact hself key

end Stands

/-! ## Flush -/

/-- The calls of a cut of the log, as a flush makes them. -/
def CutEvents (es : List Event) : Prop := es = [] ∨ ∃ ok, es = [.ftruncate .log 0, .fsync .log ok]

theorem Store.onLog_cutEvents (s : Store) (now : Reading) (fate : TruncateFate) :
    CutEvents (s.onLog fun w => w.truncate now fate).events := by
  cases hw : s.wal with
  | none => rw [Store.onLog_none _ hw]; exact Or.inl rfl
  | some w =>
      rw [Store.onLog_some _ hw]
      rcases w.truncate_cases now fate with h | ⟨_, h⟩
      · rw [h]; exact Or.inl rfl
      · exact Or.inr ⟨_, h⟩

/-- After the table has its name, and for every beginning of what follows. -/
theorem named_run (d : Disk) (file : Bytes) (next : Nat) {ok : Bool} {cut done : List Event}
    (hcut : CutEvents cut) (hdone : Cut Event.Torn (.fsyncDir ok :: cut) done) :
    (d.run (tempEvents .flushTmp file ++ .rename .flushTmp (.table next) :: done)).tables =
        d.tables.insert next file ∧
      ((d.run (tempEvents .flushTmp file ++
          .rename .flushTmp (.table next) :: done)).logBytes = d.logBytes ∨
        (d.run (tempEvents .flushTmp file ++
          .rename .flushTmp (.table next) :: done)).logBytes = []) := by
  rcases hcut with rfl | ⟨synced, rfl⟩
  · rcases hdone.cons_inv with rfl | ⟨_, ht, _⟩ | ⟨done', rfl, hd⟩
    · exact ⟨rfl, Or.inl rfl⟩
    · cases ht
    · rw [hd.nil_inv]; exact ⟨rfl, Or.inl rfl⟩
  · rcases hdone.cons_inv with rfl | ⟨_, ht, _⟩ | ⟨done', rfl, hd⟩
    · exact ⟨rfl, Or.inl rfl⟩
    · cases ht
    · rcases hd.cons_inv with rfl | ⟨_, ht, _⟩ | ⟨done'', rfl, hd'⟩
      · exact ⟨rfl, Or.inl rfl⟩
      · cases ht
      · rcases hd'.cons_inv with rfl | ⟨_, ht, _⟩ | ⟨done₃, rfl, hd₃⟩
        · exact ⟨rfl, Or.inr rfl⟩
        · cases ht
        · rw [hd₃.nil_inv]; exact ⟨rfl, Or.inr rfl⟩

/-- A directory that stands for the memtable does so at every point of a flush
that names its table. -/
theorem Stands.named_cut {t : Int64} {d : Disk} {ps : List (Nat × Bytes)} {next : Nat}
    {mt : Memtable} (h : Stands t d ps next mt) {file : Bytes}
    (hfile : FileHolds file mt.entries.entries) {ok : Bool} {cut done : List Event}
    (hcut : CutEvents cut)
    (hdone : Cut Event.Torn (tempEvents .flushTmp file ++
      [.rename .flushTmp (.table next), .fsyncDir ok] ++ cut) done) :
    Stands t (d.run done) ps next mt := by
  have htemp : FileName.IsTemp .flushTmp := Or.inl rfl
  rw [List.append_assoc] at hdone
  rcases hdone.append_inv with hdone | ⟨rest, rfl, hrest⟩
  · obtain ⟨htables, hlog⟩ := Disk.run_onlyTemp htemp
      (cut_onlyTemp hdone (tempEvents_onlyTemp _ _)) d
    exact h.congr htables (by rw [Disk.logBytes, hlog]; rfl)
  · rcases hrest.cons_inv with rfl | ⟨_, ht, _⟩ | ⟨done', rfl, hd⟩
    · obtain ⟨htables, hlog⟩ := Disk.run_onlyTemp htemp (tempEvents_onlyTemp _ file) d
      rw [List.append_nil]
      exact h.congr htables (by rw [Disk.logBytes, hlog]; rfl)
    · cases ht
    · obtain ⟨htables, hlog⟩ := named_run d file next hcut hd
      exact h.named hfile htables hlog

theorem Store.Flushed.stands {s : Store} {now : Reading} {fate : FlushFate} {o : Outcome Bool}
    (h : s.Flushed now fate o) (hs : s.Sane) {t : Int64} {d : Disk} {ps : List (Nat × Bytes)}
    (hd : Stands t d ps s.nextSequence s.memtable) {done : List Event}
    (hdone : Cut Event.Torn o.events done) :
    Stands t (d.run done) ps s.nextSequence s.memtable := by
  cases h with
  | idle _ => rw [hdone.nil_inv]; exact hd
  | unnamed events hevents =>
      obtain ⟨htables, hlog⟩ := Disk.run_onlyTemp (Or.inl rfl) (cut_onlyTemp hdone hevents) d
      exact hd.congr htables (by rw [Disk.logBytes, hlog]; rfl)
  | unsynced file hfile _ =>
      rw [← List.append_nil (tempEvents .flushTmp file ++ _)] at hdone
      exact hd.named_cut (hs.fileHolds hfile) (Or.inl rfl) hdone
  | uncut file hfile _ => exact hd.named_cut (hs.fileHolds hfile) (s.onLog_cutEvents _ _) hdone
  | done file table hfile _ _ _ _ =>
      exact hd.named_cut (hs.fileHolds hfile) (s.onLog_cutEvents _ _) hdone

/-! ## The invariant of a running engine -/

structure Engine.Backed (now : Int64) (e : Engine) : Prop where
  sane : e.store.Sane
  wal : ∃ w, e.store.wal = some w
  stands : ∃ ps, List.Forall₂ (OpenedFrom e.store.options.useBloom) ps e.store.sstables ∧
    Stands now e.disk ps e.store.nextSequence e.store.memtable

theorem Engine.Backed.mono {now t : Int64} {e : Engine} (h : e.Backed now) (ht : now ≤ t) :
    e.Backed t := by
  obtain ⟨ps, hopened, hstands⟩ := h.stands
  exact ⟨h.sane, h.wal, ps, hopened, hstands.mono ht⟩

/-- A restart now would show what the store shows. -/
theorem Engine.Backed.find {now : Int64} {e : Engine} (h : e.Backed now) (key : Bytes) :
    SameFrom Entry.view now (e.disk.find key) (e.store.find key) := by
  obtain ⟨ps, hopened, hstands⟩ := h.stands
  rw [Store.find, (opened_holds hopened hstands.tablesSane).2 key]
  exact hstands.find key

/-- A flush keeps the invariant, however it ends, as long as the numbers of the
tables go up. -/
theorem Store.Flushed.backed {s : Store} {now : Reading} {fate : FlushFate} {o : Outcome Bool}
    (h : s.Flushed now fate o) {t : Int64} {d : Disk} (hb : Engine.Backed t ⟨s, d⟩)
    (hleft : NumbersLeft o.events) :
    Engine.Backed t ⟨o.store, d.run o.events⟩ := by
  obtain ⟨ps, hopened, hstands⟩ := hb.stands
  obtain ⟨w, hw⟩ := hb.wal
  have hsane := (h.same hb.sane).1
  have hrun := h.stands hb.sane hstands (Cut.full _)
  cases h with
  | idle _ => exact hb
  | unnamed _ _ => exact ⟨hsane, hb.wal, ps, hopened, hrun⟩
  | unsynced _ _ _ => exact ⟨hsane, hb.wal, ps, hopened, hrun⟩
  | uncut file _ _ =>
      refine ⟨hsane, ?_, ps, ?_, ?_⟩
      · exact ⟨_, by rw [Store.onLog_some _ hw]⟩
      · rw [Store.onLog_store]; exact hopened
      · rw [Store.onLog_store]; exact hrun
  | done file table hfile hcut hopen hholds _ =>
      have hf := fileHolds_writeTable s.memtable.entries.sorted hb.sane.entries_fit hfile
      have hevents : (s.onLog fun w => w.truncate now fate.truncate).events =
          [.ftruncate .log 0, .fsync .log fate.truncate.sync] := by
        rw [Store.onLog_some _ hw] at hcut ⊢
        rcases w.truncate_cases now fate.truncate with hc | ⟨_, hc⟩
        · rw [hc] at hcut; cases hcut
        · exact hc
      have hopts : (s.onLog fun w => w.truncate now fate.truncate).store.options = s.options := by
        rw [Store.onLog_store]
      refine ⟨hsane, ⟨_, by rw [Store.onLog_some _ hw]⟩, (s.nextSequence, file) :: ps, ?_, ?_⟩
      · refine .cons ?_ ?_
        · show OpenedFrom _ _ _
          rw [OpenedFrom]
          simp only [hopts]
          exact hopen
        · simp only [hopts]
          exact hopened
      · -- The log is empty and the new table is one of the store's own.
        have hfull : Cut Event.Torn (.fsyncDir true ::
            (s.onLog fun w => w.truncate now fate.truncate).events) _ := Cut.full _
        have htables :=
          (named_run d file s.nextSequence (s.onLog_cutEvents now fate.truncate) hfull).1
        have heq := newestFirst_insert hstands htables
        have hlog : (d.run (tempEvents .flushTmp file ++
            [.rename .flushTmp (.table s.nextSequence), .fsyncDir true] ++
            (s.onLog fun w => w.truncate now fate.truncate).events)).logBytes = [] := by
          rw [hevents]
          rfl
        refine ⟨hrun.files, by rw [hlog]; exact whole_nil, ?_, [], ?_, Or.inl rfl, ?_⟩
        · have hnumber : NumberLeft s.nextSequence :=
            hleft (.rename .flushTmp (.table s.nextSequence)) (by simp)
          intro p hp
          show p.1 < (s.nextSequence + 1) % 2 ^ 64
          rw [Nat.mod_eq_of_lt hnumber]
          rcases List.mem_cons.mp hp with rfl | hp
          · exact Nat.lt_succ_self _
          · exact Nat.lt_succ_of_lt (hstands.below p hp)
        · rw [List.append_assoc]
          exact heq
        · intro key
          rw [hlog, logFind_nil]
          exact .refl _

/-! ## Mutations -/

/-- The log took `ms`: one write, and perhaps a sync. -/
structure Appends (ms : List Mutation) (ts : Int64) (l : Logged) : Prop where
  ok : l.ok = true
  events : ms = [] ∧ l.events = [] ∨
    ∃ synced, l.events = .write .log (Wal.batchBytes ms ts) :: synced ∧
      (synced = [] ∨ synced = [.fsync .log true])

theorem Wal.commit_appends (w : Wal) (ms : List Mutation) (ts : Int64) (now : Reading) :
    Appends ms ts (w.commit (Wal.batchBytes ms ts) now {}) := by
  have hcases := w.commit_cases (Wal.batchBytes ms ts) now {}
  generalize w.commit (Wal.batchBytes ms ts) now {} = l at hcases
  cases hcases with
  | torn n hcut _ => cases hcut
  | landed _ => exact ⟨rfl, Or.inr ⟨[], rfl, Or.inl rfl⟩⟩
  | synced _ _ => exact ⟨rfl, Or.inr ⟨_, rfl, Or.inr rfl⟩⟩
  | unsynced _ hsync => cases hsync

theorem Wal.step_appends (w : Wal) (step : LogStep) (hfate : step.fate = {}) :
    Appends step.mutations step.now.wall (w.step step) := by
  rw [Wal.step_eq]
  split
  · next h => exact ⟨rfl, Or.inl ⟨h, rfl⟩⟩
  · rw [hfate]
    exact w.commit_appends _ _ _

/-- Stopped anywhere, an append leaves a beginning of its bytes. -/
theorem Appends.cut {ms : List Mutation} {ts : Int64} {l : Logged} (h : Appends ms ts l)
    (d : Disk) {done : List Event} (hcut : Cut Event.Torn l.events done) :
    (d.run done).tables = d.tables ∧
      ∃ n, (d.run done).logBytes = d.logBytes ++ (Wal.batchBytes ms ts).take n := by
  have hnone : d.logBytes = d.logBytes ++ (Wal.batchBytes ms ts).take 0 := by simp
  rcases h.events with ⟨_, hl⟩ | ⟨synced, hl, hsynced⟩
  · rw [hl] at hcut
    rw [hcut.nil_inv]
    exact ⟨rfl, 0, hnone⟩
  · rw [hl] at hcut
    rcases hcut.cons_inv with rfl | ⟨_, ht, rfl⟩ | ⟨done', rfl, hd⟩
    · exact ⟨rfl, 0, hnone⟩
    · cases ht with
      | write _ _ n => exact ⟨rfl, n, rfl⟩
    · refine ⟨?_, (Wal.batchBytes ms ts).length, ?_⟩
      · rcases hsynced with rfl | rfl
        · rw [hd.nil_inv]; rfl
        · rcases hd.cons_inv with rfl | ⟨_, ht, _⟩ | ⟨_, rfl, hd'⟩
          · rfl
          · cases ht
          · rw [hd'.nil_inv]; rfl
      · rw [List.take_length]
        rcases hsynced with rfl | rfl
        · rw [hd.nil_inv]; rfl
        · rcases hd.cons_inv with rfl | ⟨_, ht, _⟩ | ⟨_, rfl, hd'⟩
          · rfl
          · cases ht
          · rw [hd'.nil_inv]; rfl

theorem Appends.run {ms : List Mutation} {ts : Int64} {l : Logged} (h : Appends ms ts l)
    (d : Disk) : (d.run l.events).logBytes = d.logBytes ++ Wal.batchBytes ms ts := by
  rcases h.events with ⟨rfl, hl⟩ | ⟨synced, hl, hsynced⟩
  · rw [hl]
    show d.logBytes = d.logBytes ++ []
    rw [List.append_nil]
  · rw [hl]
    rcases hsynced with rfl | rfl <;> rfl

/-- A beginning of a batch behind a whole log shows the mutations that are
whole. -/
theorem logFind_torn {d : Disk} (hw : Whole d.logBytes) {ms : List Mutation}
    (hms : ∀ m ∈ ms, m.Fits) (ts : Int64) (n : Nat) (key : Bytes) :
    (logFind (d.logBytes ++ (Wal.batchBytes ms ts).take n) key).or
        (tablesFind d.newestFirst key) =
      (recordsFind (batchRecords (ms.take (wholeRecords ms ts n)) ts) key).or (d.find key) := by
  rw [Disk.find, logFind_append hw, Option.or_assoc, logFind, recordsOf_batch_take hms]

theorem find_torn {d d' : Disk} (hw : Whole d.logBytes) (ht : d'.tables = d.tables)
    {ms : List Mutation} (hms : ∀ m ∈ ms, m.Fits) {ts : Int64} {n : Nat}
    (hl : d'.logBytes = d.logBytes ++ (Wal.batchBytes ms ts).take n) (key : Bytes) :
    d'.find key =
      (recordsFind (batchRecords (ms.take (wholeRecords ms ts n)) ts) key).or (d.find key) := by
  have hn : d'.newestFirst = d.newestFirst := newestFirst_congr ht
  rw [Disk.find, hn, hl, logFind_torn hw hms]

theorem Stands.append {t : Int64} {d d' : Disk} {ps : List (Nat × Bytes)} {next : Nat}
    {mt mt' : Memtable} (h : Stands t d ps next mt) (ht : d'.tables = d.tables)
    {ms : List Mutation} (hms : ∀ m ∈ ms, m.Fits) {ts : Int64}
    (hl : d'.logBytes = d.logBytes ++ Wal.batchBytes ms ts)
    (hmt : ∀ key, mt'.find key =
      (recordsFind (batchRecords ms ts) key).or (mt.find key)) :
    Stands t d' ps next mt' := by
  have hn : d'.newestFirst = d.newestFirst := newestFirst_congr ht
  obtain ⟨orphan, heq, horphan, hcovers⟩ := h.layout
  refine ⟨by rw [Disk.Sane, hn]; exact h.files, ?_, h.below, orphan, by rw [hn, heq], horphan,
    fun key => ?_⟩
  · rw [hl]
    exact h.whole.append (whole_batch hms ts)
  · rw [hl, logFind_append h.whole, Option.or_assoc, logFind, recordsOf_batch hms, hmt key]
    exact AlikeFrom.or (.refl _) (hcovers key)

/-- The log and the memtable have taken the mutations, and nothing was flushed
yet. -/
theorem Engine.Backed.logged {t : Int64} {s : Store} {d : Disk}
    (hb : Engine.Backed t ⟨s, d⟩) {ms : List Mutation} {ts : Int64}
    (hms : ∀ m ∈ ms, m.Fits) {l : Logged} (happ : Appends ms ts l) {mt : Memtable}
    (hfits : ∀ k e, mt.find k = some e → EntryFits (k, e))
    (hmt : ∀ key, mt.find key =
      (recordsFind (batchRecords ms ts) key).or (s.memtable.find key)) :
    Engine.Backed t ⟨{ s with memtable := mt, wal := some l.wal }, d.run l.events⟩ := by
  obtain ⟨ps, hopened, hstands⟩ := hb.stands
  have htables := (happ.cut d (Cut.full _)).1
  exact ⟨⟨hb.sane.tables, hfits⟩, ⟨_, rfl⟩, ps, hopened,
    hstands.append htables hms (happ.run d) hmt⟩

/-- What may be found of a call's mutations after a kill: a beginning of
them, over what the store showed before. -/
def ShowsBeginning (t : Int64) (d : Disk) (ms : List Mutation) (ts : Int64)
    (before : Bytes → Option Entry) : Prop :=
  d.Sane ∧ ∃ n, ∀ key, SameFrom Entry.view t (d.find key)
    ((recordsFind (batchRecords (ms.take n) ts) key).or (before key))

/-- None of the mutations is there yet. -/
theorem Stands.showsNone {t : Int64} {s : Store} {d : Disk} {ps : List (Nat × Bytes)}
    (h : Stands t d ps s.nextSequence s.memtable) {useBloom : Bool}
    (hopened : List.Forall₂ (OpenedFrom useBloom) ps s.sstables) (ms : List Mutation)
    (ts : Int64) : ShowsBeginning t d ms ts s.find := by
  refine ⟨h.files, 0, fun key => ?_⟩
  rw [List.take_zero, Store.find, (opened_holds hopened h.tablesSane).2 key]
  exact h.find key

/-- All of them are there. -/
theorem Stands.showsAll {t : Int64} {s : Store} {d : Disk} {ps : List (Nat × Bytes)}
    {mt : Memtable} (h : Stands t d ps s.nextSequence mt) {useBloom : Bool}
    (hopened : List.Forall₂ (OpenedFrom useBloom) ps s.sstables) {ms : List Mutation} {ts : Int64}
    (hmt : ∀ key, mt.find key =
      (recordsFind (batchRecords ms ts) key).or (s.memtable.find key)) :
    ShowsBeginning t d ms ts s.find := by
  refine ⟨h.files, ms.length, fun key => ?_⟩
  have hfind := h.find key
  rw [hmt key, Option.or_assoc] at hfind
  rw [List.take_length, Store.find, (opened_holds hopened h.tablesSane).2 key]
  exact hfind

/-- A log that was cut in the middle shows the whole records in it. -/
theorem Engine.Backed.showsTorn {t : Int64} {s : Store} {d d' : Disk}
    (hb : Engine.Backed t ⟨s, d⟩) {ms : List Mutation} {ts : Int64} (hms : ∀ m ∈ ms, m.Fits)
    {n : Nat} (htables : d'.tables = d.tables)
    (hlog : d'.logBytes = d.logBytes ++ (Wal.batchBytes ms ts).take n) :
    ShowsBeginning t d' ms ts s.find := by
  obtain ⟨ps, hopened, hstands⟩ := hb.stands
  refine ⟨?_, wholeRecords ms ts n, fun key => ?_⟩
  · rw [Disk.Sane, Disk.newestFirst, htables]
    exact hstands.files
  · rw [find_torn hstands.whole htables hms hlog key]
    exact SameFrom.or (.refl _) (hb.find key)

/-- `maybe_flush` keeps an engine backed. -/
theorem Engine.Backed.maybeFlush {t : Int64} {s : Store} {d : Disk}
    (hb : Engine.Backed t ⟨s, d⟩) (now : Reading) (fate : FlushFate)
    (hleft : NumbersLeft (s.maybeFlush now fate).events) :
    Engine.Backed t ⟨(s.maybeFlush now fate).store, d.run (s.maybeFlush now fate).events⟩ := by
  rcases s.maybeFlush_cases now fate with h | h
  · rw [h]
    exact hb
  · rw [h] at hleft ⊢
    have hbf := (Store.flush_cases hb.sane now fate).backed hb hleft
    exact ⟨⟨hbf.sane.tables, hbf.sane.fits⟩, hbf.wal, hbf.stands⟩

/-- Cut off, it leaves a directory that stands as before. -/
theorem Stands.maybeFlush_cut {t : Int64} {s : Store} {d : Disk} {ps : List (Nat × Bytes)}
    (h : Stands t d ps s.nextSequence s.memtable) (hs : s.Sane) {now : Reading}
    {fate : FlushFate} {done : List Event}
    (hcut : Cut Event.Torn (s.maybeFlush now fate).events done) :
    Stands t (d.run done) ps s.nextSequence s.memtable := by
  rcases s.maybeFlush_cases now fate with hidle | hflush
  · rw [hidle] at hcut
    rw [hcut.nil_inv]
    exact h
  · rw [hflush] at hcut
    exact (Store.flush_cases hs now fate).stands hs h hcut

/-- A mutation keeps the invariant, and a kill inside it shows a beginning of
what it logs. -/
theorem Engine.Backed.mutate {α : Type} {t : Int64} {s : Store} {d : Disk}
    (hb : Engine.Backed t ⟨s, d⟩) (ms : List Mutation) {ts : Int64}
    (hms : ∀ m ∈ ms, m.Fits) (log : Wal → Logged) (hlog : ∀ w, Appends ms ts (log w))
    {mt : Memtable} (hfits : ∀ k e, mt.find k = some e → EntryFits (k, e))
    (hmt : ∀ key, mt.find key =
      (recordsFind (batchRecords ms ts) key).or (s.memtable.find key))
    (now : Reading) (fate : FlushFate) (refused accepted : α) :
    (NumbersLeft (s.mutate ms log mt now fate refused accepted).events →
      Engine.Backed t ⟨(s.mutate ms log mt now fate refused accepted).store,
        d.run (s.mutate ms log mt now fate refused accepted).events⟩) ∧
      ∀ done, Cut Event.Torn (s.mutate ms log mt now fate refused accepted).events done →
        ShowsBeginning t (d.run done) ms ts s.find := by
  obtain ⟨w, hw⟩ := hb.wal
  obtain ⟨ps, hopened, hstands⟩ := hb.stands
  have happ := hlog w
  have honlog := Store.onLog_some log hw
  rw [Store.mutate_accepted (by rw [honlog]; exact happ.ok), honlog]
  simp only []
  obtain ⟨s₁, hs₁⟩ : ∃ s₁, s₁ = { s with memtable := mt, wal := some (log w).wal } := ⟨_, rfl⟩
  rw [← hs₁]
  -- The directory once the log has everything.
  have htables := (happ.cut d (Cut.full _)).1
  have hstands₁ : Stands t (d.run (log w).events) ps s₁.nextSequence s₁.memtable := by
    rw [hs₁]
    exact hstands.append htables hms (happ.run d) hmt
  have hb₁ : Engine.Backed t ⟨s₁, d.run (log w).events⟩ := by
    rw [hs₁]
    exact hb.logged hms happ hfits hmt
  have hall : ∀ d', Stands t d' ps s₁.nextSequence s₁.memtable →
      ShowsBeginning t d' ms ts s.find := by
    intro d' h
    have h : Stands t d' ps s.nextSequence mt := by rwa [hs₁] at h
    exact h.showsAll hopened hmt
  constructor
  · intro hleft
    show Engine.Backed t ⟨_, d.run (_ :: _ ++ _ :: _)⟩
    rw [List.cons_append, Disk.run_cons, Disk.run_append, Disk.run_cons]
    exact hb₁.maybeFlush now fate hleft.behind
  · intro done hcut
    rw [List.cons_append] at hcut
    rcases hcut.cons_inv with rfl | ⟨_, ht, _⟩ | ⟨done', rfl, hcut'⟩
    · exact hstands.showsNone hopened ms ts
    · cases ht
    · rw [Disk.run_cons]
      show ShowsBeginning t (d.run done') ms ts s.find
      rcases hcut'.append_inv with hcut' | ⟨rest, rfl, hrest⟩
      · obtain ⟨ht, n, hl⟩ := happ.cut d hcut'
        exact hb.showsTorn hms ht hl
      · rw [Disk.run_append]
        rcases hrest.cons_inv with rfl | ⟨_, ht, _⟩ | ⟨rest', rfl, hrest'⟩
        · exact hall _ hstands₁
        · cases ht
        · rw [Disk.run_cons]
          exact hall _ (hstands₁.maybeFlush_cut hb₁.sane hrest')

/-! ## Calls -/

/-- Logged mutations over a store that agrees with a map agree with the map
they make. -/
theorem RefMap.foldl_same {t : Int64} {ts : Int64} (ms : List Mutation) :
    ∀ {a : Bytes → Option Entry} {m : RefMap},
      (∀ key, SameFrom Entry.view t (a key) ((m key).map Found.entry)) →
      ∀ key, SameFrom Entry.view t ((recordsFind (batchRecords ms ts) key).or (a key))
        (((ms.foldl RefMap.mutate m) key).map Found.entry) := by
  induction ms with
  | nil => intro a m h key; exact h key
  | cons mu ms ih =>
      intro a m h key
      rw [recordsFind_batch_cons, Option.or_assoc, List.foldl_cons]
      refine ih (a := fun k => (if k = mu.key then some (mu.record ts).entry else none).or (a k))
        (fun k => ?_) key
      obtain ⟨op, mkey, value, stamp⟩ := mu
      cases op with
      | kSet =>
          show SameFrom _ _ ((if k = mkey then some _ else none).or (a k))
            ((if k = mkey then some _ else m k).map Found.entry)
          split
          · exact .refl _
          · exact h k
      | kDelete =>
          show SameFrom _ _ ((if k = mkey then some _ else none).or (a k))
            ((if k = mkey then none else m k).map Found.entry)
          split
          · intro t' _; rfl
          · exact h k

/-- A kill shows the map before the call and a beginning of the call's
mutations. -/
def ShowsDuring (t : Int64) (d : Disk) (m : RefMap) (ms : List Mutation) : Prop :=
  d.Sane ∧ ∃ n, ∀ key, SameFrom Entry.view t (d.find key)
    ((((ms.take n).foldl RefMap.mutate m) key).map Found.entry)

theorem ShowsBeginning.during {t : Int64} {d : Disk} {ms : List Mutation} {ts : Int64}
    {s : Store} {m : RefMap} (h : ShowsBeginning t d ms ts s.find) (hr : s.Refines t m) :
    ShowsDuring t d m ms := by
  obtain ⟨hsane, n, hfind⟩ := h
  exact ⟨hsane, n, fun key => (hfind key).trans (RefMap.foldl_same _ hr key)⟩

/-- A directory that shows what the store shows, and nothing under way. -/
theorem ShowsDuring.none {t : Int64} {d : Disk} {m : RefMap} {s : Store} (hd : d.Sane)
    (h : ∀ key, SameFrom Entry.view t (d.find key) (s.find key)) (hr : s.Refines t m)
    (ms : List Mutation) : ShowsDuring t d m ms :=
  ⟨hd, 0, fun key => (h key).trans (hr key)⟩

/-- A call that neither merges tables nor removes everything. -/
def Call.Plain (c : Call) : Prop := c ≠ .maybeCompact ∧ c ≠ .flushAll

/-- A sweep takes nothing away that could still be seen. -/
theorem Engine.Backed.swept {t : Int64} {s : Store} {d : Disk} (hb : Engine.Backed t ⟨s, d⟩)
    {now : Int64} (hnow : now ≤ t) (budget count : Nat) :
    Engine.Backed t
      ⟨{ s with memtable := (s.memtable.sweepExpired now budget).2, sweptKeys := count }, d⟩ := by
  obtain ⟨ps, hopened, hstands⟩ := hb.stands
  exact ⟨⟨hb.sane.tables, Memtable.fits_sweepExpired hb.sane.fits⟩, hb.wal, ps, hopened,
    hstands.alike fun key => ((Memtable.find_sweepExpired _ _ _ key).mono hnow).symm⟩

/-- A call that neither merges nor removes everything keeps the invariant,
however its flush ends. -/
theorem Engine.Backed.plain {last : Int64} {e : Engine} (hb : e.Backed last) {c : Call}
    (hc : c.Fits) (hplain : c.Plain) {env : Env} (henv : env.log = {})
    (hclock : ∀ n, (env.clock n).wall ≤ last)
    (hleft : NumbersLeft (e.outcome (c, env)).events) : (e.step (c, env)).Backed last := by
  obtain ⟨s, d⟩ := e
  have hcalled := s.call_cases d env c
  rw [Engine.step]
  rw [Engine.outcome] at hleft ⊢
  simp only [] at hleft ⊢
  generalize s.call d env c = o at hcalled hleft
  cases hcalled with
  | nothing r _ _ => exact hb
  | mutated step hfate mt hfits hmt clock refused accepted f _ _ _ =>
      obtain ⟨hms', hfits'⟩ := hfits hb.sane hc
      exact (hb.mutate step.mutations hms' (fun w => w.step step)
        (fun w => w.step_appends step (hfate.trans henv)) hfits' hmt clock env.flush refused
        accepted).1 hleft
  | flushed clock _ => exact (Store.flush_cases hb.sane clock env.flush).backed hb hleft
  | swept r n budget count _ _ => exact hb.swept (hclock n) budget count
  | merged h => exact absurd h hplain.1
  | cleared h => exact absurd h hplain.2

theorem Engine.Backed.call {now upTo : Int64} {e : Engine} {m : RefMap} (hb : e.Backed now)
    (hr : e.store.Refines now m) {c : Call} (hc : c.Fits) (hplain : c.Plain) {env : Env}
    (henv : env.log = {})
    (hclock : ∀ n, now ≤ (env.clock n).wall ∧ (env.clock n).wall ≤ upTo) (hupTo : now ≤ upTo) :
    (NumbersLeft (e.outcome (c, env)).events → (e.step (c, env)).Backed upTo) ∧
      ∀ done, Cut Event.Torn (e.outcome (c, env)).events done →
        ShowsDuring upTo (e.disk.run done) m (m.mutations env c) := by
  refine ⟨(hb.mono hupTo).plain hc hplain henv fun n => (hclock n).2, ?_⟩
  obtain ⟨s, d⟩ := e
  have hb' : Engine.Backed upTo ⟨s, d⟩ := hb.mono hupTo
  have hr' : s.Refines upTo m := hr.mono hupTo
  obtain ⟨ps, hopened, hstands⟩ := hb'.stands
  have hidle : ShowsDuring upTo d m (m.mutations env c) := .none hstands.files hb'.find hr' _
  have hcalled := s.call_cases d env c
  rw [Engine.outcome]
  simp only []
  generalize s.call d env c = o at hcalled
  intro done hdone
  cases hcalled with
  | nothing r _ _ => rw [hdone.nil_inv]; exact hidle
  | mutated step hfate mt hfits hmt clock refused accepted f _ _ hms =>
      obtain ⟨hms', hfits'⟩ := hfits hb.sane hc
      rw [hms now m hr (hclock 0).1]
      exact ((hb'.mutate step.mutations hms' (fun w => w.step step)
        (fun w => w.step_appends step (hfate.trans henv)) hfits' hmt clock env.flush refused
        accepted).2 done hdone).during hr'
  | flushed clock _ =>
      have hst := (Store.flush_cases hb.sane clock env.flush).stands hb.sane hstands hdone
      refine .none hst.files (fun key => ?_) hr' _
      rw [Store.find, (opened_holds hopened hstands.tablesSane).2 key]
      exact hst.find key
  | swept r n budget count _ _ => rw [hdone.nil_inv]; exact hidle
  | merged h => exact absurd h hplain.1
  | cleared h => exact absurd h hplain.2

/-! ## Runs -/

/-- A store that was just started stands on its directory. -/
theorem Started.backed {cfg : Config} {d : Disk} {o : Outcome Unit} (hd : d.Sane)
    (hleft : d.NumbersLeft) (h : Started cfg d o) (now : Int64) :
    Engine.Backed now ⟨o.store, d.run o.events⟩ := by
  obtain ⟨w, hw, _⟩ := h.wal
  obtain ⟨data, hlog, hwhole, hrecords⟩ := h.log
  have hn : (d.run o.events).newestFirst = d.newestFirst := newestFirst_congr h.tables
  have hl : (d.run o.events).logBytes = data := by rw [Disk.logBytes, hlog]; rfl
  refine ⟨h.sane, ⟨w, hw⟩, d.newestFirst, by rw [h.options]; exact h.opened, ?_, ?_, h.next hleft,
    [], hn, Or.inl rfl, fun key => ?_⟩
  · rw [Disk.Sane, hn]; exact hd
  · rw [hl]; exact hwhole
  · rw [hl, tablesFind_nil, Option.or_none, h.memtable key, logFind, logFind, hrecords]
    exact .refl _

theorem Engine.Backed.run {last : Int64} :
    ∀ (steps : List Step) {e : Engine} {m : RefMap} {now : Int64}, e.Backed now →
      e.store.Refines now m → Timely now steps last →
      (∀ step ∈ steps, step.1.Fits ∧ step.1.Plain ∧ step.2.log = {}) →
      NumbersLeft (e.events steps) →
      (e.run steps).Backed last ∧ (e.run steps).store.Refines last (m.run steps) := by
  intro steps
  induction steps with
  | nil => intro e m now hb hr htime _ _; exact ⟨hb.mono htime, hr.mono htime⟩
  | cons step steps ih =>
      intro e m now hb hr htime hall hleft
      obtain ⟨upTo, hclock, hupTo, hrest⟩ := htime
      obtain ⟨hfits, hplain, henv⟩ := hall step List.mem_cons_self
      obtain ⟨hstep, hsteps⟩ := numbersLeft_append.mp hleft
      have hb' := (hb.call hr hfits hplain henv hclock hupTo).1 hstep
      have hr' := (Store.call_refines hb.sane hr hfits henv
        (fun hall => absurd hall hplain.2) hclock hupTo e.disk).2.2
      exact ih hb' hr' hrest (fun step' hstep' => hall step' (List.mem_cons_of_mem _ hstep')) hsteps

/-- The engine a process starts with. -/
def Outcome.engine {α : Type} (o : Outcome α) (d : Disk) : Engine :=
  { store := o.store, disk := d.run o.events }

theorem freshStart_backed {cfg : Config} (hdir : cfg.options.hasDir = true) (now : Int64) :
    ((freshStart cfg).engine {}).Backed now := by
  have hd : Disk.Sane {} := fun p hp => by cases hp
  obtain ⟨o, ho, hstarted⟩ := startup_spec hd cfg hdir {}
  obtain rfl : freshStart cfg = o := by
    rw [startup_empty hdir] at ho
    exact Option.some.inj ho
  exact hstarted.backed hd (fun p hp => by cases hp) now

/-- A process that was started on a directory of tables makes `steps`, in which
any flush may fail anywhere, and is killed inside `call`, having made the
calls `done` of it. No table had the last of the numbers. The restart succeeds,
and from then on every key shows what the map shows after `steps` and a
beginning of the mutations of `call`. -/
theorem kill_recovers (cfg cfg' : Config) (hdir : cfg.options.hasDir = true)
    (hdir' : cfg'.options.hasDir = true) (d : Disk) (hd : d.Sane) (hleft : d.NumbersLeft)
    (boot boot' : Reading) (o : Outcome Unit) (ho : startup cfg d boot = some o) (m : RefMap)
    (now last : Int64)
    (hm : ∀ t, now ≤ t → ∀ key, o.store.lookup t key = m.lookup t key)
    (steps : List Step) (call : Call) (env : Env)
    (htime : Timely now (steps ++ [(call, env)]) last)
    (hsteps : ∀ step ∈ steps ++ [(call, env)],
      step.1.Fits ∧ step.1.Plain ∧ step.2.log = {})
    (hnumbers : NumbersLeft ((o.engine d).events steps)) (done : List Event)
    (hcut : Cut Event.Torn (((o.engine d).run steps).outcome (call, env)).events done) :
    ∃ o', startup cfg' (((o.engine d).run steps).disk.run done) boot' = some o' ∧
      ∃ n, ∀ t, last ≤ t → ∀ key,
        o'.store.lookup t key =
          ((((m.run steps).mutations env call).take n).foldl RefMap.mutate
            (m.run steps)).lookup t key := by
  obtain ⟨o₁, ho₁, hstarted⟩ := startup_spec hd cfg hdir boot
  obtain rfl : o = o₁ := by rw [ho] at ho₁; exact Option.some.inj ho₁
  have hr : o.store.Refines now m := by
    intro key t ht
    rw [← RefMap.lookup_eq]
    exact hm t ht key
  obtain ⟨mid, htime₁, upTo, hclock, hupTo, hlast⟩ := htime.append_inv
  obtain ⟨hb, hr'⟩ := (hstarted.backed hd hleft now).run steps hr htime₁
    (fun step hstep => hsteps step (List.mem_append_left _ hstep)) hnumbers
  obtain ⟨hfits, hplain, henv⟩ := hsteps (call, env) (by simp)
  obtain ⟨hsane, n, hfind⟩ := (hb.call hr' hfits hplain henv hclock hupTo).2 done hcut
  obtain ⟨o', ho', hstarted'⟩ := startup_spec hsane cfg' hdir' boot'
  refine ⟨o', ho', n, fun t ht key => ?_⟩
  rw [RefMap.lookup_eq, Store.lookup, hstarted'.find key]
  exact hfind key t (le_trans hlast ht)

/-- A flush names its table and empties the log, but its last fsync fails; the
process is killed before the next call has done anything. -/
theorem kill_recovers_orphan :
    let cfg : Config := { options := { memtableLimitBytes := 0 } }
    let env : Env := { Env.at 1 with flush := { truncate := { sync := false } } }
    let e := ((freshStart cfg).engine {}).run [(.set [1] [7] 0, env)]
    e.disk.logBytes = [] ∧ e.store.sstables = [] ∧
      ∃ o', startup {} (e.disk.run []) {} = some o' ∧
        o'.store.lookup 5 [1] = some ⟨[7], 0⟩ := by
  intro cfg env e
  obtain ⟨o', ho', n, hn⟩ := kill_recovers cfg {} rfl rfl {} (fun p hp => by cases hp)
    (fun p hp => by cases hp) {} {}
    (freshStart cfg) (startup_empty rfl) RefMap.empty 0 2 (fun _ _ _ => rfl)
    [(.set [1] [7] 0, env)] (.del [2]) (Env.at 2)
    ⟨1, fun _ => ⟨show (0 : Int64) ≤ 1 by decide, le_refl 1⟩, by decide,
      .stand _ (by decide) (le_refl (2 : Int64))⟩
    (by
      intro step hstep
      simp only [List.cons_append, List.nil_append, List.mem_cons, List.not_mem_nil,
        or_false] at hstep
      rcases hstep with rfl | rfl <;>
        exact ⟨by simp [Call.Fits], ⟨by simp, by simp⟩, rfl⟩)
    (by decide +kernel) [] (Cut.stop _)
  refine ⟨by decide +kernel, by decide +kernel, o', ho', (hn 5 (by decide) [1]).trans ?_⟩
  cases n with
  | zero => rfl
  | succ n =>
      rw [List.take_of_length_le (Nat.le_add_left 1 n)]
      rfl

/-- A directory whose only table has the last of the numbers. -/
def lastNumbered : Disk :=
  { tables := SortedMap.empty.insert (2 ^ 64 - 1) (writeTable 10 [([1], { value := [7] })]) }

theorem lastNumbered_sane : lastNumbered.Sane := by
  intro p hp
  obtain rfl := List.mem_singleton.mp hp
  exact ⟨_, fileHolds_writeTable (by unfold SortedMap.KeysSorted; decide)
    (by unfold EntryFits; decide) ⟨rfl, by decide +kernel⟩⟩

/-- The table of the next flush is number 0. The process is killed after the
call has returned, and the restart takes the other table for the newer one. -/
theorem last_number_hides_flush :
    let cfg : Config := { options := { memtableLimitBytes := 0 } }
    lastNumbered.Sane ∧ ∃ o, startup cfg lastNumbered {} = some o ∧
      let e := (o.engine lastNumbered).run [(.set [1] [8] 0, Env.at 1)]
      e.store.lookup 5 [1] = some ⟨[8], 0⟩ ∧
        ∃ o', startup cfg e.disk {} = some o' ∧ o'.store.lookup 5 [1] = some ⟨[7], 0⟩ := by
  intro cfg
  refine ⟨lastNumbered_sane, (startup cfg lastNumbered {}).get (by decide +kernel),
    (Option.some_get _).symm, by decide +kernel, ?_⟩
  exact ⟨(startup cfg _ {}).get (by decide +kernel), (Option.some_get _).symm, by decide +kernel⟩

end Cachedb
