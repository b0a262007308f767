import Cachedb.Proofs.FlushAll
import Cachedb.Proofs.StaleLog

/-!
# Recency survives a restart

In memory the order of the tables is their order in a list. After a restart it
is the order of their numbers. The two agree as long as the directory holds
exactly the tables the store lists and the numbers go down along the list,
and that has to hold through flushes, which take the next number, through
merges, which reuse one in the middle or give it up, and through `flush_all`,
which starts counting again.

`Stands` already says that the store's tables lie at the bottom of the
directory in the right order, with at most one table above them that the store
does not list; `Engine.Listed` says that there is none. Where no call fails
every step keeps both, whatever the run of tables a merge is about.
-/

namespace Cachedb

open KMerge Layers

/-! ## Runs with restarts -/

/-- No call fails. -/
structure Env.NoFailure (env : Env) : Prop where
  log : env.log = {}
  flush : env.flush = {}
  compact : env.compact = {}
  flushAll : env.flushAll = {}

theorem Env.NoFailure.tidiesUp {env : Env} (h : env.NoFailure) : env.TidiesUp := by
  refine ⟨?_, ?_, fun n => ?_, ?_, fun n => ?_⟩
  · rw [h.flush]
  · rw [h.flush]
  · rw [h.compact]
  · rw [h.compact]
  · rw [h.flushAll]

theorem Env.NoFailure.flushAllSucceeds {env : Env} (h : env.NoFailure) :
    env.FlushAllSucceeds := by
  refine ⟨fun n => ?_, ?_, ?_⟩ <;> rw [h.flushAll]

/-- What one process after another makes of a directory that was empty, if no
call fails, no table gets the last of the numbers, and no reading of the clock
lies behind `last`. A merge is of any tables that lie next to each other. -/
inductive Engine.Reached (last : Int64) : Engine → Prop
  | first (cfg : Config) (hdir : cfg.options.hasDir = true) (boot : Reading) (o : Outcome Unit)
      (ho : startup cfg {} boot = some o) : Reached last (o.engine {})
  | call {e : Engine} (h : Reached last e) (step : Step) (hfits : step.1.Fits)
      (henv : step.2.NoFailure) (hclock : ∀ n, (step.2.clock n).wall ≤ last)
      (hleft : NumbersLeft (e.outcome step).events) : Reached last (e.step step)
  | merge {e : Engine} (h : Reached last e) (first len : Nat) (hlen : 0 < len)
      (hbound : first + len ≤ e.store.sstables.length) (env : Env) (henv : env.NoFailure)
      (hclock : ∀ n, (env.clock n).wall ≤ last) :
      Reached last ((e.store.compactRun first len env).engine e.disk)
  | restart {e : Engine} (h : Reached last e) (cfg : Config)
      (hdir : cfg.options.hasDir = true) (boot : Reading) (o : Outcome Unit)
      (ho : startup cfg e.disk boot = some o) : Reached last (o.engine e.disk)

/-! ## The invariant -/

/-- The directory stands for the store, and holds no table the store does not
list. -/
structure Engine.InOrder (last : Int64) (e : Engine) : Prop where
  backed : e.Backed last
  listed : e.Listed
  ranked : e.store.Ranked

theorem Engine.Backed.kept {now : Int64} {e : Engine} (hb : e.Backed now) : e.Kept := by
  obtain ⟨ps, _, hstands⟩ := hb.stands
  exact ⟨hb.sane, hstands.files, hb.numbered, hb.wal⟩

/-- The store's tables are the directory's, newest first. -/
theorem Engine.InOrder.opened {last : Int64} {e : Engine} (h : e.InOrder last) :
    List.Forall₂ (OpenedFrom e.store.options.useBloom) e.disk.newestFirst e.store.sstables ∧
      ∀ p ∈ e.disk.newestFirst, p.1 < e.store.nextSequence := by
  obtain ⟨ps, hopened, hstands⟩ := h.backed.stands
  obtain ⟨orphan, heq, horphan, _⟩ := hstands.layout
  have hnone : orphan = [] := by
    rcases horphan with hnil | ⟨file, rfl⟩
    · exact hnil
    · -- The store lists every table, and its own have smaller numbers.
      have hin := h.listed (e.store.nextSequence, file) (by rw [heq]; exact List.mem_cons_self)
      rw [opened_paths hopened, List.mem_map] at hin
      obtain ⟨seq, hseq, hname⟩ := hin
      obtain ⟨p, hp, hpseq⟩ := List.mem_map.mp hseq
      have hlt := hstands.below p hp
      have hsame : seq = e.store.nextSequence := FileName.table.inj hname
      omega
  rw [hnone, List.nil_append] at heq
  rw [heq]
  exact ⟨hopened, hstands.below⟩

theorem Engine.InOrder.numbersLeft {last : Int64} {e : Engine} (h : e.InOrder last) :
    e.disk.NumbersLeft :=
  fun p hp => Nat.lt_of_le_of_lt (h.opened.2 p hp) h.ranked.next

/-! ## One merge -/

/-- A merge changes the list of tables and nothing else a restart could see. -/
theorem Store.Compacted.frame {s : Store} {first len : Nat} {env : Env}
    {out : List (Bytes × Entry)} {o : Outcome Nat} (h : s.Compacted first len env out o) :
    o.store = { s with
      sstables := o.store.sstables, compactions := o.store.compactions } := by
  cases h <;> rfl

/-- Other tables under the same log and the same memtable. -/
theorem Stands.retable {now : Int64} {d d' : Disk} {ps ps' : List (Nat × Bytes)} {next : Nat}
    {mt : Memtable} (h : Stands now d ps next mt) (hlog : d'.logBytes = d.logBytes)
    (hsane : d'.Sane) (hbelow : ∀ p ∈ ps', p.1 < next)
    (hlayout : ∀ orphan, d.newestFirst = orphan ++ ps → d'.newestFirst = orphan ++ ps') :
    Stands now d' ps' next mt := by
  obtain ⟨orphan, heq, horphan, hcovers⟩ := h.layout
  refine ⟨hsane, by rw [hlog]; exact h.whole, hbelow, orphan, hlayout orphan heq, horphan, ?_⟩
  rw [hlog]
  exact hcovers

theorem remaining_eq_nil {es : List Event} {ps : List (Nat × Bytes)}
    (h : ∀ p ∈ ps, Event.unlink (.table p.1) ∈ es) : remaining es ps = [] :=
  List.filter_eq_nil_iff.mpr fun p hp => by simpa using h p hp

/-- The directory after a merge that unlinked all but the first table of its
run. -/
theorem RunOnDisk.merged {s : Store} {d : Disk} {first len : Nat}
    {above tail below : List (Nat × Bytes)} {seq : Nat} {old : Bytes}
    (h : RunOnDisk s d first len above ((seq, old) :: tail) below) (file : Bytes)
    {rest : List Event} (hrest : ∀ e ∈ rest, e.Removes (seq :: tail.map Prod.fst))
    (hgone : ∀ path ∈ (s.runPaths first len).tail, Event.unlink path ∈ rest) :
    (d.run (tempEvents .compactTmp file ++
        .rename .compactTmp (.table seq) :: rest)).newestFirst =
      above ++ remaining rest [(seq, file)] ++ below := by
  have hpaths : (s.runPaths first len).tail = (tail.map Prod.fst).map FileName.table := by
    rw [Store.runPaths, opened_paths h.opened]
    rfl
  have htail : remaining rest tail = [] := remaining_eq_nil fun p hp => hgone _ <| by
    rw [hpaths]
    exact List.mem_map.mpr ⟨p.1, List.mem_map.mpr ⟨p, hp, rfl⟩, rfl⟩
  obtain ⟨habove, _, hunder, hseqs, hlow⟩ := h.parts
  have hbelow : remaining rest below = below := remaining_eq_self fun p hp hmem => by
    obtain ⟨q, hq, heq⟩ := List.mem_map.mp (hrest _ hmem)
    rw [FileName.table.inj heq] at hq
    exact Nat.lt_irrefl _ (hlow p hp _ hq)
  rw [(d.run_merged file hseqs hrest).2, habove, hunder, remaining_append, htail, hbelow,
    List.nil_append]

/-- A merge in which nothing fails puts its output where its run was, or
nothing. -/
theorem Engine.Backed.merge {t : Int64} {s : Store} {d : Disk} (hb : Engine.Backed t ⟨s, d⟩)
    {first len : Nat} (hlen : 0 < len) (hbound : first + len ≤ s.sstables.length) {env : Env}
    (henv : env.NoFailure) : ((s.compactRun first len env).engine d).Backed t := by
  obtain ⟨ps, hopened, hstands⟩ := hb.stands
  obtain ⟨ess, hess⟩ := hb.sane.tables
  obtain ⟨out, hout, hcases⟩ := Store.compactRun_cases hess first len env
  have hframe := hcases.frame
  have hsane := (hcases.same hb.sane hess hout).1
  rw [Outcome.engine]
  generalize s.compactRun first len env = o at hcases hframe hsane
  -- The store has these tables open, and they lie on disk below the same orphan.
  have hgoal : ∀ {ps' : List (Nat × Bytes)},
      List.Forall₂ (OpenedFrom s.options.useBloom) ps' o.store.sstables →
      Stands t (d.run o.events) ps' s.nextSequence s.memtable →
      Engine.Backed t ⟨o.store, d.run o.events⟩ := by
    intro ps' hopened' hstands'
    refine ⟨hsane, ?_, ps', ?_, ?_⟩ <;> rw [hframe]
    · exact hb.wal
    · exact hopened'
    · exact hstands'
  have hsplit := run_split ps first len
  have hrun : ∀ orphan, d.newestFirst = orphan ++ ps →
      RunOnDisk s d first len (orphan ++ ps.take first) ((ps.drop first).take len)
        (ps.drop (first + len)) := fun orphan heq =>
    .of_opened hstands.files hopened heq first len
  obtain ⟨orphan₀, heq₀, _⟩ := hstands.layout
  obtain ⟨seq, old, tail, hrunEq⟩ := (hrun orphan₀ heq₀).cons hlen hbound
  rw [hrunEq] at hrun hsplit
  have hseqs := (hrun orphan₀ heq₀).parts.2.2.2.1
  have hseq : seq ∉ tail.map Prod.fst := fun hmem => Nat.lt_irrefl _ (hseqs _ hmem)
  rcases hcases.shape (opened_paths (hrun orphan₀ heq₀).opened) with
    ⟨hstore, htemp⟩ | ⟨file, rest, hfile, hevents, hremoves, hlast, hleaves⟩
  · obtain ⟨htables, hlog⟩ := Disk.run_onlyTemp (Or.inr rfl) htemp d
    exact hgoal (by rw [hstore]; exact hopened)
      (hstands.congr htables (by rw [Disk.logBytes, hlog]; rfl))
  · have hholds : FileHolds file out := fileHolds_writeTable hout.sorted hout.fits hfile
    have hlog := (d.run_merged file hseqs hremoves).1
    have hfiles := Disk.sane_merged hstands.files hholds hseqs hremoves
    rw [← hevents] at hlog hfiles
    have hunlink : ∀ n, env.compact.unlink n = true := henv.tidiesUp.unlink
    have hbelow : ∀ p ∈ ps.take first ++ ps.drop (first + len), p.1 < s.nextSequence := by
      intro p hp
      refine hstands.below p ?_
      rcases List.mem_append.mp hp with hp | hp
      · exact List.mem_of_mem_take hp
      · exact List.mem_of_mem_drop hp
    generalize hts : o.store.sstables = ts at hleaves hgoal
    cases hleaves with
    | same hdir => rw [henv.compact] at hdir; cases hdir
    | output table hopen hne hgone =>
        have hkept : remaining rest [(seq, file)] = [(seq, file)] :=
          remaining_eq_self fun p hp hmem => hne <| hlast hseq <| by
            rw [List.mem_singleton.mp hp] at hmem
            exact hmem
        have htarget : s.runTarget first len = .table seq := by
          rw [Store.runTarget, Store.runPaths, opened_paths (hrun orphan₀ heq₀).opened]
          rfl
        rw [htarget] at hopen
        have hopened' : List.Forall₂ (OpenedFrom s.options.useBloom)
            (ps.take first ++ (seq, file) :: ps.drop (first + len))
            (s.sstables.take first ++ table :: s.sstables.drop (first + len)) :=
          List.rel_append (List.forall₂_take first hopened)
            (.cons hopen (List.forall₂_drop (first + len) hopened))
        refine hgoal hopened' (hstands.retable hlog hfiles (fun p hp => ?_) fun orphan heq => ?_)
        · rcases List.mem_append.mp hp with hp | hp
          · exact hbelow p (List.mem_append_left _ hp)
          · rcases List.mem_cons.mp hp with rfl | hp
            · exact hstands.below (seq, old) (by rw [← hsplit]; simp)
            · exact hbelow p (List.mem_append_right _ hp)
        · rw [hevents, (hrun orphan heq).merged file hremoves (hgone hunlink), hkept]
          simp only [List.append_assoc, List.singleton_append]
    | none hgone =>
        have hall := hgone hunlink henv.tidiesUp.unlinkTarget
        have hgoneFile : remaining rest [(seq, file)] = [] := remaining_eq_nil fun p hp => by
          rw [List.mem_singleton.mp hp]
          refine hall _ ?_
          rw [Store.runPaths, opened_paths (hrun orphan₀ heq₀).opened]
          exact List.mem_cons_self
        refine hgoal (List.rel_append (List.forall₂_take first hopened)
          (List.forall₂_drop (first + len) hopened))
          (hstands.retable hlog hfiles hbelow fun orphan heq => ?_)
        rw [hevents, (hrun orphan heq).merged file hremoves
          (fun path hpath => hall path (List.mem_of_mem_tail hpath)), hgoneFile]
        simp only [List.append_assoc, List.nil_append]

/-! ## Every step -/

/-- A `flush_all` in which nothing fails leaves nothing. -/
theorem Engine.InOrder.cleared {last : Int64} {s : Store} {d : Disk}
    (h : Engine.InOrder last ⟨s, d⟩) {env : Env} (henv : env.NoFailure) :
    ((s.flushAll env).engine d).Backed last := by
  have hcleared := s.flushAll_cleared env
  have hret := (Store.flushAll_refines (s := s) henv.flushAllSucceeds last).1
  obtain ⟨w, hw⟩ := h.backed.wal
  obtain ⟨seqs, hseqs⟩ := h.backed.numbered
  have hclears := hcleared.clears hseqs
  obtain ⟨hnewest, hlog⟩ := Disk.run_clears hclears d
  rw [remaining_eq_nil fun p hp => hcleared.unlinked hret _ (h.listed p hp)] at hnewest
  rw [if_pos (hcleared.emptied hret w hw)] at hlog
  refine ⟨hcleared.sane h.backed.sane, hcleared.wal w hw, [], ?_, ?_, ?_, List.forall_mem_nil _, [],
    hnewest, Or.inl rfl, fun key => ?_⟩
  · show List.Forall₂ _ [] (s.flushAll env).store.sstables
    rw [hcleared.tables]
    exact .nil
  · show TablesSane (d.run (s.flushAll env).events).newestFirst
    rw [hnewest]
    exact List.forall_mem_nil _
  · show Whole (d.run (s.flushAll env).events).logBytes
    rw [hlog]
    exact whole_nil
  · show AlikeFrom _ _ ((logFind (d.run (s.flushAll env).events).logBytes key).or _)
      ((s.flushAll env).store.memtable.find key)
    rw [hlog, logFind_nil, hcleared.forgotten hret]
    exact .refl _

theorem Engine.InOrder.step {last : Int64} {e : Engine} (h : e.InOrder last) {step : Step}
    (hfits : step.1.Fits) (henv : step.2.NoFailure)
    (hclock : ∀ n, (step.2.clock n).wall ≤ last) (hleft : NumbersLeft (e.outcome step).events) :
    (e.step step).InOrder last := by
  refine ⟨?_, (h.backed.kept.step hfits).2 henv.tidiesUp h.listed,
    h.backed.kept.ranked h.ranked hfits hleft⟩
  obtain ⟨s, d⟩ := e
  obtain ⟨c, env⟩ := step
  by_cases hmerge : c = .maybeCompact
  · subst hmerge
    show Engine.Backed last ((s.maybeCompact d env).engine d)
    rw [Store.maybeCompact]
    split
    · exact h.backed
    · next first len hchosen =>
        obtain ⟨_, _, hlen, hbound⟩ := Store.chooseRun_bounds hchosen
        exact h.backed.merge (Nat.lt_of_lt_of_le (by decide) hlen) hbound henv
  · by_cases hclear : c = .flushAll
    · subst hclear
      exact h.cleared henv
    · exact h.backed.plain hfits ⟨hmerge, hclear⟩ henv.log hclock hleft

/-- A merge of any run of neighbours. -/
theorem Engine.InOrder.merge {last : Int64} {e : Engine} (h : e.InOrder last) {first len : Nat}
    (hlen : 0 < len) (hbound : first + len ≤ e.store.sstables.length) {env : Env}
    (henv : env.NoFailure) : ((e.store.compactRun first len env).engine e.disk).InOrder last := by
  obtain ⟨s, d⟩ := e
  obtain ⟨ess, hess⟩ := h.backed.sane.tables
  obtain ⟨out, hout, hcases⟩ := Store.compactRun_cases hess first len env
  refine ⟨h.backed.merge hlen hbound henv, ?_, hcases.ranked hlen hbound h.ranked⟩
  exact (Store.Compacted.kept h.backed.kept hlen hbound hcases
    (hcases.same h.backed.sane hess hout).1
    fun file hfile => fileHolds_writeTable hout.sorted hout.fits hfile).2 henv.tidiesUp h.listed

theorem Started.inOrder {cfg : Config} {d : Disk} {o : Outcome Unit} (hd : d.Sane)
    (hleft : d.NumbersLeft) (h : Started cfg d o) (last : Int64) : (o.engine d).InOrder last :=
  ⟨h.backed hd hleft last, (h.kept hd).2, h.ranked hleft⟩

theorem startup_started {cfg : Config} (hdir : cfg.options.hasDir = true) {d : Disk}
    (hd : d.Sane) {boot : Reading} {o : Outcome Unit} (ho : startup cfg d boot = some o) :
    Started cfg d o := by
  obtain ⟨o', ho', hstarted⟩ := startup_spec hd cfg hdir boot
  rw [ho] at ho'
  rw [Option.some.inj ho']
  exact hstarted

theorem Engine.Reached.inOrder {last : Int64} {e : Engine} (h : e.Reached last) :
    e.InOrder last := by
  induction h with
  | first cfg hdir boot o ho =>
      have hd : Disk.Sane {} := fun p hp => by cases hp
      exact (startup_started hdir hd ho).inOrder hd (fun p hp => by cases hp) last
  | call _ step hfits henv hclock hleft ih => exact ih.step hfits henv hclock hleft
  | merge _ first len hlen hbound env henv _ ih => exact ih.merge hlen hbound henv
  | restart _ cfg hdir boot o ho ih =>
      have hd := ih.backed.kept.files
      exact (startup_started hdir hd ho).inOrder hd ih.numbersLeft last

/-! ## No flush renames over a table -/

theorem Store.Compacted.no_flush {s : Store} {first len : Nat} {env : Env}
    {out : List (Bytes × Entry)} {o : Outcome Nat} (h : s.Compacted first len env out o)
    (dst : FileName) : Event.rename .flushTmp dst ∉ o.events := by
  have htemp : ∀ {e : Event}, e.OnlyTemp .compactTmp → e ≠ .rename .flushTmp dst := by
    rintro e he rfl
    cases he
  have hrun : ∀ n paths, Event.rename .flushTmp dst ∉ unlinkRun env.compact.unlink n paths := by
    intro n paths he
    obtain ⟨path, _, heq⟩ := mem_unlinkRun he
    cases heq
  cases h with
  | unnamed events hevents => exact fun he => htemp (hevents _ he) rfl
  | unsynced file _ _ => simp [tempEvents]
  | replaced file table _ _ _ _ => simp [tempEvents, hrun]
  | emptied file _ _ =>
      have htarget : Event.rename .flushTmp dst ∉
          unlinkEvents env.compact.unlinkTarget (s.runTarget first len) := fun he => by
        cases mem_unlinkEvents he
      simp [tempEvents, hrun, htarget]

/-- The only name a call gives a flushed table is the store's next one, and
until then it has not touched the tables. -/
theorem Engine.Kept.flush_renames {e : Engine} (hk : e.Kept) {step : Step}
    (hfits : step.1.Fits) {before after : List Event} {dst : FileName}
    (heq : (e.outcome step).events = before ++ .rename .flushTmp dst :: after) :
    dst = .table e.store.nextSequence ∧ (e.disk.run before).tables = e.disk.tables := by
  obtain ⟨s, d⟩ := e
  obtain ⟨c, env⟩ := step
  have hcalled := s.call_cases d env c
  rw [Engine.outcome] at heq
  simp only [] at heq
  generalize s.call d env c = o at hcalled heq
  have hmem : Event.rename .flushTmp dst ∈ o.events := by rw [heq]; simp
  cases hcalled with
  | nothing r => cases hmem
  | mutated step hfate mt hfit hmt clock refused accepted f =>
      obtain ⟨w, hw⟩ := hk.wal
      have hlog := Store.onLog_some (fun w => w.step step) hw
      cases hok : (w.step step).ok with
      | false =>
          rw [Store.mutate_refused (by rw [hlog]; exact hok), hlog] at hmem
          exact absurd rfl (w.logged_unnaming step _ _ (List.mem_append_left _ hmem) _ _)
      | true =>
          rw [Store.mutate_accepted (by rw [hlog]; exact hok), hlog] at heq
          simp only [Outcome.map] at heq
          obtain ⟨s₁, hs₁⟩ : ∃ s₁, s₁ =
            { s with memtable := mt, wal := some (w.step step).wal } := ⟨_, rfl⟩
          rw [← hs₁] at heq
          have hsane : s₁.Sane := by rw [hs₁]; exact ⟨hk.sane.tables, (hfit hk.sane hfits).2⟩
          have hevents : (.began step.mutations :: (w.step step).events ++
              [.applied step.mutations]) ++ (s₁.maybeFlush clock env.flush).events =
              before ++ .rename .flushTmp dst :: after := by
            rw [← heq, List.append_assoc]
            rfl
          rcases s₁.maybeFlush_cases clock env.flush with hidle | hflush
          · rw [hidle, List.append_nil] at hevents
            exact absurd rfl (w.logged_unnaming step step.mutations _
              (by rw [hevents]; simp) .flushTmp dst)
          · rw [hflush] at hevents
            obtain ⟨file, _, rfl, _, hname⟩ := (Store.flush_cases hsane clock env.flush).renamed
              (w.logged_unnaming step _) hevents
            refine ⟨by rw [hname, hs₁], ?_⟩
            rw [Disk.run_append, (Disk.run_onlyTemp (Or.inl rfl) (tempEvents_onlyTemp _ _) _).1,
              Disk.run_append]
            exact w.step_tables step d
  | flushed clock =>
      obtain ⟨file, _, rfl, _, hname⟩ := (Store.flush_cases hk.sane clock env.flush).renamed
        (List.forall_mem_nil _) (show [] ++ (s.flush clock env.flush).events = _ from heq)
      exact ⟨hname, (Disk.run_onlyTemp (Or.inl rfl) (tempEvents_onlyTemp _ _) d).1⟩
  | swept r n budget count => cases hmem
  | merged _ =>
      have hmem : Event.rename .flushTmp dst ∈ (s.maybeCompact d env).events := hmem
      rw [Store.maybeCompact] at hmem
      split at hmem
      · cases hmem
      · next first len _ =>
          obtain ⟨ess, hess⟩ := hk.sane.tables
          obtain ⟨out, _, hcases⟩ := Store.compactRun_cases hess first len env
          exact absurd hmem (hcases.no_flush dst)
  | cleared _ =>
      rcases (s.flushAll_cleared env).calls _ hmem with
        ⟨_, _, hcall⟩ | ⟨_, hcall⟩ | hcall | ⟨_, hcall⟩
      · cases hcall
      · cases hcall
      · cases hcall
      · cases hcall

/-! ## After a restart -/

/-- What the name and the contents of an open table are. -/
def Sstable.onDisk (t : Sstable) : FileName × Bytes := (t.path, t.file)

theorem opened_onDisk {useBloom : Bool} {ps : List (Nat × Bytes)} {ts : List Sstable}
    (h : List.Forall₂ (OpenedFrom useBloom) ps ts) :
    ts.map Sstable.onDisk = ps.map fun p => (.table p.1, p.2) := by
  induction h with
  | nil => rfl
  | cons hpt _ ih =>
      obtain ⟨hpath, hfile⟩ := openTable_fields hpt
      rw [List.map_cons, ih, Sstable.onDisk, hpath, hfile]
      rfl

theorem Disk.read_table_isSome {d : Disk} {seq : Nat} :
    (d.read (.table seq)).isSome ↔ seq ∈ d.newestFirst.map Prod.fst := by
  rw [Disk.newestFirst, List.map_reverse, List.mem_reverse, Option.isSome_iff_exists]
  exact (SortedMap.mem_keys_iff (m := d.tables)).symm

theorem Disk.read_table {d : Disk} {p : Nat × Bytes} (hp : p ∈ d.newestFirst) :
    d.read (.table p.1) = some p.2 :=
  SortedMap.find_eq_some_iff.mpr (List.mem_reverse.mp hp)

/-- In every state that runs and restarts reach from an empty directory, the
numbers of the store's tables go down along its list, they are the numbers of
the tables in the directory, and the next one is larger than all of them; each
table is the file of its name. So no flush renames over a table, whatever the
call, and a restart opens the same files in the same order and shows, from
`last` on, what the store shows. -/
theorem recency_survives_restart (last : Int64) (e : Engine) (h : e.Reached last) :
    (∃ seqs : List Nat, e.store.sstables.map (·.path) = seqs.map FileName.table ∧
        seqs.Pairwise (· > ·) ∧ (∀ seq, seq ∈ seqs ↔ (e.disk.read (.table seq)).isSome) ∧
        ∀ seq ∈ seqs, seq < e.store.nextSequence) ∧
      (∀ t ∈ e.store.sstables, e.disk.read t.path = some t.file) ∧
      (∀ (step : Step) (before after : List Event) (dst : FileName), step.1.Fits →
        (e.outcome step).events = before ++ .rename .flushTmp dst :: after →
        (e.disk.run before).read dst = none) ∧
      ∀ cfg : Config, cfg.options.hasDir = true → ∀ boot, ∃ o,
        startup cfg e.disk boot = some o ∧
          o.store.sstables.map Sstable.onDisk = e.store.sstables.map Sstable.onDisk ∧
          ∀ t, last ≤ t → ∀ key, o.store.lookup t key = e.store.lookup t key := by
  have hin := h.inOrder
  obtain ⟨hopened, hnext⟩ := hin.opened
  refine ⟨⟨e.disk.newestFirst.map Prod.fst, opened_paths hopened, ?_, fun seq => ?_, ?_⟩, ?_, ?_,
    ?_⟩
  · exact List.pairwise_map.mpr (newestFirst_pairwise e.disk)
  · exact Disk.read_table_isSome.symm
  · intro seq hseq
    obtain ⟨p, hp, rfl⟩ := List.mem_map.mp hseq
    exact hnext p hp
  · intro t ht
    have hmem : t.onDisk ∈ e.store.sstables.map Sstable.onDisk := List.mem_map_of_mem ht
    rw [opened_onDisk hopened] at hmem
    obtain ⟨p, hp, heq⟩ := List.mem_map.mp hmem
    rw [← (Prod.mk.inj heq).1, ← (Prod.mk.inj heq).2]
    exact Disk.read_table hp
  · intro step before after dst hfits heq
    obtain ⟨rfl, htables⟩ := hin.backed.kept.flush_renames hfits heq
    rw [Disk.read, htables, ← Option.not_isSome_iff_eq_none]
    intro hsome
    obtain ⟨p, hp, hseq⟩ := List.mem_map.mp (Disk.read_table_isSome.mp hsome)
    have := hnext p hp
    omega
  · intro cfg hdir boot
    obtain ⟨o, ho, hstarted⟩ := startup_spec hin.backed.kept.files cfg hdir boot
    refine ⟨o, ho, ?_, fun t ht key => ?_⟩
    · rw [opened_onDisk hopened, opened_onDisk hstarted.opened]
    · rw [Store.lookup, hstarted.find key]
      exact hin.backed.find key t ht

theorem Engine.Reached.run {last : Int64} (steps : List Step) :
    ∀ {e : Engine}, e.Reached last →
      (∀ step ∈ steps, step.1.Fits ∧ step.2.NoFailure ∧ ∀ n, (step.2.clock n).wall ≤ last) →
      NumbersLeft (e.events steps) → (e.run steps).Reached last := by
  induction steps with
  | nil => intro e h _ _; exact h
  | cons step steps ih =>
      intro e h hall hleft
      obtain ⟨hfits, henv, hclock⟩ := hall step List.mem_cons_self
      obtain ⟨hstep, hsteps⟩ := numbersLeft_append.mp hleft
      exact ih (h.call step hfits henv hclock hstep)
        (fun step' hstep' => hall step' (List.mem_cons_of_mem _ hstep')) hsteps

theorem Env.at_le {wall last : Int64} (h : wall ≤ last) :
    (Env.at wall).NoFailure ∧ ∀ n, ((Env.at wall).clock n).wall ≤ last :=
  ⟨⟨rfl, rfl, rfl, rfl⟩, fun _ => h⟩

/-- A key is set and deleted three times, each call with a flush of its own;
the merge of the four tables writes nothing; then another key is set. -/
def mergedAway : Engine :=
  ((freshStart { options := { memtableLimitBytes := 0 } }).engine {}).run
    [(.set [1] [7] 0, Env.at 1), (.del [1], Env.at 2), (.del [1], Env.at 3), (.del [1], Env.at 4),
      (.maybeCompact, Env.at 5), (.set [2] [8] 0, Env.at 6)]

/-- All four tables are gone and their numbers are not used again; the restart
finds the one table there is. -/
theorem recency_survives_restart_emptied :
    mergedAway.Reached 6 ∧ mergedAway.store.sstables.map (·.path) = [.table 5] ∧
      ∃ o, startup {} mergedAway.disk {} = some o ∧
        o.store.sstables.map Sstable.onDisk = mergedAway.store.sstables.map Sstable.onDisk ∧
        o.store.lookup 9 [2] = some ⟨[8], 0⟩ := by
  have hreached : mergedAway.Reached 6 := by
    refine Engine.Reached.run _ (.first _ rfl {} _ (startup_empty rfl)) (fun step hstep => ?_)
      (by decide +kernel)
    simp only [List.mem_cons, List.not_mem_nil, or_false] at hstep
    rcases hstep with rfl | rfl | rfl | rfl | rfl | rfl <;>
      exact ⟨by simp [Call.Fits], Env.at_le (by decide)⟩
  obtain ⟨_, _, _, hrestart⟩ := recency_survives_restart 6 mergedAway hreached
  obtain ⟨o, ho, hsame, hlook⟩ := hrestart {} rfl {}
  refine ⟨hreached, by decide +kernel, o, ho, hsame, (hlook 9 (by decide) [2]).trans ?_⟩
  decide +kernel

end Cachedb
