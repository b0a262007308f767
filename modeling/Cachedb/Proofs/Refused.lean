import Cachedb.Proofs.CrashRecovery
import Cachedb.Proofs.Dispatch
import Cachedb.Proofs.LogFailure

/-!
# What the log refused

A mutation the log refuses is not in memory, because the call returns before it
touches the memtable. It may be in the log all the same. What a failed `write`
has put down stays there, everything is there when it was the `fsync` that
failed, and the next start replays as much of it as is whole.

For a restart right after the refusal there is an exact condition: what is whole
of the refused append must say what the store shows anyway (`Harmless`).
Records that do so can be left in the log, whatever is logged and flushed behind
them. What must not happen later is an append to a log that ends inside a
record: what replay makes of the two together, nobody can say. So `Contained` is
the condition on a step, and a run of which every step meets it shows after a
restart what the calls that were not refused have made.
-/

namespace Cachedb

open KMerge Layers

/-! ## What a refusal leaves -/

/-- What is whole of an append says no more than the store shows. -/
def Harmless (last : Int64) (s : Store) (step : LogStep) : Prop :=
  ∀ key entry, recordsFind (recordsOf step.landed) key = some entry →
    SameFrom Entry.view last (some entry) (s.find key)

/-- A step that logs something finds the log whole, and leaves nothing there that
matters if it is refused. -/
structure Contained (last : Int64) (e : Engine) (step : Step) : Prop where
  whole : ∀ l, e.store.logStep step.2 step.1 = some l → l.mutations ≠ [] →
    Whole e.disk.logBytes
  harmless : ∀ l, e.store.logStep step.2 step.1 = some l →
    (e.outcome step).ret.refused = true → Harmless last e.store l

def Engine.AllContained (last : Int64) (e : Engine) : List Step → Prop
  | [] => True
  | step :: steps => Contained last e step ∧ (e.step step).AllContained last steps

/-- The steps of a run that were not refused. -/
def Engine.accepted (e : Engine) : List Step → List Step
  | [] => []
  | step :: steps =>
      if (e.outcome step).ret.refused then (e.step step).accepted steps
      else step :: (e.step step).accepted steps

/-! ## A directory that shows what the store shows -/

/-- The log may hold more than the memtable does, but a restart shows what the
store shows; and with a log of the memtable's own mutations the directory would
stand for the store. -/
structure Engine.Supported (last : Int64) (e : Engine) : Prop where
  ideal : ∃ d : Disk, Engine.Backed last ⟨e.store, d⟩ ∧ e.disk.tables = d.tables
  find : ∀ key, SameFrom Entry.view last (e.disk.find key) (e.store.find key)

theorem Engine.Backed.supported {last : Int64} {e : Engine} (h : e.Backed last) :
    e.Supported last :=
  ⟨⟨e.disk, h, rfl⟩, h.find⟩

theorem Engine.Supported.sane {last : Int64} {e : Engine} (h : e.Supported last) :
    e.disk.Sane := by
  obtain ⟨d, hb, ht⟩ := h.ideal
  obtain ⟨ps, _, hstands⟩ := hb.stands
  rw [Disk.Sane, Disk.newestFirst, ht]
  exact hstands.files

/-- A flush leaves the tables and the log alone, or puts the memtable into a
table and may empty the log, in whatever directory it is made. -/
theorem Store.Flushed.effect {s : Store} {now : Reading} {fate : FlushFate} {o : Outcome Bool}
    (h : s.Flushed now fate o) (hs : s.Sane) :
    (∀ d : Disk, (d.run o.events).tables = d.tables ∧
        (d.run o.events).logBytes = d.logBytes) ∨
      ∃ file, FileHolds file s.memtable.entries.entries ∧ ∀ d : Disk,
        (d.run o.events).tables = d.tables.insert s.nextSequence file ∧
          ((d.run o.events).logBytes = d.logBytes ∨ (d.run o.events).logBytes = []) := by
  have hnamed : ∀ (file : Bytes) (ok : Bool) (cut : List Event), CutEvents cut → ∀ d : Disk,
      (d.run (tempEvents .flushTmp file ++
          [.rename .flushTmp (.table s.nextSequence), .fsyncDir ok] ++ cut)).tables =
          d.tables.insert s.nextSequence file ∧
        ((d.run (tempEvents .flushTmp file ++ [.rename .flushTmp (.table s.nextSequence),
            .fsyncDir ok] ++ cut)).logBytes = d.logBytes ∨
          (d.run (tempEvents .flushTmp file ++ [.rename .flushTmp (.table s.nextSequence),
            .fsyncDir ok] ++ cut)).logBytes = []) := by
    intro file ok cut hcut d
    rw [List.append_assoc]
    exact named_run d file s.nextSequence hcut (Cut.full _)
  cases h with
  | idle _ => exact Or.inl fun d => ⟨rfl, rfl⟩
  | unnamed events hevents =>
      refine Or.inl fun d => ?_
      obtain ⟨htables, hlog⟩ := Disk.run_onlyTemp (Or.inl rfl) hevents d
      exact ⟨htables, by rw [Disk.logBytes, hlog]; rfl⟩
  | unsynced file hfile _ =>
      refine Or.inr ⟨file, hs.fileHolds hfile, fun d => ?_⟩
      have := hnamed file false [] (Or.inl rfl) d
      rwa [List.append_nil] at this
  | uncut file hfile _ =>
      exact Or.inr ⟨file, hs.fileHolds hfile, hnamed file true _ (s.onLog_cutEvents _ _)⟩
  | done file table hfile _ _ _ _ =>
      exact Or.inr ⟨file, hs.fileHolds hfile, hnamed file true _ (s.onLog_cutEvents _ _)⟩

theorem Store.Flushed.supported {s : Store} {now : Reading} {fate : FlushFate} {o : Outcome Bool}
    (h : s.Flushed now fate o) {last : Int64} {d : Disk} (hs : Engine.Supported last ⟨s, d⟩)
    (hleft : NumbersLeft o.events) : Engine.Supported last ⟨o.store, d.run o.events⟩ := by
  obtain ⟨d₀, hb, ht⟩ := hs.ideal
  obtain ⟨ps, hopened, hstands⟩ := hb.stands
  have hsame := (h.same hb.sane).2 last
  rcases h.effect hb.sane with heff | ⟨file, hfile, heff⟩
  · refine ⟨⟨d₀.run o.events, h.backed hb hleft, ?_⟩, fun key => ?_⟩
    · exact (heff d).1.trans (ht.trans (heff d₀).1.symm)
    · have hfind : (d.run o.events).find key = d.find key := by
        rw [Disk.find, Disk.newestFirst, (heff d).1, (heff d).2]
        rfl
      rw [hfind]
      exact (hs.find key).trans (hsame key).symm
  · have htables : (d.run o.events).tables = d₀.tables.insert s.nextSequence file := by
      rw [(heff d).1]
      exact congrArg (·.insert s.nextSequence file) ht
    refine ⟨⟨d₀.run o.events, h.backed hb hleft, htables.trans (heff d₀).1.symm⟩, fun key => ?_⟩
    refine SameFrom.trans ?_ (hsame key).symm
    have htable : SameFrom Entry.view last ((fileFind file key).or (tablesFind ps key))
        (s.find key) := by
      rw [Store.find, (opened_holds hopened hstands.tablesSane).2 key, hfile.find]
      exact SameFrom.or (alike_settled _) (.refl _)
    rw [Disk.find, newestFirst_insert hstands htables, tablesFind_cons]
    rcases (heff d).2 with hlog | hlog
    · -- A key the log knows is shown as it was before.
      have hbefore := hs.find key
      rw [Disk.find] at hbefore
      rw [hlog]
      cases hkey : logFind d.logBytes key with
      | none => exact htable
      | some entry => rw [hkey] at hbefore; exact hbefore
    · rw [hlog, logFind_nil]
      exact htable

/-! ## Appends -/

theorem Wal.step_refused {w : Wal} {step : LogStep} (h : (w.step step).ok = false) :
    step.mutations ≠ [] := by
  intro hnil
  rw [Wal.step_eq, if_pos hnil] at h
  cases h

/-- Behind a whole log, what was added is replayed on top. -/
theorem find_added {d d' : Disk} (hw : Whole d.logBytes) (ht : d'.tables = d.tables)
    {data : Bytes} (hl : d'.logBytes = d.logBytes ++ data) (key : Bytes) :
    d'.find key = (recordsFind (recordsOf data) key).or (d.find key) := by
  have hn : d'.newestFirst = d.newestFirst := newestFirst_congr ht
  rw [Disk.find, hn, hl, logFind_append hw, Option.or_assoc]
  rfl

theorem Harmless.find {last : Int64} {s : Store} {d d' : Disk} {step : LogStep}
    (h : Harmless last s step)
    (hfind : ∀ key, SameFrom Entry.view last (d.find key) (s.find key)) (hw : Whole d.logBytes)
    (ht : d'.tables = d.tables) (hl : d'.logBytes = d.logBytes ++ step.landed) (key : Bytes) :
    SameFrom Entry.view last (d'.find key) (s.find key) := by
  rw [find_added hw ht hl]
  cases hkey : recordsFind (recordsOf step.landed) key with
  | none => exact hfind key
  | some entry => exact h key entry hkey

/-- An append that was answered is in the log whole, whatever its `fsync` was
to say. -/
theorem Engine.Supported.logged {last : Int64} {s : Store} {d : Disk}
    (h : Engine.Supported last ⟨s, d⟩) {w : Wal} {step : LogStep} (hok : (w.step step).ok = true)
    (hms : ∀ m ∈ step.mutations, m.Fits) (hwhole : step.mutations ≠ [] → Whole d.logBytes)
    {mt : Memtable} (hfits : ∀ k e, mt.find k = some e → EntryFits (k, e))
    (hmt : ∀ key, mt.find key =
      (recordsFind (batchRecords step.mutations step.now.wall) key).or (s.memtable.find key)) :
    Engine.Supported last
      ⟨{ s with memtable := mt, wal := some (w.step step).wal }, d.run (w.step step).events⟩ := by
  obtain ⟨d₀, hb, ht⟩ := h.ideal
  have happ : Appends step.mutations step.now.wall {
      ok := true, wal := (w.step step).wal
      events := if step.mutations = [] then []
        else [.write .log (Wal.batchBytes step.mutations step.now.wall)] } := by
    refine ⟨rfl, ?_⟩
    split
    · next hnil => exact Or.inl ⟨hnil, rfl⟩
    · exact Or.inr ⟨[], rfl, Or.inl rfl⟩
  have htables := w.step_tables step d
  refine ⟨⟨_, hb.logged hms happ hfits hmt, ?_⟩, fun key => ?_⟩
  · exact htables.trans (ht.trans (happ.cut d₀ (Cut.full _)).1.symm)
  · obtain ⟨hland, hall⟩ := w.step_landed step d
    rw [hall hok] at hland
    have hfind : (d.run (w.step step).events).find key =
        (recordsFind (batchRecords step.mutations step.now.wall) key).or (d.find key) := by
      by_cases hnil : step.mutations = []
      · rw [Wal.step_eq, if_pos hnil, hnil]
        rfl
      · rw [find_added (hwhole hnil) htables hland, recordsOf_batch hms]
    rw [hfind]
    show SameFrom _ _ _ ((mt.find key).or _)
    rw [hmt key, Option.or_assoc]
    exact SameFrom.or (.refl _) (h.find key)

theorem Engine.Supported.flagged {last : Int64} {s : Store} {d : Disk}
    (h : Engine.Supported last ⟨s, d⟩) (failed : Bool) :
    Engine.Supported last ⟨{ s with flushFailed := failed }, d⟩ := by
  obtain ⟨d₀, hb, ht⟩ := h.ideal
  exact ⟨⟨d₀, ⟨⟨hb.sane.tables, hb.sane.fits⟩, hb.wal, hb.stands⟩, ht⟩, h.find⟩

theorem Engine.Supported.maybeFlush {last : Int64} {s : Store} {d : Disk}
    (h : Engine.Supported last ⟨s, d⟩) (now : Reading) (fate : FlushFate)
    (hleft : NumbersLeft (s.maybeFlush now fate).events) :
    Engine.Supported last
      ⟨(s.maybeFlush now fate).store, d.run (s.maybeFlush now fate).events⟩ := by
  obtain ⟨d₀, hb, _⟩ := h.ideal
  rcases s.maybeFlush_cases now fate with hidle | hflush
  · rw [hidle]
    exact h
  · rw [hflush] at hleft ⊢
    exact ((Store.flush_cases hb.sane now fate).supported h hleft).flagged _

/-! ## Calls -/

/-- What a refused call did: nothing in memory, and the log has what landed. -/
theorem Store.call_refused {s : Store} {d : Disk} {env : Env} {c : Call}
    (h : (s.call d env c).ret.refused = true) :
    (∃ w, (s.call d env c).store = { s with wal := some w }) ∧
      (d.run (s.call d env c).events).tables = d.tables ∧
      ∃ step, s.logStep env c = some step ∧ step.mutations ≠ [] ∧
        (d.run (s.call d env c).events).logBytes = d.logBytes ++ step.landed := by
  have hcalled := s.call_cases d env c
  generalize s.call d env c = o at hcalled h
  cases hcalled with
  | nothing r hr _ => rw [hr] at h; cases h
  | mutated step hfate mt hfits hmt now refused accepted f hrefused haccepted hms hstep =>
      cases hlog : (s.onLog fun w => w.step step).ret with
      | true =>
          rw [Store.mutate_accepted hlog] at h
          cases haccepted.symm.trans h
      | false =>
          obtain ⟨w, hw⟩ : ∃ w, s.wal = some w := by
            cases hw : s.wal with
            | none => rw [Store.onLog_none _ hw] at hlog; cases hlog
            | some w => exact ⟨w, rfl⟩
          have honlog := Store.onLog_some (fun w => w.step step) hw
          rw [Store.mutate_refused hlog, honlog]
          rw [honlog] at hlog
          exact ⟨⟨_, rfl⟩, w.step_tables step d, step, hstep, Wal.step_refused hlog,
            (w.step_landed step d).1⟩
  | flushed now _ => cases h
  | swept r n budget count hr _ => rw [hr] at h; cases h
  | merged _ => cases h
  | cleared _ => cases h

theorem Engine.Supported.refused {last : Int64} {e : Engine} (h : e.Supported last) {step : Step}
    (hcont : Contained last e step) (hrefused : (e.outcome step).ret.refused = true) :
    (e.step step).Supported last ∧ ∀ key, (e.step step).store.find key = e.store.find key := by
  obtain ⟨d₀, hb, ht⟩ := h.ideal
  obtain ⟨⟨w, hstore⟩, htables, l, hl, hne, hlog⟩ := Store.call_refused hrefused
  have hstore : (e.step step).store = { e.store with wal := some w } := hstore
  have hfind : ∀ key, (e.step step).store.find key = e.store.find key := by
    intro key
    rw [hstore]
    rfl
  refine ⟨⟨⟨d₀, ?_, htables.trans ht⟩, fun key => ?_⟩, hfind⟩
  · rw [hstore]
    exact ⟨⟨hb.sane.tables, hb.sane.fits⟩, ⟨w, rfl⟩, hb.stands⟩
  · rw [hfind]
    exact (hcont.harmless l hl hrefused).find h.find (hcont.whole l hl hne) htables hlog key

theorem Engine.Supported.answered {last now upTo : Int64} {e : Engine} {m : RefMap}
    (h : e.Supported last) (hr : e.store.Refines now m) {c : Call} (hc : c.Fits)
    (hplain : c.Plain) {env : Env}
    (hclock : ∀ n, now ≤ (env.clock n).wall ∧ (env.clock n).wall ≤ upTo) (hupTo : now ≤ upTo)
    (hlast : upTo ≤ last) (hcont : Contained last e (c, env))
    (haccepted : (e.outcome (c, env)).ret.refused = false)
    (hleft : NumbersLeft (e.outcome (c, env)).events) :
    (e.step (c, env)).Supported last ∧
      (e.step (c, env)).store.Refines upTo (m.step (c, env)) := by
  obtain ⟨s, d⟩ := e
  obtain ⟨d₀, hb, ht⟩ := h.ideal
  have hr' : s.Refines upTo m := hr.mono hupTo
  have hmap : ∀ ms, s.Makes env c ms → m.step (c, env) = ms.foldl RefMap.mutate m := by
    intro ms hms
    rw [RefMap.step, RefMap.call_eq m env hplain.2, hms now m hr (hclock 0).1]
  rw [Engine.outcome] at haccepted hleft
  rw [Engine.step, Engine.outcome]
  simp only [] at haccepted hleft ⊢
  have hcalled := s.call_cases d env c
  generalize s.call d env c = o at hcalled haccepted hleft
  cases hcalled with
  | nothing r _ hms => rw [hmap [] hms]; exact ⟨h, hr'⟩
  | mutated step hfate mt hfits hmt clock refused accepted f hrefused _ hms hstep =>
      obtain ⟨w, hw⟩ := hb.wal
      obtain ⟨hms', hfits'⟩ := hfits hb.sane hc
      have honlog := Store.onLog_some (fun w => w.step step) hw
      cases hok : (w.step step).ok with
      | false =>
          rw [Store.mutate_refused (by rw [honlog]; exact hok)] at haccepted
          cases hrefused.symm.trans haccepted
      | true =>
          rw [Store.mutate_accepted (by rw [honlog]; exact hok), honlog] at hleft ⊢
          simp only [Outcome.map] at hleft ⊢
          have hlogged := h.logged hok hms' (hcont.whole step hstep) hfits' hmt
          have hsame := (Store.maybeFlush_same (s := { s with
            memtable := mt, wal := some (w.step step).wal }) ⟨hb.sane.tables, hfits'⟩ clock
            env.flush).2 upTo
          refine ⟨?_, Store.Refines.of_same (fun key => ?_) hsame⟩
          · rw [List.cons_append, Disk.run_cons, Disk.run_append, Disk.run_cons]
            exact hlogged.maybeFlush clock env.flush
              hleft.behind
          · rw [hmap _ hms]
            show SameFrom _ _ ((mt.find key).or _) _
            rw [hmt key, Option.or_assoc]
            exact RefMap.foldl_same step.mutations hr' key
  | flushed clock hms =>
      have hcases := Store.flush_cases hb.sane clock env.flush
      rw [hmap [] hms]
      exact ⟨hcases.supported h hleft, hr'.of_same ((hcases.same hb.sane).2 upTo)⟩
  | swept r n budget count _ hms =>
      have halike : ∀ key, AlikeFrom Entry.view upTo
          ((s.memtable.sweepExpired (env.clock n).wall budget).2.find key)
          (s.memtable.find key) :=
        fun key => (Memtable.find_sweepExpired _ _ _ key).mono (hclock n).2
      rw [hmap [] hms]
      refine ⟨⟨⟨d₀, hb.swept (le_trans (hclock n).2 hlast) budget count, ht⟩, fun key => ?_⟩,
        hr'.of_same fun key => SameFrom.or (halike key) (.refl _)⟩
      exact (h.find key).trans (SameFrom.or ((halike key).mono hlast).symm (.refl _))
  | merged h => exact absurd h hplain.1
  | cleared h => exact absurd h hplain.2

theorem Timely.le {last : Int64} :
    ∀ {steps : List Step} {now : Int64}, Timely now steps last → now ≤ last := by
  intro steps
  induction steps with
  | nil => intro now h; exact h
  | cons step steps ih =>
      rintro now ⟨upTo, _, hupTo, hrest⟩
      exact le_trans hupTo (ih hrest)

/-- A run in which nothing spills over: the restart shows what the store shows,
and that is what the calls that were not refused have made. -/
theorem Engine.Supported.run {last : Int64} :
    ∀ (steps : List Step) {e : Engine} {m : RefMap} {now : Int64}, e.Supported last →
      e.store.Refines now m → Timely now steps last →
      (∀ step ∈ steps, step.1.Fits ∧ step.1.Plain) → e.AllContained last steps →
      NumbersLeft (e.events steps) →
      (e.run steps).Supported last ∧
        (e.run steps).store.Refines last (m.run (e.accepted steps)) := by
  intro steps
  induction steps with
  | nil => intro e m now h hr htime _ _ _; exact ⟨h, hr.mono htime⟩
  | cons step steps ih =>
      intro e m now h hr htime hall hcont hleft
      obtain ⟨hleft₁, hleft₂⟩ := numbersLeft_append.mp hleft
      obtain ⟨upTo, hclock, hupTo, hrest⟩ := htime
      obtain ⟨hfits, hplain⟩ := hall step List.mem_cons_self
      have hall' := fun step' hstep' => hall step' (List.mem_cons_of_mem step hstep')
      rw [Engine.accepted]
      cases hrefused : (e.outcome step).ret.refused with
      | true =>
          obtain ⟨hs, hfind⟩ := h.refused hcont.1 hrefused
          exact ih hs ((hr.mono hupTo).of_same fun key => by rw [hfind]; exact .refl _) hrest hall'
            hcont.2 hleft₂
      | false =>
          obtain ⟨hs, hr'⟩ := h.answered hr hfits hplain hclock hupTo hrest.le hcont.1 hrefused
            hleft₁
          exact ih hs hr' hrest hall' hcont.2 hleft₂

/-! ## Refusals -/

/-- What `INCR` adds one to, and the stamp it keeps. -/
def Store.incrOperand (s : Store) (cmd : Command) (env : Env) : Option (Int64 × Int64) :=
  match s.lookup (env.clock 0).wall (cmd.arg 1) with
  | none => some (0, 0)
  | some found => (parseInt64 found.value).map fun value => (value, found.expiresAtMs)

/-- From `e` to `e'` by a call that answers it was not applied, or by an `INCR`
that does; `step` is what it handed to the log. -/
inductive Refused (e : Engine) (step : LogStep) : Engine → Prop
  | call (c : Call) (env : Env) (hstep : e.store.logStep env c = some step)
      (h : (e.outcome (c, env)).ret.refused = true) : Refused e step (e.step (c, env))
  | incr (cmd : Command) (env : Env) (value stamp : Int64)
      (hvalue : e.store.incrOperand cmd env = some (value, stamp))
      (hstep : e.store.logStep env.later
        (.set (cmd.arg 1) (decimalInt (value + 1).toInt) stamp) = some step)
      (h : (cmdIncr cmd e.store env).ret = errorReply kSetFailed) :
      Refused e step {
        store := (cmdIncr cmd e.store env).store
        disk := e.disk.run (cmdIncr cmd e.store env).events }

/-- An `INCR` that answers it was not applied is a set that does. -/
theorem cmdIncr_refused {cmd : Command} {s : Store} {env : Env} {value stamp : Int64}
    (hvalue : s.incrOperand cmd env = some (value, stamp))
    (h : (cmdIncr cmd s env).ret = errorReply kSetFailed) (d : Disk) :
    (s.call d env.later (.set (cmd.arg 1) (decimalInt (value + 1).toInt) stamp)).ret.refused =
        true ∧
      (s.call d env.later (.set (cmd.arg 1) (decimalInt (value + 1).toInt) stamp)).store =
        (cmdIncr cmd s env).store ∧
      (s.call d env.later (.set (cmd.arg 1) (decimalInt (value + 1).toInt) stamp)).events =
        (cmdIncr cmd s env).events := by
  have hincr : cmdIncr cmd s env = cmdIncrFrom cmd s env.later value stamp := by
    rw [Store.incrOperand] at hvalue
    rw [cmdIncr]
    cases hfound : s.lookup (env.clock 0).wall (cmd.arg 1) with
    | none =>
        rw [hfound] at hvalue
        obtain ⟨rfl, rfl⟩ := Prod.mk.inj (Option.some.inj hvalue)
        rfl
    | some found =>
        rw [hfound] at hvalue
        obtain ⟨v, hv, hpair⟩ := Option.map_eq_some_iff.mp hvalue
        obtain ⟨rfl, rfl⟩ := Prod.mk.inj hpair
        simp only [hv]
  rw [hincr] at h ⊢
  rw [cmdIncrFrom] at h ⊢
  split at h
  · have hne : errorReply (text "ERR increment or decrement would overflow") ≠
        errorReply kSetFailed := by decide
    exact absurd h hne
  · next hmax =>
      rw [if_neg hmax]
      refine ⟨?_, rfl, rfl⟩
      show (!(s.set (cmd.arg 1) (decimalInt (value + 1).toInt) stamp env.later).ret) = true
      cases hret : (s.set (cmd.arg 1) (decimalInt (value + 1).toInt) stamp env.later).ret with
      | false => rfl
      | true =>
          simp only [Outcome.map, hret, if_true] at h
          exact absurd (congrArg List.head? h) (by simp [integerReply, errorReply, text])

theorem Refused.spec {e e' : Engine} {step : LogStep} (h : Refused e step e') :
    (∀ key, e'.store.find key = e.store.find key) ∧ e'.disk.tables = e.disk.tables ∧
      e'.disk.logBytes = e.disk.logBytes ++ step.landed := by
  have hcall : ∀ c env, e.store.logStep env c = some step →
      (e.store.call e.disk env c).ret.refused = true →
      (∀ key, (e.store.call e.disk env c).store.find key = e.store.find key) ∧
        (e.disk.run (e.store.call e.disk env c).events).tables = e.disk.tables ∧
        (e.disk.run (e.store.call e.disk env c).events).logBytes =
          e.disk.logBytes ++ step.landed := by
    intro c env hstep hanswer
    obtain ⟨⟨w, hstore⟩, htables, l, hl, _, hlog⟩ := Store.call_refused hanswer
    obtain rfl : l = step := Option.some.inj (hl.symm.trans hstep)
    exact ⟨fun key => by rw [hstore]; rfl, htables, hlog⟩
  cases h with
  | call c env hstep h => exact hcall c env hstep h
  | incr cmd env value stamp hvalue hstep h =>
      obtain ⟨hanswer, hstore, hevents⟩ := cmdIncr_refused hvalue h e.disk
      rw [← hstore, ← hevents]
      exact hcall _ _ hstep hanswer

end Cachedb
