import Cachedb.Proofs.CrashRecovery

/-!
# A log over the table that already holds it

A flush leaves the log behind until the table and its name are safe. When power
is lost in between, the table is there and so is some beginning of the log, and
the restart puts that beginning on top: what it replays goes into the memtable,
in front of every table.

With the whole log left that changes nothing, and with nothing of it left there
is nothing to change. In between, a key whose later record was lost is shown as
its earlier record has it, although the table below holds the later one. So the
versions of a key are told apart here by the place of their record in the log,
and the condition is one on places: no key may have a record on both sides of
the point where the log breaks off.
-/

namespace Cachedb

open KMerge Layers

/-! ## Versions in the order they were logged -/

/-- The place of the last record of a key. -/
def lastAt (key : Bytes) : List Record → Option Nat
  | [] => none
  | r :: rs => ((lastAt key rs).map (· + 1)).or (if r.key = key then some 0 else none)

/-- The version that the record in a place wrote. -/
def versionAt (rs : List Record) (place : Option Nat) : Option Entry :=
  place.bind fun i => rs[i]?.map Record.entry

/-- The place of the version a restart shows when the first `n` records are
left and a table holds the last of each key. -/
def shownAt (key : Bytes) (n : Nat) (rs : List Record) : Option Nat :=
  (lastAt key (rs.take n)).or (lastAt key rs)

theorem lastAt_append (key : Bytes) (xs ys : List Record) :
    lastAt key (xs ++ ys) = ((lastAt key ys).map (· + xs.length)).or (lastAt key xs) := by
  induction xs with
  | nil => simp [lastAt]
  | cons x xs ih =>
      rw [List.cons_append, lastAt, ih, lastAt, ← Option.or_assoc]
      congr 1
      cases lastAt key ys <;> simp [Nat.add_assoc]

theorem lastAt_eq_none_iff {key : Bytes} {rs : List Record} :
    lastAt key rs = none ↔ key ∉ rs.map Record.key := by
  induction rs with
  | nil => simp [lastAt]
  | cons r rs ih =>
      rw [lastAt, Option.or_eq_none_iff, Option.map_eq_none_iff, ih, List.map_cons,
        List.mem_cons, not_or, and_comm]
      simp [eq_comm]

theorem lastAt_lt {key : Bytes} {rs : List Record} {i : Nat} (h : lastAt key rs = some i) :
    i < rs.length := by
  induction rs generalizing i with
  | nil => cases h
  | cons r rs ih =>
      rw [lastAt, Option.or_eq_some_iff, Option.map_eq_some_iff] at h
      rcases h with ⟨j, hj, rfl⟩ | ⟨_, h⟩
      · exact Nat.succ_lt_succ (ih hj)
      · split at h
        · rw [← Option.some.inj h]; exact Nat.succ_pos _
        · cases h

theorem recordsFind_eq_versionAt (rs : List Record) (key : Bytes) :
    recordsFind rs key = versionAt rs (lastAt key rs) := by
  induction rs with
  | nil => rfl
  | cons r rs ih =>
      rw [recordsFind_cons, ih, lastAt]
      cases hlast : lastAt key rs with
      | none =>
          simp only [versionAt, Option.bind_none, Option.none_or, Option.map_none, eq_comm]
          split <;> rfl
      | some i =>
          have hi := lastAt_lt hlast
          simp [versionAt, hi]

theorem recordsFind_take (rs : List Record) (n : Nat) (key : Bytes) :
    recordsFind (rs.take n) key = versionAt rs (lastAt key (rs.take n)) := by
  rw [recordsFind_eq_versionAt]
  cases hlast : lastAt key (rs.take n) with
  | none => rfl
  | some i =>
      have hi := lastAt_lt hlast
      rw [List.length_take] at hi
      simp only [versionAt, Option.bind_some]
      rw [List.getElem?_take_of_lt (by omega)]

/-- What is shown is nowhere older than the last record exactly where no key has
a record on both sides of the break. -/
theorem shownAt_newest_iff (rs : List Record) (n : Nat) :
    (∀ key i j, shownAt key n rs = some i → lastAt key rs = some j → j ≤ i) ↔
      ∀ key, key ∈ (rs.take n).map Record.key → key ∉ (rs.drop n).map Record.key := by
  have hsplit : ∀ key, lastAt key rs =
      ((lastAt key (rs.drop n)).map (· + (rs.take n).length)).or (lastAt key (rs.take n)) := by
    intro key
    rw [← lastAt_append, List.take_append_drop]
  constructor
  · intro h key hkept hlost
    obtain ⟨i, hi⟩ := Option.ne_none_iff_exists'.mp fun hn => lastAt_eq_none_iff.mp hn hkept
    obtain ⟨j, hj⟩ := Option.ne_none_iff_exists'.mp fun hn => lastAt_eq_none_iff.mp hn hlost
    have hle := h key i (j + (rs.take n).length) (by rw [shownAt, hi]; rfl)
      (by rw [hsplit, hj]; rfl)
    have := lastAt_lt hi
    omega
  · intro h key i j hi hj
    rw [shownAt] at hi
    cases hkept : lastAt key (rs.take n) with
    | none =>
        rw [hkept, Option.none_or, hj] at hi
        exact Nat.le_of_eq (Option.some.inj hi)
    | some i' =>
        have hlost : lastAt key (rs.drop n) = none :=
          lastAt_eq_none_iff.mpr (h key (by
            by_contra hnot
            rw [lastAt_eq_none_iff.mpr hnot] at hkept
            cases hkept))
        rw [hsplit, hlost, hkept] at hj
        rw [hkept] at hi
        exact Nat.le_of_eq ((Option.some.inj hj).symm.trans (Option.some.inj hi))

/-! ## The log that is left -/

theorem recordsOf_append (data rest : Bytes) :
    ∃ more, recordsOf (data ++ rest) = recordsOf data ++ more := by
  obtain ⟨len, hlen⟩ : ∃ len, data.length = len := ⟨_, rfl⟩
  induction len using Nat.strongRecOn generalizing data with
  | ind len ih =>
      rw [recordsOf_eq data]
      cases hd : decodeRecord data with
      | incomplete => exact ⟨_, rfl⟩
      | corrupt => exact ⟨_, rfl⟩
      | ok n r =>
          obtain ⟨hlo, hhi⟩ := decodeRecord_ok_bounds hd
          have hsize : kRecordHeaderSize = 21 := rfl
          obtain ⟨more, hmore⟩ := ih (data.drop n).length (by rw [List.length_drop]; omega) _ rfl
          refine ⟨more, ?_⟩
          rw [recordsOf_eq, decodeRecord_append hd]
          simp only []
          rw [List.drop_append_of_le_length hhi, hmore, List.cons_append]

/-- A beginning of a log replays to a beginning of its records. -/
theorem recordsOf_take (data : Bytes) (k : Nat) :
    recordsOf (data.take k) = (recordsOf data).take (recordsOf (data.take k)).length := by
  obtain ⟨more, hmore⟩ := recordsOf_append (data.take k) (data.drop k)
  rw [List.take_append_drop] at hmore
  rw [hmore, List.take_left' rfl]

/-! ## Where in a call the table gets its name -/

/-- The table, its name, and the sync of the directory: a flush up to the point
where it turns to the log. -/
def tableEvents (file : Bytes) (seq : Nat) : List Event :=
  tempEvents .flushTmp file ++ [.rename .flushTmp (.table seq), .fsyncDir true]

/-- No name changes. -/
def Event.Unnaming (e : Event) : Prop := ∀ src dst, e ≠ .rename src dst

theorem Event.OnlyTemp.unnaming {temp : FileName} {e : Event} (h : e.OnlyTemp temp) :
    e.Unnaming := by
  rintro src dst rfl
  cases h

theorem tempEvents_unnaming (temp : FileName) (file : Bytes) :
    ∀ e ∈ tempEvents temp file, e.Unnaming :=
  fun e he => (tempEvents_onlyTemp temp file e he).unnaming

/-- A list with one rename in it is split at a rename in one way. -/
theorem rename_inj {pre tail before after : List Event} {src dst src' dst' : FileName}
    (hpre : ∀ e ∈ pre, e.Unnaming) (htail : ∀ e ∈ tail, e.Unnaming)
    (heq : pre ++ .rename src dst :: tail = before ++ .rename src' dst' :: after) :
    before = pre ∧ src' = src ∧ dst' = dst := by
  obtain ⟨hbefore, hname, _⟩ := (List.append_cons_inj_of_notMem
    (fun h => hpre _ h src' dst' rfl) (fun h => htail _ h src' dst' rfl)).mp heq
  cases hname
  exact ⟨hbefore.symm, rfl, rfl⟩

theorem Store.onLog_truncate_unnaming (s : Store) (now : Reading) (fate : TruncateFate) :
    ∀ e ∈ (s.onLog fun w => w.truncate now fate).events, e.Unnaming := by
  rcases s.onLog_cutEvents now fate with hcut | ⟨ok, hcut⟩ <;> rw [hcut]
  · exact List.forall_mem_nil _
  · rintro e he src dst rfl
    simp at he

/-- The one rename of a flush: what came before it, and the name it gives. -/
theorem Store.Flushed.renamed {s : Store} {now : Reading} {fate : FlushFate}
    {o : Outcome Bool} (h : s.Flushed now fate o) {pre : List Event}
    (hpre : ∀ e ∈ pre, e.Unnaming) {before after : List Event} {src dst : FileName}
    (heq : pre ++ o.events = before ++ .rename src dst :: after) :
    ∃ file, TableWritten s.options.bloomBitsPerKey s.memtable.entries.entries file ∧
      before = pre ++ tempEvents .flushTmp file ∧ src = .flushTmp ∧
      dst = .table s.nextSequence := by
  have hcut := s.onLog_truncate_unnaming now fate.truncate
  -- A flush that names its table does so once.
  have hnamed : ∀ {file : Bytes} {ok : Bool} (tail : List Event), (∀ e ∈ tail, e.Unnaming) →
      TableWritten s.options.bloomBitsPerKey s.memtable.entries.entries file →
      pre ++ (tempEvents .flushTmp file ++
        [.rename .flushTmp (.table s.nextSequence), .fsyncDir ok] ++ tail) =
        before ++ .rename src dst :: after →
      ∃ file, TableWritten s.options.bloomBitsPerKey s.memtable.entries.entries file ∧
        before = pre ++ tempEvents .flushTmp file ∧ src = .flushTmp ∧
        dst = .table s.nextSequence := by
    intro file ok tail htail hfile heq
    have hbegin : ∀ e ∈ pre ++ tempEvents .flushTmp file, e.Unnaming := by
      intro e he
      rcases List.mem_append.mp he with he | he
      · exact hpre e he
      · exact tempEvents_unnaming _ _ e he
    have hend : ∀ e ∈ .fsyncDir ok :: tail, e.Unnaming := by
      rintro e he src dst rfl
      rcases List.mem_cons.mp he with he | he
      · cases he
      · exact htail _ he _ _ rfl
    simp only [List.append_assoc, List.cons_append, List.nil_append] at heq
    rw [← List.append_assoc] at heq
    exact ⟨file, hfile, rename_inj hbegin hend heq⟩
  -- One that does not, never.
  have habsent : ∀ {events : List Event}, (∀ e ∈ events, e.Unnaming) →
      pre ++ events ≠ before ++ .rename src dst :: after := by
    intro events hevents heq
    have hmem : Event.rename src dst ∈ pre ++ events := by rw [heq]; simp
    rcases List.mem_append.mp hmem with he | he
    · exact hpre _ he _ _ rfl
    · exact hevents _ he _ _ rfl
  cases h with
  | idle _ => exact absurd heq (habsent (List.forall_mem_nil _))
  | unnamed events hevents => exact absurd heq (habsent fun e he => (hevents e he).unnaming)
  | unsynced file hfile _ =>
      exact hnamed [] (List.forall_mem_nil _) hfile (by rw [List.append_nil]; exact heq)
  | uncut file hfile _ => exact hnamed _ hcut hfile heq
  | done file table hfile _ _ _ _ => exact hnamed _ hcut hfile heq

theorem tableEvents_absent {es before after : List Event} {file : Bytes} {seq : Nat}
    (h : ∀ e ∈ es, e.Unnaming) : es ≠ before ++ (tableEvents file seq ++ after) := by
  rintro rfl
  exact h (.rename .flushTmp (.table seq)) (by simp [tableEvents]) _ _ rfl

theorem Store.Flushed.table_start {s : Store} {now : Reading} {fate : FlushFate}
    {o : Outcome Bool} (h : s.Flushed now fate o) (pre : List Event)
    {before after : List Event} {file : Bytes} {seq : Nat} (hpre : ∀ e ∈ pre, e.Unnaming)
    (heq : pre ++ o.events = before ++ (tableEvents file seq ++ after)) :
    before = pre ∧ seq = s.nextSequence ∧
      TableWritten s.options.bloomBitsPerKey s.memtable.entries.entries file := by
  rw [tableEvents] at heq
  simp only [List.append_assoc, List.cons_append, List.nil_append] at heq
  rw [← List.append_assoc] at heq
  obtain ⟨file', hfile, hbegin, _, hname⟩ := h.renamed hpre heq
  obtain ⟨hbefore, htemp⟩ := List.append_inj' hbegin rfl
  cases htemp
  exact ⟨hbefore, FileName.table.inj hname, hfile⟩

theorem Wal.step_unnaming (w : Wal) (step : LogStep) :
    ∀ e ∈ (w.step step).events, e.Unnaming := by
  rw [Wal.step_eq]
  split
  · exact List.forall_mem_nil _
  · have hcases := w.commit_cases (Wal.batchBytes step.mutations step.now.wall) step.now step.fate
    generalize w.commit _ _ _ = l at hcases
    rintro e he src dst rfl
    cases hcases <;> simp at he

/-- Up to its flush a mutation gives no name. -/
theorem Wal.logged_unnaming (w : Wal) (step : LogStep) (ms : List Mutation) :
    ∀ e ∈ .began ms :: (w.step step).events ++ [.applied ms], e.Unnaming := by
  rintro e he src dst rfl
  simp only [List.cons_append, List.mem_cons, List.mem_append, List.not_mem_nil, or_false,
    reduceCtorEq, false_or] at he
  exact w.step_unnaming step _ he _ _ rfl

/-- Whatever made the call flush, its table is written from the memtable that
the log held when the flush began. -/
theorem Engine.Backed.table_start {now : Int64} {e : Engine} (hb : e.Backed now) {c : Call}
    (hc : c.Fits) (hplain : c.Plain) {env : Env} (henv : env.log = {})
    {before after : List Event} {file : Bytes} {seq : Nat}
    (heq : (e.outcome (c, env)).events = before ++ (tableEvents file seq ++ after)) :
    ∃ s : Store, Engine.Backed now ⟨s, e.disk.run before⟩ ∧ seq = s.nextSequence ∧
      TableWritten s.options.bloomBitsPerKey s.memtable.entries.entries file := by
  obtain ⟨s, d⟩ := e
  have hcalled := s.call_cases d env c
  rw [Engine.outcome] at heq
  simp only [] at heq
  generalize s.call d env c = o at hcalled heq
  cases hcalled with
  | nothing r => exact absurd heq (tableEvents_absent (List.forall_mem_nil _))
  | mutated step hfate mt hfits hmt clock refused accepted f =>
      obtain ⟨w, hw⟩ := hb.wal
      have happ := w.step_appends step (hfate.trans henv)
      have hlog := Store.onLog_some (fun w => w.step step) hw
      obtain ⟨hms, hfits'⟩ := hfits hb.sane hc
      have hlogged := hb.logged hms happ hfits' hmt
      rw [Store.mutate_accepted (by rw [hlog]; exact happ.ok), hlog] at heq
      simp only [Outcome.map] at heq
      obtain ⟨s₁, hs₁⟩ : ∃ s₁, s₁ = { s with memtable := mt, wal := some (w.step step).wal } :=
        ⟨_, rfl⟩
      rw [← hs₁] at heq hlogged
      have hevents : (.began step.mutations :: (w.step step).events ++ [.applied step.mutations]) ++
          (s₁.maybeFlush clock env.flush).events = before ++ (tableEvents file seq ++ after) := by
        rw [← heq, List.append_assoc]
        rfl
      rcases s₁.maybeFlush_cases clock env.flush with hidle | hflush
      · rw [hidle, List.append_nil] at hevents
        exact absurd hevents (tableEvents_absent (w.logged_unnaming step _))
      · rw [hflush] at hevents
        obtain ⟨rfl, hseq, hfile⟩ := (Store.flush_cases hlogged.sane clock env.flush).table_start
          _ (w.logged_unnaming step _) hevents
        refine ⟨s₁, ?_, hseq, hfile⟩
        rw [Disk.run_append, Disk.run_cons]
        exact hlogged
  | flushed clock =>
      obtain ⟨rfl, hseq, hfile⟩ := (Store.flush_cases hb.sane clock env.flush).table_start
        [] (List.forall_mem_nil _) heq
      exact ⟨s, hb, hseq, hfile⟩
  | swept r n budget count => exact absurd heq (tableEvents_absent (List.forall_mem_nil _))
  | merged h => exact absurd h hplain.1
  | cleared h => exact absurd h hplain.2

/-! ## What the restart shows -/

theorem versionAt_lastAt {key : Bytes} {rs : List Record} {i : Nat}
    (h : lastAt key rs = some i) : ∃ e, versionAt rs (some i) = some e :=
  ⟨_, by rw [versionAt, Option.bind_some, List.getElem?_eq_getElem (lastAt_lt h)]; rfl⟩

theorem Stands.stale {t : Int64} {d d' : Disk} {ps : List (Nat × Bytes)} {next : Nat}
    {mt : Memtable} (h : Stands t d ps next mt) {file : Bytes}
    (hfile : FileHolds file mt.entries.entries) (ht : d'.tables = d.tables.insert next file)
    {n : Nat} (hl : recordsOf d'.logBytes = (recordsOf d.logBytes).take n) {key : Bytes} {j : Nat}
    (hlast : lastAt key (recordsOf d.logBytes) = some j) :
    AlikeFrom Entry.view t (fileFind file key) (versionAt (recordsOf d.logBytes) (some j)) ∧
      SameFrom Entry.view t (d'.find key)
        (versionAt (recordsOf d.logBytes) (shownAt key n (recordsOf d.logBytes))) := by
  obtain ⟨orphan, _, _, hcovers⟩ := h.layout
  obtain ⟨e, he⟩ := versionAt_lastAt hlast
  have hlog : logFind d.logBytes key = some e := by
    rw [logFind, recordsFind_eq_versionAt, hlast, he]
  have hkey := hcovers key
  rw [hlog] at hkey
  have htable : AlikeFrom Entry.view t (fileFind file key) (some e) := by
    rw [hfile.find]
    exact (alike_settled _).trans hkey.symm
  refine ⟨by rw [he]; exact htable, ?_⟩
  rw [Disk.find, newestFirst_insert h ht, tablesFind_cons, logFind, hl, recordsFind_take, shownAt,
    hlast]
  cases hkept : lastAt key ((recordsOf d.logBytes).take n) with
  | none =>
      show SameFrom _ _ ((fileFind file key).or _) (versionAt _ (some j))
      rw [he, ← Option.some_or (o := tablesFind ps key)]
      exact SameFrom.or htable (.refl _)
  | some i =>
      obtain ⟨e', he'⟩ : ∃ e', versionAt (recordsOf d.logBytes) (some i) = some e' := by
        have := recordsFind_take (recordsOf d.logBytes) n key
        rw [hkept] at this
        rw [← this, recordsFind_eq_versionAt, hkept]
        exact versionAt_lastAt hkept
      show SameFrom _ _ ((versionAt _ (some i)).or _) (versionAt _ (some i))
      rw [he']
      exact .refl _

/-- A store that was started on the first `n` of the records `rs` and the table
`file` written from all of them. A key the log had is in the table as its last
record has it, and is shown as the record at `shownAt` has it; any other key of
the table is shown as the table has it. -/
structure BrokenOff (t : Int64) (rs : List Record) (n : Nat) (file : Bytes) (s : Store) :
    Prop where
  table : ∀ key j, lastAt key rs = some j →
    AlikeFrom Entry.view t (fileFind file key) (versionAt rs (some j))
  shown : ∀ key j, lastAt key rs = some j →
    SameFrom Entry.view t (s.find key) (versionAt rs (shownAt key n rs))
  others : ∀ key e, lastAt key rs = none → fileFind file key = some e → s.find key = some e

theorem Engine.Backed.brokenOff {t : Int64} {s : Store} {d d' : Disk}
    (hb : Engine.Backed t ⟨s, d⟩) {file : Bytes}
    (hfile : TableWritten s.options.bloomBitsPerKey s.memtable.entries.entries file)
    (ht : d'.tables = d.tables.insert s.nextSequence file) {n : Nat}
    (hl : recordsOf d'.logBytes = (recordsOf d.logBytes).take n) {cfg : Config}
    (hdir : cfg.options.hasDir = true) (boot : Reading) :
    ∃ o, startup cfg d' boot = some o ∧ BrokenOff t (recordsOf d.logBytes) n file o.store := by
  obtain ⟨ps, _, hstands⟩ := hb.stands
  have hholds := hb.sane.fileHolds hfile
  obtain ⟨o, ho, hstarted⟩ := startup_spec (hstands.named_sane hholds ht) cfg hdir boot
  refine ⟨o, ho, fun key j hlast => (hstands.stale hholds ht hl hlast).1, fun key j hlast => ?_,
    fun key e hlast he => ?_⟩
  · rw [hstarted.find key]
    exact (hstands.stale hholds ht hl hlast).2
  · have hnone : lastAt key ((recordsOf d.logBytes).take n) = none := by
      rw [lastAt_eq_none_iff] at hlast ⊢
      rw [List.map_take]
      exact fun h => hlast (List.mem_of_mem_take h)
    rw [hstarted.find key, Disk.find, newestFirst_insert hstands ht, tablesFind_cons, logFind, hl,
      recordsFind_take, hnone, he]
    rfl

/-- A process makes `steps`, and in `call` a flush: the table `file` has its
name, and the directory is synced. No table before it had the last of the
numbers. There the power goes. The directory `d'` has the tables and the first
`k` bytes of the log. The restart succeeds and shows, of every key the log had,
the last record that was left of it, or else what the table holds, which is its
last record. So no key is shown older than the table has it exactly if no key
has one record among those left and another among those lost. -/
theorem stale_log_iff (cfg cfg' : Config) (hdir : cfg.options.hasDir = true)
    (hdir' : cfg'.options.hasDir = true) (d : Disk) (hd : d.Sane) (hleft : d.NumbersLeft)
    (boot boot' : Reading) (o : Outcome Unit) (ho : startup cfg d boot = some o)
    (now last : Int64) (steps : List Step) (call : Call) (env : Env)
    (htime : Timely now (steps ++ [(call, env)]) last)
    (hsteps : ∀ step ∈ steps ++ [(call, env)],
      step.1.Fits ∧ step.1.Plain ∧ step.2.log = {})
    (hnumbers : NumbersLeft ((o.engine d).events steps))
    (before after : List Event) (file : Bytes) (seq : Nat)
    (hevents : (((o.engine d).run steps).outcome (call, env)).events =
      before ++ (tableEvents file seq ++ after))
    (d' : Disk) (k : Nat)
    (htables : d'.tables =
      (((o.engine d).run steps).disk.run (before ++ tableEvents file seq)).tables)
    (hlog : d'.logBytes =
      (((o.engine d).run steps).disk.run (before ++ tableEvents file seq)).logBytes.take k) :
    let rs := recordsOf
      (((o.engine d).run steps).disk.run (before ++ tableEvents file seq)).logBytes
    let n := (recordsOf d'.logBytes).length
    ∃ o', startup cfg' d' boot' = some o' ∧ BrokenOff last rs n file o'.store ∧
      ((∀ key i j, shownAt key n rs = some i → lastAt key rs = some j → j ≤ i) ↔
        ∀ key, key ∈ (rs.take n).map Record.key → key ∉ (rs.drop n).map Record.key) := by
  intro rs n
  obtain ⟨o₁, ho₁, hstarted⟩ := startup_spec hd cfg hdir boot
  obtain rfl : o = o₁ := by rw [ho] at ho₁; exact Option.some.inj ho₁
  obtain ⟨m, hm⟩ := o.store.exists_refines now
  obtain ⟨mid, htime₁, upTo, _, hupTo, hlast⟩ := htime.append_inv
  obtain ⟨hb, _⟩ := (hstarted.backed hd hleft now).run steps hm htime₁
    (fun step hstep => hsteps step (List.mem_append_left _ hstep)) hnumbers
  obtain ⟨hfits, hplain, henv⟩ := hsteps (call, env) (by simp)
  obtain ⟨s, hbs, rfl, hfile⟩ :=
    (hb.mono (le_trans hupTo hlast)).table_start hfits hplain henv hevents
  rw [Disk.run_append] at htables hlog
  have hrs : rs = recordsOf (((o.engine d).run steps).disk.run before).logBytes := by
    simp only [rs, Disk.run_append]
    rfl
  have hl : recordsOf d'.logBytes = rs.take n := by
    simp only [n, hlog, rs, Disk.run_append]
    exact recordsOf_take _ k
  obtain ⟨o', ho', hbroken⟩ := hbs.brokenOff hfile htables
    (hl.trans (congrArg (List.take n) hrs)) hdir' boot'
  exact ⟨o', ho', by rw [hrs]; exact hbroken, shownAt_newest_iff rs n⟩

/-- A key is set twice; the next key that is set starts a flush. -/
def overwrite : List Step := [(.set [1] [7] 0, Env.at 1), (.set [1] [8] 0, Env.at 1)]

/-- The power goes before the record of the other key is safe: nothing is shown
older than the table has it. -/
theorem stale_log_iff_kept :
    let cfg : Config := { options := { memtableLimitBytes := 200 } }
    let e := ((freshStart cfg).engine {}).run overwrite
    let file := writeTable 10 [([1], { value := [8] }), ([2], { value := [9] })]
    let d' : Disk := { e.disk with tables := SortedMap.empty.insert 1 file }
    ∃ o', startup cfg d' {} = some o' ∧ o'.store.lookup 5 [1] = some ⟨[8], 0⟩ := by
  intro cfg e file d'
  let m : Mutation := { op := .kSet, key := [2], value := [9], expiresAtMs := 0 }
  obtain ⟨o', ho', hbroken, _⟩ := stale_log_iff cfg cfg rfl rfl {} (fun p hp => by cases hp)
    (fun p hp => by cases hp) {} {} (freshStart cfg) (startup_empty rfl) 0 2 overwrite
    (.set [2] [9] 0) (Env.at 1)
    (.stand _ (by decide) (.stand _ (le_refl (1 : Int64)) (.stand _ (le_refl (1 : Int64))
      (show (1 : Int64) ≤ 2 by decide))))
    (by
      intro step hstep
      simp only [overwrite, List.cons_append, List.nil_append, List.mem_cons, List.not_mem_nil,
        or_false] at hstep
      rcases hstep with rfl | rfl | rfl <;>
        exact ⟨by simp [Call.Fits], ⟨by simp, by simp⟩, rfl⟩)
    (by decide +kernel) [.began [m], .write .log (encodeRecord m 1), .applied [m]]
    [.ftruncate .log 0, .fsync .log true] file 1 (by decide +kernel) d' 46
    (by decide +kernel) (by decide +kernel)
  have hshown := hbroken.shown [1] 1 (by decide +kernel) 5 (by decide)
  exact ⟨o', ho', hshown.trans (by decide +kernel)⟩

/-- The power goes when the log was never synced and only its first record has
reached the disk. The table holds the second, the restart shows the first. -/
theorem stale_log_older :
    let cfg : Config := {
      policy := .kAlways, groupCommit := true, options := { memtableLimitBytes := 200 } }
    let e := (freshStart cfg).engine {}
    let file := writeTable 10 [([1], { value := [8] }), ([2], { value := [9] })]
    let d' : Disk := {
      (e.step (.set [1] [7] 0, Env.at 1)).disk with tables := SortedMap.empty.insert 1 file }
    ∃ before after, ((e.run overwrite).outcome (.set [2] [9] 0, Env.at 1)).events =
        before ++ (tableEvents file 1 ++ after) ∧
      (∀ ok, Event.fsync .log ok ∉ (e.outcome (.set [1] [7] 0, Env.at 1)).events ++
        ((e.step (.set [1] [7] 0, Env.at 1)).outcome (.set [1] [8] 0, Env.at 1)).events ++
        before ++ tableEvents file 1) ∧
      d'.tables = ((e.run overwrite).disk.run (before ++ tableEvents file 1)).tables ∧
      d'.logBytes = ((e.run overwrite).disk.run (before ++ tableEvents file 1)).logBytes.take 23 ∧
      fileFind file [1] = some { value := [8] } ∧
      ∃ o', startup cfg d' {} = some o' ∧ o'.store.lookup 5 [1] = some ⟨[7], 0⟩ := by
  intro cfg e file d'
  let m : Mutation := { op := .kSet, key := [2], value := [9], expiresAtMs := 0 }
  have hlookup : (startup cfg d' {}).map (fun o => o.store.lookup 5 [1]) =
      some (some ⟨[7], 0⟩) := by
    decide +kernel
  exact ⟨[.began [m], .write .log (encodeRecord m 1), .applied [m]],
    [.ftruncate .log 0, .fsync .log true], by decide +kernel, by decide +kernel,
    by decide +kernel, by decide +kernel, by decide +kernel, Option.map_eq_some_iff.mp hlookup⟩

end Cachedb
