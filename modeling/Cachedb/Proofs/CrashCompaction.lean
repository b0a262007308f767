import Cachedb.Proofs.CrashRecovery

/-!
# Stopping a merge

A merge gives its output the name of the newest table it read, and only then
takes the others away. Until the rename nothing has happened. After it, the
output lies over whatever inputs are still there, and it hides them as long as
it knows every key they know.

A merge that reaches the oldest table is also allowed to forget: a delete or
an expired value is left out, because nothing older is left for it to hide.
But the older inputs are still there, and they are what it was hiding.
Stopped between the rename and their unlinks, such a merge brings back what
they say. So it does with older tables that an earlier call failed to unlink,
of which the store knows nothing. `compaction_crash_iff` says exactly when it
does not.
-/

namespace Cachedb

open KMerge Layers

/-! ## The calls of a merge -/

/-- The tables a merge leaves to the store, once it has renamed `file` and made
the calls `rest` after that. -/
inductive Store.Leaves (s : Store) (first len : Nat) (env : Env) (out : List (Bytes × Entry))
    (file : Bytes) (rest : List Event) : List Sstable → Prop
  | same (hdir : env.compact.fsyncDir = false) : Leaves s first len env out file rest s.sstables
  | output (table : Sstable)
      (hopen : openTable (s.runTarget first len) file s.options.useBloom = some table)
      (hne : out ≠ [])
      (h : (∀ n, env.compact.unlink n = true) →
        ∀ path ∈ (s.runPaths first len).tail, Event.unlink path ∈ rest) :
      Leaves s first len env out file rest
        (s.sstables.take first ++ table :: s.sstables.drop (first + len))
  | none (h : (∀ n, env.compact.unlink n = true) → env.compact.unlinkTarget = true →
      ∀ path ∈ s.runPaths first len, Event.unlink path ∈ rest) :
      Leaves s first len env out file rest
        (s.sstables.take first ++ s.sstables.drop (first + len))

/-- A merge either stays with its temporary file, or renames it over its first
input and from then on only takes tables away. The output itself goes only if
it is empty. -/
theorem Store.Compacted.shape {s : Store} {first len : Nat} {env : Env}
    {out : List (Bytes × Entry)} {o : Outcome Nat} (h : s.Compacted first len env out o)
    {seq : Nat} {seqs : List Nat}
    (hpaths : s.runPaths first len = (seq :: seqs).map FileName.table) :
    (o.store = s ∧ ∀ e ∈ o.events, e.OnlyTemp .compactTmp) ∨
      ∃ file rest, TableWritten s.options.bloomBitsPerKey out file ∧
        o.events = tempEvents .compactTmp file ++ .rename .compactTmp (.table seq) :: rest ∧
        (∀ e ∈ rest, e.Removes (seq :: seqs)) ∧
        (seq ∉ seqs → Event.unlink (.table seq) ∈ rest → out = []) ∧
        s.Leaves first len env out file rest o.store.sstables := by
  have htarget : s.runTarget first len = .table seq := by rw [Store.runTarget, hpaths]; rfl
  have htail : (s.runPaths first len).tail = seqs.map FileName.table := by rw [hpaths]; rfl
  have hrun : ∀ e ∈ unlinkRun env.compact.unlink 1 (seqs.map FileName.table),
      e.Removes (seq :: seqs) ∧ (seq ∉ seqs → e ≠ .unlink (.table seq)) := by
    intro e he
    obtain ⟨path, hpath, rfl⟩ := mem_unlinkRun he
    refine ⟨List.mem_cons_of_mem _ hpath, fun hseq heq => hseq ?_⟩
    rw [Event.unlink.inj heq] at hpath
    obtain ⟨q, hq, hqeq⟩ := List.mem_map.mp hpath
    rw [← FileName.table.inj hqeq]
    exact hq
  cases h with
  | unnamed events hevents => exact Or.inl ⟨rfl, hevents⟩
  | unsynced file hfile hdir =>
      rw [htarget]
      refine Or.inr ⟨file, _, hfile, rfl, ?_, ?_, .same hdir⟩
      · intro e he
        rw [List.mem_singleton.mp he]
        trivial
      · intro _ he
        cases List.mem_singleton.mp he
  | replaced file table hfile hopen _ hne =>
      rw [htarget, htail]
      refine Or.inr ⟨file, _, hfile, rfl, ?_, ?_, .output table hopen hne fun hall path hin => ?_⟩
      · intro e he
        simp only [List.mem_cons, List.mem_append, List.not_mem_nil, or_false] at he
        rcases he with rfl | he | rfl
        · trivial
        · exact (hrun e he).1
        · trivial
      · intro hseq he
        simp only [List.mem_cons, List.mem_append, List.not_mem_nil, or_false, reduceCtorEq,
          false_or] at he
        exact absurd rfl ((hrun _ he).2 hseq)
      · rw [htail] at hin
        exact List.mem_cons_of_mem _ (List.mem_append_left _ (unlinkRun_all hall path hin))
  | emptied file hfile hnil =>
      rw [htarget, htail]
      refine Or.inr ⟨file, _, hfile, rfl, ?_, fun _ _ => hnil,
        .none fun hall htargetGone path hin => ?_⟩
      · intro e he
        simp only [List.mem_cons, List.mem_append, List.not_mem_nil, or_false] at he
        rcases he with rfl | he | rfl | he | rfl
        · trivial
        · exact (hrun e he).1
        · trivial
        · rw [mem_unlinkEvents he]
          exact List.mem_cons_self
        · trivial
      · rw [hpaths, List.map_cons] at hin
        simp only [List.mem_cons, List.mem_append]
        rcases List.mem_cons.mp hin with rfl | hin
        · rw [htargetGone]
          simp [unlinkEvents]
        · exact Or.inr (Or.inl (unlinkRun_all hall path hin))

/-- The same of a merge that was stopped. -/
theorem Store.Compacted.stopped {s : Store} {first len : Nat} {env : Env}
    {out : List (Bytes × Entry)} {o : Outcome Nat} (h : s.Compacted first len env out o)
    {seq : Nat} {seqs : List Nat}
    (hpaths : s.runPaths first len = (seq :: seqs).map FileName.table) (hseq : seq ∉ seqs)
    {done : List Event}
    (hcut : Cut Event.Torn o.events done) :
    (∀ e ∈ done, e.OnlyTemp .compactTmp) ∨
      ∃ file rest, TableWritten s.options.bloomBitsPerKey out file ∧
        done = tempEvents .compactTmp file ++ .rename .compactTmp (.table seq) :: rest ∧
        (∀ e ∈ rest, e.Removes (seq :: seqs)) ∧
        (Event.unlink (.table seq) ∈ rest → out = []) := by
  rcases h.shape hpaths with ⟨_, htemp⟩ | ⟨file, rest, hfile, hevents, hrest, hgone, _⟩
  · exact Or.inl (cut_onlyTemp hcut htemp)
  · rw [hevents] at hcut
    rcases hcut.append_inv with hcut | ⟨done', rfl, hcut'⟩
    · exact Or.inl (cut_onlyTemp hcut (tempEvents_onlyTemp _ _))
    · rcases hcut'.cons_inv with rfl | ⟨_, ht, _⟩ | ⟨rest', rfl, hcut''⟩
      · rw [List.append_nil]
        exact Or.inl (tempEvents_onlyTemp _ _)
      · cases ht
      · have hsub := cut_clears hcut'' fun e he => (hrest e he).clears
        exact Or.inr ⟨file, rest', hfile, rfl, fun e he => hrest e (hsub e he),
          fun he => hgone hseq (hsub _ he)⟩

/-! ## One key -/

/-- What a merge at `now` keeps of a key. -/
def Store.kept (s : Store) (first len : Nat) (now : Int64) (key : Bytes) : Option Entry :=
  (((s.sstables.drop first).take len).findSome? fun t => t.get key).filter fun e =>
    !(first + len == s.sstables.length && e.obsolete now)

theorem Entry.obsolete_settled (now : Int64) (e : Entry) :
    e.settled.obsolete now = e.obsolete now := by
  rw [Bool.eq_iff_iff, Entry.obsolete_iff, Entry.obsolete_iff, e.view_settled]

theorem Merged.kept {s : Store} {ess : List (List (Bytes × Entry))}
    (hess : List.Forall₂ Sstable.Holds s.sstables ess) {first len : Nat} {now : Int64}
    {out : List (Bytes × Entry)}
    (hout : Merged (first + len == s.sstables.length) now ((ess.drop first).take len) out)
    (key : Bytes) :
    (SortedMap.findIn key out).map Entry.settled = s.kept first len now key := by
  rw [Store.kept, findSome?_get (holds_run hess first len), hout.find key]
  cases firstIn key ((ess.drop first).take len) with
  | none => rfl
  | some e =>
      rw [Option.bind_some, keepEntry, Option.map_some, Option.filter_some, Entry.obsolete_settled]
      cases (first + len == s.sstables.length && e.obsolete now) with
      | true => rfl
      | false => exact congrArg some e.settled_stored

/-- One key: `run` is what the run knew, `rest` what lay under it, `left` what
lies under the output. -/
theorem sameFrom_kept_iff (now : Int64) (drop : Bool) {run rest left : Option Entry}
    (hleft : run = none → left = rest) :
    SameFrom Entry.view now ((run.filter fun e => !(drop && e.obsolete now)).or left)
        (run.or rest) ↔
      drop = false ∨ ∀ e, run = some e → e.obsolete now = true →
        ∀ e', left = some e' → e'.obsolete now = true := by
  cases run with
  | none =>
      rw [hleft rfl]
      exact ⟨fun _ => Or.inr fun e he => (by cases he), fun _ => .refl _⟩
  | some e =>
      rw [Option.filter_some]
      cases hdrop : (drop && e.obsolete now) with
      | false =>
          refine ⟨fun _ => ?_, fun _ => .refl _⟩
          cases drop with
          | false => exact Or.inl rfl
          | true =>
              right
              intro e₁ he₁ hobs
              rw [← Option.some.inj he₁, show e.obsolete now = false from hdrop] at hobs
              cases hobs
      | true =>
          rw [Bool.and_eq_true] at hdrop
          -- The run's version shows nothing, and now or later neither may what is left.
          have hgone : ∀ t, now ≤ t → e.view t = none := fun t ht =>
            Entry.obsolete_iff.mp (Entry.obsolete_mono hdrop.2 ht)
          constructor
          · rintro hsame
            refine Or.inr fun _ _ _ e' he' => ?_
            have hnow := hsame now (le_refl _)
            rw [he'] at hnow
            exact Entry.obsolete_iff.mpr (hnow.trans (hgone now (le_refl _)))
          · intro h t ht
            show left.bind (Entry.view t) = e.view t
            rw [hgone t ht]
            rcases h with hfalse | h
            · rw [hdrop.1] at hfalse
              cases hfalse
            · cases left with
              | none => rfl
              | some e' =>
                  exact Entry.obsolete_iff.mp (Entry.obsolete_mono (h e rfl hdrop.2 e' rfl) ht)

/-! ## The directory under a merge -/

/-- The tables of a store are numbered, and the numbers go down along the
list. -/
def Store.Descends (s : Store) (seqs : List Nat) : Prop :=
  s.sstables.map (·.path) = seqs.map FileName.table ∧ seqs.Pairwise (· > ·)

/-- The output of a merge gets the highest number of its run. -/
theorem Store.Descends.run {s : Store} {seqs : List Nat} (h : s.Descends seqs) {first len : Nat}
    (hlen : 0 < len) (hbound : first + len ≤ s.sstables.length) :
    ∃ seq tail, s.runPaths first len = (seq :: tail).map FileName.table ∧ ∀ q ∈ tail, q < seq := by
  have hlength : s.sstables.length = seqs.length := by simpa using congrArg List.length h.1
  have hrun : s.runPaths first len = ((seqs.drop first).take len).map FileName.table := by
    rw [Store.runPaths, List.map_take, List.map_drop, h.1, ← List.map_drop, ← List.map_take]
  have hpairs : ((seqs.drop first).take len).Pairwise (· > ·) :=
    h.2.sublist ((List.take_sublist _ _).trans (List.drop_sublist _ _))
  cases hseqs : (seqs.drop first).take len with
  | nil =>
      have := congrArg List.length hseqs
      rw [List.length_take, List.length_drop, List.length_nil] at this
      omega
  | cons seq tail =>
      rw [hseqs] at hrun hpairs
      exact ⟨seq, tail, hrun, (List.pairwise_cons.mp hpairs).1⟩

/-- What a merge does past its rename it does to a directory with its output. -/
theorem Disk.run_renamed (d : Disk) (file : Bytes) (seq : Nat) (rest : List Event) :
    ∃ d₁ : Disk, d₁.tables = d.tables.insert seq file ∧ d₁.logBytes = d.logBytes ∧
      d.run (tempEvents .compactTmp file ++ .rename .compactTmp (.table seq) :: rest) =
        d₁.run rest := by
  refine ⟨d.run (tempEvents .compactTmp file ++ [.rename .compactTmp (.table seq)]), rfl, rfl, ?_⟩
  rw [← Disk.run_append, List.append_assoc]
  rfl

theorem remaining_above {d : Disk} {seq : Nat} {seqs : List Nat} (hseqs : ∀ q ∈ seqs, q < seq)
    {rest : List Event} (hrest : ∀ e ∈ rest, e.Removes (seq :: seqs)) :
    remaining rest (d.above seq) = d.above seq := by
  refine remaining_eq_self fun p hp hmem => ?_
  have hp : seq < p.1 := by simpa using (List.mem_filter.mp hp).2
  obtain ⟨q, hq, heq⟩ := List.mem_map.mp (hrest _ hmem)
  rw [FileName.table.inj heq] at hq
  rcases List.mem_cons.mp hq with rfl | hq
  · exact Nat.lt_irrefl _ hp
  · exact Nat.lt_asymm hp (hseqs _ hq)

/-- The tables after a merge that was stopped past its rename. -/
theorem Disk.run_merged (d : Disk) (file : Bytes) {seq : Nat} {seqs : List Nat}
    (hseqs : ∀ q ∈ seqs, q < seq) {rest : List Event}
    (hrest : ∀ e ∈ rest, e.Removes (seq :: seqs)) :
    (d.run (tempEvents .compactTmp file ++
        .rename .compactTmp (.table seq) :: rest)).logBytes = d.logBytes ∧
      (d.run (tempEvents .compactTmp file ++
        .rename .compactTmp (.table seq) :: rest)).newestFirst =
        d.above seq ++ remaining rest [(seq, file)] ++ remaining rest (d.below seq) := by
  obtain ⟨d₁, htables, hlog, hrun⟩ := d.run_renamed file seq rest
  obtain ⟨hnewest, hlog'⟩ := Disk.run_removes hrest d₁
  rw [hrun]
  refine ⟨hlog'.trans hlog, ?_⟩
  rw [hnewest, newestFirst_put htables, ← List.singleton_append, remaining_append,
    remaining_append, remaining_above hseqs hrest, List.append_assoc]

theorem Disk.sane_merged {d : Disk} (hd : d.Sane) {file : Bytes} {out : List (Bytes × Entry)}
    (hfile : FileHolds file out) {seq : Nat} {seqs : List Nat} (hseqs : ∀ q ∈ seqs, q < seq)
    {rest : List Event} (hrest : ∀ e ∈ rest, e.Removes (seq :: seqs)) :
    (d.run (tempEvents .compactTmp file ++ .rename .compactTmp (.table seq) :: rest)).Sane := by
  rw [Disk.Sane, (d.run_merged file hseqs hrest).2]
  intro p hp
  rcases List.mem_append.mp hp with hp | hp
  · rcases List.mem_append.mp hp with hp | hp
    · exact hd p (List.mem_filter.mp hp).1
    · rw [List.mem_singleton.mp (List.mem_filter.mp hp).1]
      exact ⟨out, hfile⟩
  · exact hd p (List.mem_filter.mp (List.mem_filter.mp hp).1).1

/-- The output answers for the first input, whether it is still there or was
empty and taken away. -/
theorem tablesFind_output {rest : List Event} {seq : Nat} {file : Bytes}
    {out : List (Bytes × Entry)} (hfile : FileHolds file out)
    (hgone : Event.unlink (.table seq) ∈ rest → out = []) (key : Bytes) :
    tablesFind (remaining rest [(seq, file)]) key =
      (SortedMap.findIn key out).map Entry.settled := by
  rw [remaining, List.filter_cons, List.filter_nil]
  split
  · rw [tablesFind_cons, tablesFind_nil, Option.or_none, hfile.find]
  · next h =>
      rw [hgone (by simpa using h)]
      rfl

theorem startup_lookup {d : Disk} (hd : d.Sane) (cfg : Config)
    (hdir : cfg.options.hasDir = true) (now : Reading) :
    ∃ o, startup cfg d now = some o ∧ ∀ t key, o.store.lookup t key = d.lookup t key := by
  obtain ⟨o, ho, hstarted⟩ := startup_spec hd cfg hdir now
  refine ⟨o, ho, fun t key => ?_⟩
  rw [Store.lookup, hstarted.find, Disk.lookup]

/-- Of a key that neither the log nor a table above the output knows, what the
merge keeps, or else the newest version left below the output, shows what the
directory showed from the output's number down. -/
def MergeUnseen (now : Int64) (s : Store) (d : Disk) (first len seq : Nat)
    (done : List Event) : Prop :=
  ∀ key, (logFind d.logBytes key).or (tablesFind (d.above seq) key) = none →
    SameFrom Entry.view now
      ((s.kept first len now key).or (tablesFind (remaining done (d.below seq)) key))
      (tablesFind (d.upTo seq) key)

/-- What a merge leaves of a key when it is stopped: until the rename what the
directory said, and from then on, under the log and the tables above the
output, what the merge keeps, or else what is left below the output. -/
def leftByMerge (now : Int64) (s : Store) (d : Disk) (first len seq : Nat) (done : List Event)
    (key : Bytes) : Option Entry :=
  if Event.rename .compactTmp (.table seq) ∈ done then
    ((logFind d.logBytes key).or (tablesFind (d.above seq) key)).or
      ((s.kept first len now key).or (tablesFind (remaining done (d.below seq)) key))
  else d.find key

/-- What lies above hides the same before and after. -/
theorem sameFrom_or_iff {now : Int64} (above : Option Entry) {a b : Option Entry} :
    SameFrom Entry.view now (above.or a) (above.or b) ↔
      (above = none → SameFrom Entry.view now a b) := by
  cases above with
  | none => exact ⟨fun h _ => h, fun h => h rfl⟩
  | some e => exact ⟨fun _ h => (by cases h), fun _ => .refl _⟩

/-- Stopped before its rename a merge has left the directory as it was, and
afterwards it is unseen or not. -/
theorem leftByMerge_same_iff (now : Int64) (s : Store) (d : Disk) (first len seq : Nat)
    (done : List Event) :
    (∀ key, SameFrom Entry.view now (leftByMerge now s d first len seq done key) (d.find key)) ↔
      Event.rename .compactTmp (.table seq) ∉ done ∨ MergeUnseen now s d first len seq done := by
  unfold leftByMerge
  by_cases hreached : Event.rename .compactTmp (.table seq) ∈ done
  · simp only [if_pos hreached]
    rw [or_iff_right (not_not_intro hreached)]
    refine forall_congr' fun key => ?_
    rw [← sameFrom_or_iff, Disk.find, ← d.above_append_upTo seq, tablesFind_append]
    simp only [Option.or_assoc]
  · simp only [if_neg hreached]
    exact ⟨fun _ => Or.inl hreached, fun _ _ => .refl _⟩

/-- The directory of a merge that was stopped. -/
theorem Store.Compacted.left {s : Store} {ess : List (List (Bytes × Entry))}
    (hess : List.Forall₂ Sstable.Holds s.sstables ess) {d : Disk} (hd : d.Sane) {first len : Nat}
    {env : Env} {out : List (Bytes × Entry)}
    (hout : Merged (first + len == s.sstables.length) (env.clock 0).wall
      ((ess.drop first).take len) out)
    {o : Outcome Nat} (h : s.Compacted first len env out o) {seq : Nat} {seqs : List Nat}
    (hpaths : s.runPaths first len = (seq :: seqs).map FileName.table)
    (hseqs : ∀ q ∈ seqs, q < seq) {done : List Event} (hcut : Cut Event.Torn o.events done) :
    (d.run done).Sane ∧ ∀ key, (d.run done).find key =
      leftByMerge (env.clock 0).wall s d first len seq done key := by
  unfold leftByMerge
  rcases h.stopped hpaths (fun hmem => Nat.lt_irrefl _ (hseqs _ hmem)) hcut with
    htemp | ⟨file, rest, hfile, rfl, hrest, hgone⟩
  · obtain ⟨htables, hlog⟩ := Disk.run_onlyTemp (Or.inr rfl) htemp d
    have hn : (d.run done).newestFirst = d.newestFirst := newestFirst_congr htables
    refine ⟨by rw [Disk.Sane, hn]; exact hd, fun key => ?_⟩
    have hlater : Event.rename .compactTmp (.table seq) ∉ done := fun hmem => htemp _ hmem
    rw [if_neg hlater, Disk.find, Disk.find, hn, Disk.logBytes, hlog]
    rfl
  · have hholds : FileHolds file out := fileHolds_writeTable hout.sorted hout.fits hfile
    have hleft : ∀ ps, remaining (tempEvents .compactTmp file ++
        .rename .compactTmp (.table seq) :: rest) ps = remaining rest ps := by
      intro ps
      refine List.filter_congr fun p _ => ?_
      rw [Bool.eq_iff_iff]
      simp [tempEvents]
    obtain ⟨hlog, hnewest⟩ := d.run_merged file hseqs hrest
    refine ⟨Disk.sane_merged hd hholds hseqs hrest, fun key => ?_⟩
    rw [if_pos (List.mem_append_right _ List.mem_cons_self), hleft, Disk.find, hlog, hnewest,
      tablesFind_append, tablesFind_append, tablesFind_output hholds hgone, hout.kept hess]
    simp only [Option.or_assoc]

/-! ## A run on disk -/

/-- The run `maybe_compact` is about to merge, as it lies on disk: next to each
other, under the names the store opened them by. What lies below may be more
than the store knows of. -/
structure RunOnDisk (s : Store) (d : Disk) (first len : Nat)
    (above run below : List (Nat × Bytes)) : Prop where
  files : d.Sane
  layout : d.newestFirst = above ++ run ++ below
  opened : List.Forall₂ (OpenedFrom s.options.useBloom) run ((s.sstables.drop first).take len)

/-- No key whose newest version in the run is one a merge forgets, and that
nothing above the run knows, has a version left that shows something. -/
def NothingResurfaces (now : Int64) (d : Disk) (above run left : List (Nat × Bytes)) : Prop :=
  ∀ key, (logFind d.logBytes key).or (tablesFind above key) = none →
    ∀ e, tablesFind run key = some e → e.obsolete now = true →
      ∀ e', tablesFind left key = some e' → e'.obsolete now = true

section RunOnDisk

variable {s : Store} {d : Disk} {first len : Nat} {above run tail below : List (Nat × Bytes)}
  {seq : Nat} {old : Bytes}

/-- The run is not empty: its newest table lends the output its name. -/
theorem RunOnDisk.cons (h : RunOnDisk s d first len above run below) (hlen : 0 < len)
    (hbound : first + len ≤ s.sstables.length) :
    ∃ seq old tail, run = (seq, old) :: tail := by
  have hlength := h.opened.length_eq
  rw [List.length_take, List.length_drop] at hlength
  cases run with
  | nil =>
      simp only [List.length_nil] at hlength
      omega
  | cons p tail => exact ⟨p.1, p.2, tail, rfl⟩

/-- Where the parts of the directory are. -/
theorem RunOnDisk.parts (h : RunOnDisk s d first len above ((seq, old) :: tail) below) :
    d.above seq = above ∧ d.upTo seq = (seq, old) :: tail ++ below ∧
      d.below seq = tail ++ below ∧ (∀ q ∈ tail.map Prod.fst, q < seq) ∧
      ∀ p ∈ below, ∀ q ∈ seq :: tail.map Prod.fst, p.1 < q := by
  have hpairs := newestFirst_pairwise d
  rw [h.layout, List.append_assoc, List.pairwise_append, List.cons_append,
    List.pairwise_cons, List.pairwise_append] at hpairs
  obtain ⟨_, ⟨hseq, _, _, htail⟩, habove⟩ := hpairs
  have hhigh : ∀ p ∈ above, seq < p.1 := fun p hp => habove p hp _ List.mem_cons_self
  have hlow : ∀ p ∈ tail ++ below, p.1 < seq := hseq
  refine ⟨?_, ?_, ?_, fun q hq => ?_, fun p hp q hq => ?_⟩
  · rw [Disk.above, h.layout, List.append_assoc, List.filter_append,
      List.filter_eq_self.mpr fun p hp => by simpa using hhigh p hp, List.cons_append,
      List.filter_cons_of_neg (by simp),
      List.filter_eq_nil_iff.mpr fun p hp => by have := hlow p hp; simp; omega, List.append_nil]
  · rw [Disk.upTo, h.layout, List.append_assoc, List.filter_append,
      List.filter_eq_nil_iff.mpr fun p hp => by have := hhigh p hp; simp; omega, List.cons_append,
      List.filter_cons_of_pos (by simp),
      List.filter_eq_self.mpr fun p hp => by have := hlow p hp; simp; omega]
    rfl
  · rw [Disk.below, h.layout, List.append_assoc, List.filter_append,
      List.filter_eq_nil_iff.mpr fun p hp => by have := hhigh p hp; simp; omega, List.cons_append,
      List.filter_cons_of_neg (by simp),
      List.filter_eq_self.mpr fun p hp => by simpa using hlow p hp]
    rfl
  · obtain ⟨p, hp, rfl⟩ := List.mem_map.mp hq
    exact hlow p (List.mem_append_left _ hp)
  · rcases List.mem_cons.mp hq with rfl | hq
    · exact hlow p (List.mem_append_right _ hp)
    · obtain ⟨p', hp', rfl⟩ := List.mem_map.mp hq
      exact htail p' hp' p hp

/-- Where the run lies on disk as the store has it open, only what a merge
forgets can make a difference. -/
theorem RunOnDisk.unseen_iff (h : RunOnDisk s d first len above ((seq, old) :: tail) below)
    (now : Int64) {done : List Event}
    (hunlinked : ∀ q, Event.unlink (.table q) ∈ done → q ∈ seq :: tail.map Prod.fst) :
    MergeUnseen now s d first len seq done ↔
      first + len ≠ s.sstables.length ∨
        NothingResurfaces now d above ((seq, old) :: tail) (remaining done (tail ++ below)) := by
  obtain ⟨habove, hupTo, hunder, _, hlow⟩ := h.parts
  have hsane : TablesSane ((seq, old) :: tail) := fun p hp =>
    h.files p (by rw [h.layout]; exact List.mem_append_left _ (List.mem_append_right _ hp))
  have hbelow : remaining done below = below := remaining_eq_self fun p hp hmem =>
    Nat.lt_irrefl _ (hlow p hp _ (hunlinked _ hmem))
  have hkey : ∀ key, SameFrom Entry.view now
      ((s.kept first len now key).or (tablesFind (remaining done (d.below seq)) key))
      (tablesFind (d.upTo seq) key) ↔
      (first + len == s.sstables.length) = false ∨
        ∀ e, tablesFind ((seq, old) :: tail) key = some e → e.obsolete now = true →
          ∀ e', tablesFind (remaining done (tail ++ below)) key = some e' →
            e'.obsolete now = true := by
    intro key
    rw [Store.kept, (opened_holds h.opened hsane).2 key, hunder, hupTo, tablesFind_append]
    refine sameFrom_kept_iff now (first + len == s.sstables.length) fun hnone => ?_
    rw [tablesFind_cons, Option.or_eq_none_iff] at hnone
    rw [remaining_append, tablesFind_append, tablesFind_remaining hnone.2, hbelow]
    rfl
  simp only [MergeUnseen, habove, hkey, beq_eq_false_iff_ne]
  by_cases hdrop : first + len = s.sstables.length
  · simp only [hdrop, ne_eq, not_true_eq_false, false_or]
    rfl
  · simp only [hdrop, ne_eq, not_false_eq_true, true_or, implies_true]

/-- Any run of the tables a store has open lies on disk as it should. -/
theorem RunOnDisk.of_opened {orphan ps : List (Nat × Bytes)} (hfiles : d.Sane)
    (hopened : List.Forall₂ (OpenedFrom s.options.useBloom) ps s.sstables)
    (hlayout : d.newestFirst = orphan ++ ps) (first len : Nat) :
    RunOnDisk s d first len (orphan ++ ps.take first) ((ps.drop first).take len)
      (ps.drop (first + len)) where
  files := hfiles
  layout := by
    rw [hlayout, List.append_assoc, List.append_assoc, ← List.append_assoc (ps.take first),
      run_split]
  opened := List.forall₂_take len (List.forall₂_drop first hopened)

end RunOnDisk

/-! ## Stopping it -/

/-- A merge is stopped having made the calls `done`. Reopening the directory
then shows, from the merge's own clock reading on, what the store showed exactly
if what the merge has left does. It shows what reopening it before would have
shown exactly if the rename was not reached or the merge is unseen. Where its
run lies on disk as the store has it open, it is unseen exactly if it is not one
that forgets, or nothing that was forgotten is left in any table below the
output. -/
theorem compaction_crash_iff (s : Store) (hs : s.Sane) (seqs : List Nat)
    (hnames : s.Descends seqs) (d : Disk) (hd : d.Sane) (first len seq : Nat)
    (hchosen : s.chooseRun d = some (first, len)) (hname : s.runTarget first len = .table seq)
    (env : Env) (done : List Event) (hcut : Cut Event.Torn (s.maybeCompact d env).events done)
    (cfg cfg' : Config) (hdir : cfg.options.hasDir = true) (hdir' : cfg'.options.hasDir = true)
    (boot boot' : Reading) :
    ∃ o o', startup cfg d boot = some o ∧ startup cfg' (d.run done) boot' = some o' ∧
      ((∀ t, (env.clock 0).wall ≤ t → ∀ key, o'.store.lookup t key = s.lookup t key) ↔
        ∀ key, SameFrom Entry.view (env.clock 0).wall
          (leftByMerge (env.clock 0).wall s d first len seq done key) (s.find key)) ∧
      ((∀ t, (env.clock 0).wall ≤ t → ∀ key, o'.store.lookup t key = o.store.lookup t key) ↔
        Event.rename .compactTmp (.table seq) ∉ done ∨
        MergeUnseen (env.clock 0).wall s d first len seq done) ∧
      ∀ above run below, RunOnDisk s d first len above run below →
        (MergeUnseen (env.clock 0).wall s d first len seq done ↔
          first + len ≠ s.sstables.length ∨
          NothingResurfaces (env.clock 0).wall d above run
            (remaining done (run.tail ++ below))) := by
  obtain ⟨_, _, hlen, hbound⟩ := Store.chooseRun_bounds hchosen
  have hpos : 0 < len := Nat.lt_of_lt_of_le (by decide) hlen
  obtain ⟨ess, hess⟩ := hs.tables
  obtain ⟨out, hout, hcases⟩ := Store.compactRun_cases hess first len env
  obtain ⟨seq', tail, hpaths, htail⟩ := hnames.run hpos hbound
  obtain rfl : seq = seq' := by
    rw [Store.runTarget, hpaths] at hname
    exact (FileName.table.inj hname).symm
  rw [Store.maybeCompact, hchosen] at hcut
  obtain ⟨hsane, hleft⟩ := hcases.left hess hd hout hpaths htail hcut
  obtain ⟨o, ho, hlook⟩ := startup_lookup hd cfg hdir boot
  obtain ⟨o', ho', hlook'⟩ := startup_lookup hsane cfg' hdir' boot'
  have hshown : ∀ t key, o'.store.lookup t key =
      (leftByMerge (env.clock 0).wall s d first len seq done key).bind (Entry.view t) := by
    intro t key
    rw [hlook', Disk.lookup, hleft]
  refine ⟨o, o', ho, ho', ?_, ?_, fun above run below hrun => ?_⟩
  · simp only [hshown]
    exact ⟨fun hall key t ht => hall t ht key, fun hall t ht key => hall key t ht⟩
  · rw [← leftByMerge_same_iff]
    simp only [hshown, hlook]
    exact ⟨fun hall key t ht => hall t ht key, fun hall t ht key => hall key t ht⟩
  · -- Nothing but the run's own tables is ever unlinked.
    have hunlinked : ∀ q, Event.unlink (.table q) ∈ done → q ∈ seq :: tail := by
      intro q hmem
      rcases hcases.stopped hpaths (fun hmem => Nat.lt_irrefl _ (htail _ hmem)) hcut with
        htemp | ⟨file, rest, _, rfl, hrest, _⟩
      · cases htemp _ hmem
      · have hmem : Event.unlink (.table q) ∈ rest := by simpa [tempEvents] using hmem
        obtain ⟨q', hq', heq⟩ := List.mem_map.mp (hrest _ hmem)
        rwa [FileName.table.inj heq] at hq'
    obtain ⟨seq', old, tail', rfl⟩ := hrun.cons hpos hbound
    have hsame : (seq' :: tail'.map Prod.fst).map FileName.table =
        (seq :: tail).map FileName.table := (opened_paths hrun.opened).symm.trans hpaths
    obtain ⟨rfl, rfl⟩ := List.cons.inj
      (List.map_injective_iff.mpr (fun _ _ => FileName.table.inj) hsame)
    exact hrun.unseen_iff (env.clock 0).wall hunlinked

/-- Four tables, each of one call: three keys are set, then the first is
deleted. -/
def fourTables : Engine :=
  ((freshStart { options := { memtableLimitBytes := 0 } }).engine {}).run
    [(.set [1] [7] 0, Env.at 1), (.set [2] [8] 0, Env.at 2), (.set [3] [9] 0, Env.at 3),
      (.del [1], Env.at 4)]

theorem fourTables_backed : fourTables.Backed 4 := by
  have htime : Timely 0 [(.set [1] [7] 0, Env.at 1), (.set [2] [8] 0, Env.at 2),
      (.set [3] [9] 0, Env.at 3), (.del [1], Env.at 4)] 4 :=
    .stand _ (by decide) (.stand _ (by decide) (.stand _ (by decide) (.stand _ (by decide)
      (le_refl (4 : Int64)))))
  refine (Engine.Backed.run _ (freshStart_backed rfl 0) (m := RefMap.empty) (fun _ => .refl _)
    htime (fun step hstep => ?_) (by decide +kernel)).1
  simp only [List.mem_cons, List.not_mem_nil, or_false] at hstep
  rcases hstep with rfl | rfl | rfl | rfl <;>
    exact ⟨by simp [Call.Fits], ⟨by simp, by simp⟩, rfl⟩

/-- Stopped with every older input unlinked, the merge shows nothing old. -/
theorem compaction_crash_late :
    let done := (fourTables.store.maybeCompact fourTables.disk (Env.at 5)).events
    ∃ o o', startup {} fourTables.disk {} = some o ∧
      startup {} (fourTables.disk.run done) {} = some o' ∧
      ∀ t, 5 ≤ t → ∀ key, o'.store.lookup t key = o.store.lookup t key := by
  intro done
  have hfiles : fourTables.disk.Sane := by
    obtain ⟨_, _, hstands⟩ := fourTables_backed.stands
    exact hstands.files
  have hrun : RunOnDisk fourTables.store fourTables.disk 0 4 [] fourTables.disk.newestFirst [] :=
    ⟨hfiles, by simp, by unfold OpenedFrom; decide +kernel⟩
  obtain ⟨o, o', ho, ho', _, hiff, hlies⟩ := compaction_crash_iff fourTables.store
    fourTables_backed.sane [4, 3, 2, 1] ⟨by decide +kernel, by decide⟩ fourTables.disk hfiles 0 4 4
    (by decide +kernel) (by decide +kernel) (Env.at 5) done (Cut.full _) {} {} rfl rfl {} {}
  have hleft : remaining done (fourTables.disk.newestFirst.tail ++ []) = [] := by decide +kernel
  refine ⟨o, o', ho, ho', hiff.mpr (Or.inr ((hlies _ _ _ hrun).mpr (Or.inr ?_)))⟩
  intro key _ e _ _ e' he'
  rw [hleft] at he'
  cases he'

/-- The merge of the four tables forgets the deleted key, and is stopped right
after its rename: the key is back with the value it had before it was
deleted. -/
theorem compaction_crash_resurrects :
    let done := (fourTables.store.maybeCompact fourTables.disk (Env.at 5)).events.take 4
    Cut Event.Torn (fourTables.store.maybeCompact fourTables.disk (Env.at 5)).events done ∧
      fourTables.store.lookup 5 [1] = none ∧
      (startup {} fourTables.disk {}).map (fun o => o.store.lookup 5 [1]) = some none ∧
      (startup {} (fourTables.disk.run done) {}).map (fun o => o.store.lookup 5 [1]) =
        some (some ⟨[7], 0⟩) :=
  ⟨Cut.take _ 4, by decide +kernel, by decide +kernel, by decide +kernel⟩

end Cachedb
