import Cachedb.Proofs.PowerCut

/-!
# An acknowledged write survives a loss of power

The engine and the volume together: `Durable` is the invariant between two
calls, and `Carries` says of a sequence of calls that it keeps the invariant
and that the power may go anywhere inside it. Calls on the store have it, the
loop's own sync makes everything safe that was begun, and sending is then
harmless; the rule for the loop does the rest.

The result needs the log's name to be safe when the server starts. On a fresh
directory it is not: nothing syncs the directory before the first flush does,
and until then the log, however well synced, may be gone with its name.
-/

namespace Cachedb

open KMerge Layers Trace

/-! ## Appends that do not fail -/

/-- The ways the log can take a batch. -/
inductive Wal.Taken (w : Wal) (ms : List Mutation) (ts : Int64) : Logged → Prop
  | nothing (h : ms = []) : Taken w ms ts { ok := true, wal := w, events := [] }
  | landed (w' : Wal) (h : 0 < w'.bytesSinceSync) :
      Taken w ms ts { ok := true, wal := w', events := [.write .log (Wal.batchBytes ms ts)] }
  | synced (w' : Wal) :
      Taken w ms ts {
        ok := true, wal := w'
        events := [.write .log (Wal.batchBytes ms ts), .fsync .log true] }

theorem Wal.step_taken (w : Wal) {step : LogStep} (hfate : step.fate = {}) :
    w.Taken step.mutations step.now.wall (w.step step) := by
  rw [Wal.step_eq]
  split
  · next h => exact .nothing h
  · next h =>
      rw [hfate]
      have hcases := w.commit_cases (Wal.batchBytes step.mutations step.now.wall) step.now {}
      generalize w.commit _ _ _ = l at hcases
      cases hcases with
      | torn n hcut _ => cases hcut
      | landed _ =>
          exact .landed _ (Nat.lt_of_lt_of_le (batchBytes_pos h _) (Nat.le_add_left _ _))
      | synced _ _ => exact .synced _
      | unsynced _ hsync => cases hsync

theorem Wal.Taken.appends {w : Wal} {ms : List Mutation} {ts : Int64} {l : Logged}
    (h : w.Taken ms ts l) : Appends ms ts l := by
  cases h with
  | nothing h => exact ⟨rfl, Or.inl ⟨h, rfl⟩⟩
  | landed w' _ => exact ⟨rfl, Or.inr ⟨[], rfl, Or.inl rfl⟩⟩
  | synced w' => exact ⟨rfl, Or.inr ⟨_, rfl, Or.inr rfl⟩⟩

/-! ## Calls on the store -/

section AckedWrites

variable (start : Media) (base : RefMap) (last : Int64)

/-- Between two calls. `lo` mutations are safe whatever happens, and all of
them are when the log says it has nothing to sync. -/
structure Durable (trace : List Event) (e : Engine) : Prop where
  backed : e.Backed last
  refines : e.store.Refines last ((begun trace).foldl RefMap.mutate base)
  off : e.store.options.useCompaction = false
  intact : ∃ lo, Intact start base last trace e.disk lo ∧
    ∀ w, e.store.wal = some w → w.bytesSinceSync = 0 → lo = (begun trace).length

/-- These calls keep the invariant, and the power may go anywhere in them, unless
they give a table the last of the numbers. -/
def Carries (e : Engine) (es : List Event) (e' : Engine) : Prop :=
  NumbersLeft es → ∀ trace, Durable start base last trace e →
    Durable start base last (trace ++ es) e' ∧ SafeThrough start base last trace es

variable {start base last} {trace es : List Event} {e e' : Engine} {s : Store} {d : Disk}

theorem Durable.showsAll (h : Durable start base last trace e) :
    ShowsAll base last (begun trace) e.disk.find :=
  fun key => (h.backed.find key).trans (h.refines key)

theorem Durable.recoverable (h : Durable start base last trace e) :
    Recoverable start base last trace := by
  obtain ⟨lo, hintact, _⟩ := h.intact
  exact hintact.recoverable

theorem Carries.trans {e₁ e₂ e₃ : Engine} {xs ys : List Event}
    (h : Carries start base last e₁ xs e₂) (h' : Carries start base last e₂ ys e₃) :
    Carries start base last e₁ (xs ++ ys) e₃ := by
  intro hleft trace hd
  obtain ⟨hd₂, hsafe⟩ := h (numbersLeft_append.mp hleft).1 trace hd
  obtain ⟨hd₃, hsafe'⟩ := h' (numbersLeft_append.mp hleft).2 _ hd₂
  rw [← List.append_assoc]
  exact ⟨hd₃, hsafe.append hsafe'⟩

theorem Carries.refl (e : Engine) : Carries start base last e [] e := by
  intro _ trace hd
  rw [List.append_nil]
  exact ⟨hd, .nil hd.recoverable⟩

/-- The log takes a batch whole, or the power goes. -/
theorem Intact.write_safe {lo : Nat} (h : Intact start base last trace d lo)
    (hwhole : Whole d.logBytes) (hall : ShowsAll base last (begun trace) d.find)
    {ms : List Mutation} (hms : ∀ m ∈ ms, m.Fits) (ts : Int64) :
    SafeThrough start base last (trace ++ [.began ms]) [.write .log (Wal.batchBytes ms ts)] := by
  intro done hcut
  rcases hcut.cons_inv with rfl | ⟨_, ht, rfl⟩ | ⟨rest, rfl, hrest⟩
  · rw [List.append_nil]
    exact (h.marker (e := .began ms) rfl id).recoverable
  · cases ht with
    | write _ _ n => exact (h.write hwhole hall hms ts n).recoverable
  · rw [hrest.nil_inv]
    have hfull := h.write hwhole hall hms ts (Wal.batchBytes ms ts).length
    rw [List.take_length] at hfull
    exact hfull.recoverable

theorem Wal.Taken.begun {w : Wal} {ms : List Mutation} {ts : Int64} {l : Logged}
    (h : w.Taken ms ts l) (trace : List Event) :
    begun (trace ++ (.began ms :: l.events ++ [.applied ms])) = begun trace ++ ms := by
  have hsilent : ∀ e ∈ l.events ++ [.applied ms], e.begun = [] := by
    cases h with
    | nothing _ => intro e he; rw [List.mem_singleton.mp he]; rfl
    | landed w' _ => intro e he; rcases List.mem_pair.mp he with rfl | rfl <;> rfl
    | synced w' =>
        intro e he
        simp only [List.cons_append, List.nil_append, List.mem_cons, List.not_mem_nil,
          or_false] at he
        rcases he with rfl | rfl | rfl <;> rfl
  rw [List.cons_append, ← List.singleton_append, ← List.append_assoc, begun_silent hsilent,
    begun_began]

/-- The volume under an append. -/
theorem Intact.taken {lo : Nat} (h : Intact start base last trace d lo)
    (hwhole : Whole d.logBytes) (hall : ShowsAll base last (begun trace) d.find) {w : Wal}
    (hsynced : w.bytesSinceSync = 0 → lo = (begun trace).length) {ms : List Mutation}
    (hms : ∀ m ∈ ms, m.Fits) {ts : Int64} {l : Logged} (htaken : w.Taken ms ts l)
    (hall' : ShowsAll base last (begun trace ++ ms) (d.run l.events).find) :
    (∃ lo', Intact start base last (trace ++ (.began ms :: l.events ++ [.applied ms]))
        (d.run l.events) lo' ∧
      (l.wal.bytesSinceSync = 0 → lo' = (begun trace ++ ms).length)) ∧
      SafeThrough start base last trace (.began ms :: l.events ++ [.applied ms]) := by
  have hbegan := h.marker (e := .began ms) rfl id
  have hsafe : SafeThrough start base last trace [.began ms] :=
    .one (fun _ _ h => by cases h) h.recoverable hbegan.recoverable
  cases htaken with
  | nothing hnil =>
      have happlied := hbegan.marker (e := .applied ms) rfl id
      refine ⟨⟨lo, ?_, fun hzero => ?_⟩, ?_⟩
      · rw [List.append_assoc] at happlied
        exact happlied
      · rw [hsynced hzero, hnil, List.append_nil]
      · exact hsafe.append (.one (fun _ _ h => by cases h) hbegan.recoverable
          happlied.recoverable)
  | landed w' hpos =>
      have hwrite := h.write hwhole hall hms ts (Wal.batchBytes ms ts).length
      rw [List.take_length] at hwrite
      have happlied := hwrite.marker (e := .applied ms) rfl id
      refine ⟨⟨lo, ?_, fun hzero => absurd hzero (Nat.ne_of_gt hpos)⟩, ?_⟩
      · rw [List.append_assoc, List.append_assoc] at happlied
        exact happlied
      · exact hsafe.append ((h.write_safe hwhole hall hms ts).append
          (.one (fun _ _ h => by cases h) hwrite.recoverable happlied.recoverable))
  | synced w' =>
      have hwrite := h.write hwhole hall hms ts (Wal.batchBytes ms ts).length
      rw [List.take_length] at hwrite
      have hbegun : begun (trace ++ [.began ms] ++ [.write .log (Wal.batchBytes ms ts)]) =
          begun trace ++ ms := by
        rw [begun_one rfl, begun_began]
      have hsync := hwrite.sync (by rw [hbegun]; exact hall')
      rw [hbegun] at hsync
      have happlied := hsync.marker (e := .applied ms) rfl id
      refine ⟨⟨(begun trace ++ ms).length, ?_, fun _ => rfl⟩, ?_⟩
      · rw [List.append_assoc, List.append_assoc, List.append_assoc] at happlied
        exact happlied
      · have hsafe₃ := SafeThrough.one (e := .fsync .log true) (fun _ _ h => by cases h)
          hwrite.recoverable hsync.recoverable
        have hsafe₄ := SafeThrough.one (e := .applied ms) (fun _ _ h => by cases h)
          hsync.recoverable happlied.recoverable
        exact hsafe.append ((h.write_safe hwhole hall hms ts).append (hsafe₃.append hsafe₄))

/-- The log and the memtable take mutations. -/
theorem Durable.logged (h : Durable start base last trace ⟨s, d⟩) {w : Wal}
    (hw : s.wal = some w) {ms : List Mutation} (hms : ∀ m ∈ ms, m.Fits) {ts : Int64} {l : Logged}
    (htaken : w.Taken ms ts l) {mt : Memtable}
    (hfits : ∀ k e, mt.find k = some e → EntryFits (k, e))
    (hmt : ∀ key, mt.find key =
      (recordsFind (batchRecords ms ts) key).or (s.memtable.find key)) :
    Durable start base last (trace ++ (.began ms :: l.events ++ [.applied ms]))
        ⟨{ s with memtable := mt, wal := some l.wal }, d.run l.events⟩ ∧
      SafeThrough start base last trace (.began ms :: l.events ++ [.applied ms]) := by
  have hbegun := htaken.begun trace
  have hbacked := h.backed.logged hms htaken.appends hfits hmt
  have hrefines : Store.Refines last { s with memtable := mt, wal := some l.wal }
      ((begun trace ++ ms).foldl RefMap.mutate base) := by
    intro key
    show SameFrom Entry.view last ((mt.find key).or _) _
    rw [hmt key, Option.or_assoc, List.foldl_append]
    exact RefMap.foldl_same ms h.refines key
  obtain ⟨ps, _, hstands⟩ := h.backed.stands
  obtain ⟨lo, hintact, hsynced⟩ := h.intact
  obtain ⟨⟨lo', hintact', hsynced'⟩, hsafe⟩ := hintact.taken hstands.whole h.showsAll
    (hsynced w hw) hms htaken (fun key => (hbacked.find key).trans (hrefines key))
  refine ⟨⟨hbacked, by rw [hbegun]; exact hrefines, h.off, lo', hintact', ?_⟩, hsafe⟩
  rintro w' ⟨⟩ hzero
  rw [hbegun]
  exact hsynced' hzero

/-- A flush in which no call fails. -/
theorem Store.flush_carries (s : Store) (d : Disk) (now : Reading) :
    Carries start base last ⟨s, d⟩ (s.flush now {}).events
      ⟨(s.flush now {}).store, d.run (s.flush now {}).events⟩ := by
  intro hleft trace h
  have hcases := Store.flush_cases h.backed.sane now {}
  have hbacked := hcases.backed h.backed hleft
  have hsame := (hcases.same h.backed.sane).2
  obtain ⟨lo, hintact, hsynced⟩ := h.intact
  obtain ⟨w, hw⟩ := h.backed.wal
  generalize s.flush now {} = o at hcases hbacked hsame
  have hrefines : o.store.Refines last ((begun trace).foldl RefMap.mutate base) :=
    h.refines.of_same fun key => hsame last key
  have hcut : s.onLog (fun w => w.truncate now {}) =
      { ret := true, store := { s with wal := some (w.truncate now {}).wal }
        events := [.ftruncate .log 0, .fsync .log true] } := by
    rw [Store.onLog_some _ hw]
    rfl
  cases hcases with
  | idle _ =>
      rw [List.append_nil]
      exact ⟨h, .nil h.recoverable⟩
  | unnamed events hevents =>
      have hbegun : begun (trace ++ events) = begun trace :=
        begun_silent fun e he => (hevents e he).silent.1
      refine ⟨⟨hbacked, by rw [hbegun]; exact hrefines, h.off, lo,
        hintact.onlyTemp (Or.inl rfl) hevents, ?_⟩, hintact.onlyTemp_safe (Or.inl rfl) hevents⟩
      rw [hbegun]
      exact hsynced
  | unsynced _ _ hdir => cases hdir
  | uncut _ _ hfailed => rw [hcut] at hfailed; cases hfailed
  | done file table hfile _ _ _ _ =>
      obtain ⟨ps, hopened, hstands⟩ := h.backed.stands
      have hmem : ShowsAll base last (begun trace) fun key =>
          (s.memtable.find key).or (tablesFind ps key) := by
        intro key
        beta_reduce
        rw [← (opened_holds hopened hstands.tablesSane).2 key]
        exact h.refines key
      obtain ⟨hflushed, hsafe⟩ := hintact.flush hstands (h.backed.sane.fileHolds hfile)
        hmem
      rw [hcut] at hbacked hrefines ⊢
      have hbegun : begun (trace ++ flushEvents file s.nextSequence) = begun trace := by
        rw [begun_append]
        exact List.append_nil _
      rw [← hbegun] at hrefines
      exact ⟨⟨hbacked, hrefines, h.off, _, hflushed,
        fun _ _ _ => congrArg List.length hbegun.symm⟩, hsafe⟩

theorem Store.maybeFlush_carries (s : Store) (d : Disk) (now : Reading) :
    Carries start base last ⟨s, d⟩ (s.maybeFlush now {}).events
      ⟨(s.maybeFlush now {}).store, d.run (s.maybeFlush now {}).events⟩ := by
  rcases s.maybeFlush_cases now {} with hidle | hflush
  · rw [hidle]
    exact .refl _
  · rw [hflush]
    intro hleft trace h
    obtain ⟨hd, hsafe⟩ := s.flush_carries d now hleft trace h
    exact ⟨⟨⟨⟨hd.backed.sane.tables, hd.backed.sane.fits⟩, hd.backed.wal, hd.backed.stands⟩,
      hd.refines, hd.off, hd.intact⟩, hsafe⟩

theorem Store.mutate_carries {α : Type} (s : Store) (d : Disk) (step : LogStep)
    (hfate : step.fate = {}) (mt : Memtable)
    (hfits : s.Sane → (∀ m ∈ step.mutations, m.Fits) ∧
      ∀ k e, mt.find k = some e → EntryFits (k, e))
    (hmt : ∀ key, mt.find key =
      (recordsFind (batchRecords step.mutations step.now.wall) key).or (s.memtable.find key))
    (now : Reading) (refused accepted : α) :
    Carries start base last ⟨s, d⟩
      (s.mutate step.mutations (fun w => w.step step) mt now {} refused accepted).events
      ⟨(s.mutate step.mutations (fun w => w.step step) mt now {} refused accepted).store,
        d.run (s.mutate step.mutations (fun w => w.step step) mt now {} refused
          accepted).events⟩ := by
  intro hleft trace h
  obtain ⟨w, hw⟩ := h.backed.wal
  obtain ⟨hms, hfits'⟩ := hfits h.backed.sane
  have htaken := w.step_taken hfate
  have hlog := Store.onLog_some (fun w => w.step step) hw
  rw [Store.mutate_accepted (by rw [hlog]; exact htaken.appends.ok), hlog] at hleft ⊢
  simp only [] at hleft ⊢
  obtain ⟨hlogged, hsafe⟩ := h.logged hw hms htaken hfits' hmt
  obtain ⟨hd, hsafe'⟩ := Store.maybeFlush_carries
    { s with memtable := mt, wal := some (w.step step).wal } (d.run (w.step step).events) now
    hleft.behind _ hlogged
  have hevents : ∀ ys : List Event,
      .began step.mutations :: (w.step step).events ++ .applied step.mutations :: ys =
        (.began step.mutations :: (w.step step).events ++ [.applied step.mutations]) ++ ys := by
    intro ys
    rw [List.append_assoc]
    rfl
  have hrun : ∀ ys : List Event,
      d.run (.began step.mutations :: (w.step step).events ++ .applied step.mutations :: ys) =
        (d.run (w.step step).events).run ys := by
    intro ys
    rw [List.cons_append, Disk.run_cons, Disk.run_append]
    rfl
  rw [hrun, hevents, ← List.append_assoc]
  exact ⟨hd, hsafe.append hsafe'⟩

/-- Nothing fails that a call logs or flushes, and its clock is not ahead of
the restart's. -/
structure Env.Clean (last : Int64) (env : Env) : Prop where
  log : env.log = {}
  flush : env.flush = {}
  clock : ∀ n, (env.clock n).wall ≤ last

theorem Durable.swept (h : Durable start base last trace ⟨s, d⟩) {now : Int64} (hnow : now ≤ last)
    (budget count : Nat) :
    Durable start base last trace
      ⟨{ s with memtable := (s.memtable.sweepExpired now budget).2, sweptKeys := count }, d⟩ := by
  have halike : ∀ key, AlikeFrom Entry.view last
      ((s.memtable.sweepExpired now budget).2.find key) (s.memtable.find key) :=
    fun key => (Memtable.find_sweepExpired _ _ _ key).mono hnow
  exact ⟨h.backed.swept hnow budget count,
    h.refines.of_same fun key => SameFrom.or (halike key) (.refl _), h.off, h.intact⟩

theorem Store.maybeCompact_off {s : Store} (h : s.options.useCompaction = false) (d : Disk)
    (env : Env) : s.maybeCompact d env = { ret := 0, store := s } := by
  rw [Store.maybeCompact, Store.chooseRun, h]
  rfl

theorem Store.call_carries (s : Store) (d : Disk) {env : Env} (henv : env.Clean last) {c : Call}
    (hc : c ≠ .flushAll) (hfits : c.Fits) :
    Carries start base last ⟨s, d⟩ (s.call d env c).events
      ⟨(s.call d env c).store, d.run (s.call d env c).events⟩ := by
  have hcalled := s.call_cases d env c
  generalize s.call d env c = o at hcalled
  cases hcalled with
  | nothing r => exact .refl _
  | mutated step hfate mt hfits' hmt now refused accepted f =>
      rw [henv.flush]
      exact s.mutate_carries d step (hfate.trans henv.log) mt (fun hs => hfits' hs hfits) hmt now
        refused accepted
  | flushed now =>
      rw [henv.flush]
      exact s.flush_carries d now
  | swept r n budget count =>
      intro _ trace h
      rw [List.append_nil]
      exact ⟨h.swept (henv.clock n) budget count, .nil h.recoverable⟩
  | merged h =>
      intro hleft trace hd
      rw [Store.maybeCompact_off hd.off] at hleft ⊢
      exact Carries.refl _ hleft trace hd
  | cleared h => exact absurd h hc

/-! ## The loop -/

theorem execute_carries (e : Engine) {cmd : Command} {env : Env} (henv : env.Clean last)
    (hcmd : ¬cmd.isFlushall) (hfits : cmd.Fits) :
    Carries start base last e (execute cmd e.store env).events (e.command cmd env) := by
  obtain ⟨s, d⟩ := e
  rw [Engine.command]
  have hexec := execute_cases cmd s d env
  simp only []
  generalize execute cmd s env = o at hexec
  cases hexec with
  | replied out => exact .refl _
  | called c env' henv' hkind hfits' f =>
      refine s.call_carries d ?_ ?_ (hfits' hfits)
      · rcases henv' with rfl | rfl
        · exact henv
        · exact ⟨henv.log, henv.flush, fun n => henv.clock (n + 1)⟩
      · rintro rfl
        rcases hkind with hwrites | ⟨_, hflush⟩
        · exact hwrites
        · exact hcmd hflush

theorem Store.wal_eq_self {s : Store} {w : Wal} (h : s.wal = some w) :
    { s with wal := some w } = s := by
  rw [← h]

/-- A sync of the log makes everything safe. -/
theorem Durable.sync (h : Durable start base last trace ⟨s, d⟩) (w : Wal) (now : Reading) :
    Durable start base last (trace ++ (w.sync now true).events)
        ⟨{ s with wal := some (w.sync now true).wal }, d⟩ ∧
      SafeThrough start base last trace (w.sync now true).events := by
  obtain ⟨lo, hintact, _⟩ := h.intact
  have hsync := hintact.sync h.showsAll
  have hbegun : begun (trace ++ [.fsync .log true]) = begun trace := begun_one rfl
  refine ⟨⟨⟨⟨h.backed.sane.tables, h.backed.sane.fits⟩, ⟨_, rfl⟩, h.backed.stands⟩, ?_, h.off,
    (begun trace).length, hsync, fun _ _ _ => congrArg List.length hbegun.symm⟩,
    .one (fun _ _ h => by cases h) h.recoverable hsync.recoverable⟩
  show Store.Refines last s ((begun (trace ++ [.fsync .log true])).foldl RefMap.mutate base)
  rw [hbegun]
  exact h.refines

theorem Durable.sent (h : Durable start base last trace e) {w : Wal}
    (hw : e.store.wal = some w) (hzero : w.bytesSinceSync = 0) (hes : ∀ x ∈ es, x.IsSent) :
    Durable start base last (trace ++ es) e ∧ SafeThrough start base last trace es := by
  obtain ⟨lo, hintact, hsynced⟩ := h.intact
  have hlo := hsynced w hw hzero
  have hbegun : begun (trace ++ es) = begun trace := by
    rw [begun_append, begun_sent hes, List.append_nil]
  refine ⟨⟨h.backed, by rw [hbegun]; exact h.refines, h.off, lo,
    hintact.sent (Nat.le_of_eq hlo.symm) hes, by rw [hbegun]; exact hsynced⟩, fun done hcut => ?_⟩
  refine (hintact.sent (Nat.le_of_eq hlo.symm) fun x hx => ?_).recoverable
  rcases hcut.mem hx with hx | ⟨x₀, hx₀, ht⟩
  · exact hes x hx
  · cases ht
    exact absurd (hes _ hx₀) id

/-- Nothing the loop does itself fails. -/
structure Iteration.Clean (last : Int64) (it : Iteration) : Prop where
  sync : it.sync = true
  tickSync : it.tickSync = true
  sweep : it.sweep.Clean last
  compact : it.compact.Clean last

theorem Durable.syncLog {srv : Server} (h : Durable start base last trace srv.engine)
    (now : Reading) :
    (Durable start base last (trace ++ (srv.syncLog now true).events)
        (srv.syncLog now true).server.engine ∧
      SafeThrough start base last trace (srv.syncLog now true).events) ∧
      (srv.syncLog now true).ok = true ∧
      ∃ w, (srv.syncLog now true).server.engine.store.wal = some w ∧ w.bytesSinceSync = 0 := by
  obtain ⟨⟨s, d⟩, conns⟩ := srv
  obtain ⟨w, hw⟩ := h.backed.wal
  have hlog := Store.onLog_some
    (fun w => if w.needsSync then w.sync now true else { ok := true, wal := w, events := [] }) hw
  rw [Server.syncLog]
  simp only [Server.after, hlog]
  by_cases hneeds : w.needsSync = true
  · rw [if_pos hneeds]
    exact ⟨h.sync w now, rfl, _, rfl, rfl⟩
  · rw [if_neg hneeds, List.append_nil]
    rw [Wal.needsSync, decide_eq_true_eq] at hneeds
    refine ⟨⟨?_, .nil h.recoverable⟩, rfl, w, rfl, Nat.eq_zero_of_not_pos hneeds⟩
    show Durable start base last trace ⟨{ s with wal := some w }, d⟩
    rw [Store.wal_eq_self hw]
    exact h

theorem Store.tick_carries (s : Store) (d : Disk) (now : Reading) {ok : Bool}
    (hok : ok = true) :
    Carries start base last ⟨s, d⟩ (s.onLog fun w => w.maybeSync now ok).events
      ⟨(s.onLog fun w => w.maybeSync now ok).store,
        d.run (s.onLog fun w => w.maybeSync now ok).events⟩ := by
  intro _ trace h
  obtain ⟨w, hw⟩ := h.backed.wal
  have hidle : Durable start base last (trace ++ []) ⟨{ s with wal := some w }, d⟩ ∧
      SafeThrough start base last trace [] := by
    rw [List.append_nil, Store.wal_eq_self hw]
    exact ⟨h, .nil h.recoverable⟩
  rw [Store.onLog_some _ hw, Wal.maybeSync, hok]
  split
  · exact hidle
  · split
    · exact hidle
    · split
      · exact hidle
      · exact h.sync w now

theorem Server.housekeeping_carries (srv : Server) {it : Iteration} (hit : it.Clean last) :
    Carries start base last srv.engine (srv.housekeeping it).events
      (srv.housekeeping it).server.engine := by
  obtain ⟨⟨s, d⟩, conns⟩ := srv
  have hswept : Carries start base last _ _ _ :=
    s.call_carries d hit.sweep (c := .sweepExpired kSweepBudget) nofun trivial
  have hmerged : ∀ s d, Carries start base last ⟨s, d⟩ _ _ := fun s d =>
    s.call_carries d hit.compact (c := .maybeCompact) nofun trivial
  exact (hswept.trans (hmerged _ _)).trans (Store.tick_carries _ _ it.tick hit.tickSync)

theorem durableRule : LoopRule (Env.Clean last) (fun cmd => ¬cmd.isFlushall ∧ cmd.Fits)
    (Iteration.Clean last) (Carries start base last) where
  refl := .refl
  trans h h' := h.trans h'
  command e _ _ henv hcmd := execute_carries e henv hcmd.1 hcmd.2
  gaveUp srv it hit hfail := by
    intro _ trace h
    rw [hit.sync] at hfail
    rw [(h.syncLog it.now).2.1] at hfail
    cases hfail
  released srv it sent hit _ hsent := by
    intro _ trace h
    rw [hit.sync]
    obtain ⟨⟨hd, hsafe⟩, _, w, hw, hzero⟩ := h.syncLog it.now
    obtain ⟨hd', hsafe'⟩ := hd.sent hw hzero hsent
    rw [← List.append_assoc]
    exact ⟨hd', hsafe.append hsafe'⟩
  kept srv _ hit := srv.housekeeping_carries hit

/-! ## Starting up -/

theorem Disk.media_view (d : Disk) (file : FileName) :
    d.media.view file = (d.read file).map Inode.rest := by
  show (if (d.read file).isSome then some file.inode else none).map
    (fun n => Inode.rest ((d.read (FileName.ofInode n)).getD [])) = _
  cases h : d.read file with
  | none => rfl
  | some data =>
      show some (Inode.rest ((d.read (FileName.ofInode file.inode)).getD [])) = _
      rw [FileName.ofInode_inode, h]
      rfl

theorem Disk.media_wellFormed (d : Disk) : d.media.WellFormed := by
  have hnames : ∀ file i, d.media.names file = some i →
      (d.read file).isSome ∧ i = file.inode := by
    intro file i h
    have h : (if (d.read file).isSome then some file.inode else none) = some i := h
    split at h
    · next hsome => exact ⟨hsome, (Option.some.inj h).symm⟩
    · cases h
  have hnext : 3 ≤ d.media.next ∧ ∀ p ∈ d.newestFirst, p.1 + 3 < d.media.next := by
    cases h : d.newestFirst with
    | nil =>
        have hnext : d.media.next = 3 := by
          rw [Disk.media, show d.tables.entries.reverse = [] from h]
        rw [hnext]
        exact ⟨Nat.le_refl _, List.forall_mem_nil _⟩
    | cons q qs =>
        have hnext : d.media.next = q.1 + 4 := by
          rw [Disk.media, show d.tables.entries.reverse = q :: qs from h]
        rw [hnext]
        refine ⟨Nat.le_add_left 3 (q.1 + 1), fun p hp => ?_⟩
        have := newestFirst_lt h p hp
        omega
  refine ⟨fun file i h => ?_, fun file file' i h h' => ?_⟩
  · obtain ⟨hsome, rfl⟩ := hnames file i h
    cases file with
    | log => exact Nat.lt_of_lt_of_le (by decide) hnext.1
    | flushTmp => exact Nat.lt_of_lt_of_le (by decide) hnext.1
    | compactTmp => exact Nat.lt_of_lt_of_le (by decide) hnext.1
    | table seq =>
        obtain ⟨data, hdata⟩ := Option.isSome_iff_exists.mp hsome
        exact hnext.2 (seq, data)
          (List.mem_reverse.mpr (SortedMap.find_eq_some_iff.mp hdata))
  · rw [← FileName.ofInode_inode file, ← (hnames file i h).2, (hnames file' i h').2,
      FileName.ofInode_inode]

theorem Disk.media_mirrors {d : Disk} (hlog : d.log ≠ none) : d.media.Mirrors d := by
  have hstable : ∀ file, d.media.Stable file := fun _ op hop => absurd hop List.not_mem_nil
  obtain ⟨data, hdata⟩ := Option.ne_none_iff_exists'.mp hlog
  refine ⟨d.media_wellFormed, ⟨hstable _, Inode.rest data, ?_, hdata⟩,
    fun seq => ⟨hstable _, d.media_view _⟩⟩
  rw [d.media_view]
  show d.log.map Inode.rest = _
  rw [hdata]
  rfl

/-- The calls of the startup sequence. -/
theorem startup_events {cfg : Config} {d : Disk} (hd : d.Sane)
    (hdir : cfg.options.hasDir = true) {boot : Reading} {o : Outcome Unit}
    (h : startup cfg d boot = some o) :
    o.events = [.unlink .compactTmp] ++ [.unlink .flushTmp] ++
      (if (replay d.logBytes).truncated then [.ftruncate .log (replay d.logBytes).goodBytes]
        else []) ++ [.openAppend .log] := by
  obtain ⟨ts, hts, _⟩ := mapM_openTable cfg.options.useBloom hd
  obtain ⟨next, _, _, hopen⟩ := openDir_spec cfg.options hdir hts
  rw [startup, hopen] at h
  rw [← Option.some.inj h]
  rfl

/-- The log is opened again. -/
theorem Intact.reopened {lo : Nat} (h : Intact start base last trace d lo) :
    Intact start base last (trace ++ [.openAppend .log]) (d.apply (.openAppend .log)) lo := by
  obtain ⟨hstable, x, hx, hcur⟩ := h.mirrors.log
  have hafter : start.after (trace ++ [.openAppend .log]) = start.after trace := by
    rw [Media.after_append]
    exact Volume.openFile_eq_self hx
  refine h.of_logMaybe ?_ ?_ (by rw [hafter]) rfl
  · intro e he
    rw [List.mem_singleton.mp he]
    exact ⟨rfl, id⟩
  · rw [hafter]
    refine ⟨h.mirrors.wf, ⟨hstable, x, hx, ?_⟩, h.mirrors.tables⟩
    show some ((d.log).getD []) = _
    rw [hcur]
    rfl

theorem startup_durable {cfg : Config} {d : Disk} (hd : d.Sane) (hleft : d.NumbersLeft)
    (hdir : cfg.options.hasDir = true) (hoff : cfg.options.useCompaction = false)
    (hlog : d.log ≠ none) {boot : Reading} {o : Outcome Unit} (ho : startup cfg d boot = some o)
    (hbase : ∀ t, last ≤ t → ∀ key, o.store.lookup t key = base.lookup t key) :
    Durable d.media base last o.events ⟨o.store, d.run o.events⟩ ∧
      SafeThrough d.media base last [] o.events := by
  obtain ⟨o₁, ho₁, hstarted⟩ := startup_spec hd cfg hdir boot
  obtain rfl : o = o₁ := by rw [ho] at ho₁; exact Option.some.inj ho₁
  have hrefines : o.store.Refines last base := by
    intro key t ht
    rw [← RefMap.lookup_eq]
    exact hbase t ht key
  have hall : ShowsAll base last [] d.find := by
    intro key
    rw [← hstarted.find key]
    exact hrefines key
  have h₀ : Intact d.media base last [] d 0 := by
    refine ⟨Disk.media_mirrors hlog, trivial, Nat.le_refl _, hd, fun data hdata => ?_⟩
    obtain rfl : data = d.logBytes := by
      obtain ⟨log, hlog'⟩ := Option.ne_none_iff_exists'.mp hlog
      rw [Media.after_nil, Media.logMaybe, d.media_view, show d.read .log = some log from hlog']
        at hdata
      rw [Disk.logBytes, hlog']
      exact List.mem_singleton.mp hdata
    exact hall.showsFrom (Nat.le_refl _)
  -- The temporary files go, a torn tail is cut off, and the log is opened.
  have hunlink : ∀ temp, ∀ e ∈ [Event.unlink temp], e.OnlyTemp temp := by
    intro temp e he
    rw [List.mem_singleton.mp he]
    rfl
  have h₁ := h₀.onlyTemp (Or.inr rfl) (hunlink .compactTmp)
  have h₂ := h₁.onlyTemp (Or.inl rfl) (hunlink .flushTmp)
  have hsafe₂ := (h₀.onlyTemp_safe (Or.inr rfl) (hunlink .compactTmp)).append
    (h₁.onlyTemp_safe (Or.inl rfl) (hunlink .flushTmp))
  obtain ⟨cut, hcut⟩ : ∃ cut, cut = if (replay d.logBytes).truncated then
    [Event.ftruncate .log (replay d.logBytes).goodBytes] else [] := ⟨_, rfl⟩
  have h₃ : Intact d.media base last ([.unlink .compactTmp] ++ [.unlink .flushTmp] ++ cut)
        (((d.run [.unlink .compactTmp]).run [.unlink .flushTmp]).run cut) 0 ∧
      SafeThrough d.media base last ([.unlink .compactTmp] ++ [.unlink .flushTmp]) cut := by
    rw [hcut]
    split
    · have hgood := h₂.cut (replay d.logBytes).goodBytes ((hall.showsFrom (Nat.le_refl _)).congr
        fun key => by
          show (logFind (d.logBytes.take _) key).or (tablesFind d.newestFirst key) = _
          rw [logFind, (replay_take_good d.logBytes).2]
          rfl)
      exact ⟨hgood, .one (fun _ _ h => by cases h) h₂.recoverable hgood.recoverable⟩
    · exact ⟨h₂, .nil h₂.recoverable⟩
  have h₄ := h₃.1.reopened
  have hsafe₄ := SafeThrough.one (e := .openAppend .log) (fun _ _ h => by cases h)
    h₃.1.recoverable h₄.recoverable
  have hevents := startup_events hd hdir ho
  rw [← hcut] at hevents
  have hbegun : begun o.events = [] := by
    rw [hevents, hcut]
    split <;> rfl
  have hintact : Intact d.media base last o.events (d.run o.events) 0 := by
    rw [hevents, Disk.run_append, Disk.run_append, Disk.run_append]
    exact h₄
  refine ⟨⟨hstarted.backed hd hleft last, by rw [hbegun]; exact hrefines,
    by rw [hstarted.options]; exact hoff, 0, hintact, fun _ _ _ => by rw [hbegun]; rfl⟩, ?_⟩
  rw [hevents]
  exact (hsafe₂.append h₃.2).append hsafe₄

end AckedWrites

/-- A server runs on a directory in which the log has its name, nothing is
merged or cleared, no call fails, and no table has the last of the numbers. Its
power goes at any point, the calls `done` having been made, and `d'` is what is
left. The restart succeeds, and every key shows a beginning of the mutations
that reaches at least as far as they had got when the last byte was sent. -/
theorem acked_survives (cfg cfg' : Config) (hdir : cfg.options.hasDir = true)
    (hdir' : cfg'.options.hasDir = true) (hoff : cfg.options.useCompaction = false) (d : Disk)
    (hd : d.Sane) (hlog : d.log ≠ none) (hnumbers : d.NumbersLeft) (boot boot' : Reading)
    (o : Outcome Unit) (ho : startup cfg d boot = some o) (base : RefMap) (last : Int64)
    (hbase : ∀ t, last ≤ t → ∀ key, o.store.lookup t key = base.lookup t key)
    (its : List Iteration)
    (hits : ∀ it ∈ its, it.Meets (Env.Clean last) (Iteration.Clean last))
    (hcmds : ∀ cmd ∈ ((o.serve d).run its).commands, ¬cmd.isFlushall)
    (hnumbers' : NumbersLeft ((o.serve d).run its).events) (done : List Event)
    (hcut : Cut Event.Torn (o.events ++ ((o.serve d).run its).events) done)
    (d' : Disk) (hleft : (d.media.after done).Survives d'.read) :
    ∃ o', startup cfg' d' boot' = some o' ∧ ∀ key, ∃ n, n ≤ (begun done).length ∧
      (∀ earlier fd data later, done = earlier ++ .sent fd data :: later →
        (begun earlier).length ≤ n) ∧
      ∀ t, last ≤ t → o'.store.lookup t key =
        (((begun done).take n).foldl RefMap.mutate base).lookup t key := by
  obtain ⟨hdurable, hsafe⟩ := startup_durable hd hnumbers hdir hoff hlog ho hbase
  have hfits := Server.run_fits its (o.serve_bounded d)
  have hrun := (durableRule.run its (o.serve d) hits
    (fun cmd hcmd => ⟨hcmds cmd hcmd, hfits cmd hcmd⟩) hnumbers' _ hdurable).2
  obtain ⟨hsane, lo, hacked, hshows⟩ := hsafe.append hrun done hcut d' hleft
  obtain ⟨o', ho', hstarted'⟩ := startup_spec hsane cfg' hdir' boot'
  refine ⟨o', ho', fun key => ?_⟩
  obtain ⟨n, hlo, hn, hsame⟩ := hshows key
  refine ⟨n, hn, fun earlier fd data later heq => ?_, fun t ht => ?_⟩
  · exact Nat.le_trans (preceded_iff.mp hacked earlier _ later heq trivial) hlo
  · rw [RefMap.lookup_eq, Store.lookup, hstarted'.find key]
    exact hsame t ht

theorem oneSet_clean : ∀ it ∈ oneSet, it.Meets (Env.Clean 5) (Iteration.Clean 5) := by
  have henv : Env.Clean 5 {} := ⟨rfl, rfl, fun _ => show (0 : Int64) ≤ 5 by decide⟩
  intro it hit
  rcases List.mem_pair.mp hit with rfl | rfl
  · refine ⟨⟨rfl, rfl, henv, henv⟩, fun r hr env hsup => ?_⟩
    rw [List.mem_singleton.mp hr] at hsup
    exact hsup.elim
  · refine ⟨⟨rfl, rfl, henv, henv⟩, fun r hr env hsup => ?_⟩
    rw [List.mem_singleton.mp hr] at hsup
    obtain ⟨n, rfl⟩ := hsup
    exact henv

/-- One client sets a key on a directory with an empty log, is answered, and
the power goes. -/
theorem acked_survives_set :
    let cfg : Config := { options := { useCompaction := false } }
    let m : Mutation := { op := .kSet, key := text "k", value := text "v", expiresAtMs := 0 }
    let d : Disk := { log := some [] }
    let d' : Disk := { log := some (encodeRecord m 0) }
    ∃ o, startup cfg d {} = some o ∧
      (d.media.after (o.events ++ ((o.serve d).run oneSet).events)).Survives d'.read ∧
      ∃ o', startup {} d' {} = some o' ∧
        o'.store.lookup 5 (text "k") = some ⟨text "v", 0⟩ := by
  intro cfg m d d'
  have ho : startup cfg d {} = some (freshStart cfg) := rfl
  have hevents : (freshStart cfg).events ++ (((freshStart cfg).serve d).run oneSet).events =
      [.unlink .compactTmp, .unlink .flushTmp, .openAppend .log, .began [m],
        .write .log (encodeRecord m 0), .applied [m], .fsync .log true,
        .sent 5 (text "+OK\r\n")] := by
    decide +kernel
  have hcmds : ∀ cmd ∈ (((freshStart cfg).serve d).run oneSet).commands, ¬cmd.isFlushall := by
    decide +kernel
  have hleft : (d.media.after ((freshStart cfg).events ++
      (((freshStart cfg).serve d).run oneSet).events)).Survives d'.read := by
    rw [hevents]
    refine ⟨[], List.nil_sublist _, fun file => ?_⟩
    cases file with
    | log => exact ⟨encodeRecord m 0, by decide +kernel, rfl⟩
    | flushTmp => rfl
    | compactTmp => rfl
    | table seq => rfl
  obtain ⟨o', ho', hshown⟩ := acked_survives cfg {} rfl rfl rfl d (fun p hp => by cases hp)
    nofun (fun p hp => by cases hp) {} {} _ ho RefMap.empty 5 (fun _ _ _ => rfl) oneSet oneSet_clean
    hcmds (by decide +kernel) _ (Cut.full _) d' hleft
  obtain ⟨n, hn, hacked, hlookup⟩ := hshown (text "k")
  rw [hevents] at hn hacked hlookup
  -- The reply went out behind the one mutation, so that is what is found.
  have hone : 1 ≤ n := hacked [.unlink .compactTmp, .unlink .flushTmp, .openAppend .log,
    .began [m], .write .log (encodeRecord m 0), .applied [m], .fsync .log true] 5 _ [] rfl
  obtain rfl : n = 1 := Nat.le_antisymm hn hone
  exact ⟨_, ho, hleft, o', ho', (hlookup 5 (le_refl _)).trans rfl⟩

/-- On a fresh directory the log's name is not safe: a client sets a key and is
answered, the power goes, and the directory is empty again. -/
theorem fresh_log_lost :
    let cfg : Config := { options := { useCompaction := false } }
    let m : Mutation := { op := .kSet, key := text "k", value := text "v", expiresAtMs := 0 }
    ∃ o earlier, startup cfg {} {} = some o ∧
      o.events ++ ((o.serve {}).run oneSet).events =
        earlier ++ [.sent 5 (text "+OK\r\n")] ∧
      begun earlier = [m] ∧
      ((Disk.media {}).after (o.events ++ ((o.serve {}).run oneSet).events)).Survives
        (Disk.read {}) ∧
      ∃ o', startup cfg {} {} = some o' ∧ o'.store.lookup 5 (text "k") = none := by
  intro cfg m
  have hevents : (freshStart cfg).events ++ (((freshStart cfg).serve {}).run oneSet).events =
      [.unlink .compactTmp, .unlink .flushTmp, .openAppend .log, .began [m],
        .write .log (encodeRecord m 0), .applied [m], .fsync .log true] ++
        [.sent 5 (text "+OK\r\n")] := by
    decide +kernel
  refine ⟨freshStart cfg, _, startup_empty rfl, hevents, rfl, ?_, freshStart cfg,
    startup_empty rfl, rfl⟩
  rw [hevents]
  exact ⟨[], List.nil_sublist _, fun file => by cases file <;> rfl⟩

end Cachedb
