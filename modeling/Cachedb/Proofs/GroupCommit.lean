import Cachedb.Lib.Trace
import Cachedb.Proofs.Loop

/-!
# Nothing is promised before it is durable

Under group commit an append returns once the bytes are with the kernel, and
the reply waits in its connection until the loop has synced the log. Three
things blur this picture. Flushes happen in the middle of a turn and reset the
count of unsynced bytes, also when the sync of the cut log fails. A reply that
did not fit the socket goes out turns later, next to replies to commands of
other clients. And the loop asks the count, not the log, whether it must sync.

The invariant (`Held`) reads the whole trace of the run so far. Every accepted
mutation is covered already, or the count is positive and the log has not been
cut since. It survives every call whatever its system calls return, and where
bytes are sent the count is zero, so only the first is left.
-/

namespace Cachedb

open Trace

/-- What came `later` than a mutation made it durable: a sync of the log,
before anything was cut off it, or a table that was synced, named, and had its
directory synced. -/
def Covered (later : List Event) : Prop :=
  (∃ before after, later = before ++ .fsync .log true :: after ∧
    ∀ n, Event.ftruncate .log n ∉ before) ∨
  ∃ before file sequence after, later = before ++
    (tempEvents .flushTmp file ++ [.rename .flushTmp (.table sequence), .fsyncDir true]) ++ after

/-- If the event accepts mutations, they are covered by what came later. -/
def CoveredAfter (e : Event) (later : List Event) : Prop :=
  ∀ ms, e = .applied ms → ∀ m ∈ ms, Covered later

/-- If the event accepts mutations, they are covered by what came later, or
they are in a log whose unsynced bytes are counted. -/
def CountedAfter (unsynced : Nat) (e : Event) (later : List Event) : Prop :=
  ∀ ms, e = .applied ms → ∀ m ∈ ms,
    Covered later ∨ 0 < unsynced ∧ ∀ n, Event.ftruncate .log n ∉ later

/-- If the event hands bytes to a client, everything accepted before it is
covered before it. -/
def AckedAfter (earlier : List Event) (e : Event) : Prop :=
  e.IsSent → Followed CoveredAfter earlier

/-- The invariant, of the trace so far and the log's counters now. -/
structure Held (trace : List Event) (w : Wal) : Prop where
  group : w.groupCommit = true
  counted : Followed (CountedAfter w.bytesSinceSync) trace
  acked : Preceded AckedAfter [] trace

/-- From a store with the invariant to one with the invariant, by these calls,
none of which sends. -/
def Keeps (s : Store) (events : List Event) (s' : Store) : Prop :=
  ∀ trace w, s.wal = some w → Held trace w → (∀ e ∈ events, ¬e.IsSent) ∧
    ∃ w', s'.wal = some w' ∧ Held (trace ++ events) w'

theorem Keeps.of_wal {s s' : Store} (h : s'.wal = s.wal) : Keeps s [] s' :=
  fun trace w hw hheld => ⟨nofun, w, h.trans hw, by rwa [List.append_nil]⟩

theorem Keeps.trans {s s₁ s₂ : Store} {xs ys : List Event} (h : Keeps s xs s₁)
    (h' : Keeps s₁ ys s₂) : Keeps s (xs ++ ys) s₂ := by
  intro trace w hw hheld
  obtain ⟨hxs, w₁, hw₁, hheld₁⟩ := h trace w hw hheld
  obtain ⟨hys, w₂, hw₂, hheld₂⟩ := h' _ w₁ hw₁ hheld₁
  rw [List.append_assoc] at hheld₂
  exact ⟨List.forall_mem_append.mpr ⟨hxs, hys⟩, w₂, hw₂, hheld₂⟩

/-! ## What extends a trace -/

/-- Calls that accept nothing, send nothing and leave the log its length. -/
def Event.Quiet : Event → Prop
  | .ftruncate .log _ => False
  | .applied _ => False
  | .sent _ _ => False
  | _ => True

/-- Calls that do not concern the log, accept nothing and send nothing. -/
def Event.Aside : Event → Prop
  | .write .log _ => False
  | .ftruncate .log _ => False
  | .fsync .log _ => False
  | .applied _ => False
  | .sent _ _ => False
  | _ => True

theorem Event.Aside.quiet {e : Event} (h : e.Aside) : e.Quiet := by
  cases e with
  | ftruncate file n => cases file <;> exact h
  | write file data => trivial
  | fsync file ok => trivial
  | _ => exact h

theorem Event.OnlyTemp.aside {temp : FileName} (ht : temp ≠ .log) {e : Event}
    (h : e.OnlyTemp temp) : e.Aside := by
  cases e with
  | openTrunc file => trivial
  | unlink file => trivial
  | write file data => cases h; cases temp <;> first | exact ht rfl | trivial
  | fsync file ok => cases h; cases temp <;> first | exact ht rfl | trivial
  | _ => cases h

variable {trace es later : List Event} {w w' : Wal}

theorem Covered.append (h : Covered later) (es : List Event) : Covered (later ++ es) := by
  rcases h with ⟨before, after, rfl, hcut⟩ | ⟨before, file, sequence, after, rfl⟩
  · exact Or.inl ⟨before, after ++ es, by simp, hcut⟩
  · exact Or.inr ⟨before, file, sequence, after ++ es, by simp⟩

theorem not_sent_of_quiet (h : ∀ e ∈ es, e.Quiet) : ∀ e ∈ es, ¬e.IsSent := by
  intro e he hsent
  have hquiet := h e he
  cases e with
  | sent fd data => exact hquiet
  | _ => exact hsent

/-- Where nothing is sent, nothing has to be shown about what was accepted. -/
theorem Held.acked_append (h : Held trace w) (hes : ∀ e ∈ es, ¬e.IsSent) :
    Preceded AckedAfter [] (trace ++ es) :=
  preceded_append.mpr ⟨h.acked, .of_forall fun e he _ hsent => absurd hsent (hes e he)⟩

theorem Held.quiet (h : Held trace w) (hes : ∀ e ∈ es, e.Quiet)
    (hgroup : w'.groupCommit = w.groupCommit)
    (hcount : 0 < w.bytesSinceSync → 0 < w'.bytesSinceSync) : Held (trace ++ es) w' := by
  refine ⟨hgroup.trans h.group, followed_append.mpr ⟨h.counted.mono ?_, .of_forall ?_⟩,
    h.acked_append (not_sent_of_quiet hes)⟩
  · intro e later hcounted ms he m hm
    rcases hcounted ms he m hm with hcovered | ⟨hpos, hcut⟩
    · exact Or.inl (hcovered.append es)
    · refine Or.inr ⟨hcount hpos, fun n hn => ?_⟩
      rcases List.mem_append.mp hn with hn | hn
      · exact hcut n hn
      · exact hes _ hn
  · rintro e he later ms rfl
    exact absurd (hes _ he) id

/-- What is accepted is in the log, and counted. -/
theorem Held.applied (h : Held trace w) (ms : List Mutation)
    (hcount : ms ≠ [] → 0 < w.bytesSinceSync) : Held (trace ++ [.applied ms]) w := by
  refine ⟨h.group, followed_append.mpr ⟨h.counted.mono ?_, ?_, trivial⟩,
    h.acked_append fun e he => by rw [List.mem_singleton.mp he]; exact id⟩
  · intro e later hcounted ms' he m hm
    rcases hcounted ms' he m hm with hcovered | ⟨hpos, hcut⟩
    · exact Or.inl (hcovered.append _)
    · refine Or.inr ⟨hpos, fun n hn => ?_⟩
      rcases List.mem_append.mp hn with hn | hn
      · exact hcut n hn
      · cases List.mem_singleton.mp hn
  · intro ms' hms m hm
    cases hms
    exact Or.inr ⟨hcount (List.ne_nil_of_mem hm), fun n hn => nomatch hn⟩

/-- Everything accepted is covered by what is added. -/
theorem Held.cover (h : Held trace w) (hgroup : w'.groupCommit = w.groupCommit)
    (hes : ∀ e ∈ es, ¬e.IsSent ∧ ∀ ms, e ≠ .applied ms)
    (hcover : ∀ later, (∀ n, Event.ftruncate .log n ∉ later) → Covered (later ++ es))
    : Held (trace ++ es) w' := by
  refine ⟨hgroup.trans h.group, followed_append.mpr ⟨h.counted.mono ?_, .of_forall ?_⟩,
    h.acked_append fun e he => (hes e he).1⟩
  · intro e later hcounted ms he m hm
    rcases hcounted ms he m hm with hcovered | ⟨_, hcut⟩
    · exact Or.inl (hcovered.append es)
    · exact Or.inl (hcover later hcut)
  · intro e he later ms hms
    exact absurd hms ((hes e he).2 ms)

/-- With no unsynced bytes, bytes may be sent. -/
theorem Held.sent (h : Held trace w) (hzero : w.bytesSinceSync = 0)
    (hes : ∀ e ∈ es, e.IsSent) : Held (trace ++ es) w := by
  have hcovered : Followed CoveredAfter trace := by
    refine h.counted.mono fun e later hcounted ms he m hm => ?_
    rcases hcounted ms he m hm with hcovered | ⟨hpos, _⟩
    · exact hcovered
    · omega
  have hlater : ∀ ys : List Event, (∀ e ∈ ys, e.IsSent) →
      Followed CoveredAfter (trace ++ ys) := by
    intro ys hys
    refine followed_append.mpr ⟨hcovered.mono fun e later hc ms he m hm =>
      (hc ms he m hm).append ys, .of_forall ?_⟩
    rintro e he later ms rfl
    exact absurd (hys _ he) id
  refine ⟨h.group, (hlater es hes).mono fun e later hc ms he m hm => Or.inl (hc ms he m hm),
    preceded_append.mpr ⟨h.acked, preceded_iff.mpr ?_⟩⟩
  rintro earlier e later rfl _
  exact hlater earlier fun e he => hes e (List.mem_append_left _ he)

theorem Keeps.of_quiet {s s' : Store} (hwal : s'.wal = s.wal) (hes : ∀ e ∈ es, e.Quiet) :
    Keeps s es s' :=
  fun _ w hw hheld => ⟨not_sent_of_quiet hes, w, hwal.trans hw, hheld.quiet hes rfl id⟩

/-! ## Calls on the store -/

/-- A flush leaves the log alone, or puts a durable table down and then cuts the log. -/
theorem Store.flush_shape (s : Store) (now : Reading) (fate : FlushFate) :
    ((s.flush now fate).store.wal = s.wal ∧ ∀ e ∈ (s.flush now fate).events, e.Aside) ∨
      ∃ file,
        (s.flush now fate).store.wal =
          (s.onLog fun w => w.truncate now fate.truncate).store.wal ∧
        (s.flush now fate).events = tempEvents .flushTmp file ++
          [.rename .flushTmp (.table s.nextSequence), .fsyncDir true] ++
          (s.onLog fun w => w.truncate now fate.truncate).events := by
  rw [Store.flush]
  split
  · exact Or.inl ⟨rfl, List.forall_mem_nil _⟩
  · simp only []
    split
    · exact Or.inl ⟨rfl, fun e he => (giveUp_onlyTemp _ _ _ _ _ e he).aside (by decide)⟩
    · next htemp =>
        simp only [Bool.or_eq_true, Bool.not_eq_true', not_or, Bool.not_eq_false] at htemp
        obtain ⟨_, _, hevents⟩ := writeTemp_true htemp.1
        split
        · refine Or.inl ⟨rfl, List.forall_mem_append.mpr ⟨fun e he => ?_, ?_⟩⟩
          · exact (writeTemp_onlyTemp _ _ _ _ e he).aside (by decide)
          · intro e he
            rcases List.mem_pair.mp he with rfl | rfl <;> trivial
        · next hdir =>
            have htrue : fate.fsyncDir = true := by simpa using hdir
            refine Or.inr ⟨s.flushWriter.finish, ?_⟩
            rw [hevents, htrue]
            split
            · exact ⟨rfl, rfl⟩
            · split <;> exact ⟨rfl, rfl⟩

theorem Wal.truncate_groupCommit (w : Wal) (now : Reading) (fate : TruncateFate) :
    (w.truncate now fate).wal.groupCommit = w.groupCommit := by
  rw [Wal.truncate]
  split
  · rfl
  · rw [Wal.sync]
    split <;> rfl

/-- The calls of a flush neither accept nor send. -/
theorem tabled_silent (file : Bytes) (sequence : Nat) (w : Wal) (now : Reading)
    (fate : TruncateFate) :
    ∀ e ∈ tempEvents .flushTmp file ++
        [.rename .flushTmp (.table sequence), .fsyncDir true] ++ (w.truncate now fate).events,
      ¬e.IsSent ∧ ∀ ms, e ≠ .applied ms := by
  rw [List.forall_mem_append]
  constructor
  · intro e he
    simp only [tempEvents, List.cons_append, List.nil_append, List.mem_cons,
      List.not_mem_nil, or_false] at he
    rcases he with rfl | rfl | rfl | rfl | rfl <;> exact ⟨id, nofun⟩
  · intro e he
    rcases w.truncate_cases now fate with htrunc | ⟨_, hcut⟩
    · rw [htrunc] at he; cases he
    · rw [hcut] at he
      rcases List.mem_pair.mp he with rfl | rfl <;> exact ⟨id, nofun⟩

theorem Store.flush_keeps (s : Store) (now : Reading) (fate : FlushFate) :
    Keeps s (s.flush now fate).events (s.flush now fate).store := by
  rcases s.flush_shape now fate with ⟨hwal, haside⟩ | ⟨file, hwal, hevents⟩
  · exact .of_quiet hwal fun e he => (haside e he).quiet
  · intro trace w hw hheld
    rw [Store.onLog_some _ hw] at hwal hevents
    have hsilent := tabled_silent file s.nextSequence w now fate.truncate
    rw [hwal, hevents]
    refine ⟨fun e he => (hsilent e he).1, _, rfl,
      hheld.cover (w.truncate_groupCommit now fate.truncate) hsilent fun later _ => ?_⟩
    exact Or.inr ⟨later, file, s.nextSequence, _, by rw [← List.append_assoc]⟩

theorem Store.maybeFlush_keeps (s : Store) (now : Reading) (fate : FlushFate) :
    Keeps s (s.maybeFlush now fate).events (s.maybeFlush now fate).store := by
  rcases s.maybeFlush_cases now fate with h | h
  · rw [h]
    exact .of_wal rfl
  · rw [h]
    exact s.flush_keeps now fate

/-- An append that is accepted under group commit is counted; one that is not
leaves the counters alone. -/
theorem Wal.step_counted (w : Wal) (step : LogStep) (hgroup : w.groupCommit = true) :
    (w.step step).wal.groupCommit = true ∧ (∀ e ∈ (w.step step).events, e.Quiet) ∧
      w.bytesSinceSync ≤ (w.step step).wal.bytesSinceSync ∧
      ((w.step step).ok = true → step.mutations ≠ [] →
        0 < (w.step step).wal.bytesSinceSync) := by
  rw [Wal.step_eq]
  split
  · next hnil => exact ⟨hgroup, nofun, Nat.le_refl _, fun _ h => absurd hnil h⟩
  · next hne =>
      have hcases := w.commit_cases (Wal.batchBytes step.mutations step.now.wall) step.now
        step.fate
      generalize w.commit _ _ _ = l at hcases
      cases hcases with
      | torn n hcut hn =>
          refine ⟨hgroup, fun e he => ?_, Nat.le_refl _, nofun⟩
          rw [List.mem_singleton.mp he]
          trivial
      | landed hpolicy =>
          refine ⟨hgroup, fun e he => ?_, Nat.le_add_right _ _, fun _ _ => ?_⟩
          · rw [List.mem_singleton.mp he]
            trivial
          · exact Nat.lt_of_lt_of_le (batchBytes_pos hne _) (Nat.le_add_left _ _)
      | synced hpolicy hsync => rw [hgroup] at hpolicy; cases hpolicy.2
      | unsynced hpolicy hsync => rw [hgroup] at hpolicy; cases hpolicy.2

theorem Store.mutate_keeps {α : Type} (s : Store) (step : LogStep) (mt : Memtable)
    (now : Reading) (fate : FlushFate) (refused accepted : α) :
    Keeps s
      (s.mutate step.mutations (fun w => w.step step) mt now fate refused accepted).events
      (s.mutate step.mutations (fun w => w.step step) mt now fate refused accepted).store := by
  intro trace w hw hheld
  obtain ⟨hgroup, hquiet, hle, hpos⟩ := w.step_counted step hheld.group
  have hlog := Store.onLog_some (fun w => w.step step) hw
  have hbegan : ∀ e ∈ Event.began step.mutations :: (w.step step).events, e.Quiet :=
    List.forall_mem_cons.mpr ⟨trivial, hquiet⟩
  have hlogged : Held (trace ++ .began step.mutations :: (w.step step).events)
      (w.step step).wal :=
    hheld.quiet hbegan (hgroup.trans hheld.group.symm) (fun h => Nat.lt_of_lt_of_le h hle)
  cases hok : (w.step step).ok with
  | false =>
      rw [Store.mutate_refused (by rw [hlog]; exact hok), hlog]
      exact ⟨not_sent_of_quiet hbegan, _, rfl, hlogged⟩
  | true =>
      rw [Store.mutate_accepted (by rw [hlog]; exact hok), hlog]
      obtain ⟨hflush, w', hw', hheld'⟩ := Store.maybeFlush_keeps
        { s with memtable := mt, wal := some (w.step step).wal } now fate _ _ rfl
        (hlogged.applied step.mutations (hpos hok))
      refine ⟨List.forall_mem_append.mpr ⟨not_sent_of_quiet hbegan,
        List.forall_mem_cons.mpr ⟨id, hflush⟩⟩, w', hw', ?_⟩
      simpa only [List.append_assoc, List.cons_append, List.nil_append] using hheld'

theorem Store.compactRun_aside (s : Store) (first len : Nat) (env : Env) :
    (s.compactRun first len env).store.wal = s.wal ∧
      ∀ e ∈ (s.compactRun first len env).events, e.Aside := by
  have hunlink : ∀ ok file, ∀ e ∈ unlinkEvents ok file, e.Aside :=
    fun ok file e he => by rw [mem_unlinkEvents he]; trivial
  have hunlinks : ∀ unlink n paths, ∀ e ∈ unlinkRun unlink n paths, e.Aside := by
    intro unlink n paths e he
    obtain ⟨path, _, rfl⟩ := mem_unlinkRun he
    trivial
  have htemp : ∀ ok content fate, ∀ e ∈ (writeTemp .compactTmp ok content fate).2, e.Aside :=
    fun ok content fate e he => (writeTemp_onlyTemp _ _ _ _ e he).aside (by decide)
  have hnamed : ∀ src dst ok, ∀ e ∈ [Event.rename src dst, .fsyncDir ok], e.Aside := by
    intro src dst ok e he
    rcases List.mem_pair.mp he with rfl | rfl <;> trivial
  have hdir : ∀ ok, ∀ e ∈ [Event.fsyncDir ok], e.Aside :=
    fun ok e he => by rw [List.mem_singleton.mp he]; trivial
  rw [Store.compactRun]
  simp only []
  split
  · exact ⟨rfl, List.forall_mem_append.mpr ⟨htemp _ _ _, hunlink _ _⟩⟩
  · split
    · exact ⟨rfl, List.forall_mem_append.mpr ⟨htemp _ _ _, hnamed _ _ _⟩⟩
    · split
      · split
        · exact ⟨rfl, by simp only [List.forall_mem_append]; exact
            ⟨⟨⟨htemp _ _ _, hnamed _ _ _⟩, hunlinks _ _ _⟩, hdir _⟩⟩
        · exact ⟨rfl, by simp only [List.forall_mem_append]; exact
            ⟨⟨⟨htemp _ _ _, hnamed _ _ _⟩, hunlinks _ _ _⟩, hdir _⟩⟩
      · exact ⟨rfl, by simp only [List.forall_mem_append]; exact
          ⟨⟨⟨⟨⟨htemp _ _ _, hnamed _ _ _⟩, hunlinks _ _ _⟩, hdir _⟩, hunlink _ _⟩, hdir _⟩⟩

theorem Store.maybeCompact_keeps (s : Store) (d : Disk) (env : Env) :
    Keeps s (s.maybeCompact d env).events (s.maybeCompact d env).store := by
  rw [Store.maybeCompact]
  split
  · exact .of_wal rfl
  · next first len hrun =>
      obtain ⟨hwal, haside⟩ := s.compactRun_aside first len env
      exact .of_quiet hwal fun e he => (haside e he).quiet

/-- Whatever its system calls return. -/
theorem Store.call_keeps (s : Store) (d : Disk) (env : Env) (c : Call) (hc : c ≠ .flushAll) :
    Keeps s (s.call d env c).events (s.call d env c).store := by
  have hcalled := s.call_cases d env c
  generalize s.call d env c = o at hcalled
  cases hcalled with
  | nothing r => exact .of_wal rfl
  | mutated step hfate mt hfits hmt now refused accepted f =>
      exact s.mutate_keeps step mt now env.flush refused accepted
  | flushed now => exact s.flush_keeps now env.flush
  | swept r n budget count => exact .of_wal rfl
  | merged h => exact s.maybeCompact_keeps d env
  | cleared h => exact absurd h hc

/-! ## Turns of the loop -/

theorem execute_keeps (cmd : Command) (s : Store) (env : Env) (hcmd : ¬cmd.isFlushall) :
    Keeps s (execute cmd s env).events (execute cmd s env).store := by
  have hexec := execute_cases cmd s {} env
  generalize execute cmd s env = o at hexec
  cases hexec with
  | replied out => exact .of_wal rfl
  | called c env' henv hkind hfits f =>
      refine s.call_keeps {} env' c ?_
      rintro rfl
      rcases hkind with hwrites | ⟨_, hflush⟩
      · exact hwrites
      · exact hcmd hflush

/-- Commands send nothing and keep the invariant. -/
theorem keepsRule : CommandRule (fun _ => True) (fun cmd => ¬cmd.isFlushall)
    (fun e es e' => Keeps e.store es e'.store) where
  refl _ := .of_wal rfl
  trans h h' := h.trans h'
  command e cmd env _ hcmd := execute_keeps cmd e.store env hcmd

/-- A sync covers everything. -/
theorem Held.sync (h : Held trace w) (now : Reading) (ok : Bool) :
    (∀ e ∈ (w.sync now ok).events, ¬e.IsSent) ∧
      Held (trace ++ (w.sync now ok).events) (w.sync now ok).wal := by
  cases ok with
  | true =>
      have hsilent : ∀ e ∈ [Event.fsync .log true], ¬e.IsSent ∧ ∀ ms, e ≠ .applied ms := by
        intro e he
        rw [List.mem_singleton.mp he]
        exact ⟨id, nofun⟩
      exact ⟨fun e he => (hsilent e he).1,
        h.cover rfl hsilent fun later hlater => Or.inl ⟨later, [], rfl, hlater⟩⟩
  | false =>
      have hquiet : ∀ e ∈ [Event.fsync .log false], e.Quiet := by
        intro e he
        rw [List.mem_singleton.mp he]
        trivial
      exact ⟨not_sent_of_quiet hquiet, h.quiet hquiet rfl id⟩

/-- The loop's own sync leaves no unsynced bytes, or gives up. -/
theorem Server.syncLog_held {s : Server} (hw : s.engine.store.wal = some w)
    (h : Held trace w) (now : Reading) (sync : Bool) :
    (∀ e ∈ (s.syncLog now sync).events, ¬e.IsSent) ∧
      ∃ w', (s.syncLog now sync).server.engine.store.wal = some w' ∧
        Held (trace ++ (s.syncLog now sync).events) w' ∧
        ((s.syncLog now sync).ok = true → w'.bytesSinceSync = 0) := by
  have hlog := Store.onLog_some
    (fun w => if w.needsSync then w.sync now sync else { ok := true, wal := w, events := [] }) hw
  rw [Server.syncLog]
  simp only [Server.after, hlog]
  by_cases hneeds : w.needsSync = true
  · rw [if_pos hneeds]
    obtain ⟨hsilent, hheld⟩ := h.sync now sync
    refine ⟨hsilent, _, rfl, hheld, fun hok => ?_⟩
    cases sync with
    | true => rfl
    | false => cases hok
  · rw [if_neg hneeds]
    rw [Wal.needsSync, decide_eq_true_eq] at hneeds
    exact ⟨nofun, w, rfl, by rwa [List.append_nil], fun _ => Nat.eq_zero_of_not_pos hneeds⟩

theorem Server.housekeeping_keeps (s : Server) (it : Iteration) :
    Keeps s.engine.store (s.housekeeping it).events
      (s.housekeeping it).server.engine.store := by
  have hswept := s.engine.store.call_keeps s.engine.disk it.sweep (.sweepExpired kSweepBudget)
    nofun
  have hticked : ∀ s : Store, Keeps s
      (s.onLog fun w => w.maybeSync it.tick it.tickSync).events
      (s.onLog fun w => w.maybeSync it.tick it.tickSync).store := by
    intro s trace w hw hheld
    have hidle : (∀ e ∈ ([] : List Event), ¬e.IsSent) ∧ Held (trace ++ []) w :=
      ⟨nofun, by rwa [List.append_nil]⟩
    rw [Store.onLog_some _ hw, Wal.maybeSync]
    split
    · exact ⟨hidle.1, w, rfl, hidle.2⟩
    · split
      · exact ⟨hidle.1, w, rfl, hidle.2⟩
      · split
        · exact ⟨hidle.1, w, rfl, hidle.2⟩
        · exact ⟨(hheld.sync _ _).1, _, rfl, (hheld.sync _ _).2⟩
  exact (hswept.trans (Store.maybeCompact_keeps _ _ _)).trans (hticked _)

/-- The invariant is carried from one engine to the other. -/
def HeldThrough (e : Engine) (es : List Event) (e' : Engine) : Prop :=
  ∀ trace w, e.store.wal = some w → Held trace w →
    ∃ w', e'.store.wal = some w' ∧ Held (trace ++ es) w'

theorem Keeps.heldThrough {e e' : Engine} {es : List Event} (h : Keeps e.store es e'.store) :
    HeldThrough e es e' :=
  fun trace w hw hheld => (h trace w hw hheld).2

theorem heldRule : LoopRule (fun _ => True) (fun cmd => ¬cmd.isFlushall) (fun _ => True)
    HeldThrough where
  refl e := (keepsRule.refl e).heldThrough
  trans h h' := by
    intro trace w hw hheld
    obtain ⟨w₁, hw₁, hheld₁⟩ := h trace w hw hheld
    rw [← List.append_assoc]
    exact h' _ w₁ hw₁ hheld₁
  command e cmd env henv hcmd := (keepsRule.command e cmd env henv hcmd).heldThrough
  gaveUp s it _ _ := by
    intro trace w hw hheld
    obtain ⟨_, w', hw', hheld', _⟩ := Server.syncLog_held hw hheld it.now it.sync
    exact ⟨w', hw', hheld'⟩
  released s it sent _ hok hsent := by
    intro trace w hw hheld
    obtain ⟨_, w', hw', hheld', hzero⟩ := Server.syncLog_held hw hheld it.now it.sync
    rw [← List.append_assoc]
    exact ⟨w', hw', hheld'.sent (hzero hok) hsent⟩
  kept s it _ := (s.housekeeping_keeps it).heldThrough

theorem Iteration.meets_any (it : Iteration) : it.Meets (fun _ => True) (fun _ => True) :=
  ⟨trivial, fun _ _ _ _ => trivial⟩

/-- A turn that gives up has sent nothing. -/
theorem Server.iterate_silent {s : Server} (hw : s.engine.store.wal = some w)
    (h : Held trace w) (it : Iteration)
    (hcmds : ∀ cmd ∈ (s.iterate it).commands, ¬cmd.isFlushall)
    (hfail : (s.iterate it).ok = false) : ∀ e ∈ (s.iterate it).events, ¬e.IsSent := by
  obtain ⟨hserved, w₁, hw₁, hheld₁⟩ :=
    keepsRule.serviceAll s (fun _ _ _ _ => trivial) hcmds trace w hw h
  obtain ⟨hsync, _⟩ := Server.syncLog_held hw₁ hheld₁ it.now it.sync
  rw [Server.iterate] at hfail ⊢
  simp only [] at hfail ⊢
  split at hfail
  · next hstop =>
      rw [if_pos hstop]
      exact List.forall_mem_append.mpr ⟨hserved, hsync⟩
  · cases hfail

/-- The log the loop starts with has nothing to answer for. -/
theorem startup_held {cfg : Config} {d : Disk} {boot : Reading} {o : Outcome Unit}
    (h : startup cfg d boot = some o) (hgroup : cfg.groupCommit = true) :
    ∃ w, (o.serve d).engine.store.wal = some w ∧ Held [] w := by
  rw [startup] at h
  split at h
  · cases h
  · simp only [Option.some.injEq] at h
    subst h
    exact ⟨_, rfl, hgroup, trivial, trivial⟩

/-- Group commit keeps its promise, whatever the clients ask, whatever fails,
and whatever the policy: at every `send`, each mutation accepted so far is
covered by what happened between. And a turn whose sync fails has not sent and
is the last. -/
theorem ack_after_durable {cfg : Config} {d : Disk} {boot : Reading} {o : Outcome Unit}
    (hstart : startup cfg d boot = some o) (hgroup : cfg.groupCommit = true)
    (its : List Iteration)
    (hcmds : ∀ cmd ∈ ((o.serve d).run its).commands, ¬cmd.isFlushall) :
    (∀ earlier fd data later,
      ((o.serve d).run its).events = earlier ++ .sent fd data :: later →
      ∀ before ms between, earlier = before ++ .applied ms :: between →
        ∀ m ∈ ms, Covered between) ∧
    ∀ its₁ it its₂, its = its₁ ++ it :: its₂ → ((o.serve d).run its₁).ok = true →
      (((o.serve d).run its₁).server.iterate it).ok = false →
      ((o.serve d).run its).events = ((o.serve d).run its₁).events ++
          (((o.serve d).run its₁).server.iterate it).events ∧
        ∀ fd data,
          Event.sent fd data ∉ (((o.serve d).run its₁).server.iterate it).events := by
  obtain ⟨w, hw, hheld⟩ := startup_held hstart hgroup
  constructor
  · intro earlier fd data later hsplit before ms between hearlier m hm
    obtain ⟨w', _, hheld'⟩ :=
      heldRule.run its _ (fun it _ => it.meets_any) hcmds [] w hw hheld
    have hcovered := preceded_iff.mp hheld'.acked earlier _ later hsplit trivial
    exact followed_iff.mp hcovered before _ between hearlier ms rfl m hm
  · rintro its₁ it its₂ rfl hok hfail
    obtain ⟨hevents, hcommands⟩ := (o.serve d).run_append its₁ (it :: its₂) hok
    have hstop : ((o.serve d).run its₁).server.run (it :: its₂) =
        ((o.serve d).run its₁).server.iterate it := by
      rw [Server.run]
      simp only []
      rw [if_pos (by rw [hfail]; rfl)]
    rw [hstop] at hevents hcommands
    rw [hcommands, List.forall_mem_append] at hcmds
    obtain ⟨w₁, hw₁, hheld₁⟩ :=
      heldRule.run its₁ _ (fun it _ => it.meets_any) hcmds.1 [] w hw hheld
    refine ⟨hevents, fun fd data hmem => ?_⟩
    exact Server.iterate_silent hw₁ hheld₁ it hcmds.2 hfail _ hmem trivial

theorem ack_after_durable_set :
    let m : Mutation := { op := .kSet, key := text "k", value := text "v", expiresAtMs := 0 }
    ((startup {} {} {}).map fun o => ((o.serve {}).run oneSet).events) =
        some [.began [m], .write .log (encodeRecord m 0), .applied [m], .fsync .log true,
          .sent 5 (text "+OK\r\n")] ∧
      Covered [.fsync .log true] := by
  intro m
  have hrun : ((startup {} {} {}).map fun o =>
      (((o.serve {}).run oneSet).events, ((o.serve {}).run oneSet).commands)) =
      some ([.began [m], .write .log (encodeRecord m 0), .applied [m], .fsync .log true,
          .sent 5 (text "+OK\r\n")], [[text "SET", text "k", text "v"]]) := by
    decide +kernel
  obtain ⟨o, hstart, hboth⟩ := Option.map_eq_some_iff.mp hrun
  obtain ⟨hevents, hcommands⟩ := Prod.mk.injEq .. ▸ hboth
  have hcmds : ∀ cmd ∈ ((o.serve {}).run oneSet).commands, ¬cmd.isFlushall := by
    rw [hcommands]
    decide
  refine ⟨by rw [hstart, Option.map_some, hevents], ?_⟩
  exact (ack_after_durable hstart rfl oneSet hcmds).1
    [.began [m], .write .log (encodeRecord m 0), .applied [m], .fsync .log true] 5 _ []
    hevents [.began [m], .write .log (encodeRecord m 0)] [m] _ rfl m List.mem_cons_self

end Cachedb
