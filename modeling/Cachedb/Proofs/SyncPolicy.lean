import Cachedb.Proofs.GroupCommit

/-!
# What the loop makes of the sync policy

Five places can ask for an fsync of the log. `append` and `append_batch` ask
the policy, and so does the tick; `truncate` always syncs what it has cut. The
fifth is the group commit of the loop, and it asks only whether anything was
appended. Under `kNo` and `kEverySec` this is one place too many: the loop
syncs in every turn that leaves a mutation in the log, and the tick never
finds anything left to do.

The events of a turn tell whether it leaves something: a mutation that was
accepted stays in the log until the log is cut (`leftInLog`). The log's own
count of unsynced bytes says the same (`Counted`), and so the turns in which
the loop syncs are exactly those (`Server.run_settled`).
-/

namespace Cachedb

open Trace

/-! ## What is left in the log -/

/-- Whether the log holds a mutation that was accepted, after one more event. -/
def Event.logLeft (left : Bool) : Event → Bool
  | .applied ms => left || !ms.isEmpty
  | .ftruncate .log _ => false
  | _ => left

/-- These events leave an accepted mutation in the log. -/
def leftInLog (es : List Event) : Bool := es.foldl Event.logLeft false

theorem Event.Aside.logLeft {e : Event} (h : e.Aside) (left : Bool) : e.logLeft left = left := by
  cases e with
  | applied ms => cases h
  | ftruncate file n => cases file <;> first | exact h.elim | rfl
  | _ => rfl

theorem foldl_logLeft_aside {es : List Event} (h : ∀ e ∈ es, e.Aside) (left : Bool) :
    es.foldl Event.logLeft left = left := by
  induction es generalizing left with
  | nil => rfl
  | cons e es ih =>
      rw [List.foldl_cons, (h e List.mem_cons_self).logLeft,
        ih fun e' he' => h e' (List.mem_cons_of_mem _ he')]

/-! ## Syncs that belong to a cut -/

/-- If the event syncs the log, the call before it cut the log. -/
def CutBefore (earlier : List Event) (e : Event) : Prop :=
  ∀ ok, e = .fsync .log ok → earlier.getLast? = some (.ftruncate .log 0)

/-- Every sync of the log belongs to a cut. -/
def OnlyCutSyncs (es : List Event) : Prop := Preceded CutBefore [] es

theorem onlyCutSyncs_iff {es : List Event} :
    OnlyCutSyncs es ↔ ∀ before ok after, es = before ++ .fsync .log ok :: after →
      before.getLast? = some (.ftruncate .log 0) := by
  rw [OnlyCutSyncs, preceded_iff]
  constructor
  · intro h before ok after heq
    exact h before _ after heq ok rfl
  · rintro h before e after heq ok rfl
    exact h before ok after heq

theorem OnlyCutSyncs.of_aside {es : List Event} (h : ∀ e ∈ es, ∀ ok, e ≠ .fsync .log ok) :
    OnlyCutSyncs es :=
  .of_forall fun e he _ ok hok => absurd hok (h e he ok)

theorem OnlyCutSyncs.append {xs ys : List Event} (hx : OnlyCutSyncs xs)
    (hy : OnlyCutSyncs ys) : OnlyCutSyncs (xs ++ ys) := by
  refine preceded_append.mpr ⟨hx, preceded_iff.mpr ?_⟩
  intro earlier e later heq ok hok
  have hlast := onlyCutSyncs_iff.mp hy earlier ok later (by rw [heq, hok])
  rw [List.nil_append, List.getLast?_append, hlast]
  rfl

/-- A sync of the log that follows something else. -/
def StraySync (es : List Event) : Prop :=
  ∃ before e ok after, es = before ++ e :: .fsync .log ok :: after ∧ e ≠ .ftruncate .log 0

theorem StraySync.append_right {xs : List Event} (h : StraySync xs) (ys : List Event) :
    StraySync (xs ++ ys) := by
  obtain ⟨before, e, ok, after, rfl, he⟩ := h
  exact ⟨before, e, ok, after ++ ys, by simp, he⟩

theorem StraySync.append_left {ys : List Event} (h : StraySync ys) (xs : List Event) :
    StraySync (xs ++ ys) := by
  obtain ⟨before, e, ok, after, rfl, he⟩ := h
  exact ⟨xs ++ before, e, ok, after, by simp, he⟩

theorem StraySync.not_onlyCut {es : List Event} (h : StraySync es) : ¬OnlyCutSyncs es := by
  obtain ⟨before, e, ok, after, rfl, he⟩ := h
  intro honly
  have hlast := onlyCutSyncs_iff.mp honly (before ++ [e]) ok after (by simp)
  rw [List.getLast?_concat] at hlast
  exact he (Option.some.inj hlast)

/-- What leaves a mutation in the log does not end by cutting it. -/
theorem leftInLog_last {es : List Event} (h : leftInLog es = true) :
    ∃ before e, es = before ++ [e] ∧ e ≠ .ftruncate .log 0 := by
  rcases List.eq_nil_or_concat es with rfl | ⟨before, e, rfl⟩
  · cases h
  · refine ⟨before, e, List.concat_eq_append, ?_⟩
    rintro rfl
    rw [leftInLog, List.concat_eq_append, List.foldl_append] at h
    cases h

/-! ## The log's count -/

/-- From one log to the other by these calls: the count is positive exactly if
they leave something, and no sync is made but those of a cut. -/
def Counted (log : Option Wal) (es : List Event) (log' : Option Wal) : Prop :=
  ∀ w, log = some w → w.policy ≠ .kAlways →
    ∃ w', log' = some w' ∧ w'.policy = w.policy ∧
      w'.needsSync = es.foldl Event.logLeft w.needsSync ∧ OnlyCutSyncs es

theorem Counted.refl (log : Option Wal) : Counted log [] log :=
  fun w hw _ => ⟨w, hw, rfl, rfl, trivial⟩

theorem Counted.trans {log log₁ log₂ : Option Wal} {xs ys : List Event}
    (h : Counted log xs log₁) (h' : Counted log₁ ys log₂) : Counted log (xs ++ ys) log₂ := by
  intro w hw hpolicy
  obtain ⟨w₁, hw₁, hp₁, hn₁, hc₁⟩ := h w hw hpolicy
  obtain ⟨w₂, hw₂, hp₂, hn₂, hc₂⟩ := h' w₁ hw₁ (hp₁ ▸ hpolicy)
  exact ⟨w₂, hw₂, hp₂.trans hp₁, by rw [hn₂, hn₁, List.foldl_append], hc₁.append hc₂⟩

theorem Counted.of_aside {log : Option Wal} {es : List Event} (h : ∀ e ∈ es, e.Aside) :
    Counted log es log := by
  intro w hw _
  refine ⟨w, hw, rfl, (foldl_logLeft_aside h _).symm, .of_aside ?_⟩
  rintro e he ok rfl
  exact h _ he

theorem Store.onLog_truncate_counted (s : Store) (now : Reading) (fate : TruncateFate) :
    Counted s.wal (s.onLog fun w => w.truncate now fate).events
      (s.onLog fun w => w.truncate now fate).store.wal := by
  intro w hw hpolicy
  rw [Store.onLog_some _ hw, Wal.truncate]
  split
  · exact ⟨w, rfl, rfl, rfl, trivial⟩
  · have honly : ∀ ok, OnlyCutSyncs [.ftruncate .log 0, .fsync .log ok] := fun ok =>
      ⟨fun ok' h => (by cases h), fun _ _ => rfl, trivial⟩
    rw [Wal.sync]
    split
    · exact ⟨_, rfl, rfl, rfl, honly _⟩
    · exact ⟨_, rfl, rfl, rfl, honly _⟩

theorem Store.flush_counted (s : Store) (now : Reading) (fate : FlushFate) :
    Counted s.wal (s.flush now fate).events (s.flush now fate).store.wal := by
  rcases s.flush_shape now fate with ⟨hwal, haside⟩ | ⟨file, hwal, hevents⟩
  · rw [hwal]
    exact .of_aside haside
  · rw [hwal, hevents]
    refine (Counted.of_aside fun e he => ?_).trans (s.onLog_truncate_counted now fate.truncate)
    simp only [tempEvents, List.cons_append, List.nil_append, List.mem_cons, List.not_mem_nil,
      or_false] at he
    rcases he with rfl | rfl | rfl | rfl | rfl <;> trivial

theorem Store.maybeFlush_counted (s : Store) (now : Reading) (fate : FlushFate) :
    Counted s.wal (s.maybeFlush now fate).events (s.maybeFlush now fate).store.wal := by
  rcases s.maybeFlush_cases now fate with h | h
  · rw [h]; exact .refl _
  · rw [h]; exact s.flush_counted now fate

/-- An append under another policy than `kAlways` is a write, counted if it
landed. -/
theorem Wal.step_policy (w : Wal) (step : LogStep) (hpolicy : w.policy ≠ .kAlways) :
    (w.step step).wal.policy = w.policy ∧
      (∀ e ∈ (w.step step).events, ∃ data, e = .write .log data) ∧
      (w.step step).wal.needsSync =
        (w.needsSync || ((w.step step).ok && !step.mutations.isEmpty)) := by
  rw [Wal.step_eq]
  split
  · next hnil => exact ⟨rfl, List.forall_mem_nil _, by simp [hnil]⟩
  · next hne =>
      have hcases := w.commit_cases (Wal.batchBytes step.mutations step.now.wall) step.now
        step.fate
      have hpos := batchBytes_pos hne step.now.wall
      generalize w.commit _ _ _ = l at hcases
      cases hcases with
      | torn n _ _ => exact ⟨rfl, fun e he => ⟨_, List.mem_singleton.mp he⟩, by simp⟩
      | landed _ =>
          refine ⟨rfl, fun e he => ⟨_, List.mem_singleton.mp he⟩, ?_⟩
          have hcount : Wal.needsSync { w with
              size := w.size + (Wal.batchBytes step.mutations step.now.wall).length
              bytesSinceSync := w.bytesSinceSync +
                (Wal.batchBytes step.mutations step.now.wall).length } = true :=
            decide_eq_true (show 0 < w.bytesSinceSync + _ by omega)
          rw [hcount]
          simp [hne]
      | synced h _ => exact absurd h.1 hpolicy
      | unsynced h _ => exact absurd h.1 hpolicy

theorem Store.mutate_counted {α : Type} (s : Store) (step : LogStep) (mt : Memtable)
    (now : Reading) (fate : FlushFate) (refused accepted : α) :
    Counted s.wal
      (s.mutate step.mutations (fun w => w.step step) mt now fate refused accepted).events
      (s.mutate step.mutations (fun w => w.step step) mt now fate refused accepted).store.wal := by
  intro w hw hpolicy
  obtain ⟨hsame, hwrites, hcount⟩ := w.step_policy step hpolicy
  have hlog := Store.onLog_some (fun w => w.step step) hw
  -- Neither the marker nor the write itself decides anything.
  have hbegan : ∀ left, (Event.began step.mutations :: (w.step step).events).foldl
      Event.logLeft left = left := by
    intro left
    rw [List.foldl_cons]
    show (w.step step).events.foldl Event.logLeft left = left
    generalize (w.step step).events = es at hwrites
    induction es with
    | nil => rfl
    | cons e es ih =>
        obtain ⟨data, rfl⟩ := hwrites e List.mem_cons_self
        exact ih fun e' he' => hwrites e' (List.mem_cons_of_mem _ he')
  have honly : OnlyCutSyncs (Event.began step.mutations :: (w.step step).events) := by
    refine .of_aside ?_
    rintro e he ok rfl
    rcases List.mem_cons.mp he with he | he
    · cases he
    · obtain ⟨_, hdata⟩ := hwrites _ he
      cases hdata
  cases hok : (w.step step).ok with
  | false =>
      rw [Store.mutate_refused (by rw [hlog]; exact hok), hlog]
      refine ⟨_, rfl, hsame, ?_, honly⟩
      rw [hbegan, hcount, hok, Bool.false_and, Bool.or_false]
  | true =>
      rw [Store.mutate_accepted (by rw [hlog]; exact hok), hlog]
      obtain ⟨w', hw', hp', hn', hc'⟩ := Store.maybeFlush_counted
        { s with memtable := mt, wal := some (w.step step).wal } now fate _ rfl
        (by rw [hsame]; exact hpolicy)
      refine ⟨w', hw', hp'.trans hsame, ?_, honly.append ?_⟩
      · rw [hn', List.foldl_append, hbegan, List.foldl_cons, hcount, hok, Bool.true_and]
        rfl
      · rw [← List.singleton_append]
        exact .append (.of_aside fun e he ok h => by
          rw [List.mem_singleton.mp he] at h; cases h) hc'

theorem Store.maybeCompact_counted (s : Store) (d : Disk) (env : Env) :
    Counted s.wal (s.maybeCompact d env).events (s.maybeCompact d env).store.wal := by
  rw [Store.maybeCompact]
  split
  · exact .refl _
  · next first len _ =>
      obtain ⟨hwal, haside⟩ := s.compactRun_aside first len env
      rw [hwal]
      exact .of_aside haside

theorem Store.flushAll_counted (s : Store) (env : Env) :
    Counted s.wal (s.flushAll env).events (s.flushAll env).store.wal := by
  have haside : ∀ e ∈ (unlinkAll env.flushAll.unlink 0 (s.sstables.map (·.path))).2 ++
      (if s.options.hasDir then [Event.fsyncDir env.flushAll.fsyncDir] else []), e.Aside := by
    intro e he
    rcases List.mem_append.mp he with he | he
    · rw [unlinkAll_snd] at he
      obtain ⟨path, _, rfl⟩ := mem_unlinkRun he
      trivial
    · split at he
      · rw [List.mem_singleton.mp he]; trivial
      · cases he
  have hsame : Counted s.wal _ s.wal := .of_aside haside
  have hcut := hsame.trans
    (Store.onLog_truncate_counted { s with sstables := [] } (env.clock 0) env.flushAll.truncate)
  rw [Store.flushAll]
  simp only []
  split
  · exact .of_aside haside
  · split
    · exact hcut
    · exact hcut

theorem Store.call_counted (s : Store) (d : Disk) (env : Env) (c : Call) :
    Counted s.wal (s.call d env c).events (s.call d env c).store.wal := by
  have hcalled := s.call_cases d env c
  generalize s.call d env c = o at hcalled
  cases hcalled with
  | nothing r => exact .refl _
  | mutated step hfate mt hfits hmt now refused accepted f =>
      exact s.mutate_counted step mt now env.flush refused accepted
  | flushed now => exact s.flush_counted now env.flush
  | swept r n budget count => exact .refl _
  | merged _ => exact s.maybeCompact_counted d env
  | cleared _ => exact s.flushAll_counted env

theorem countedRule : CommandRule (fun _ => True) (fun _ => True)
    (fun e es e' => Counted e.store.wal es e'.store.wal) where
  refl e := .refl _
  trans h h' := h.trans h'
  command e cmd env _ _ := by
    have hexec := execute_cases cmd e.store {} env
    rw [Engine.command]
    generalize execute cmd e.store env = o at hexec
    cases hexec with
    | replied out => exact .refl _
    | called c env' henv hkind hfits f => exact e.store.call_counted {} env' c

/-! ## One turn -/

def Event.isLogSync : Event → Bool
  | .fsync .log _ => true
  | _ => false

/-- When the loop itself syncs the log in a turn: at its group commit, and at
its tick. -/
def Server.turnSyncs (s : Server) (it : Iteration) : List Nat :=
  let (touched, served) := s.serviceAll it.ready
  let synced := served.server.syncLog it.now it.sync
  let own := if synced.events.any Event.isLogSync then [it.now.steady] else []
  if !synced.ok then own
  else
    let released := synced.server.releaseAll it.sends it.epollCtl touched
    own ++ if (released.server.housekeeping it).events.any Event.isLogSync then [it.tick.steady]
      else []

/-- The readings of the clock at the loop's own syncs of a run. -/
def Server.loopSyncs (s : Server) : List Iteration → List Nat
  | [] => []
  | it :: its =>
      s.turnSyncs it ++ if (s.iterate it).ok then (s.iterate it).server.loopSyncs its else []

/-- The readings of the clock in the turns whose commands leave a mutation in
the log. -/
def Server.leavings (s : Server) : List Iteration → List Nat
  | [] => []
  | it :: its =>
      (if leftInLog (s.serviceAll it.ready).2.events then [it.now.steady] else []) ++
        if (s.iterate it).ok then (s.iterate it).server.leavings its else []

/-- The log between two turns: nothing is left to sync. -/
structure Server.Settled (policy : SyncPolicy) (s : Server) : Prop where
  wal : ∃ w, s.engine.store.wal = some w ∧ w.policy = policy ∧ w.needsSync = false

/-- With nothing to sync the rest of a turn does not touch the log. -/
theorem Server.housekeeping_aside {s : Server} {policy : SyncPolicy} (h : s.Settled policy)
    (it : Iteration) :
    (∀ e ∈ (s.housekeeping it).events, e.Aside) ∧ (s.housekeeping it).server.Settled policy := by
  obtain ⟨w, hw, hp, hn⟩ := h.wal
  have hidle : w.maybeSync it.tick it.tickSync = { ok := true, wal := w, events := [] } := by
    rw [Wal.needsSync, decide_eq_false_iff_not] at hn
    rw [Wal.maybeSync]
    split
    · rfl
    · rw [if_pos (by omega)]
  obtain ⟨swept, hswept⟩ : ∃ swept, swept = s.engine.store.sweepExpired kSweepBudget it.sweep :=
    ⟨_, rfl⟩
  have hsweptWal : swept.store.wal = some w := by rw [hswept]; exact hw
  have hsweptEvents : swept.events = [] := by rw [hswept]; rfl
  obtain ⟨merged, hmerged⟩ : ∃ merged, merged = swept.store.maybeCompact
    (s.engine.disk.run swept.events) it.compact := ⟨_, rfl⟩
  have hmerge : merged.store.wal = swept.store.wal ∧ ∀ e ∈ merged.events, e.Aside := by
    rw [hmerged, Store.maybeCompact]
    split
    · exact ⟨rfl, List.forall_mem_nil _⟩
    · exact Store.compactRun_aside _ _ _ _
  have htick := Store.onLog_some (fun w => w.maybeSync it.tick it.tickSync)
    (hmerge.1.trans hsweptWal)
  rw [hidle] at htick
  rw [Server.housekeeping, ← hswept]
  simp only [Server.after]
  rw [← hmerged, htick, hsweptEvents, List.nil_append, List.append_nil]
  exact ⟨hmerge.2, w, rfl, hp, hn⟩

/-- A turn, with what it does to the log: its batch, the loop's sync if the
batch left something, and nothing after. -/
structure Server.TurnOf (s : Server) (policy : SyncPolicy) (it : Iteration) : Prop where
  events : ∃ rest, (s.iterate it).events = (s.serviceAll it.ready).2.events ++
    ((if leftInLog (s.serviceAll it.ready).2.events then [.fsync .log it.sync] else []) ++ rest) ∧
    ∀ e ∈ rest, ∀ ok, e ≠ .fsync .log ok
  batch : OnlyCutSyncs (s.serviceAll it.ready).2.events
  syncs : s.turnSyncs it =
    if leftInLog (s.serviceAll it.ready).2.events then [it.now.steady] else []
  settled : (s.iterate it).ok = true → (s.iterate it).server.Settled policy

theorem Server.syncLog_eq {s : Server} {w : Wal} (hw : s.engine.store.wal = some w)
    (now : Reading) (sync : Bool) :
    (s.syncLog now sync).events = (if w.needsSync then [.fsync .log sync] else []) ∧
      ((s.syncLog now sync).ok = true → (s.syncLog now sync).server.Settled w.policy) := by
  have hlog := Store.onLog_some
    (fun w => if w.needsSync then w.sync now sync else { ok := true, wal := w, events := [] }) hw
  rw [Server.syncLog]
  simp only [Server.after, hlog]
  cases hneeds : w.needsSync with
  | false => exact ⟨rfl, fun _ => ⟨w, rfl, rfl, hneeds⟩⟩
  | true =>
      cases sync with
      | false => exact ⟨rfl, fun hok => (by cases hok)⟩
      | true => exact ⟨rfl, fun _ => ⟨_, rfl, rfl, rfl⟩⟩

theorem Server.iterate_turnOf {s : Server} {policy : SyncPolicy} (hpolicy : policy ≠ .kAlways)
    (h : s.Settled policy) (it : Iteration) : s.TurnOf policy it := by
  obtain ⟨w, hw, hp, hn⟩ := h.wal
  have hcounted : Counted s.engine.store.wal (s.serviceAll it.ready).2.events
      (s.serviceAll it.ready).2.server.engine.store.wal :=
    countedRule.serviceAll s (fun _ _ _ _ => trivial) fun _ _ => trivial
  obtain ⟨w₁, hw₁, hp₁, hn₁, honly⟩ := hcounted w hw (by rw [hp]; exact hpolicy)
  rw [hn] at hn₁
  have hleft : w₁.needsSync = leftInLog (s.serviceAll it.ready).2.events := hn₁
  obtain ⟨hevents, hsettled⟩ := Server.syncLog_eq hw₁ it.now it.sync
  rw [hleft] at hevents
  have hown : (if ((s.serviceAll it.ready).2.server.syncLog it.now it.sync).events.any
      Event.isLogSync then [it.now.steady] else []) =
      if leftInLog (s.serviceAll it.ready).2.events then [it.now.steady] else [] := by
    rw [hevents]
    cases leftInLog (s.serviceAll it.ready).2.events <;> rfl
  have hnone : ∀ {e : Event}, e.Aside → ∀ ok, e ≠ .fsync .log ok := by
    rintro e he ok rfl
    exact he
  cases hok : ((s.serviceAll it.ready).2.server.syncLog it.now it.sync).ok with
  | false =>
      refine ⟨⟨[], ?_, List.forall_mem_nil _⟩, honly, ?_, fun hgo => ?_⟩
      · rw [Server.iterate]
        simp only [hok]
        rw [if_pos (by decide), hevents, List.append_nil]
      · rw [Server.turnSyncs]
        simp only [hok]
        rw [if_pos (by decide), hown]
      · rw [Server.iterate] at hgo
        simp only [hok] at hgo
        rw [if_pos (by decide)] at hgo
        cases hgo
  | true =>
      obtain ⟨hengine, hsent⟩ := Server.releaseAll_sent (s.serviceAll it.ready).1
        ((s.serviceAll it.ready).2.server.syncLog it.now it.sync).server it.sends it.epollCtl
      obtain ⟨released, hreleased⟩ : ∃ released, released =
        ((s.serviceAll it.ready).2.server.syncLog it.now it.sync).server.releaseAll it.sends
          it.epollCtl (s.serviceAll it.ready).1 := ⟨_, rfl⟩
      rw [← hreleased] at hengine hsent
      have hsettled' : released.server.Settled policy := by
        obtain ⟨w₂, hw₂, hp₂, hn₂⟩ := (hsettled hok).wal
        exact ⟨w₂, by rw [hengine]; exact hw₂, hp₂.trans (hp₁.trans hp), hn₂⟩
      obtain ⟨haside, hkept⟩ := Server.housekeeping_aside hsettled' it
      refine ⟨⟨released.events ++ (released.server.housekeeping it).events, ?_,
        List.forall_mem_append.mpr ⟨?_, fun e he => hnone (haside e he)⟩⟩, honly, ?_, fun _ => ?_⟩
      · rw [Server.iterate]
        simp only [hok]
        rw [if_neg (by decide), hevents, ← hreleased]
        simp only [List.append_assoc]
      · rintro e he ok rfl
        exact hsent _ he
      · have hquiet : (released.server.housekeeping it).events.any Event.isLogSync = false := by
          rw [List.any_eq_false]
          intro e he hsync
          have haside := haside e he
          cases e with
          | fsync file ok => cases file <;> first | exact haside | cases hsync
          | _ => cases hsync
        rw [Server.turnSyncs]
        simp only [hok]
        rw [if_neg (by decide), hown, ← hreleased, hquiet]
        simp only [Bool.false_eq_true, if_false, List.append_nil]
      · rw [Server.iterate]
        simp only [hok]
        rw [if_neg (by decide), ← hreleased]
        exact hkept

/-! ## Runs -/

/-- Between the turns of a run the log has nothing to sync, and the loop syncs
in exactly the turns that leave something. -/
theorem Server.run_settled {policy : SyncPolicy} (hpolicy : policy ≠ .kAlways)
    (its : List Iteration) :
    ∀ {s : Server}, s.Settled policy →
      s.loopSyncs its = s.leavings its ∧
        (s.leavings its = [] → OnlyCutSyncs (s.run its).events) ∧
        (s.leavings its ≠ [] → StraySync (s.run its).events) ∧
        ((s.run its).ok = true → (s.run its).server.Settled policy) := by
  induction its with
  | nil => exact fun h => ⟨rfl, fun _ => trivial, fun hne => absurd rfl hne, fun _ => h⟩
  | cons it its ih =>
      intro s h
      have hturn := s.iterate_turnOf hpolicy h it
      obtain ⟨rest, hevents, hrest⟩ := hturn.events
      -- The turn by itself.
      have hquiet : leftInLog (s.serviceAll it.ready).2.events = false →
          OnlyCutSyncs (s.iterate it).events := by
        intro hleft
        rw [hevents, hleft]
        exact hturn.batch.append (.of_aside hrest)
      have hstray : leftInLog (s.serviceAll it.ready).2.events = true →
          StraySync (s.iterate it).events := by
        intro hleft
        obtain ⟨before, e, hlast, hne⟩ := leftInLog_last hleft
        rw [hevents, hleft, hlast]
        exact ⟨before, e, it.sync, rest, by simp, hne⟩
      rw [Server.loopSyncs, Server.leavings, Server.run, hturn.syncs]
      cases hok : (s.iterate it).ok with
      | false =>
          simp only [Bool.not_false, if_true, Bool.false_eq_true, if_false, List.append_nil]
          have hstop : (s.iterate it).ok = true → (s.iterate it).server.Settled policy :=
            hturn.settled
          cases hleft : leftInLog (s.serviceAll it.ready).2.events with
          | false => exact ⟨trivial, fun _ => hquiet hleft, fun hne => absurd rfl hne, hstop⟩
          | true => exact ⟨trivial, fun hnil => (by cases hnil), fun _ => hstray hleft, hstop⟩
      | true =>
          obtain ⟨hsyncs, honly, hrun, hsettled⟩ := ih (hturn.settled hok)
          simp only [Bool.not_true, Bool.false_eq_true, if_false, if_true, hsyncs]
          cases hleft : leftInLog (s.serviceAll it.ready).2.events with
          | false =>
              exact ⟨trivial, fun hnil => (hquiet hleft).append (honly hnil),
                fun hne => (hrun hne).append_left _, hsettled⟩
          | true =>
              exact ⟨trivial, fun hnil => (by cases hnil), fun _ => (hstray hleft).append_right _,
                hsettled⟩

theorem startup_settled {cfg : Config} {d : Disk} {boot : Reading} {o : Outcome Unit}
    (h : startup cfg d boot = some o) : (o.serve d).Settled cfg.policy := by
  rw [startup] at h
  split at h
  · cases h
  · simp only [Option.some.injEq] at h
    subst h
    exact ⟨_, rfl, rfl, rfl⟩

/-- Readings of the clock that keep a distance. -/
def Spaced (interval : Nat) (times : List Nat) : Prop :=
  times.IsChain fun earlier later => earlier + interval ≤ later

instance instDecidableSpaced (interval : Nat) (times : List Nat) :
    Decidable (Spaced interval times) := by
  unfold Spaced; infer_instance

/-- Under `kNo` the log is synced only where it is cut exactly if no turn leaves
a mutation in it, and a clean shutdown adds one sync; under `kEverySec` the
loop's own syncs keep the interval exactly if the turns that leave a mutation
in the log do. -/
theorem sync_policy_iff {cfg : Config} {d : Disk} {boot : Reading} {o : Outcome Unit}
    (hstart : startup cfg d boot = some o) (its : List Iteration) :
    (cfg.policy = .kNo →
      ((∀ before ok after,
          ((o.serve d).run its).events = before ++ .fsync .log ok :: after →
          before.getLast? = some (.ftruncate .log 0)) ↔ (o.serve d).leavings its = []) ∧
      (((o.serve d).run its).ok = true → ∀ now ok,
        (((o.serve d).run its).server.shutdown now ok).events = [.fsync .log ok])) ∧
    (cfg.policy = .kEverySec → ∀ w, o.store.wal = some w →
      (Spaced w.syncInterval ((o.serve d).loopSyncs its) ↔
        Spaced w.syncInterval ((o.serve d).leavings its))) := by
  have hsettled := startup_settled hstart
  constructor
  · intro hno
    obtain ⟨_, honly, hstray, hend⟩ := Server.run_settled (by rw [hno]; decide) its hsettled
    refine ⟨onlyCutSyncs_iff.symm.trans ⟨fun h => ?_, honly⟩, fun hok now ok => ?_⟩
    · by_contra hne
      exact (hstray hne).not_onlyCut h
    · obtain ⟨w, hw, _⟩ := (hend hok).wal
      rw [Server.shutdown, Store.onLog_some _ hw]
      cases ok <;> rfl
  · intro hsec w _
    rw [(Server.run_settled (by rw [hsec]; decide) its hsettled).1]

/-- With a threshold of zero the flush cuts the log in the same turn: nothing
is left, and the one sync of the log is that of the cut. -/
theorem sync_policy_flushed :
    let cfg : Config := { options := { memtableLimitBytes := 0 }, policy := .kNo }
    ∃ o, startup cfg {} {} = some o ∧
      (.fsync .log true) ∈ ((o.serve {}).run oneSet).events ∧
      ∀ before ok after,
        ((o.serve {}).run oneSet).events = before ++ .fsync .log ok :: after →
        before.getLast? = some (.ftruncate .log 0) := by
  intro cfg
  have hrun : (startup cfg {} {}).map (fun o => ((o.serve {}).leavings oneSet,
      decide (.fsync .log true ∈ ((o.serve {}).run oneSet).events))) = some ([], true) := by
    decide +kernel
  obtain ⟨o, hstart, hboth⟩ := Option.map_eq_some_iff.mp hrun
  obtain ⟨hleft, hmem⟩ := Prod.mk.injEq .. ▸ hboth
  exact ⟨o, hstart, of_decide_eq_true hmem,
    ((sync_policy_iff hstart oneSet).1 rfl).1.mpr hleft⟩

/-- A client sets a key, and a millisecond later again. -/
def twoSets : List Iteration :=
  [{ ready := [.listener [(5, true)]] },
   { ready := [.socket 5 false (some (.data (text "SET k v\r\n"))) fun _ => {}]
     now := { steady := 7 } },
   { ready := [.socket 5 false (some (.data (text "SET k w\r\n"))) fun _ => {}]
     now := { steady := 8 } }]

/-- Under `kNo` the loop syncs the log after a `SET`, and under `kEverySec` it
does so twice within a millisecond. -/
theorem sync_policy_ignored :
    ((startup { policy := .kNo } {} {}).map fun o =>
        ((o.serve {}).run oneSet).events.drop 2) =
      some [.applied [{ op := .kSet, key := text "k", value := text "v", expiresAtMs := 0 }],
        .fsync .log true, .sent 5 (text "+OK\r\n")] ∧
    ((startup { policy := .kEverySec } {} {}).map fun o => (o.serve {}).loopSyncs twoSets) =
      some [7, 8] ∧
    ¬Spaced 1000 [7, 8] := by
  decide +kernel

end Cachedb
