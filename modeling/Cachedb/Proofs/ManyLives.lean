import Cachedb.Proofs.Limbo
import Cachedb.Proofs.PlainServer

/-!
# Answers outlive any number of crashes

A server is started again and again on one directory. Each of its lives ends
at any point, because the process is killed or because the power goes, and the
next one begins with what is left. After a kill that is more than what is safe:
the next life may lose what it found.

`Upheld` is the invariant inside a life, and `Stopped` what holds at every
point of it, between two calls on the store and inside them. What a life began
with may be lost as long as nothing of its own is safe; this is what `old`
stands for in `Secure`. A sync of the log makes everything safe, also what
earlier lives left in it.
-/

namespace Cachedb

open KMerge Layers Trace

/-! ## One life -/

section Life

variable (start : Media) (old : Bytes → Option Entry → Prop) (base : RefMap) (last : Int64)

/-- Between two calls. `lo` mutations of this life are safe, and all of them
are when the log says it has nothing to sync. -/
structure Upheld (trace : List Event) (e : Engine) : Prop where
  backed : e.Backed last
  refines : e.store.Refines last ((begun trace).foldl RefMap.mutate base)
  off : e.store.options.useCompaction = false
  level : e.disk.newestFirst.length = e.store.sstables.length
  secure : ∃ limbo lo, Secure old base last limbo (start.after trace) e.disk (begun trace) lo ∧
    Acked lo trace ∧ ∀ w, e.store.wal = some w → w.bytesSinceSync = 0 → lo = (begun trace).length

/-- A life that ends here leaves a beginning of its mutations, with everything
in it that was answered. -/
def Stopped (trace : List Event) (d : Disk) : Prop :=
  ∃ limbo ms lo, ms <+: begun trace ∧ Secure old base last limbo (start.after trace) d ms lo ∧
    Acked lo trace

/-- A life may end anywhere in these calls. -/
def StopsIn (trace : List Event) (d : Disk) (es : List Event) : Prop :=
  ∀ done, Cut Event.Torn es done → Stopped start old base last (trace ++ done) (d.run done)

/-- These calls keep the invariant, unless they give a table the last of the
numbers. -/
def Upholds (e : Engine) (es : List Event) (e' : Engine) : Prop :=
  e'.disk = e.disk.run es ∧ (NumbersLeft es → ∀ trace, Upheld start old base last trace e →
    Upheld start old base last (trace ++ es) e' ∧ StopsIn start old base last trace e.disk es)

variable {start old base last} {trace xs ys es : List Event} {e : Engine} {s : Store} {d : Disk}
  {limbo : Nat → Prop} {lo : Nat}

theorem Secure.stopped (h : Secure old base last limbo (start.after trace) d (begun trace) lo)
    (hacked : Acked lo trace) : Stopped start old base last trace d :=
  ⟨limbo, begun trace, lo, List.prefix_refl _, h, hacked⟩

theorem Upheld.stopped (h : Upheld start old base last trace e) :
    Stopped start old base last trace e.disk := by
  obtain ⟨limbo, lo, hsecure, hacked, _⟩ := h.secure
  exact hsecure.stopped hacked

theorem StopsIn.nil (h : Stopped start old base last trace d) :
    StopsIn start old base last trace d [] := by
  intro done hcut
  rw [hcut.nil_inv, List.append_nil]
  exact h

theorem StopsIn.append (h : StopsIn start old base last trace d xs)
    (h' : StopsIn start old base last (trace ++ xs) (d.run xs) ys) :
    StopsIn start old base last trace d (xs ++ ys) := by
  intro done hcut
  rcases hcut.append_inv with hcut | ⟨rest, rfl, hrest⟩
  · exact h done hcut
  · rw [← List.append_assoc, Disk.run_append]
    exact h' rest hrest

/-- A call that is no write happens or does not. -/
theorem StopsIn.one {e : Event} (hwrite : ∀ file data, e ≠ .write file data)
    (h : Stopped start old base last trace d)
    (h' : Stopped start old base last (trace ++ [e]) (d.apply e)) :
    StopsIn start old base last trace d [e] := by
  intro done hcut
  rcases hcut.cons_inv with rfl | ⟨_, ht, _⟩ | ⟨rest, rfl, hrest⟩
  · rw [List.append_nil]
    exact h
  · cases ht
    exact absurd rfl (hwrite _ _)
  · rw [hrest.nil_inv]
    exact h'

theorem Upholds.refl (e : Engine) : Upholds start old base last e [] e := by
  refine ⟨rfl, fun _ trace h => ?_⟩
  rw [List.append_nil]
  exact ⟨h, .nil h.stopped⟩

theorem Upholds.trans {e₁ e₂ e₃ : Engine} (h : Upholds start old base last e₁ xs e₂)
    (h' : Upholds start old base last e₂ ys e₃) :
    Upholds start old base last e₁ (xs ++ ys) e₃ := by
  obtain ⟨hdisk, h⟩ := h
  obtain ⟨hdisk', h'⟩ := h'
  refine ⟨by rw [hdisk', hdisk, Disk.run_append], fun hleft trace hu => ?_⟩
  obtain ⟨hu₂, hstops⟩ := h (numbersLeft_append.mp hleft).1 trace hu
  obtain ⟨hu₃, hstops'⟩ := h' (numbersLeft_append.mp hleft).2 _ hu₂
  rw [hdisk] at hstops'
  rw [← List.append_assoc]
  exact ⟨hu₃, hstops.append hstops'⟩

/-! ### Appends -/

theorem after_marker (m : Media) {e : Event} (hops : e.ops = []) : m.after [e] = m := by
  rw [Media.after, List.flatMap_singleton, hops]
  rfl

theorem wholeRecords_all (ms : List Mutation) (ts : Int64) :
    ms.take (wholeRecords ms ts (Wal.batchBytes ms ts).length) = ms := by
  induction ms with
  | nil => rfl
  | cons m ms ih =>
      rw [batchBytes_cons, wholeRecords, List.length_append, if_neg (by omega),
        Nat.add_sub_cancel_left, List.take_succ_cons, ih]

/-- A batch that the log takes, wherever the life ends. -/
theorem Secure.write_stops (h : Secure old base last limbo (start.after trace) d (begun trace) lo)
    (hacked : Acked lo trace) (hwhole : Whole d.logBytes) {ms : List Mutation}
    (hms : ∀ m ∈ ms, m.Fits) (ts : Int64) :
    Secure old base last limbo (start.after (trace ++ [.began ms] ++
          [.write .log (Wal.batchBytes ms ts)]))
        (d.apply (.write .log (Wal.batchBytes ms ts))) (begun trace ++ ms) lo ∧
      StopsIn start old base last trace d [.began ms, .write .log (Wal.batchBytes ms ts)] := by
  have hbegan : start.after (trace ++ [.began ms]) = start.after trace := by
    rw [Media.after_append, after_marker _ rfl]
  have hwrite := h.write hwhole hms ts
  rw [← hbegan] at hwrite
  have hfull := hwrite (Wal.batchBytes ms ts).length
  rw [List.take_length, wholeRecords_all, ← Media.after_append] at hfull
  have hstop : Stopped start old base last (trace ++ [.began ms]) d := by
    refine ⟨limbo, begun trace, lo, ?_, by rw [hbegan]; exact h, hacked.one id⟩
    rw [begun_began]
    exact List.prefix_append _ _
  have hbegun : ∀ data, begun (trace ++ [.began ms] ++ [.write .log data]) =
      begun trace ++ ms := by
    intro data
    rw [begun_one rfl, begun_began]
  refine ⟨hfull, ?_⟩
  have hfirst : StopsIn start old base last trace d [.began ms] :=
    .one (fun _ _ h => by cases h) (h.stopped hacked) hstop
  refine hfirst.append fun done hcut => ?_
  rcases hcut.cons_inv with rfl | ⟨_, ht, rfl⟩ | ⟨rest, rfl, hrest⟩
  · rw [List.append_nil]
    exact hstop
  · cases ht with
    | write _ _ n =>
        refine ⟨limbo, _, lo, ?_, by rw [Media.after_append]; exact hwrite n,
          (hacked.one id).one id⟩
        rw [hbegun]
        exact List.prefix_append_right_inj _ |>.mpr (List.take_prefix _ _)
  · rw [hrest.nil_inv]
    exact ⟨limbo, _, lo, ⟨[], (List.append_nil _).trans (hbegun _).symm⟩, hfull,
      (hacked.one id).one id⟩

/-- A call that begins nothing and is no write, and leaves the volume secure. -/
theorem Secure.next (h : Secure old base last limbo (start.after trace) d (begun trace) lo)
    (hacked : Acked lo trace) {e : Event} (hwrite : ∀ file data, e ≠ .write file data)
    (hbegun : e.begun = []) (hsent : ¬e.IsSent) {limbo' : Nat → Prop} {d' : Disk} {lo' : Nat}
    (hdisk : d.apply e = d') (hle : lo ≤ lo')
    (h' : Secure old base last limbo' ((start.after trace).after [e]) d' (begun trace) lo') :
    Secure old base last limbo' (start.after (trace ++ [e])) d' (begun (trace ++ [e])) lo' ∧
      Acked lo' (trace ++ [e]) ∧ StopsIn start old base last trace d [e] := by
  rw [← Media.after_append, ← begun_one hbegun] at h'
  have hacked' := (hacked.mono hle).one hsent
  refine ⟨h', hacked', .one hwrite (h.stopped hacked) ?_⟩
  rw [hdisk]
  exact h'.stopped hacked'

/-- What neither the volume nor a client notices. -/
theorem Secure.marker (h : Secure old base last limbo (start.after trace) d (begun trace) lo)
    (hacked : Acked lo trace) {e : Event} (hops : e.ops = []) (hbegun : e.begun = [])
    (hsent : ¬e.IsSent) (hdisk : d.apply e = d) :
    Secure old base last limbo (start.after (trace ++ [e])) d (begun (trace ++ [e])) lo ∧
      Acked lo (trace ++ [e]) ∧ StopsIn start old base last trace d [e] := by
  refine h.next hacked ?_ hbegun hsent hdisk (Nat.le_refl lo) ?_
  · rintro file data rfl
    cases hops
  · rw [after_marker _ hops]
    exact h

theorem Secure.synced (h : Secure old base last limbo (start.after trace) d (begun trace) lo)
    (hacked : Acked lo trace) :
    Secure old base last limbo (start.after (trace ++ [.fsync .log true])) d
        (begun (trace ++ [.fsync .log true])) (begun trace).length ∧
      Acked (begun trace).length (trace ++ [.fsync .log true]) ∧
      StopsIn start old base last trace d [.fsync .log true] :=
  h.next hacked (fun _ _ h => by cases h) rfl id rfl h.le h.sync

/-- The volume under an append. -/
theorem Secure.taken (h : Secure old base last limbo (start.after trace) d (begun trace) lo)
    (hacked : Acked lo trace) (hwhole : Whole d.logBytes) {w : Wal}
    (hsynced : w.bytesSinceSync = 0 → lo = (begun trace).length) {ms : List Mutation}
    (hms : ∀ m ∈ ms, m.Fits) {ts : Int64} {l : Logged} (htaken : w.Taken ms ts l) :
    (∃ lo', Secure old base last limbo
        (start.after (trace ++ (.began ms :: l.events ++ [.applied ms]))) (d.run l.events)
        (begun (trace ++ (.began ms :: l.events ++ [.applied ms]))) lo' ∧
      Acked lo' (trace ++ (.began ms :: l.events ++ [.applied ms])) ∧
      (l.wal.bytesSinceSync = 0 →
        lo' = (begun (trace ++ (.began ms :: l.events ++ [.applied ms]))).length)) ∧
      StopsIn start old base last trace d (.began ms :: l.events ++ [.applied ms]) := by
  obtain ⟨hwritten, hstops⟩ := h.write_stops hacked hwhole hms ts
  have hbegun : begun trace ++ ms =
      begun (trace ++ [.began ms] ++ [.write .log (Wal.batchBytes ms ts)]) := by
    rw [begun_one rfl, begun_began]
  rw [hbegun] at hwritten
  have hacked₂ : Acked lo (trace ++ [.began ms] ++ [.write .log (Wal.batchBytes ms ts)]) :=
    (hacked.one id).one id
  rw [List.append_assoc, List.singleton_append] at hwritten hacked₂
  cases htaken with
  | nothing hnil =>
      subst hnil
      obtain ⟨hbegan, hacked₁, hstops₁⟩ := h.marker (e := .began []) hacked rfl rfl id rfl
      obtain ⟨happlied, hacked₂, hstops₂⟩ :=
        hbegan.marker (e := .applied []) hacked₁ rfl rfl id rfl
      rw [List.append_assoc] at happlied hacked₂
      exact ⟨⟨lo, happlied, hacked₂, fun hzero => hsynced hzero ▸ by simp [begun, Event.begun]⟩,
        hstops₁.append hstops₂⟩
  | landed w' hpos =>
      obtain ⟨happlied, hacked₃, hstops₃⟩ :=
        hwritten.marker (e := .applied ms) hacked₂ rfl rfl id rfl
      rw [List.append_assoc] at happlied hacked₃
      exact ⟨⟨lo, happlied, hacked₃, fun hzero => absurd hzero (Nat.ne_of_gt hpos)⟩,
        hstops.append hstops₃⟩
  | synced w' =>
      obtain ⟨hsync, hacked₃, hstops₃⟩ := hwritten.synced hacked₂
      obtain ⟨happlied, hacked₄, hstops₄⟩ :=
        hsync.marker (e := .applied ms) hacked₃ rfl rfl id rfl
      have hlength : (begun (trace ++ [.began ms, .write .log (Wal.batchBytes ms ts)] ++
          [.fsync .log true] ++ [.applied ms])).length = _ :=
        congrArg List.length ((begun_one rfl).trans (begun_one rfl))
      rw [← hlength, List.append_assoc, List.append_assoc] at happlied hacked₄
      exact ⟨⟨_, happlied, hacked₄, fun _ => rfl⟩, hstops.append (hstops₃.append hstops₄)⟩

/-- The log and the memtable take mutations. -/
theorem Upheld.logged (h : Upheld start old base last trace ⟨s, d⟩) {w : Wal}
    (hw : s.wal = some w) {ms : List Mutation} (hms : ∀ m ∈ ms, m.Fits) {ts : Int64} {l : Logged}
    (htaken : w.Taken ms ts l) {mt : Memtable}
    (hfits : ∀ k e, mt.find k = some e → EntryFits (k, e))
    (hmt : ∀ key, mt.find key =
      (recordsFind (batchRecords ms ts) key).or (s.memtable.find key)) :
    Upheld start old base last (trace ++ (.began ms :: l.events ++ [.applied ms]))
        ⟨{ s with memtable := mt, wal := some l.wal }, d.run l.events⟩ ∧
      StopsIn start old base last trace d (.began ms :: l.events ++ [.applied ms]) := by
  have hbegun := htaken.begun trace
  have hbacked := h.backed.logged hms htaken.appends hfits hmt
  have hrefines : Store.Refines last { s with memtable := mt, wal := some l.wal }
      ((begun trace ++ ms).foldl RefMap.mutate base) := by
    intro key
    show SameFrom Entry.view last ((mt.find key).or _) _
    rw [hmt key, Option.or_assoc, List.foldl_append]
    exact RefMap.foldl_same ms h.refines key
  obtain ⟨ps, _, hstands⟩ := h.backed.stands
  obtain ⟨limbo, lo, hsecure, hacked, hsynced⟩ := h.secure
  obtain ⟨⟨lo', hsecure', hacked', hsynced'⟩, hstops⟩ :=
    hsecure.taken hacked hstands.whole (hsynced w hw) hms htaken
  rw [← hbegun] at hrefines
  refine ⟨⟨hbacked, hrefines, h.off, ?_, limbo, lo', hsecure', hacked', ?_⟩, hstops⟩
  · have htables := (htaken.appends.cut d (Cut.full _)).1
    show (Disk.newestFirst (d.run l.events)).length = _
    rw [Disk.newestFirst, htables]
    exact h.level
  · rintro w' ⟨⟩ hzero
    exact hsynced' hzero

/-! ### Flushes -/

theorem Secure.onlyTemp_stops
    (h : Secure old base last limbo (start.after trace) d (begun trace) lo)
    (hacked : Acked lo trace) {temp : FileName} (ht : temp.IsTemp)
    (hes : ∀ e ∈ es, e.OnlyTemp temp) :
    Secure old base last limbo (start.after (trace ++ es)) (d.run es) (begun (trace ++ es)) lo ∧
      Acked lo (trace ++ es) ∧ StopsIn start old base last trace d es := by
  have hall : ∀ done : List Event, (∀ e ∈ done, e.OnlyTemp temp) →
      Secure old base last limbo (start.after (trace ++ done)) (d.run done)
          (begun (trace ++ done)) lo ∧ Acked lo (trace ++ done) := by
    intro done hdone
    rw [Media.after_append, begun_silent fun e he => (hdone e he).silent.1]
    exact ⟨h.onlyTemp ht hdone, hacked.append fun e he => (hdone e he).silent.2⟩
  refine ⟨(hall es hes).1, (hall es hes).2, fun done hcut => ?_⟩
  obtain ⟨hsecure, hacked'⟩ := hall done (cut_onlyTemp hcut hes)
  exact hsecure.stopped hacked'

/-- A flush that runs through. -/
theorem Secure.flush (h : Secure old base last limbo (start.after trace) d (begun trace) lo)
    (hacked : Acked lo trace) {file : Bytes} {mt : Memtable} {next : Nat}
    (hfile : FileHolds file mt.entries.entries) (hbelow : ∀ p ∈ d.newestFirst, p.1 < next)
    (hknown : ∀ key, logFind d.logBytes key = none → mt.find key = none)
    (hall : ShowsAll base last (begun trace) fun key =>
      (mt.find key).or (tablesFind d.newestFirst key)) :
    Secure old base last (fun _ => False) (start.after (trace ++ flushEvents file next))
        (d.run (flushEvents file next)) (begun (trace ++ flushEvents file next))
        (begun (trace ++ flushEvents file next)).length ∧
      Acked (begun (trace ++ flushEvents file next)).length (trace ++ flushEvents file next) ∧
      StopsIn start old base last trace d (flushEvents file next) := by
  have htemp : FileName.IsTemp .flushTmp := Or.inl rfl
  have honly := tempEvents_onlyTemp .flushTmp file
  obtain ⟨htables, hlog⟩ := Disk.run_onlyTemp htemp honly d
  -- The table is complete under its temporary name.
  obtain ⟨h₁, hacked₁, hstops₁⟩ := h.onlyTemp_stops hacked htemp honly
  have hview : (start.after (trace ++ tempEvents .flushTmp file)).view .flushTmp =
      some (Inode.rest file) := by
    rw [Media.after_append]
    exact Media.view_tempEvents h.follows.wf _ _
  have hbegun₁ : begun (trace ++ tempEvents .flushTmp file) = begun trace :=
    begun_silent fun e he => (honly e he).silent.1
  have hn : (d.run (tempEvents .flushTmp file)).newestFirst = d.newestFirst :=
    newestFirst_congr htables
  have hl : (d.run (tempEvents .flushTmp file)).logBytes = d.logBytes := by
    rw [Disk.logBytes, hlog]
    rfl
  rw [← hn] at hbelow hall
  rw [← hl] at hknown
  rw [← hbegun₁] at hall
  -- It gets its name, the directory is synced, and the log is emptied.
  have hrenamed : Secure old base last (fun k => k = next ∨ limbo k)
      ((start.after (trace ++ tempEvents .flushTmp file)).after [.rename .flushTmp (.table next)])
      ((d.run (tempEvents .flushTmp file)).apply (.rename .flushTmp (.table next)))
      (begun (trace ++ tempEvents .flushTmp file)) lo :=
    h₁.renamed hview hfile hbelow hknown hall rfl rfl
  obtain ⟨h₂, hacked₂, hstops₂⟩ := h₁.next hacked₁ (fun _ _ h => by cases h) rfl id rfl
    (Nat.le_refl _) hrenamed
  obtain ⟨h₃, hacked₃, hstops₃⟩ := h₂.next hacked₂ (fun _ _ h => by cases h) rfl id rfl
    (Nat.le_refl _) h₂.syncDir
  have hbegun₃ := (begun_one rfl : begun (trace ++ tempEvents .flushTmp file ++
    [.rename .flushTmp (.table next)] ++ [.fsyncDir true]) = _).trans (begun_one rfl)
  have htop : (((d.run (tempEvents .flushTmp file)).apply (.rename .flushTmp (.table next))).apply
      (.fsyncDir true)).tables = (d.run (tempEvents .flushTmp file)).tables.insert next file := rfl
  obtain ⟨h₄, hacked₄, hstops₄⟩ := h₃.next hacked₃ (fun _ _ h => by cases h) rfl id rfl
    (Nat.le_refl _) (h₃.emptied fun key => by
      rw [hbegun₃, newestFirst_top hbelow htop, tablesFind_cons, hfile.find]
      exact (SameFrom.or (alike_settled _) (.refl _)).trans (hall key))
  obtain ⟨h₅, hacked₅, hstops₅⟩ := h₄.synced hacked₄
  have hlength := congrArg List.length (begun_one rfl : begun (trace ++ tempEvents .flushTmp file ++
    [.rename .flushTmp (.table next)] ++ [.fsyncDir true] ++ [.ftruncate .log 0] ++
    [.fsync .log true]) = _)
  have hevents : trace ++ tempEvents .flushTmp file ++ [.rename .flushTmp (.table next)] ++
      [.fsyncDir true] ++ [.ftruncate .log 0] ++ [.fsync .log true] =
      trace ++ flushEvents file next := by
    simp only [flushEvents, List.append_assoc, List.cons_append, List.nil_append]
  rw [← hlength, hevents] at h₅ hacked₅
  refine ⟨h₅, hacked₅, ?_⟩
  have hstops := hstops₁.append (hstops₂.append (hstops₃.append (hstops₄.append hstops₅)))
  simpa only [flushEvents, List.append_assoc, List.cons_append, List.nil_append] using hstops

/-- The directory has no table that the store does not know. -/
theorem Upheld.tables (h : Upheld start old base last trace ⟨s, d⟩) :
    ∃ ps, List.Forall₂ (OpenedFrom s.options.useBloom) ps s.sstables ∧ d.newestFirst = ps ∧
      Stands last d ps s.nextSequence s.memtable ∧
      ∀ key, logFind d.logBytes key = none → s.memtable.find key = none := by
  obtain ⟨ps, hopened, hstands⟩ := h.backed.stands
  obtain ⟨orphan, heq, _, halike⟩ := hstands.layout
  have hlength := hopened.length_eq
  have hlevel := h.level
  dsimp only at hlevel
  rw [heq, List.length_append] at hlevel
  obtain rfl : orphan = [] :=
    List.length_eq_zero_iff.mp (Nat.add_eq_right.mp (hlevel.trans hlength.symm))
  refine ⟨ps, hopened, heq, hstands, fun key hnone => ?_⟩
  have hsome := (halike key).1
  rw [hnone, tablesFind_nil] at hsome
  exact Option.not_isSome_iff_eq_none.mp (Bool.eq_false_iff.mp hsome.symm)

theorem Store.flush_upholds (s : Store) (d : Disk) (now : Reading) :
    Upholds start old base last ⟨s, d⟩ (s.flush now {}).events
      ⟨(s.flush now {}).store, d.run (s.flush now {}).events⟩ := by
  refine ⟨rfl, fun hleft trace h => ?_⟩
  have hcases := Store.flush_cases h.backed.sane now {}
  have hbacked := hcases.backed h.backed hleft
  have hsame := (hcases.same h.backed.sane).2
  obtain ⟨limbo, lo, hsecure, hacked, hsynced⟩ := h.secure
  obtain ⟨w, hw⟩ := h.backed.wal
  generalize s.flush now {} = o at hcases hbacked hsame
  have hrefines : o.store.Refines last ((begun trace).foldl RefMap.mutate base) :=
    h.refines.of_same fun key => hsame last key
  have hcut : s.onLog (fun w => w.truncate now {}) =
      { ret := true, store := { s with wal := some (w.truncate now {}).wal }
        events := [.ftruncate .log 0, .fsync .log true] } := by
    rw [Store.onLog_some _ hw]
    rfl
  cases hcases with
  | idle _ =>
      rw [List.append_nil]
      exact ⟨h, .nil h.stopped⟩
  | unnamed events hevents =>
      have hbegun : begun (trace ++ events) = begun trace :=
        begun_silent fun e he => (hevents e he).silent.1
      obtain ⟨hsecure', hacked', hstops⟩ := hsecure.onlyTemp_stops hacked (Or.inl rfl) hevents
      refine ⟨⟨hbacked, by rw [hbegun]; exact hrefines, h.off, ?_, limbo, lo, hsecure', hacked',
        ?_⟩, hstops⟩
      · dsimp only
        rw [Disk.newestFirst, (Disk.run_onlyTemp (Or.inl rfl) hevents d).1]
        exact h.level
      · rw [hbegun]
        exact hsynced
  | unsynced _ _ hdir => cases hdir
  | uncut _ _ hfailed => rw [hcut] at hfailed; cases hfailed
  | done file table hfile _ _ _ _ =>
      obtain ⟨ps, hopened, rfl, hstands, hknown⟩ := h.tables
      have hmem : ShowsAll base last (begun trace) fun key =>
          (s.memtable.find key).or (tablesFind d.newestFirst key) := by
        intro key
        beta_reduce
        rw [← (opened_holds hopened hstands.tablesSane).2 key]
        exact h.refines key
      obtain ⟨hflushed, hacked', hstops⟩ :=
        hsecure.flush hacked (h.backed.sane.fileHolds hfile) hstands.below hknown hmem
      rw [hcut] at hbacked hrefines ⊢
      have hbegun : begun (trace ++ flushEvents file s.nextSequence) = begun trace := by
        rw [begun_append]
        exact List.append_nil _
      rw [← hbegun] at hrefines
      refine ⟨⟨hbacked, hrefines, h.off, ?_, _, _, hflushed, hacked', fun _ _ _ => rfl⟩, hstops⟩
      have htop : (d.run (flushEvents file s.nextSequence)).tables =
          d.tables.insert s.nextSequence file := rfl
      show (Disk.newestFirst (d.run (flushEvents file s.nextSequence))).length = _
      rw [newestFirst_top hstands.below htop]
      exact congrArg Nat.succ h.level

theorem Store.maybeFlush_upholds (s : Store) (d : Disk) (now : Reading) :
    Upholds start old base last ⟨s, d⟩ (s.maybeFlush now {}).events
      ⟨(s.maybeFlush now {}).store, d.run (s.maybeFlush now {}).events⟩ := by
  rcases s.maybeFlush_cases now {} with hidle | hflush
  · rw [hidle]
    exact .refl _
  · rw [hflush]
    refine ⟨rfl, fun hleft trace h => ?_⟩
    obtain ⟨hu, hstops⟩ := (s.flush_upholds d now).2 hleft trace h
    exact ⟨⟨⟨⟨hu.backed.sane.tables, hu.backed.sane.fits⟩, hu.backed.wal, hu.backed.stands⟩,
      hu.refines, hu.off, hu.level, hu.secure⟩, hstops⟩

/-! ### Calls on the store -/

theorem Store.mutate_upholds {α : Type} (s : Store) (d : Disk) (step : LogStep)
    (hfate : step.fate = {}) (mt : Memtable)
    (hfits : s.Sane → (∀ m ∈ step.mutations, m.Fits) ∧
      ∀ k e, mt.find k = some e → EntryFits (k, e))
    (hmt : ∀ key, mt.find key =
      (recordsFind (batchRecords step.mutations step.now.wall) key).or (s.memtable.find key))
    (now : Reading) (refused accepted : α) :
    Upholds start old base last ⟨s, d⟩
      (s.mutate step.mutations (fun w => w.step step) mt now {} refused accepted).events
      ⟨(s.mutate step.mutations (fun w => w.step step) mt now {} refused accepted).store,
        d.run (s.mutate step.mutations (fun w => w.step step) mt now {} refused
          accepted).events⟩ := by
  refine ⟨rfl, fun hleft trace h => ?_⟩
  obtain ⟨w, hw⟩ := h.backed.wal
  obtain ⟨hms, hfits'⟩ := hfits h.backed.sane
  have htaken := w.step_taken hfate
  have hlog := Store.onLog_some (fun w => w.step step) hw
  rw [Store.mutate_accepted (by rw [hlog]; exact htaken.appends.ok), hlog] at hleft ⊢
  simp only [] at hleft ⊢
  obtain ⟨hlogged, hstops⟩ := h.logged hw hms htaken hfits' hmt
  obtain ⟨hu, hstops'⟩ := (Store.maybeFlush_upholds
    { s with memtable := mt, wal := some (w.step step).wal } (d.run (w.step step).events) now).2
    hleft.behind _ hlogged
  have hevents : ∀ ys : List Event,
      .began step.mutations :: (w.step step).events ++ .applied step.mutations :: ys =
        (.began step.mutations :: (w.step step).events ++ [.applied step.mutations]) ++ ys := by
    intro ys
    rw [List.append_assoc]
    rfl
  have hrun : d.run (.began step.mutations :: (w.step step).events ++
      [.applied step.mutations]) = d.run (w.step step).events := by
    rw [List.cons_append, Disk.run_cons, Disk.run_append]
    rfl
  rw [hevents, Disk.run_append, hrun, ← List.append_assoc]
  refine ⟨hu, hstops.append ?_⟩
  rw [hrun]
  exact hstops'

theorem Upheld.swept (h : Upheld start old base last trace ⟨s, d⟩) {now : Int64}
    (hnow : now ≤ last) (budget count : Nat) :
    Upheld start old base last trace
      ⟨{ s with memtable := (s.memtable.sweepExpired now budget).2, sweptKeys := count }, d⟩ := by
  have halike : ∀ key, AlikeFrom Entry.view last
      ((s.memtable.sweepExpired now budget).2.find key) (s.memtable.find key) :=
    fun key => (Memtable.find_sweepExpired _ _ _ key).mono hnow
  exact ⟨h.backed.swept hnow budget count,
    h.refines.of_same fun key => SameFrom.or (halike key) (.refl _), h.off, h.level, h.secure⟩

theorem Store.call_upholds (s : Store) (d : Disk) {env : Env} (henv : env.Clean last) {c : Call}
    (hc : c ≠ .flushAll) (hfits : c.Fits) :
    Upholds start old base last ⟨s, d⟩ (s.call d env c).events
      ⟨(s.call d env c).store, d.run (s.call d env c).events⟩ := by
  have hcalled := s.call_cases d env c
  generalize s.call d env c = o at hcalled
  cases hcalled with
  | nothing r => exact .refl _
  | mutated step hfate mt hfits' hmt now refused accepted f =>
      rw [henv.flush]
      exact s.mutate_upholds d step (hfate.trans henv.log) mt (fun hs => hfits' hs hfits) hmt now
        refused accepted
  | flushed now =>
      rw [henv.flush]
      exact s.flush_upholds d now
  | swept r n budget count =>
      refine ⟨rfl, fun _ trace h => ?_⟩
      rw [List.append_nil]
      exact ⟨h.swept (henv.clock n) budget count, .nil h.stopped⟩
  | merged h =>
      refine ⟨rfl, fun hleft trace hu => ?_⟩
      rw [Store.maybeCompact_off hu.off] at hleft ⊢
      exact (Upholds.refl _).2 hleft trace hu
  | cleared h => exact absurd h hc

/-! ### The loop -/

theorem execute_upholds (e : Engine) {cmd : Command} {env : Env} (henv : env.Clean last)
    (hcmd : ¬cmd.isFlushall) (hfits : cmd.Fits) :
    Upholds start old base last e (execute cmd e.store env).events (e.command cmd env) := by
  obtain ⟨s, d⟩ := e
  rw [Engine.command]
  have hexec := execute_cases cmd s d env
  simp only []
  generalize execute cmd s env = o at hexec
  cases hexec with
  | replied out => exact .refl _
  | called c env' henv' hkind hfits' f =>
      refine s.call_upholds d ?_ ?_ (hfits' hfits)
      · rcases henv' with rfl | rfl
        · exact henv
        · exact ⟨henv.log, henv.flush, fun n => henv.clock (n + 1)⟩
      · rintro rfl
        rcases hkind with hwrites | ⟨_, hflush⟩
        · exact hwrites
        · exact hcmd hflush

/-- A sync of the log makes everything safe. -/
theorem Upheld.sync (h : Upheld start old base last trace ⟨s, d⟩) (w : Wal) (now : Reading) :
    Upheld start old base last (trace ++ (w.sync now true).events)
        ⟨{ s with wal := some (w.sync now true).wal }, d⟩ ∧
      StopsIn start old base last trace d (w.sync now true).events := by
  obtain ⟨limbo, lo, hsecure, hacked, _⟩ := h.secure
  obtain ⟨hsync, hacked', hstops⟩ := hsecure.synced hacked
  have hbegun : begun (trace ++ [.fsync .log true]) = begun trace := begun_one rfl
  refine ⟨⟨⟨⟨h.backed.sane.tables, h.backed.sane.fits⟩, ⟨_, rfl⟩, h.backed.stands⟩, ?_, h.off,
    h.level, limbo, _, hsync, hacked', fun _ _ _ => congrArg List.length hbegun.symm⟩, hstops⟩
  show Store.Refines last s ((begun (trace ++ [.fsync .log true])).foldl RefMap.mutate base)
  rw [hbegun]
  exact h.refines

theorem sent_silent (hes : ∀ x ∈ es, x.IsSent) (m : Media) (d : Disk) :
    m.after es = m ∧ d.run es = d := by
  induction es with
  | nil => exact ⟨rfl, rfl⟩
  | cons x es ih =>
      rw [List.forall_mem_cons] at hes
      cases x with
      | sent fd data => exact ih hes.2
      | _ => cases hes.1

theorem Upheld.sent (h : Upheld start old base last trace e) {w : Wal}
    (hw : e.store.wal = some w) (hzero : w.bytesSinceSync = 0) (hes : ∀ x ∈ es, x.IsSent) :
    Upheld start old base last (trace ++ es) e ∧ StopsIn start old base last trace e.disk es := by
  obtain ⟨limbo, lo, hsecure, hacked, hsynced⟩ := h.secure
  have hlo := hsynced w hw hzero
  have hbegun : ∀ {done : List Event}, (∀ x ∈ done, x.IsSent) →
      begun (trace ++ done) = begun trace := by
    intro done hdone
    rw [begun_append, begun_sent hdone, List.append_nil]
  have hall : ∀ {done : List Event}, (∀ x ∈ done, x.IsSent) →
      Secure old base last limbo (start.after (trace ++ done)) e.disk (begun (trace ++ done)) lo ∧
        Acked lo (trace ++ done) := by
    intro done hdone
    rw [Media.after_append, (sent_silent hdone _ e.disk).1, hbegun hdone]
    exact ⟨hsecure, hacked.sent hdone (Nat.le_of_eq hlo.symm)⟩
  refine ⟨⟨h.backed, by rw [hbegun hes]; exact h.refines, h.off, h.level, limbo, lo, (hall hes).1,
    (hall hes).2, by rw [hbegun hes]; exact hsynced⟩, fun done hcut => ?_⟩
  have hdone : ∀ x ∈ done, x.IsSent := by
    intro x hx
    rcases hcut.mem hx with hx | ⟨x₀, hx₀, ht⟩
    · exact hes x hx
    · cases ht
      exact absurd (hes _ hx₀) id
  rw [(sent_silent hdone start e.disk).2]
  exact (hall hdone).1.stopped (hall hdone).2

theorem Upheld.syncLog {srv : Server} (h : Upheld start old base last trace srv.engine)
    (now : Reading) :
    (Upheld start old base last (trace ++ (srv.syncLog now true).events)
        (srv.syncLog now true).server.engine ∧
      StopsIn start old base last trace srv.engine.disk (srv.syncLog now true).events) ∧
      (srv.syncLog now true).ok = true ∧
      ∃ w, (srv.syncLog now true).server.engine.store.wal = some w ∧ w.bytesSinceSync = 0 := by
  obtain ⟨⟨s, d⟩, conns⟩ := srv
  obtain ⟨w, hw⟩ := h.backed.wal
  have hlog := Store.onLog_some
    (fun w => if w.needsSync then w.sync now true else { ok := true, wal := w, events := [] }) hw
  rw [Server.syncLog]
  simp only [Server.after, hlog]
  by_cases hneeds : w.needsSync = true
  · rw [if_pos hneeds]
    exact ⟨h.sync w now, rfl, _, rfl, rfl⟩
  · rw [if_neg hneeds, List.append_nil]
    rw [Wal.needsSync, decide_eq_true_eq] at hneeds
    refine ⟨⟨?_, .nil h.stopped⟩, rfl, w, rfl, Nat.eq_zero_of_not_pos hneeds⟩
    show Upheld start old base last trace ⟨{ s with wal := some w }, d⟩
    rw [Store.wal_eq_self hw]
    exact h

theorem Store.tick_upholds (s : Store) (d : Disk) (now : Reading) {ok : Bool}
    (hok : ok = true) :
    Upholds start old base last ⟨s, d⟩ (s.onLog fun w => w.maybeSync now ok).events
      ⟨(s.onLog fun w => w.maybeSync now ok).store,
        d.run (s.onLog fun w => w.maybeSync now ok).events⟩ := by
  refine ⟨rfl, fun _ trace h => ?_⟩
  obtain ⟨w, hw⟩ := h.backed.wal
  have hidle : Upheld start old base last (trace ++ []) ⟨{ s with wal := some w }, d⟩ ∧
      StopsIn start old base last trace d [] := by
    rw [List.append_nil, Store.wal_eq_self hw]
    exact ⟨h, .nil h.stopped⟩
  rw [Store.onLog_some _ hw, Wal.maybeSync, hok]
  split
  · exact hidle
  · split
    · exact hidle
    · split
      · exact hidle
      · exact h.sync w now

theorem Server.housekeeping_upholds (srv : Server) {it : Iteration} (hit : it.Clean last) :
    Upholds start old base last srv.engine (srv.housekeeping it).events
      (srv.housekeeping it).server.engine := by
  obtain ⟨⟨s, d⟩, conns⟩ := srv
  have hswept : Upholds start old base last _ _ _ :=
    s.call_upholds d hit.sweep (c := .sweepExpired kSweepBudget) nofun trivial
  have hmerged : ∀ s d, Upholds start old base last ⟨s, d⟩ _ _ := fun s d =>
    s.call_upholds d hit.compact (c := .maybeCompact) nofun trivial
  exact (hswept.trans (hmerged _ _)).trans (Store.tick_upholds _ _ it.tick hit.tickSync)

theorem Server.syncLog_disk (srv : Server) (now : Reading) (ok : Bool) :
    (srv.syncLog now ok).server.engine.disk =
      srv.engine.disk.run (srv.syncLog now ok).events := rfl

theorem upholdsRule : LoopRule (Env.Clean last) (fun cmd => ¬cmd.isFlushall ∧ cmd.Fits)
    (Iteration.Clean last) (Upholds start old base last) where
  refl := .refl
  trans h h' := h.trans h'
  command e _ _ henv hcmd := execute_upholds e henv hcmd.1 hcmd.2
  gaveUp srv it hit hfail := by
    refine ⟨srv.syncLog_disk _ _, fun _ trace h => ?_⟩
    rw [hit.sync] at hfail
    rw [(h.syncLog it.now).2.1] at hfail
    cases hfail
  released srv it sent hit _ hsent := by
    rw [hit.sync]
    refine ⟨?_, fun _ trace h => ?_⟩
    · rw [Disk.run_append, (sent_silent hsent start _).2]
      exact srv.syncLog_disk _ _
    · obtain ⟨⟨hu, hstops⟩, _, w, hw, hzero⟩ := h.syncLog it.now
      obtain ⟨hu', hstops'⟩ := hu.sent hw hzero hsent
      rw [← List.append_assoc]
      exact ⟨hu', hstops.append hstops'⟩
  kept srv _ hit := srv.housekeeping_upholds hit

/-! ### Starting up -/

/-- The calls that cut off what does not replay. -/
def Disk.tornTail (d : Disk) : List Event :=
  if (replay d.logBytes).truncated then [.ftruncate .log (replay d.logBytes).goodBytes] else []

theorem Secure.recovered (h : Secure old base last limbo (start.after trace) d (begun trace) lo)
    (hacked : Acked lo trace) :
    Secure old base last limbo (start.after (trace ++ d.tornTail)) (d.run d.tornTail)
        (begun (trace ++ d.tornTail)) lo ∧
      Acked lo (trace ++ d.tornTail) ∧ StopsIn start old base last trace d d.tornTail := by
  unfold Disk.tornTail
  split
  · exact h.next hacked (fun _ _ h => by cases h) rfl id rfl (Nat.le_refl _)
      (h.trimmed (replay_take_good d.logBytes).2)
  · rw [List.append_nil]
    exact ⟨h, hacked, .nil (h.stopped hacked)⟩

theorem startup_upheld {cfg : Config} (hdir : cfg.options.hasDir = true)
    (hoff : cfg.options.useCompaction = false) (h : Secure old base last limbo start d [] 0)
    (hleft : d.NumbersLeft) {boot : Reading} {o : Outcome Unit}
    (ho : startup cfg d boot = some o) :
    Upheld start old base last o.events ⟨o.store, d.run o.events⟩ ∧
      StopsIn start old base last [] d o.events := by
  obtain ⟨o₁, ho₁, hstarted⟩ := startup_spec h.files cfg hdir boot
  obtain rfl : o = o₁ := by rw [ho] at ho₁; exact Option.some.inj ho₁
  have hunlink : ∀ temp, ∀ e ∈ [Event.unlink temp], e.OnlyTemp temp := by
    intro temp e he
    rw [List.mem_singleton.mp he]
    rfl
  have h₀ : Secure old base last limbo (start.after []) d (begun []) 0 := h
  -- The temporary files go, a torn tail is cut off, and the log is opened.
  obtain ⟨h₁, hacked₁, hstops₁⟩ := h₀.onlyTemp_stops trivial (Or.inr rfl) (hunlink .compactTmp)
  obtain ⟨h₂, hacked₂, hstops₂⟩ := h₁.onlyTemp_stops hacked₁ (Or.inl rfl) (hunlink .flushTmp)
  obtain ⟨cut, hcut⟩ : ∃ cut, cut = d.tornTail := ⟨_, rfl⟩
  obtain ⟨h₃, hacked₃, hstops₃⟩ := h₂.recovered hacked₂
  have hsame : Disk.tornTail (Disk.run (d.run [.unlink .compactTmp]) [.unlink .flushTmp]) = cut :=
    hcut.symm
  rw [hsame] at h₃ hacked₃ hstops₃
  obtain ⟨hvolume, hdisk⟩ := h₃.follows.reopened
  obtain ⟨h₄, hacked₄, hstops₄⟩ := h₃.next hacked₃ (e := .openAppend .log)
    (fun _ _ h => by cases h) rfl id hdisk (Nat.le_refl _) (by rw [hvolume]; exact h₃)
  have hevents := startup_events h.files hdir ho
  rw [← Disk.tornTail, ← hcut] at hevents
  have hbegun : begun o.events = [] := by
    rw [hevents, hcut, Disk.tornTail]
    split <;> rfl
  have hrun : d.run o.events =
      ((d.run [.unlink .compactTmp]).run [.unlink .flushTmp]).run cut := by
    rw [hevents, Disk.run_append, Disk.run_append, Disk.run_append]
    exact hdisk
  rw [List.nil_append, ← hevents] at h₄ hacked₄
  refine ⟨⟨hstarted.backed h.files hleft last, ?_, by rw [hstarted.options]; exact hoff, ?_, limbo,
    0, by rw [hrun]; exact h₄, hacked₄, fun _ _ _ => by rw [hbegun]; rfl⟩, ?_⟩
  · rw [hbegun]
    intro key
    rw [hstarted.find key]
    exact h.all key
  · dsimp only
    rw [Disk.newestFirst, hstarted.tables]
    exact hstarted.opened.length_eq
  · rw [hevents]
    exact ((hstops₁.append hstops₂).append hstops₃).append hstops₄

end Life

/-! ## Histories -/

/-- A server is started on `d` and serves. Nothing is merged or cleared, no call
fails, no table is given the last of the numbers, and its life ends when it has
made the calls `done`. -/
inductive LifeOn (last : Int64) (d : Disk) : List Event → Prop
  | intro (cfg : Config) (hdir : cfg.options.hasDir = true)
      (hoff : cfg.options.useCompaction = false) (boot : Reading) (o : Outcome Unit)
      (ho : startup cfg d boot = some o) (its : List Iteration)
      (hits : ∀ it ∈ its, it.Meets (Env.Clean last) (Iteration.Clean last))
      (hcmds : ∀ cmd ∈ ((o.serve d).run its).commands, ¬cmd.isFlushall)
      (hnumbers : NumbersLeft ((o.serve d).run its).events) (done : List Event)
      (hcut : Cut Event.Torn (o.events ++ ((o.serve d).run its).events) done) : LifeOn last d done

/-- The volume and the directory after some lives, and the calls of each. -/
inductive Outlived (last : Int64) (d₀ : Disk) : Media → Disk → List (List Event) → Prop
  | start : Outlived last d₀ d₀.media d₀ []
  | killed {m : Media} {d : Disk} {lives : List (List Event)} {done : List Event}
      (h : Outlived last d₀ m d lives) (hlife : LifeOn last d done) :
      Outlived last d₀ (m.after done) (d.run done) (lives ++ [done])
  | powerLost {m : Media} {d d' : Disk} {lives : List (List Event)} {done : List Event}
      (h : Outlived last d₀ m d lives) (hlife : LifeOn last d done)
      (hleft : (m.after done).Survives d'.read) :
      Outlived last d₀ d'.media d' (lives ++ [done])

/-- The first `n` mutations of a life are all that were begun when its last
byte was sent, or more. -/
def Honoured (done : List Event) (n : Nat) : Prop :=
  n ≤ (begun done).length ∧ ∀ earlier fd data later,
    done = earlier ++ .sent fd data :: later → (begun earlier).length ≤ n

/-- A beginning of the mutations of each life. -/
def keptOf (lives : List (List Event)) (ns : List Nat) : List Mutation :=
  (List.zipWith (fun done n => (begun done).take n) lives ns).flatten

/-- What an entry shows is what some lives left of a key, everything in it that
was answered. -/
def Remembers (base : RefMap) (last : Int64) (lives : List (List Event)) (key : Bytes)
    (entry : Option Entry) : Prop :=
  ∃ ns, List.Forall₂ Honoured lives ns ∧
    SameFrom Entry.view last entry
      ((((keptOf lives ns).foldl RefMap.mutate base) key).map Found.entry)

/-- What mutations make of a key depends on what the key was. -/
theorem RefMap.foldl_sameAt {last : Int64} {key : Bytes} (ms : List Mutation) :
    ∀ {m m' : RefMap},
      SameFrom Entry.view last ((m key).map Found.entry) ((m' key).map Found.entry) →
      SameFrom Entry.view last (((ms.foldl RefMap.mutate m) key).map Found.entry)
        (((ms.foldl RefMap.mutate m') key).map Found.entry) := by
  induction ms with
  | nil => exact fun h => h
  | cons mutation ms ih =>
      intro m m' h
      refine ih ?_
      obtain ⟨op, key', value, expiresAtMs⟩ := mutation
      by_cases hkey : key = key'
      · cases op <;> simp [RefMap.mutate, RefMap.set, RefMap.erase, hkey, SameFrom.refl]
      · cases op <;> simpa [RefMap.mutate, RefMap.set, RefMap.erase, hkey] using h

section Histories

variable {base base' : RefMap} {last : Int64} {lives : List (List Event)} {done : List Event}
  {key : Bytes} {entry : Option Entry} {ms : List Mutation} {lo n : Nat}

theorem Remembers.same {entry' : Option Entry} (h : Remembers base last lives key entry)
    (hsame : SameFrom Entry.view last entry' entry) : Remembers base last lives key entry' := by
  obtain ⟨ns, hns, hshows⟩ := h
  exact ⟨ns, hns, hsame.trans hshows⟩

theorem Acked.honoured (h : Acked lo done) (hlo : lo ≤ n) (hn : n ≤ (begun done).length) :
    Honoured done n := by
  refine ⟨hn, fun earlier fd data later heq => ?_⟩
  exact Nat.le_trans (preceded_iff.mp h earlier _ later heq trivial) hlo

theorem keptOf_append {ns : List Nat} (h : List.Forall₂ Honoured lives ns) (n : Nat) :
    keptOf (lives ++ [done]) (ns ++ [n]) = keptOf lives ns ++ (begun done).take n := by
  rw [keptOf, List.zipWith_append h.length_eq, List.flatten_append]
  simp [keptOf]

/-- One more life is remembered with the ones before. -/
theorem Remembers.next (hbase : Remembers base last lives key ((base' key).map Found.entry))
    (hms : ms <+: begun done) (hacked : Acked lo done)
    (h : lo = 0 ∧ Remembers base last lives key entry ∨ ∃ n, lo ≤ n ∧ n ≤ ms.length ∧
      SameFrom Entry.view last entry
        ((((ms.take n).foldl RefMap.mutate base') key).map Found.entry)) :
    Remembers base last (lives ++ [done]) key entry := by
  rcases h with ⟨rfl, ns, hns, hshows⟩ | ⟨n, hlo, hn, hshows⟩
  · refine ⟨ns ++ [0], List.rel_append hns (.cons (hacked.honoured (Nat.le_refl _) (Nat.zero_le _))
      .nil), ?_⟩
    rw [keptOf_append hns, List.take_zero, List.append_nil]
    exact hshows
  · obtain ⟨ns, hns, hbefore⟩ := hbase
    have htake : ms.take n = (begun done).take n := by
      obtain ⟨rest, hrest⟩ := hms
      rw [← hrest, List.take_append_of_le_length hn]
    refine ⟨ns ++ [n], List.rel_append hns (.cons (hacked.honoured hlo
      (Nat.le_trans hn hms.length_le)) .nil), ?_⟩
    rw [keptOf_append hns, List.foldl_append, ← htake]
    exact hshows.trans (RefMap.foldl_sameAt _ hbefore)

/-- Between two lives. -/
structure Handed (base : RefMap) (last : Int64) (m : Media) (d : Disk)
    (lives : List (List Event)) : Prop where
  secure : ∃ limbo base', Secure (Remembers base last lives) base' last limbo m d [] 0
  found : ∀ key, Remembers base last lives key (d.find key)
  numbers : d.NumbersLeft

/-- A directory at rest is handed on as it is. -/
theorem Handed.rest {d : Disk} (hd : d.Sane) (hlog : d.log ≠ none)
    (hfound : ∀ key, Remembers base last lives key (d.find key)) (hnumbers : d.NumbersLeft) :
    Handed base last d.media d lives := by
  obtain ⟨m, hm⟩ := hd.exists_map last
  refine ⟨⟨fun _ => False, m, (Disk.media_mirrors hlog).follows, hd, Nat.le_refl _,
    fun key t ht => ?_, fun _ _ _ hlimbo => hlimbo.elim,
    fun data hdata d' hthin key => .inl ⟨rfl, ?_⟩⟩, hfound, hnumbers⟩
  · rw [List.foldl_nil, ← RefMap.lookup_eq, hm t key ht]
    rfl
  · obtain ⟨log, hlog'⟩ := Option.ne_none_iff_exists'.mp hlog
    rw [Media.logMaybe, d.media_view, show d.read .log = some log from hlog'] at hdata
    have hlogBytes : d.logBytes = log := by rw [Disk.logBytes, hlog']; rfl
    obtain rfl : data = d.logBytes := hlogBytes ▸ List.mem_singleton.mp hdata
    rw [Disk.newestFirst, hthin.whole]
    exact hfound key

theorem NumbersLeft.cut {es : List Event} (h : NumbersLeft es) (hcut : Cut Event.Torn es done) :
    NumbersLeft done := by
  intro e he
  rcases hcut.mem he with he | ⟨e₀, he₀, ht⟩
  · exact h e he
  · have hwrite := h e₀ he₀
    cases ht
    exact hwrite

theorem startup_numbersLeft {cfg : Config} {d : Disk} (hd : d.Sane)
    (hdir : cfg.options.hasDir = true) {boot : Reading} {o : Outcome Unit}
    (h : startup cfg d boot = some o) : NumbersLeft o.events := by
  rw [startup_events hd hdir h]
  split <;> exact of_decide_eq_true rfl

/-- What a life leaves when it ends is handed on. -/
theorem LifeOn.stopped {m : Media} {d : Disk} (h : LifeOn last d done) (hleft : d.NumbersLeft)
    {old : Bytes → Option Entry → Prop} {limbo : Nat → Prop}
    (hsecure : Secure old base' last limbo m d [] 0) :
    Stopped m old base' last done (d.run done) ∧ (d.run done).NumbersLeft := by
  cases h with
  | intro cfg hdir hoff boot o ho its hits hcmds hnumbers done hcut =>
      obtain ⟨hupheld, hstops⟩ := startup_upheld hdir hoff hsecure hleft ho
      have hfits := Server.run_fits its (o.serve_bounded d)
      have hrun := (upholdsRule.run its (o.serve d) hits
        (fun cmd hcmd => ⟨hcmds cmd hcmd, hfits cmd hcmd⟩)).2 hnumbers _ hupheld
      have hall := numbersLeft_append.mpr ⟨startup_numbersLeft hsecure.files hdir ho, hnumbers⟩
      exact ⟨hstops.append hrun.2 done hcut, hleft.run (hall.cut hcut)⟩

theorem Handed.life {m : Media} {d : Disk} (h : Handed base last m d lives)
    (hlife : LifeOn last d done) :
    Handed base last (m.after done) (d.run done) (lives ++ [done]) ∧
      ∀ d', (m.after done).Survives d'.read →
        Handed base last d'.media d' (lives ++ [done]) := by
  obtain ⟨limbo, base', hsecure⟩ := h.secure
  obtain ⟨⟨limbo', ms, lo, hms, hstopped, hacked⟩, hnumbers⟩ := hlife.stopped h.numbers hsecure
  have hbase : ∀ key, Remembers base last lives key ((base' key).map Found.entry) :=
    fun key => (h.found key).same (hsecure.all key).symm
  have hsince : ∀ {find}, ShowsSince (Remembers base last lives) base' last ms lo find →
      ∀ key, Remembers base last (lives ++ [done]) key (find key) :=
    fun hfind key => (hbase key).next hms hacked (hfind key)
  constructor
  · refine ⟨⟨limbo', ms.foldl RefMap.mutate base', hstopped.follows, hstopped.files,
      Nat.le_refl _, hstopped.all, hstopped.covered, fun data hdata d' hthin key => ?_⟩, ?_,
      hnumbers⟩
    · exact .inl ⟨rfl, hsince (hstopped.shown data hdata d' hthin) key⟩
    · exact hsince (hstopped.all.since hstopped.le)
  · intro d' hs
    obtain ⟨hsane, hshows⟩ := hstopped.survives hs
    have hthin := (hstopped.follows.survives hs).1
    refine .rest hsane ?_ (hsince hshows) (hthin.numbersLeft hnumbers)
    obtain ⟨hstable, x, hx, _⟩ := hstopped.follows.log
    have hleft := hs.stable hstable
    rw [hx] at hleft
    obtain ⟨data, _, hfound⟩ := hleft
    have hlog : d'.log = some data := hfound
    rw [hlog]
    exact Option.some_ne_none data

end Histories

/-- A server is started again and again on a directory in which the log has its
name and no table the last of the numbers, and each life ends anywhere, by a
kill or by a loss of power. The next start succeeds, and every key shows a
beginning of the mutations of each life, one behind the other, in which nothing
is missing that had been begun when a byte was last sent. -/
theorem answers_outlive (d₀ : Disk) (hd₀ : d₀.Sane) (hlog : d₀.log ≠ none)
    (hnumbers : d₀.NumbersLeft) (base : RefMap) (last : Int64)
    (hbase : ∀ t key, last ≤ t → d₀.lookup t key = base.lookup t key) (m : Media) (d : Disk)
    (lives : List (List Event)) (h : Outlived last d₀ m d lives) (cfg : Config)
    (hdir : cfg.options.hasDir = true) (boot : Reading) :
    ∃ o, startup cfg d boot = some o ∧ ∀ key, ∃ ns, List.Forall₂ Honoured lives ns ∧
      ∀ t, last ≤ t → o.store.lookup t key =
        ((keptOf lives ns).foldl RefMap.mutate base).lookup t key := by
  have hhanded : Handed base last m d lives := by
    induction h with
    | start =>
        refine .rest hd₀ hlog (fun key => ⟨[], .nil, fun t ht => ?_⟩) hnumbers
        rw [keptOf, List.zipWith_nil_left, List.flatten_nil, List.foldl_nil, ← RefMap.lookup_eq,
          ← hbase t key ht]
        rfl
    | killed _ hlife ih => exact (ih.life hlife).1
    | powerLost _ hlife hleft ih => exact (ih.life hlife).2 _ hleft
  obtain ⟨limbo, base', hsecure⟩ := hhanded.secure
  obtain ⟨o, ho, hstarted⟩ := startup_spec hsecure.files cfg hdir boot
  refine ⟨o, ho, fun key => ?_⟩
  obtain ⟨ns, hns, hshows⟩ := hhanded.found key
  refine ⟨ns, hns, fun t ht => ?_⟩
  rw [RefMap.lookup_eq, Store.lookup, hstarted.find key]
  exact hshows t ht

/-- A client sets a key and is answered, and the process is killed. The next one
has just started when the power goes. -/
theorem answers_outlive_two :
    let m : Mutation := { op := .kSet, key := text "k", value := text "v", expiresAtMs := 0 }
    let d : Disk := { log := some (encodeRecord m 0) }
    let starting : List Event := [.unlink .compactTmp, .unlink .flushTmp, .openAppend .log]
    let serving : List Event := [.began [m], .write .log (encodeRecord m 0), .applied [m],
      .fsync .log true, .sent 5 (text "+OK\r\n")]
    Outlived 5 { log := some [] } d.media d [starting ++ serving, starting] ∧
      ∃ o, startup {} d {} = some o ∧ o.store.lookup 5 (text "k") = some ⟨text "v", 0⟩ := by
  intro m d starting serving
  have hfirst : LifeOn 5 { log := some [] } (starting ++ serving) := by
    have ho : startup { options := { useCompaction := false } } { log := some [] } {} =
        some (freshStart { options := { useCompaction := false } }) := rfl
    refine .intro _ rfl rfl {} _ ho oneSet oneSet_clean (by decide +kernel) (by decide +kernel) _ ?_
    have hevents : (freshStart { options := { useCompaction := false } }).events ++
        (((freshStart { options := { useCompaction := false } }).serve
          { log := some [] }).run oneSet).events = starting ++ serving := by decide +kernel
    rw [hevents]
    exact Cut.full _
  have hdisk : Disk.run { log := some [] } (starting ++ serving) = d := by decide +kernel
  have hsecond : LifeOn 5 (Disk.run { log := some [] } (starting ++ serving)) starting := by
    rw [hdisk]
    have hsane : d.Sane := fun p hp => by cases hp
    obtain ⟨o, ho, _⟩ := startup_spec hsane { options := { useCompaction := false } } rfl {}
    refine .intro _ rfl rfl {} o ho [] (List.forall_mem_nil _) (List.forall_mem_nil _)
      (List.forall_mem_nil _) _ ?_
    have hevents : o.events = starting := (startup_events hsane rfl ho).trans (by decide +kernel)
    rw [hevents]
    exact Cut.full _
  have hleft : (((Disk.media { log := some [] }).after (starting ++ serving)).after
      starting).Survives d.read := by
    refine ⟨[], List.nil_sublist _, fun file => ?_⟩
    cases file with
    | log => exact ⟨encodeRecord m 0, by decide +kernel, rfl⟩
    | flushTmp => rfl
    | compactTmp => rfl
    | table seq => rfl
  have houtlived := Outlived.powerLost (.killed .start hfirst) hsecond hleft
  refine ⟨houtlived, ?_⟩
  obtain ⟨o, ho, hshown⟩ := answers_outlive { log := some [] } (fun p hp => by cases hp) nofun
    (fun p hp => by cases hp) RefMap.empty 5 (fun _ _ _ => rfl) _ _ _ houtlived {} rfl {}
  obtain ⟨ns, hns, hlookup⟩ := hshown (text "k")
  refine ⟨o, ho, (hlookup 5 (le_refl _)).trans ?_⟩
  -- The reply went out behind the one mutation, so that is what is found.
  obtain _ | @⟨_, n, _, _, hone, _ | @⟨_, k, _, _, htwo, _ | _⟩⟩ := hns
  have hsplit : starting ++ serving = starting ++ [.began [m], .write .log (encodeRecord m 0),
      .applied [m], .fsync .log true] ++ .sent 5 (text "+OK\r\n") :: [] := rfl
  have hn : 1 ≤ n := hone.2 _ _ _ _ hsplit
  obtain rfl : n = 1 := Nat.le_antisymm hone.1 hn
  obtain rfl : k = 0 := Nat.le_zero.mp htwo.1
  rfl

end Cachedb
