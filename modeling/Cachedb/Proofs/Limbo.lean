import Cachedb.Proofs.AckedWrites

/-!
# Tables that may not be found

A process that is killed between the rename of a flush and the sync of the
directory leaves a table whose name is on its way: the kernel shows it, and the
next process opens it like the others, but a loss of power may take it away.
The log may be ahead of the disk in the same way, by bytes that the killed
process wrote and did not sync, and nothing tells the next process so.

`Media.Follows` relates the volume to the directory the kernel shows, with the
tables in limbo apart. `Secure` adds what makes them harmless: the log knows
every key they know, and each past of the log, over the tables with any of
those in limbo missing, shows enough. Every call the engine makes keeps this,
with what was begun and what is safe changing as the call says.
-/

namespace Cachedb

open KMerge Layers Trace

/-! ## The volume under a directory -/

/-- The log and the tables are where the kernel shows them. The names of the
tables in `limbo` may be on their way. -/
structure Media.Follows (m : Media) (d : Disk) (limbo : Nat → Prop) : Prop where
  wf : m.WellFormed
  log : m.Stable .log ∧ ∃ x, m.view .log = some x ∧ d.log = some x.current
  tables : ∀ seq, m.view (.table seq) = (d.tables.find seq).map Inode.rest
  named : ∀ seq, m.Stable (.table seq) ∨ limbo seq ∧ m.Arriving (.table seq)

/-- The tables of `d`, some of those in `limbo` missing. -/
def Disk.Thinned (limbo : Nat → Prop) (d d' : Disk) : Prop :=
  ∀ seq, d'.tables.find seq = d.tables.find seq ∨ limbo seq ∧ d'.tables.find seq = none

section Follows

variable {m : Media} {d d' : Disk} {limbo : Nat → Prop}

theorem Media.Mirrors.follows (h : m.Mirrors d) : m.Follows d limbo :=
  ⟨h.wf, h.log, fun seq => (h.tables seq).2, fun seq => .inl (h.tables seq).1⟩

/-- What is found: the tables, those in limbo or not, and one of the log's
pasts. -/
theorem Media.Follows.survives (h : m.Follows d limbo) (hs : m.Survives d'.read) :
    d.Thinned limbo d' ∧ d'.logBytes ∈ m.logMaybe := by
  constructor
  · intro seq
    have hfound : d'.read (.table seq) = d'.tables.find seq := rfl
    rcases h.named seq with hstable | ⟨hlimbo, harriving⟩
    · have hleft := hs.stable hstable
      rw [h.tables seq] at hleft
      exact .inl (leaves_rest hleft)
    · rcases hs.arriving harriving with hnone | hleft
      · exact .inr ⟨hlimbo, hnone⟩
      · rw [h.tables seq] at hleft
        exact .inl (leaves_rest hleft)
  · obtain ⟨hstable, x, hx, _⟩ := h.log
    have hleft := hs.stable hstable
    rw [hx] at hleft
    obtain ⟨data, hdata, hfound⟩ := hleft
    have hlog : d'.log = some data := hfound
    rw [Disk.logBytes, hlog, Media.logMaybe, hx]
    exact hdata

theorem Media.Follows.onlyTemp (h : m.Follows d limbo) {temp : FileName} (ht : temp.IsTemp)
    {es : List Event} (hes : ∀ e ∈ es, e.OnlyTemp temp) :
    (m.after es).Follows (d.run es) limbo ∧ (m.after es).logMaybe = m.logMaybe := by
  have hon : ∀ op ∈ es.flatMap Event.ops, op.On temp := by
    intro op hop
    obtain ⟨e, he, hop⟩ := List.mem_flatMap.mp hop
    exact (hes e he).on op hop
  have hlog : FileName.log ≠ temp := by rcases ht with rfl | rfl <;> decide
  have htable : ∀ seq, FileName.table seq ≠ temp := by
    intro seq
    rcases ht with rfl | rfl <;> exact fun h => by cases h
  obtain ⟨htables, hlogs⟩ := Disk.run_onlyTemp ht hes d
  obtain ⟨hwf, hview, hstable⟩ := Volume.run_on hlog hon h.wf
  obtain ⟨hs, x, hx, hcur⟩ := h.log
  refine ⟨⟨hwf, ⟨hstable hs, x, hview.trans hx, by rw [hlogs]; exact hcur⟩, fun seq => ?_,
    fun seq => ?_⟩, ?_⟩
  · obtain ⟨_, hview, _⟩ := Volume.run_on (htable seq) hon h.wf
    rw [htables]
    exact hview.trans (h.tables seq)
  · obtain ⟨_, _, hstable⟩ := Volume.run_on (htable seq) hon h.wf
    exact (h.named seq).imp hstable fun hlimbo => ⟨hlimbo.1, hlimbo.2.run_on (htable seq) hon⟩
  · show (Volume.view _ _).elim _ _ = _
    rw [Media.after, hview]
    rfl

/-- A change of the log's contents. -/
theorem Media.Follows.change (h : m.Follows d limbo) (op : Volume.Op FileName UInt8)
    (f : Inode UInt8 → Inode UInt8) (d' : Disk)
    (heffect : ∀ files, op.effect files = Function.update files .log ((files .log).map f))
    (hon : op.On .log) (hrenames : ¬op.Renames .log) {x : Inode UInt8}
    (hx : m.view .log = some x) (ht : d'.tables = d.tables)
    (hl : d'.log = some (f x).current) :
    Media.Follows (m.apply op) d' limbo ∧ (m.apply op).view .log = some (f x) := by
  have hview : (m.apply op).view .log = some (f x) := by
    rw [Volume.view_apply h.wf, heffect, Function.update_self, hx]
    rfl
  have hne : ∀ seq, FileName.table seq ≠ .log := fun seq h => by cases h
  have hdir : op ≠ .syncDir := by
    rintro rfl
    exact hon
  refine ⟨⟨h.wf.apply op, ⟨h.log.1.apply op hrenames, f x, hview, hl⟩, fun seq => ?_,
    fun seq => ?_⟩, hview⟩
  · rw [ht, Volume.view_on h.wf hon (hne seq)]
    exact h.tables seq
  · exact (h.named seq).imp (·.apply op (hon.not_renames (hne seq)))
      fun hlimbo => ⟨hlimbo.1, hlimbo.2.apply op (hon.not_renames (hne seq)) hdir⟩

theorem Media.Follows.log_eq (h : m.Follows d limbo) :
    ∃ x, m.view .log = some x ∧ x.current = d.logBytes := by
  obtain ⟨_, x, hx, hcur⟩ := h.log
  exact ⟨x, hx, by rw [Disk.logBytes, hcur]; rfl⟩

/-- What an append adds to the log's pasts. -/
theorem Media.Follows.write (h : m.Follows d limbo) (data : Bytes) :
    (m.after [.write .log data]).Follows (d.apply (.write .log data)) limbo ∧
      ∀ found ∈ (m.after [.write .log data]).logMaybe,
        found ∈ m.logMaybe ∨ ∃ n, found = d.logBytes ++ data.take n := by
  obtain ⟨x, hx, hcur⟩ := h.log_eq
  obtain ⟨hfollows, hview⟩ := h.change (.write .log data) (·.write data)
    (d.apply (.write .log data)) (fun _ => rfl) rfl id hx rfl (by
      show some (d.logBytes ++ data) = _
      rw [← hcur]; rfl)
  refine ⟨hfollows, fun found hfound => ?_⟩
  rw [Media.logMaybe, show (m.after [.write .log data]).view .log = some (x.write data) from hview]
    at hfound
  rw [Media.logMaybe, hx, ← hcur]
  exact Inode.mem_maybe_write hfound

/-- After a sync the log has one past. -/
theorem Media.Follows.sync (h : m.Follows d limbo) :
    (m.after [.fsync .log true]).Follows d limbo ∧
      (m.after [.fsync .log true]).logMaybe = [d.logBytes] := by
  obtain ⟨x, hx, hcur⟩ := h.log_eq
  obtain ⟨hfollows, hview⟩ := h.change (.sync .log) Inode.sync d (fun _ => rfl) rfl id hx
    rfl (by obtain ⟨_, y, hy, hl⟩ := h.log; rw [hx] at hy; cases hy; exact hl)
  refine ⟨hfollows, ?_⟩
  rw [Media.logMaybe, show (m.after [.fsync .log true]).view .log = some x.sync from hview, ← hcur]
  rfl

/-- What a cut adds to the log's pasts. -/
theorem Media.Follows.cut (h : m.Follows d limbo) (n : Nat) :
    (m.after [.ftruncate .log n]).Follows (d.apply (.ftruncate .log n)) limbo ∧
      ∀ found ∈ (m.after [.ftruncate .log n]).logMaybe,
        found ∈ m.logMaybe ∨ found = d.logBytes.take n := by
  obtain ⟨x, hx, hcur⟩ := h.log_eq
  obtain ⟨hfollows, hview⟩ := h.change (.cut .log n) (·.cut n)
    (d.apply (.ftruncate .log n)) (fun _ => rfl) rfl id hx rfl (by
      show some (d.logBytes.take n) = _
      rw [← hcur]; rfl)
  refine ⟨hfollows, fun found hfound => ?_⟩
  rw [Media.logMaybe, show (m.after [.ftruncate .log n]).view .log = some (x.cut n) from hview]
    at hfound
  rw [Media.logMaybe, hx, ← hcur]
  exact Inode.mem_maybe_cut hfound

/-- A table that gets a new name is in limbo. -/
theorem Media.Follows.renamed (h : m.Follows d limbo) {file : Bytes}
    (hfile : m.view .flushTmp = some (Inode.rest file)) {seq : Nat}
    (hnew : d.tables.find seq = none) (ht : d'.tables = d.tables.insert seq file)
    (hl : d'.log = d.log) :
    (m.after [.rename .flushTmp (.table seq)]).Follows d' (fun k => k = seq ∨ limbo k) ∧
      (m.after [.rename .flushTmp (.table seq)]).logMaybe = m.logMaybe := by
  have hview : ∀ name, name ≠ .flushTmp → name ≠ .table seq →
      (m.apply (.move .flushTmp (.table seq))).view name = m.view name := by
    intro name htemp htable
    rw [Volume.view_apply h.wf, Volume.Op.effect, hfile]
    show Function.update (Function.update m.view _ _) _ _ name = _
    rw [Function.update_of_ne htable, Function.update_of_ne htemp]
  have hlog := hview .log (by decide) fun h => by cases h
  have hrenames : ∀ name, name ≠ .flushTmp → name ≠ .table seq →
      ¬(Volume.Op.move FileName.flushTmp (.table seq) : Volume.Op FileName UInt8).Renames name :=
    fun _ htemp htable hc => hc.elim (fun hc => htemp hc.symm) fun hc => htable hc.symm
  have hnone : m.view (.table seq) = none := by rw [h.tables seq, hnew]; rfl
  obtain ⟨hstable, x, hx, hcur⟩ := h.log
  have hafter : m.after [.rename .flushTmp (.table seq)] =
      m.apply (.move .flushTmp (.table seq)) := rfl
  rw [hafter]
  refine ⟨⟨h.wf.apply _, ⟨hstable.apply _ (hrenames .log (by decide) fun h => by cases h), x,
    hlog.trans hx, hl ▸ hcur⟩, fun seq' => ?_, fun seq' => ?_⟩, ?_⟩
  · rw [ht, SortedMap.find_insert]
    split
    · next heq =>
        rw [heq, Volume.view_apply h.wf, Volume.Op.effect, hfile]
        exact Function.update_self ..
    · next hne =>
        rw [hview _ (fun h => by cases h) fun hc => hne (by cases hc; rfl)]
        exact h.tables seq'
  · by_cases heq : seq' = seq
    · subst heq
      rcases h.named seq' with hstable | ⟨_, harriving⟩
      · exact .inr ⟨.inl rfl, hstable.arriving hnone hfile⟩
      · obtain ⟨i, hi, _⟩ := harriving.moved
        rw [Volume.view, hi] at hnone
        cases hnone
    · have hmoves := hrenames (.table seq') (fun h => by cases h) fun hc => heq (by cases hc; rfl)
      exact (h.named seq').imp (·.apply _ hmoves)
        fun hlimbo => ⟨.inr hlimbo.1, hlimbo.2.apply _ hmoves fun h => by cases h⟩
  · rw [Media.logMaybe, hlog]
    rfl

/-- Once the directory is synced no table is in limbo. -/
theorem Media.Follows.syncDir (h : m.Follows d limbo) :
    (m.after [.fsyncDir true]).Follows d (fun _ => False) ∧
      (m.after [.fsyncDir true]).logMaybe = m.logMaybe := by
  have hview : ∀ name, (m.after [.fsyncDir true]).view name = m.view name := by
    intro name
    show (m.apply .syncDir).view name = _
    rw [Volume.view_apply h.wf]
    rfl
  obtain ⟨_, x, hx, hcur⟩ := h.log
  refine ⟨⟨h.wf.apply .syncDir, ⟨Volume.stable_syncDir _, x, (hview _).trans hx, hcur⟩,
    fun seq => (hview _).trans (h.tables seq), fun seq => .inl (Volume.stable_syncDir _)⟩, ?_⟩
  rw [Media.logMaybe, hview]
  rfl

/-- The log is opened again. -/
theorem Media.Follows.reopened (h : m.Follows d limbo) :
    m.after [.openAppend .log] = m ∧ d.apply (.openAppend .log) = d := by
  obtain ⟨_, x, hx, hcur⟩ := h.log
  refine ⟨Volume.openFile_eq_self hx, ?_⟩
  show { d with log := some (d.log.getD []) } = d
  rw [hcur]
  exact congrArg (fun log => { d with log := log }) hcur.symm

end Follows

/-! ## Directories with tables missing -/

section Thinned

variable {d d' d₀ : Disk} {limbo : Nat → Prop} {key : Bytes}

theorem Disk.Thinned.newestFirst (h : d.Thinned limbo d') :
    d'.newestFirst = d.newestFirst.filter fun p => (d'.tables.find p.1).isSome := by
  rw [Disk.newestFirst, Disk.newestFirst, List.filter_reverse]
  refine congrArg List.reverse (SortedMap.eq_of_findIn_eq d'.tables.sorted
    (d.tables.sorted.sublist (List.filter_sublist.map _)) fun seq => ?_)
  rw [SortedMap.findIn_filter (fun seq => (d'.tables.find seq).isSome)]
  show d'.tables.find seq = if _ then d.tables.find seq else none
  cases hfind : d'.tables.find seq with
  | none => rfl
  | some file =>
      rcases h seq with heq | ⟨_, hnone⟩
      · rw [← heq, hfind]
        rfl
      · rw [hfind] at hnone
        cases hnone

theorem Disk.Thinned.sane (h : d.Thinned limbo d') (hd : d.Sane) : d'.Sane := by
  intro p hp
  rw [h.newestFirst] at hp
  exact hd p (List.mem_filter.mp hp).1

theorem Disk.Thinned.numbersLeft (h : d.Thinned limbo d') (hd : d.NumbersLeft) :
    d'.NumbersLeft := by
  intro p hp
  rw [h.newestFirst] at hp
  exact hd p (List.mem_filter.mp hp).1

/-- Tables that know nothing of a key are not missed. -/
theorem Disk.Thinned.tablesFind (h : d.Thinned limbo d')
    (hnone : ∀ seq file, limbo seq → d.tables.find seq = some file → fileFind file key = none) :
    tablesFind d'.newestFirst key = tablesFind d.newestFirst key := by
  have hmissing : ∀ p ∈ d.newestFirst, (d'.tables.find p.1).isSome = false →
      fileFind p.2 key = none := by
    intro p hp hgone
    have hfind : d.tables.find p.1 = some p.2 :=
      SortedMap.find_eq_some_iff.mpr (List.mem_reverse.mp hp)
    rcases h p.1 with heq | ⟨hlimbo, _⟩
    · rw [heq, hfind] at hgone
      cases hgone
    · exact hnone p.1 p.2 hlimbo hfind
  rw [h.newestFirst]
  generalize d.newestFirst = ps at hmissing
  induction ps with
  | nil => rfl
  | cons p ps ih =>
      rw [List.forall_mem_cons] at hmissing
      rw [List.filter_cons, tablesFind_cons]
      cases hkeep : (d'.tables.find p.1).isSome with
      | true => rw [if_pos rfl, tablesFind_cons, ih hmissing.2]
      | false => rw [if_neg (by decide), ih hmissing.2, hmissing.1 hkeep, Option.none_or]

theorem Disk.Thinned.whole (h : d.Thinned (fun _ => False) d') : d'.tables = d.tables :=
  SortedMap.ext_find fun seq => (h seq).resolve_right fun hlimbo => hlimbo.1

theorem Disk.Thinned.congr (h : d.Thinned limbo d') (ht : d₀.tables = d.tables) :
    d₀.Thinned limbo d' := by
  intro seq
  rw [ht]
  exact h seq

/-- Without the newest table a thinned directory is one of the directory that
did not have it yet. -/
theorem Disk.Thinned.erase {seq : Nat} {file : Bytes} (hnew : d.tables.find seq = none)
    (ht : d₀.tables = d.tables.insert seq file)
    (h : d₀.Thinned (fun k => k = seq ∨ limbo k) d') :
    d.Thinned limbo { d' with tables := d'.tables.erase seq } := by
  intro k
  show (d'.tables.erase seq).find k = _ ∨ _ ∧ (d'.tables.erase seq).find k = none
  rw [SortedMap.find_erase]
  split
  · next heq =>
      subst heq
      exact .inl hnew.symm
  · next hne =>
      have hk := h k
      rw [ht, SortedMap.find_insert, if_neg hne] at hk
      exact hk.imp id fun hlimbo => ⟨hlimbo.1.resolve_left hne, hlimbo.2⟩

theorem newestFirst_top {seq : Nat} {file : Bytes} (hbelow : ∀ p ∈ d.newestFirst, p.1 < seq)
    (ht : d'.tables = d.tables.insert seq file) :
    d'.newestFirst = (seq, file) :: d.newestFirst := by
  have hentries := SortedMap.insertIn_append (v := file)
    (fun p hp => hbelow p (List.mem_reverse.mpr hp)) []
  rw [List.append_nil] at hentries
  rw [Disk.newestFirst, ht]
  show (SortedMap.insertIn seq file d.tables.entries).reverse = _
  rw [hentries, SortedMap.insertIn, List.reverse_append]
  rfl

end Thinned

/-! ## What may be found -/

theorem wholeRecords_mono (ms : List Mutation) (ts : Int64) :
    ∀ {j n : Nat}, j ≤ n → wholeRecords ms ts j ≤ wholeRecords ms ts n := by
  induction ms with
  | nil => exact fun _ => Nat.le_refl _
  | cons m ms ih =>
      intro j n hle
      rw [wholeRecords, wholeRecords]
      split
      · exact Nat.zero_le _
      · rw [if_neg (by omega)]
        exact Nat.succ_le_succ (ih (by omega))

section Secure

variable (old : Bytes → Option Entry → Prop) (base : RefMap) (last : Int64)

/-- Every key shows a beginning of the mutations, from the `lo`-th on. As long
as none of them has to be there, it may also show something `old`. -/
def ShowsSince (ms : List Mutation) (lo : Nat) (find : Bytes → Option Entry) : Prop :=
  ∀ key, lo = 0 ∧ old key (find key) ∨ ∃ n, lo ≤ n ∧ n ≤ ms.length ∧
    SameFrom Entry.view last (find key)
      ((((ms.take n).foldl RefMap.mutate base) key).map Found.entry)

/-- The kernel shows `d`, and all of the mutations in it. Whatever a loss of
power leaves of the volume shows `lo` of them or more. -/
structure Secure (limbo : Nat → Prop) (m : Media) (d : Disk) (ms : List Mutation) (lo : Nat) :
    Prop where
  follows : m.Follows d limbo
  files : d.Sane
  le : lo ≤ ms.length
  all : ShowsAll base last ms d.find
  /-- The log knows what the tables in limbo know. -/
  covered : ∀ seq file key, limbo seq → d.tables.find seq = some file →
    logFind d.logBytes key = none → fileFind file key = none
  shown : ∀ data ∈ m.logMaybe, ∀ d', d.Thinned limbo d' → ShowsSince old base last ms lo fun key =>
    (logFind data key).or (tablesFind d'.newestFirst key)

variable {old base last} {ms : List Mutation} {lo : Nat} {find : Bytes → Option Entry}
  {limbo : Nat → Prop} {m : Media} {d d' : Disk}

theorem ShowsFrom.since (h : ShowsFrom base last ms lo find) :
    ShowsSince old base last ms lo find := fun key => .inr (h key)

theorem ShowsAll.since (h : ShowsAll base last ms find) (hlo : lo ≤ ms.length) :
    ShowsSince old base last ms lo find := (h.showsFrom hlo).since

theorem ShowsSince.append (h : ShowsSince old base last ms lo find) (ms' : List Mutation) :
    ShowsSince old base last (ms ++ ms') lo find := by
  intro key
  refine (h key).imp id ?_
  rintro ⟨n, hlo, hn, hsame⟩
  refine ⟨n, hlo, ?_, ?_⟩
  · rw [List.length_append]
    omega
  · rw [List.take_append_of_le_length hn]
    exact hsame

/-- The log as it is does not miss the tables in limbo. -/
theorem Secure.find_thinned (h : Secure old base last limbo m d ms lo)
    (ht : d.Thinned limbo d') (key : Bytes) :
    (logFind d.logBytes key).or (tablesFind d'.newestFirst key) = d.find key := by
  rw [Disk.find]
  cases hlog : logFind d.logBytes key with
  | some e => rfl
  | none => rw [ht.tablesFind fun seq file hlimbo hfind => h.covered seq file key hlimbo hfind hlog]

theorem Secure.survives (h : Secure old base last limbo m d ms lo) (hs : m.Survives d'.read) :
    d'.Sane ∧ ShowsSince old base last ms lo d'.find := by
  obtain ⟨hthin, hlog⟩ := h.follows.survives hs
  exact ⟨hthin.sane h.files, h.shown _ hlog d' hthin⟩

/-! ### Single calls -/

/-- Calls that leave the log and the tables alone, for the volume as well. -/
theorem Secure.aside (h : Secure old base last limbo m d ms lo) {m' : Media}
    (hfollows : m'.Follows d' limbo) (hmaybe : m'.logMaybe = m.logMaybe)
    (ht : d'.tables = d.tables) (hl : d'.logBytes = d.logBytes) :
    Secure old base last limbo m' d' ms lo := by
  have hn : d'.newestFirst = d.newestFirst := newestFirst_congr ht
  have hfind : d'.find = d.find := funext fun key => by rw [Disk.find, Disk.find, hl, hn]
  refine ⟨hfollows, by rw [Disk.Sane, hn]; exact h.files, h.le, by rw [hfind]; exact h.all, ?_, ?_⟩
  · rw [ht, hl]
    exact h.covered
  · rw [hmaybe]
    exact fun data hdata d'' hthin => h.shown data hdata d'' (hthin.congr ht.symm)

theorem Secure.onlyTemp (h : Secure old base last limbo m d ms lo) {temp : FileName}
    (ht : temp.IsTemp) {es : List Event} (hes : ∀ e ∈ es, e.OnlyTemp temp) :
    Secure old base last limbo (m.after es) (d.run es) ms lo := by
  obtain ⟨hfollows, hmaybe⟩ := h.follows.onlyTemp ht hes
  obtain ⟨htables, hlog⟩ := Disk.run_onlyTemp ht hes d
  exact h.aside hfollows hmaybe htables (by rw [Disk.logBytes, hlog]; rfl)

/-- The log takes a batch, or a beginning of it. -/
theorem Secure.write (h : Secure old base last limbo m d ms lo) (hwhole : Whole d.logBytes)
    {batch : List Mutation} (hbatch : ∀ m ∈ batch, m.Fits) (ts : Int64) (n : Nat) :
    Secure old base last limbo (m.after [.write .log ((Wal.batchBytes batch ts).take n)])
      (d.apply (.write .log ((Wal.batchBytes batch ts).take n)))
      (ms ++ batch.take (wholeRecords batch ts n)) lo := by
  obtain ⟨hfollows, hmaybe⟩ := h.follows.write ((Wal.batchBytes batch ts).take n)
  refine ⟨hfollows, h.files, ?_, fun key => ?_, fun seq file key hlimbo hfind hnone => ?_,
    fun data hdata d'' hthin => ?_⟩
  · rw [List.length_append]
    exact Nat.le_add_right_of_le h.le
  · have htables : (d.apply (.write .log ((Wal.batchBytes batch ts).take n))).tables =
        d.tables := rfl
    have hlog : (d.apply (.write .log ((Wal.batchBytes batch ts).take n))).logBytes =
        d.logBytes ++ (Wal.batchBytes batch ts).take n := rfl
    rw [find_torn hwhole htables hbatch hlog, List.foldl_append]
    exact RefMap.foldl_same _ h.all key
  · refine h.covered seq file key hlimbo hfind ?_
    have hlog : logFind (d.logBytes ++ (Wal.batchBytes batch ts).take n) key = none := hnone
    rw [logFind_append hwhole] at hlog
    exact (Option.or_eq_none_iff.mp hlog).2
  · rcases hmaybe data hdata with hpast | ⟨k, rfl⟩
    · exact (h.shown data hpast d'' hthin).append _
    · -- What landed reads as the records that landed whole.
      have hle := wholeRecords_mono batch ts (Nat.min_le_right k n)
      have hrecords := h.all.records (batch.take (wholeRecords batch ts n)) ts h.le
        (wholeRecords batch ts (min k n))
      rw [List.take_take, Nat.min_eq_left hle] at hrecords
      refine (hrecords.congr fun key => ?_).since
      rw [List.take_take, logFind_append hwhole, Option.or_assoc, h.find_thinned hthin, logFind,
        recordsOf_batch_take hbatch]

/-- The log is synced. -/
theorem Secure.sync (h : Secure old base last limbo m d ms lo) :
    Secure old base last limbo (m.after [.fsync .log true]) d ms ms.length := by
  obtain ⟨hfollows, hmaybe⟩ := h.follows.sync
  refine ⟨hfollows, h.files, Nat.le_refl _, h.all, h.covered, fun data hdata d'' hthin => ?_⟩
  rw [hmaybe] at hdata
  rw [List.mem_singleton.mp hdata]
  refine ShowsAll.since (fun key => ?_) (Nat.le_refl _)
  rw [h.find_thinned hthin]
  exact h.all key

/-- The log is cut where its last record ends. -/
theorem Secure.trimmed (h : Secure old base last limbo m d ms lo) {n : Nat}
    (hcut : recordsOf (d.logBytes.take n) = recordsOf d.logBytes) :
    Secure old base last limbo (m.after [.ftruncate .log n]) (d.apply (.ftruncate .log n)) ms
      lo := by
  have hlog : logFind (d.logBytes.take n) = logFind d.logBytes :=
    funext fun key => by rw [logFind, hcut, logFind]
  obtain ⟨hfollows, hmaybe⟩ := h.follows.cut n
  refine ⟨hfollows, h.files, h.le, fun key => ?_, fun seq file key hlimbo hfind hnone => ?_,
    fun data hdata d'' hthin => ?_⟩
  · show SameFrom _ _ ((logFind (d.logBytes.take n) key).or _) _
    rw [hlog]
    exact h.all key
  · refine h.covered seq file key hlimbo hfind ?_
    rw [← hlog]
    exact hnone
  · rcases hmaybe data hdata with hpast | rfl
    · exact h.shown data hpast d'' hthin
    · refine ShowsAll.since (fun key => ?_) h.le
      rw [hlog, h.find_thinned hthin]
      exact h.all key

/-- The log is emptied, where no table is in limbo and the tables show
everything. -/
theorem Secure.emptied (h : Secure old base last (fun _ => False) m d ms lo)
    (htables : ShowsAll base last ms (tablesFind d.newestFirst)) :
    Secure old base last (fun _ => False) (m.after [.ftruncate .log 0])
      (d.apply (.ftruncate .log 0)) ms lo := by
  obtain ⟨hfollows, hmaybe⟩ := h.follows.cut 0
  refine ⟨hfollows, h.files, h.le, fun key => ?_, fun _ _ _ hlimbo => hlimbo.elim,
    fun data hdata d'' hthin => ?_⟩
  · rw [Disk.find, show (d.apply (.ftruncate .log 0)).logBytes = [] from rfl, logFind_nil,
      Option.none_or]
    exact htables key
  · rcases hmaybe data hdata with hpast | rfl
    · exact h.shown data hpast d'' hthin
    · refine ShowsAll.since (fun key => ?_) h.le
      have hn : d''.newestFirst = d.newestFirst := newestFirst_congr hthin.whole
      rw [List.take_zero, logFind_nil, Option.none_or, hn]
      exact htables key

/-- The directory is synced. -/
theorem Secure.syncDir (h : Secure old base last limbo m d ms lo) :
    Secure old base last (fun _ => False) (m.after [.fsyncDir true]) d ms lo := by
  obtain ⟨hfollows, hmaybe⟩ := h.follows.syncDir
  refine ⟨hfollows, h.files, h.le, h.all, fun _ _ _ hlimbo => hlimbo.elim, ?_⟩
  rw [hmaybe]
  exact fun data hdata d'' hthin => h.shown data hdata d'' fun seq => .inl (by rw [hthin.whole])

/-- A table of the memtable gets its name. The log still has everything that is
in it. -/
theorem Secure.renamed (h : Secure old base last limbo m d ms lo) {file : Bytes} {mt : Memtable}
    {next : Nat} (hview : m.view .flushTmp = some (Inode.rest file))
    (hfile : FileHolds file mt.entries.entries) (hbelow : ∀ p ∈ d.newestFirst, p.1 < next)
    (hknown : ∀ key, logFind d.logBytes key = none → mt.find key = none)
    (hall : ShowsAll base last ms fun key => (mt.find key).or (tablesFind d.newestFirst key))
    (ht : d'.tables = d.tables.insert next file) (hl : d'.log = d.log) :
    Secure old base last (fun k => k = next ∨ limbo k)
      (m.after [.rename .flushTmp (.table next)]) d' ms lo := by
  have hnew : d.tables.find next = none := by
    rw [SortedMap.find, SortedMap.findIn_eq_none_iff]
    exact fun p hp => Nat.ne_of_lt (hbelow p (List.mem_reverse.mpr hp))
  have hlog : d'.logBytes = d.logBytes := by rw [Disk.logBytes, hl]; rfl
  have hunknown : ∀ key, logFind d.logBytes key = none → fileFind file key = none := by
    intro key hnone
    have hmt : SortedMap.findIn key mt.entries.entries = none := hknown key hnone
    rw [hfile.find, hmt]
    rfl
  have htop := newestFirst_top hbelow ht
  obtain ⟨hfollows, hmaybe⟩ := h.follows.renamed hview hnew ht hl
  refine ⟨hfollows, ?_, h.le, fun key => ?_, fun seq file' key hlimbo hfind hnone => ?_,
    fun data hdata d'' hthin => ?_⟩
  · intro p hp
    rw [htop] at hp
    rcases List.mem_cons.mp hp with rfl | hp
    · exact ⟨_, hfile⟩
    · exact h.files p hp
  · have hkey := h.all key
    rw [Disk.find] at hkey ⊢
    rw [hlog, htop, tablesFind_cons]
    cases hlogged : logFind d.logBytes key with
    | some e =>
        rw [hlogged] at hkey
        exact hkey
    | none =>
        rw [hlogged] at hkey
        rw [hunknown key hlogged, Option.none_or]
        exact hkey
  · rw [hlog] at hnone
    rw [ht, SortedMap.find_insert] at hfind
    split at hfind
    · rw [← Option.some.inj hfind]
      exact hunknown key hnone
    · next hne => exact h.covered seq file' key (hlimbo.resolve_left hne) hfind hnone
  · rw [hmaybe] at hdata
    have hrest := h.shown data hdata _ (hthin.erase hnew ht)
    cases hfound : d''.tables.find next with
    | none =>
        have hsame : d''.tables.erase next = d''.tables := by
          refine SortedMap.ext_find fun k => ?_
          rw [SortedMap.find_erase]
          split
          · next heq => rw [heq, hfound]
          · rfl
        rw [hsame] at hrest
        exact hrest
    | some file' =>
        have hfile' : file' = file := by
          have hnext := hthin next
          rw [hfound, ht, SortedMap.find_insert, if_pos rfl] at hnext
          exact Option.some.inj (hnext.resolve_right fun hlimbo => by cases hlimbo.2)
        subst hfile'
        -- The table is found: a key the log does not know shows the latest.
        have hinsert : d''.tables = (d''.tables.erase next).insert next file' := by
          refine SortedMap.ext_find fun k => ?_
          rw [SortedMap.find_insert, SortedMap.find_erase]
          split
          · next heq => rw [heq, hfound]
          · rfl
        have hbelow' : ∀ p ∈ Disk.newestFirst { d'' with tables := d''.tables.erase next },
            p.1 < next := by
          rw [(hthin.erase hnew ht).newestFirst]
          exact fun p hp => hbelow p (List.mem_filter.mp hp).1
        intro key
        have hkey := hrest key
        beta_reduce at hkey ⊢
        rw [newestFirst_top hbelow' hinsert, tablesFind_cons]
        cases hlogged : logFind data key with
        | some e =>
            rw [hlogged] at hkey
            exact hkey
        | none =>
            rw [hlogged, Option.none_or] at hkey
            rw [Option.none_or]
            cases hknows : fileFind file' key with
            | none => rwa [Option.none_or]
            | some e =>
                right
                refine ⟨ms.length, h.le, Nat.le_refl _, ?_⟩
                have hlatest := hall key
                rw [hfile.find] at hknows
                obtain ⟨e', he', rfl⟩ := Option.map_eq_some_iff.mp hknows
                have hmt : mt.find key = some e' := he'
                beta_reduce at hlatest
                rw [hmt] at hlatest
                rw [List.take_length]
                exact (alike_settled (some e')).2.trans hlatest

end Secure

end Cachedb
