import Cachedb.Proofs.LogReplay
import Cachedb.Proofs.StoreSteps

/-!
# What a restart finds

A data directory says something about every key all by itself: the last record
of its log, or else what the newest of its tables knows. `Disk.find` is that,
and `startup_spec` says that the store which the startup sequence builds on a
directory of well-formed tables answers exactly so. A claim about recovery is
then a claim about what the calls made on a directory do to `Disk.find`.
-/

namespace Cachedb

open KMerge

/-! ## Table files -/

/-- A table file that opens, under any name, to a table with these entries. -/
def FileHolds (file : Bytes) (es : List (Bytes × Entry)) : Prop :=
  ∀ path useBloom, ∃ t, openTable path file useBloom = some t ∧ t.Holds es

theorem fileHolds_writeTable {bits : Int} {es : List (Bytes × Entry)} {file : Bytes}
    (hs : SortedMap.KeysSorted es) (hfit : ∀ p ∈ es, EntryFits p)
    (h : TableWritten bits es file) : FileHolds file es := by
  intro path useBloom
  obtain ⟨t, ht, hholds, _⟩ := openTable_writeTable hs hfit h path useBloom
  exact ⟨t, ht, hholds⟩

/-- The file a flush writes holds the memtable. -/
theorem Store.Sane.fileHolds {s : Store} (h : s.Sane) {file : Bytes}
    (hfile : TableWritten s.options.bloomBitsPerKey s.memtable.entries.entries file) :
    FileHolds file s.memtable.entries.entries :=
  fileHolds_writeTable s.memtable.entries.sorted h.entries_fit hfile

theorem FileHolds.holds {file : Bytes} {es : List (Bytes × Entry)} (h : FileHolds file es)
    {path : FileName} {useBloom : Bool} {t : Sstable}
    (ht : openTable path file useBloom = some t) : t.Holds es := by
  obtain ⟨t', ht', hholds⟩ := h path useBloom
  rw [ht] at ht'
  rw [Option.some.inj ht']
  exact hholds

/-- What a table file knows about a key. -/
def fileFind (file : Bytes) (key : Bytes) : Option Entry :=
  (openTable (.table 0) file false).bind fun t => t.get key

theorem FileHolds.find {file : Bytes} {es : List (Bytes × Entry)} (h : FileHolds file es)
    (key : Bytes) : fileFind file key = (SortedMap.findIn key es).map Entry.settled := by
  obtain ⟨t, ht, hholds⟩ := h (.table 0) false
  rw [fileFind, ht, Option.bind_some, hholds.get key]

/-- An open table answers as its file does. -/
theorem FileHolds.get {file : Bytes} {es : List (Bytes × Entry)} (h : FileHolds file es)
    {path : FileName} {useBloom : Bool} {t : Sstable}
    (ht : openTable path file useBloom = some t) (key : Bytes) :
    t.get key = fileFind file key := by
  rw [(h.holds ht).get, h.find]

/-- The file of an open table. -/
theorem openTable_fields {path : FileName} {file : Bytes} {useBloom : Bool} {t : Sstable}
    (h : openTable path file useBloom = some t) : t.path = path ∧ t.file = file := by
  unfold openTable at h
  split at h
  · cases h
  · simp only [] at h
    split at h
    · cases h
    · split at h
      · cases h
      · split at h
        · cases h
        · split at h
          · cases h
          · split at h
            · cases h
            · split at h
              · cases h
              · cases h; exact ⟨rfl, rfl⟩

/-! ## Numbered tables, newest first -/

def tablesFind (ps : List (Nat × Bytes)) (key : Bytes) : Option Entry :=
  ps.findSome? fun p => fileFind p.2 key

@[simp] theorem tablesFind_nil (key : Bytes) : tablesFind [] key = none := rfl

theorem tablesFind_cons (p : Nat × Bytes) (ps : List (Nat × Bytes)) (key : Bytes) :
    tablesFind (p :: ps) key = (fileFind p.2 key).or (tablesFind ps key) := by
  rw [tablesFind, List.findSome?_cons, tablesFind]
  cases fileFind p.2 key <;> rfl

theorem tablesFind_append (ps qs : List (Nat × Bytes)) (key : Bytes) :
    tablesFind (ps ++ qs) key = (tablesFind ps key).or (tablesFind qs key) := by
  rw [tablesFind, List.findSome?_append]
  rfl

/-- Every file among them is a table. -/
def TablesSane (ps : List (Nat × Bytes)) : Prop := ∀ p ∈ ps, ∃ es, FileHolds p.2 es

/-- `t` was opened from this file. -/
def OpenedFrom (useBloom : Bool) (p : Nat × Bytes) (t : Sstable) : Prop :=
  openTable (.table p.1) p.2 useBloom = some t

theorem mapM_openTable (useBloom : Bool) :
    ∀ {ps : List (Nat × Bytes)}, TablesSane ps →
      ∃ ts, (ps.mapM fun p => openTable (.table p.1) p.2 useBloom) = some ts ∧
        List.Forall₂ (OpenedFrom useBloom) ps ts := by
  intro ps
  induction ps with
  | nil => intro _; exact ⟨[], rfl, .nil⟩
  | cons p ps ih =>
      intro h
      obtain ⟨es, hes⟩ := h p List.mem_cons_self
      obtain ⟨t, ht, _⟩ := hes (.table p.1) useBloom
      obtain ⟨ts, hts, hall⟩ := ih fun q hq => h q (List.mem_cons_of_mem _ hq)
      refine ⟨t :: ts, ?_, .cons ht hall⟩
      rw [List.mapM_cons, ht, hts]
      rfl

/-- Tables opened from well-formed files hold entries, and answer as the files
do. -/
theorem opened_holds {useBloom : Bool} {ps : List (Nat × Bytes)} {ts : List Sstable}
    (h : List.Forall₂ (OpenedFrom useBloom) ps ts) (hs : TablesSane ps) :
    (∃ ess, List.Forall₂ Sstable.Holds ts ess) ∧
      ∀ key, (ts.findSome? fun t => t.get key) = tablesFind ps key := by
  induction h with
  | nil => exact ⟨⟨[], .nil⟩, fun _ => rfl⟩
  | @cons p t ps ts hpt _ ih =>
      obtain ⟨es, hes⟩ := hs p List.mem_cons_self
      obtain ⟨⟨ess, hess⟩, hfind⟩ := ih fun q hq => hs q (List.mem_cons_of_mem _ hq)
      refine ⟨⟨es :: ess, .cons (hes.holds hpt) hess⟩, fun key => ?_⟩
      rw [List.findSome?_cons, hes.get hpt, tablesFind_cons, hfind key]
      cases fileFind p.2 key <;> rfl

/-! ## Records -/

/-- What a record leaves in the memtable. -/
def Record.entry (r : Record) : Entry :=
  match r.op with
  | .kSet => { value := r.value, tombstone := false, expiresAtMs := r.expiresAtMs }
  | .kDelete => Memtable.deleted

theorem Memtable.find_applyRecord (m : Memtable) (r : Record) (k : Bytes) :
    (m.applyRecord r).find k = if k = r.key then some r.entry else m.find k := by
  unfold Memtable.applyRecord Record.entry
  cases r.op with
  | kSet => exact m.find_set _ _ _ k
  | kDelete => exact m.find_del _ k

/-- What replaying these records into an empty memtable leaves under a key. -/
def recordsFind (rs : List Record) (key : Bytes) : Option Entry :=
  (rs.foldl Memtable.applyRecord {}).find key

/-- Replay puts its records over what was there. -/
theorem Memtable.find_foldl (rs : List Record) (m : Memtable) (key : Bytes) :
    (rs.foldl Memtable.applyRecord m).find key = (recordsFind rs key).or (m.find key) := by
  rw [recordsFind]
  induction rs generalizing m with
  | nil => rfl
  | cons r rs ih =>
      rw [List.foldl_cons, List.foldl_cons, ih, ih (Memtable.applyRecord {} r),
        Memtable.find_applyRecord, Memtable.find_applyRecord, Option.or_assoc]
      split <;> rfl

theorem recordsFind_cons (r : Record) (rs : List Record) (key : Bytes) :
    recordsFind (r :: rs) key =
      (recordsFind rs key).or (if key = r.key then some r.entry else none) := by
  rw [recordsFind, List.foldl_cons, Memtable.find_foldl, Memtable.find_applyRecord]
  rfl

theorem recordsFind_append (rs rs' : List Record) (key : Bytes) :
    recordsFind (rs ++ rs') key = (recordsFind rs' key).or (recordsFind rs key) := by
  rw [recordsFind, List.foldl_append, Memtable.find_foldl]
  rfl

/-- A record that replays fits the table format. -/
theorem recordsOf_fits {data : Bytes} :
    ∀ r ∈ recordsOf data, r.key.length < 2 ^ 32 ∧ r.value.length < 2 ^ 32 := by
  obtain ⟨len, hlen⟩ : ∃ len, data.length = len := ⟨_, rfl⟩
  induction len using Nat.strongRecOn generalizing data with
  | ind len ih =>
      intro r hr
      rw [recordsOf_eq] at hr
      cases hd : decodeRecord data with
      | incomplete => rw [hd] at hr; cases hr
      | corrupt => rw [hd] at hr; cases hr
      | ok n r' =>
          rw [hd] at hr
          obtain ⟨hlo, hhi⟩ := decodeRecord_ok_bounds hd
          have hsize : kRecordHeaderSize = 21 := rfl
          rcases List.mem_cons.mp hr with rfl | hr
          · rw [← (decodeRecord_ok_header hd).2]
            exact headerRecord_fits data
          · exact ih (data.drop n).length (by rw [List.length_drop]; omega) rfl r hr

theorem recordsFind_fits {rs : List Record}
    (h : ∀ r ∈ rs, r.key.length < 2 ^ 32 ∧ r.value.length < 2 ^ 32) {k : Bytes} {e : Entry}
    (he : recordsFind rs k = some e) : EntryFits (k, e) := by
  induction rs with
  | nil => cases he
  | cons r rs ih =>
      rw [recordsFind_cons, Option.or_eq_some_iff] at he
      rcases he with he | ⟨_, he⟩
      · exact ih (fun r' hr' => h r' (List.mem_cons_of_mem _ hr')) he
      · split at he
        · next hk =>
            obtain ⟨hkey, hvalue⟩ := h r List.mem_cons_self
            rw [← Option.some.inj he, hk]
            refine ⟨hkey, ?_⟩
            unfold Record.entry
            cases r.op with
            | kSet => exact hvalue
            | kDelete => exact Nat.two_pow_pos 32
        · cases he

/-- What a log says about a key. -/
def logFind (data : Bytes) (key : Bytes) : Option Entry := recordsFind (recordsOf data) key

@[simp] theorem logFind_nil (key : Bytes) : logFind [] key = none := by
  rw [logFind, recordsOf_nil]
  rfl

theorem logFind_append {data : Bytes} (h : Whole data) (rest key : Bytes) :
    logFind (data ++ rest) key = (logFind rest key).or (logFind data key) := by
  rw [logFind, (h.replay_append rest).1, recordsFind_append]
  rfl

/-! ## Directories -/

/-- The tables of a directory, newest first. -/
def Disk.newestFirst (d : Disk) : List (Nat × Bytes) := d.tables.entries.reverse

theorem newestFirst_congr {d d' : Disk} (h : d'.tables = d.tables) :
    d'.newestFirst = d.newestFirst := by
  rw [Disk.newestFirst, h]
  rfl

/-- Every numbered file is a table. -/
def Disk.Sane (d : Disk) : Prop := TablesSane d.newestFirst

/-- A number is left for the table after this one: `next_sequence_` has 64 bits,
and behind the last of them it is 0 again. -/
def NumberLeft (seq : Nat) : Prop := seq + 1 < 2 ^ 64

instance : DecidablePred NumberLeft := fun seq => Nat.decLt (seq + 1) _

def FileName.NumberLeft : FileName → Prop
  | .table seq => Cachedb.NumberLeft seq
  | _ => True

/-- The name this call may have brought into the directory. -/
def Event.NumberLeft : Event → Prop
  | .openTrunc file => file.NumberLeft
  | .openAppend file => file.NumberLeft
  | .write file _ => file.NumberLeft
  | .ftruncate file _ => file.NumberLeft
  | .rename _ dst => dst.NumberLeft
  | _ => True

instance : DecidablePred FileName.NumberLeft := fun file => by
  unfold FileName.NumberLeft
  split <;> infer_instance

instance : DecidablePred Event.NumberLeft := fun e => by
  unfold Event.NumberLeft
  split <;> infer_instance

/-- Behind every number that these calls give to a table one is left. -/
def NumbersLeft (es : List Event) : Prop := ∀ e ∈ es, e.NumberLeft

instance (es : List Event) : Decidable (NumbersLeft es) :=
  inferInstanceAs (Decidable (∀ e ∈ es, e.NumberLeft))

theorem numbersLeft_append {es es' : List Event} :
    NumbersLeft (es ++ es') ↔ NumbersLeft es ∧ NumbersLeft es' := List.forall_mem_append

theorem numbersLeft_cons {e : Event} {es : List Event} :
    NumbersLeft (e :: es) ↔ e.NumberLeft ∧ NumbersLeft es := List.forall_mem_cons

theorem NumbersLeft.behind {es es' : List Event} {e : Event} (h : NumbersLeft (es ++ e :: es')) :
    NumbersLeft es' :=
  (numbersLeft_cons.mp (numbersLeft_append.mp h).2).2

def Disk.NumbersLeft (d : Disk) : Prop := ∀ p ∈ d.newestFirst, NumberLeft p.1

theorem Disk.NumbersLeft.put {d : Disk} (h : d.NumbersLeft) {file : FileName}
    (hfile : file.NumberLeft) (data : Bytes) : (d.put file data).NumbersLeft := by
  cases file with
  | table seq =>
      intro p hp
      rcases SortedMap.mem_insertIn (List.mem_reverse.mp hp) with rfl | hp
      · exact hfile
      · exact h p (List.mem_reverse.mpr hp)
  | _ => exact h

theorem Disk.NumbersLeft.remove {d : Disk} (h : d.NumbersLeft) (file : FileName) :
    (d.remove file).NumbersLeft := by
  cases file with
  | table seq =>
      intro p hp
      exact h p (List.mem_reverse.mpr (List.mem_filter.mp (List.mem_reverse.mp hp)).1)
  | _ => exact h

theorem Disk.NumbersLeft.run {es : List Event} (hes : Cachedb.NumbersLeft es) :
    ∀ {d : Disk}, d.NumbersLeft → (d.run es).NumbersLeft := by
  induction es with
  | nil => exact fun h => h
  | cons e es ih =>
      intro d h
      obtain ⟨he, hes⟩ := numbersLeft_cons.mp hes
      refine ih hes ?_
      cases e with
      | openTrunc file => exact h.put he _
      | openAppend file => exact h.put he _
      | write file data => exact h.put he _
      | ftruncate file length => exact h.put he _
      | rename src dst =>
          rw [Disk.apply]
          split
          · exact (h.remove src).put he _
          · exact h
      | unlink file => exact h.remove file
      | _ => exact h

/-- What the directory says about a key. -/
def Disk.find (d : Disk) (key : Bytes) : Option Entry :=
  (logFind d.logBytes key).or (tablesFind d.newestFirst key)

/-- What a restart shows of a key. -/
def Disk.lookup (d : Disk) (t : Int64) (key : Bytes) : Option Found :=
  (d.find key).bind (Entry.view t)

theorem foldl_apply (rs : List Record) (s : Store) :
    rs.foldl Store.apply s =
      { s with memtable := rs.foldl Memtable.applyRecord s.memtable } := by
  induction rs generalizing s with
  | nil => rfl
  | cons r rs ih => rw [List.foldl_cons, ih, List.foldl_cons]; rfl

/-- The startup sequence, in terms of the directory: what the store answers,
what it was opened from, and what it leaves of the directory. -/
structure Started (cfg : Config) (d : Disk) (o : Outcome Unit) : Prop where
  find : ∀ key, o.store.find key = d.find key
  sane : o.store.Sane
  options : o.store.options = cfg.options
  opened : List.Forall₂ (OpenedFrom cfg.options.useBloom) d.newestFirst o.store.sstables
  next : d.NumbersLeft → ∀ p ∈ d.newestFirst, p.1 < o.store.nextSequence
  next_lt : o.store.nextSequence < 2 ^ 64
  memtable : ∀ key, o.store.memtable.find key = logFind d.logBytes key
  wal : ∃ w, o.store.wal = some w ∧ w.policy = cfg.policy ∧ w.groupCommit = cfg.groupCommit ∧
    w.bytesSinceSync = 0
  tables : (d.run o.events).tables = d.tables
  log : ∃ data, (d.run o.events).log = some data ∧ Whole data ∧
    recordsOf data = recordsOf d.logBytes

/-- Recovery leaves of the log what replayed. -/
theorem recover_logBytes (d : Disk) (s : Store) :
    (d.run (s.recover d).events).logBytes = d.logBytes.take (replay d.logBytes).goodBytes := by
  rw [Store.recover]
  simp only []
  split
  · rfl
  · next hcut =>
      have hge : ¬(replay d.logBytes).goodBytes < d.logBytes.length := by
        simpa [replay] using hcut
      exact (List.take_of_length_le (Nat.not_lt.mp hge)).symm

theorem recover_log (d : Disk) (s : Store) :
    (d.run (s.recover d).events).tables = d.tables ∧
      Whole ((d.run (s.recover d).events).logBytes) ∧
      recordsOf ((d.run (s.recover d).events).logBytes) = recordsOf d.logBytes := by
  refine ⟨?_, ?_⟩
  · rw [Store.recover]
    simp only []
    split <;> rfl
  · rw [recover_logBytes]
    exact replay_take_good d.logBytes

/-- Mutations encoded one behind the other, and any beginning of one more:
replay delivers the mutations as they were logged, a stamp only on a `kSet`,
and leaves the log cut behind the last whole record. -/
theorem log_round_trip (ms : List (Mutation × Int64)) (hms : ∀ p ∈ ms, p.1.Fits) (m : Mutation)
    (hm : m.Fits) (ts : Int64) (torn more : Bytes) (hmore : more ≠ [])
    (htorn : torn ++ more = encodeRecord m ts) (s : Store) (d : Disk)
    (hlog : d.log = some (encodeAll ms ++ torn)) :
    (replay d.logBytes).records = (ms.map fun p =>
        { op := p.1.op, timestampMs := p.2
          expiresAtMs := if p.1.op = .kSet then p.1.expiresAtMs else 0
          key := p.1.key, value := p.1.value }) ∧
      (replay d.logBytes).goodBytes = (encodeAll ms).length ∧
      ((replay d.logBytes).truncated = true ↔ torn ≠ []) ∧
      (d.run (s.recover d).events).log = some (encodeAll ms) := by
  have hbytes : d.logBytes = encodeAll ms ++ torn := by rw [Disk.logBytes, hlog]; rfl
  have hcut : torn = (encodeRecord m ts).take torn.length := by
    rw [← htorn, List.take_left]
  have hlt : torn.length < (encodeRecord m ts).length := by
    have := List.length_pos_iff.mpr hmore
    rw [← htorn, List.length_append]
    omega
  obtain ⟨hnone, hzero⟩ := replay_torn hm hlt
  rw [← hcut] at hnone hzero
  have hgood : (replay d.logBytes).goodBytes = (encodeAll ms).length := by
    rw [hbytes, goodBytes_encodeAll hms, hzero, Nat.add_zero]
  have htruncated : (replay d.logBytes).truncated = true ↔ torn ≠ [] := by
    show decide ((replay d.logBytes).goodBytes < d.logBytes.length) = true ↔ _
    rw [hgood, hbytes, List.length_append, decide_eq_true_iff, ← List.length_pos_iff]
    omega
  refine ⟨?_, hgood, htruncated, ?_⟩
  · have hrecords := recordsOf_encodeAll hms torn
    rw [hnone, List.append_nil, ← hbytes] at hrecords
    exact hrecords
  · rw [Store.recover]
    simp only []
    split
    · show some (d.logBytes.take (replay d.logBytes).goodBytes) = _
      rw [hgood, hbytes, List.take_left]
    · next hwhole =>
        have hnil : torn = [] := not_not.mp fun h => hwhole (htruncated.mpr h)
        rw [Disk.run_nil, hlog, hnil, List.append_nil]

/-- A SET that expired long ago, a DEL that was handed a stamp, and nine bytes
of a third record. -/
theorem log_round_trip_nine :
    (replay ((encodeAll [({ op := .kSet, key := [1], value := [7], expiresAtMs := -5 }, 3),
        ({ op := .kDelete, key := [1], expiresAtMs := 9 }, 4)]) ++
      (encodeRecord { op := .kSet, key := [2] } 5).take 9)).records =
    [{ op := .kSet, timestampMs := 3, expiresAtMs := -5, key := [1], value := [7] },
      { op := .kDelete, timestampMs := 4, expiresAtMs := 0, key := [1], value := [] }] := by
  have h := log_round_trip [({ op := .kSet, key := [1], value := [7], expiresAtMs := -5 }, 3),
    ({ op := .kDelete, key := [1], expiresAtMs := 9 }, 4)] (by decide)
    { op := .kSet, key := [2] } (by decide) 5 _
    ((encodeRecord { op := .kSet, key := [2] } 5).drop 9) (by decide)
    (List.take_append_drop 9 _) {} { log := some _ } rfl
  exact h.1

/-- Numbers of tables lie below the one after the newest. -/
theorem newestFirst_lt {d : Disk} {p : Nat × Bytes} {ps : List (Nat × Bytes)}
    (h : d.newestFirst = p :: ps) : ∀ q ∈ p :: ps, q.1 < p.1 + 1 := by
  have hsorted : SortedMap.KeysSorted (ps.reverse ++ [p]) := by
    rw [← List.reverse_cons, ← h, Disk.newestFirst, List.reverse_reverse]
    exact d.tables.sorted
  intro q hq
  rcases List.mem_cons.mp hq with rfl | hq
  · exact Nat.lt_succ_self _
  · have := (SortedMap.keysSorted_append.mp hsorted).2.2 q (List.mem_reverse.mpr hq) p
      List.mem_cons_self
    omega

theorem openDir_spec {d : Disk} {ts : List Sstable} (options : StoreOptions)
    (hdir : options.hasDir = true)
    (hts : (d.newestFirst.mapM fun p => openTable (.table p.1) p.2 options.useBloom) = some ts) :
    ∃ next, (d.NumbersLeft → ∀ p ∈ d.newestFirst, p.1 < next) ∧ next < 2 ^ 64 ∧
      Store.openDir options d = some {
        ret := ()
        store := { options, sstables := ts, nextSequence := next }
        events := [.unlink .compactTmp, .unlink .flushTmp] } := by
  rw [Disk.NumbersLeft]
  rw [Disk.newestFirst] at hts ⊢
  rw [Store.openDir, if_neg (by rw [hdir]; decide)]
  simp only [hts]
  cases h : d.tables.entries.reverse with
  | nil => exact ⟨1, fun _ => List.forall_mem_nil _, by decide, rfl⟩
  | cons p ps =>
      refine ⟨(p.1 + 1) % 2 ^ 64, fun hleft => ?_, Nat.mod_lt _ (Nat.two_pow_pos 64), rfl⟩
      rw [Nat.mod_eq_of_lt (hleft p List.mem_cons_self)]
      exact newestFirst_lt h

theorem startup_spec {d : Disk} (hd : d.Sane) (cfg : Config) (hdir : cfg.options.hasDir = true)
    (now : Reading) : ∃ o, startup cfg d now = some o ∧ Started cfg d o := by
  obtain ⟨ts, hts, hopened⟩ := mapM_openTable cfg.options.useBloom hd
  obtain ⟨htables, hfind⟩ := opened_holds hopened hd
  obtain ⟨next, hnext, hnext_lt, hopen⟩ := openDir_spec cfg.options hdir hts
  obtain ⟨d', hd'⟩ : ∃ d', d.run [.unlink .compactTmp, .unlink .flushTmp] = d' := ⟨_, rfl⟩
  have hlog : d'.logBytes = d.logBytes := by rw [← hd']; rfl
  have hsame : d'.tables = d.tables := by rw [← hd']; rfl
  obtain ⟨hrt, hrw, hrr⟩ :=
    recover_log d' { options := cfg.options, sstables := ts, nextSequence := next }
  rw [startup, hopen]
  simp only [hd', Disk.run_append]
  obtain ⟨rec, hrec⟩ : ∃ r, Store.recover
    { options := cfg.options, sstables := ts, nextSequence := next } d' = r := ⟨_, rfl⟩
  rw [hrec] at hrt hrw hrr ⊢
  have hstore : rec.store =
      { options := cfg.options, sstables := ts, nextSequence := next
        memtable := (recordsOf d.logBytes).foldl Memtable.applyRecord {} } := by
    rw [← hrec, Store.recover, ← hlog]
    exact foldl_apply _ _
  have hmem : ∀ key, rec.store.memtable.find key = logFind d.logBytes key := by
    intro key; rw [hstore]; rfl
  refine ⟨_, rfl, ⟨?_, ⟨?_, ?_⟩, ?_, ?_, ?_, ?_, hmem, ⟨_, rfl, rfl, rfl, rfl⟩, ?_, ?_⟩⟩
  · intro key
    show (rec.store.memtable.find key).or (rec.store.sstables.findSome? fun t => t.get key) = _
    rw [hmem, hstore, hfind key]
    rfl
  · show ∃ ess, List.Forall₂ Sstable.Holds rec.store.sstables ess
    rw [hstore]
    exact htables
  · intro k e he
    have he : rec.store.memtable.find k = some e := he
    rw [hmem, logFind] at he
    exact recordsFind_fits recordsOf_fits he
  · show rec.store.options = _
    rw [hstore]
  · show List.Forall₂ _ _ rec.store.sstables
    rw [hstore]
    exact hopened
  · show d.NumbersLeft → ∀ p ∈ d.newestFirst, p.1 < rec.store.nextSequence
    rw [hstore]
    exact hnext
  · show rec.store.nextSequence < 2 ^ 64
    rw [hstore]
    exact hnext_lt
  · show (d.run (_ ++ rec.events ++ [.openAppend .log])).tables = d.tables
    rw [Disk.run_append, Disk.run_append, hd']
    show (d'.run rec.events).tables = d.tables
    rw [hrt, hsame]
  · refine ⟨(d'.run rec.events).logBytes, ?_, hrw, by rw [hrr, hlog]⟩
    show (d.run (_ ++ rec.events ++ [.openAppend .log])).log = _
    rw [Disk.run_append, Disk.run_append, hd']
    rfl

/-! ## Replacing and removing tables -/

theorem newestFirst_pairwise (d : Disk) :
    d.newestFirst.Pairwise fun p q => q.1 < p.1 := by
  rw [Disk.newestFirst, List.pairwise_reverse]
  exact List.pairwise_map.mp d.tables.sorted

/-- The tables of a directory above a number, up to it, and below it. -/
def Disk.above (d : Disk) (seq : Nat) : List (Nat × Bytes) := d.newestFirst.filter (seq < ·.1)

def Disk.upTo (d : Disk) (seq : Nat) : List (Nat × Bytes) := d.newestFirst.filter (·.1 ≤ seq)

def Disk.below (d : Disk) (seq : Nat) : List (Nat × Bytes) := d.newestFirst.filter (·.1 < seq)

theorem Disk.above_append_upTo (d : Disk) (seq : Nat) :
    d.above seq ++ d.upTo seq = d.newestFirst := by
  rw [Disk.above, Disk.upTo]
  have hpairs := newestFirst_pairwise d
  generalize d.newestFirst = ps at hpairs
  induction hpairs with
  | nil => rfl
  | @cons p ps hp _ ih =>
      by_cases h : seq < p.1
      · rw [List.filter_cons_of_pos (by simpa using h), List.filter_cons_of_neg (by simpa using h),
          List.cons_append, ih]
      · have hle := Nat.not_lt.mp h
        rw [List.filter_cons_of_neg (by simpa using h),
          List.filter_cons_of_pos (by simpa using hle),
          List.filter_eq_nil_iff.mpr fun q hq => by have := hp q hq; simp; omega,
          List.filter_eq_self.mpr fun q hq => by have := hp q hq; simp; omega]
        rfl

/-- A table put under a number, whether or not it was taken. -/
theorem newestFirst_put {d d' : Disk} {seq : Nat} {file : Bytes}
    (ht : d'.tables = d.tables.insert seq file) :
    d'.newestFirst = d.above seq ++ (seq, file) :: d.below seq := by
  rw [Disk.newestFirst, ht]
  show (SortedMap.insertIn seq file d.tables.entries).reverse = _
  rw [SortedMap.insertIn_eq_filter d.tables.sorted, List.reverse_append, List.reverse_cons,
    ← List.filter_reverse, ← List.filter_reverse, List.append_assoc]
  rfl

/-- Calls that take numbered tables away, and sync the directory. -/
def Event.Removes (seqs : List Nat) : Event → Prop
  | .unlink file => file ∈ seqs.map FileName.table
  | .fsyncDir _ => True
  | _ => False

/-- The same calls, and those that empty the log. -/
def Event.Clears (seqs : List Nat) : Event → Prop
  | .unlink file => file ∈ seqs.map FileName.table
  | .fsyncDir _ => True
  | .ftruncate file length => file = .log ∧ length = 0
  | .fsync file _ => file = .log
  | _ => False

theorem Event.Removes.clears {seqs : List Nat} {e : Event} (h : e.Removes seqs) :
    e.Clears seqs := by
  cases e <;> first | exact h | cases h

/-- The tables that were not unlinked. -/
def remaining (es : List Event) (ps : List (Nat × Bytes)) : List (Nat × Bytes) :=
  ps.filter fun p => Event.unlink (.table p.1) ∉ es

theorem remaining_append (es : List Event) (ps qs : List (Nat × Bytes)) :
    remaining es (ps ++ qs) = remaining es ps ++ remaining es qs :=
  List.filter_append _ _

theorem remaining_eq_self {es : List Event} {ps : List (Nat × Bytes)}
    (h : ∀ p ∈ ps, Event.unlink (.table p.1) ∉ es) : remaining es ps = ps :=
  List.filter_eq_self.mpr fun p hp => decide_eq_true (h p hp)

/-- A table that is left knows nothing the others did not. -/
theorem tablesFind_remaining {es : List Event} {ps : List (Nat × Bytes)} {key : Bytes}
    (h : tablesFind ps key = none) : tablesFind (remaining es ps) key = none := by
  rw [tablesFind, List.findSome?_eq_none_iff] at h ⊢
  exact fun p hp => h p (List.mem_filter.mp hp).1

theorem Disk.run_clears {seqs : List Nat} {es : List Event} (h : ∀ e ∈ es, e.Clears seqs)
    (d : Disk) :
    (d.run es).newestFirst = remaining es d.newestFirst ∧
      (d.run es).logBytes = if Event.ftruncate .log 0 ∈ es then [] else d.logBytes := by
  induction es generalizing d with
  | nil => exact ⟨(remaining_eq_self fun _ _ => List.not_mem_nil).symm, rfl⟩
  | cons e es ih =>
      obtain ⟨hn, hl⟩ := ih (fun e' he' => h e' (List.mem_cons_of_mem _ he')) (d.apply e)
      have he := h e List.mem_cons_self
      -- A call that is neither an unlink nor the cut of the log changes neither.
      have hsame : (d.apply e).newestFirst = d.newestFirst →
          (d.apply e).logBytes = d.logBytes → (∀ file, e ≠ .unlink file) →
          e ≠ .ftruncate .log 0 →
          (d.run (e :: es)).newestFirst = remaining (e :: es) d.newestFirst ∧
            (d.run (e :: es)).logBytes =
              if Event.ftruncate .log 0 ∈ e :: es then [] else d.logBytes := by
        intro hn' hl' hunlink hcut
        rw [Disk.run_cons, hn, hl, hn', hl']
        constructor
        · refine List.filter_congr fun p _ => ?_
          rw [Bool.eq_iff_iff]
          simp [Ne.symm (hunlink (.table p.1))]
        · simp [Ne.symm hcut]
      cases e with
      | unlink file =>
          obtain ⟨seq, _, rfl⟩ := List.mem_map.mp he
          rw [Disk.run_cons, hn, hl]
          constructor
          · show remaining es (d.tables.entries.filter fun e => e.1 ≠ seq).reverse = _
            rw [← List.filter_reverse, remaining, remaining, List.filter_filter]
            refine List.filter_congr fun p _ => ?_
            rw [Bool.eq_iff_iff]
            simp [and_comm]
          · simp only [List.mem_cons, reduceCtorEq, false_or]
            rfl
      | ftruncate file length =>
          obtain ⟨rfl, rfl⟩ := he
          rw [Disk.run_cons, hn, hl]
          constructor
          · show remaining es d.newestFirst = _
            refine List.filter_congr fun p _ => ?_
            rw [Bool.eq_iff_iff]
            simp
          · rw [if_pos List.mem_cons_self]
            show (if _ then [] else d.logBytes.take 0) = []
            rw [List.take_zero, ite_self]
      | fsyncDir ok => exact hsame rfl rfl (fun _ => nofun) nofun
      | fsync file ok => exact hsame rfl rfl (fun _ => nofun) nofun
      | openTrunc file => cases he
      | openAppend file => cases he
      | write file data => cases he
      | rename src dst => cases he
      | began ms => cases he
      | applied ms => cases he
      | sent fd data => cases he

theorem Disk.run_removes {seqs : List Nat} {es : List Event} (h : ∀ e ∈ es, e.Removes seqs)
    (d : Disk) :
    (d.run es).newestFirst = remaining es d.newestFirst ∧
      (d.run es).logBytes = d.logBytes := by
  obtain ⟨hn, hl⟩ := Disk.run_clears (fun e he => (h e he).clears) d
  have hnone : Event.ftruncate .log 0 ∉ es := fun hcut => h _ hcut
  exact ⟨hn, by rw [hl, if_neg hnone]⟩

theorem cut_clears {seqs : List Nat} {es done : List Event} (hcut : Cut Event.Torn es done)
    (h : ∀ e ∈ es, e.Clears seqs) : ∀ e ∈ done, e ∈ es := by
  intro e he
  rcases hcut.mem he with he | ⟨e₀, he₀, ht⟩
  · exact he
  · have hwrite := h e₀ he₀
    cases ht
    cases hwrite

/-- The names of open tables. -/
theorem opened_paths {useBloom : Bool} {ps : List (Nat × Bytes)} {ts : List Sstable}
    (h : List.Forall₂ (OpenedFrom useBloom) ps ts) :
    ts.map (·.path) = (ps.map Prod.fst).map FileName.table := by
  induction h with
  | nil => rfl
  | cons hpt _ ih => rw [List.map_cons, ih, (openTable_fields hpt).1]; rfl

/-- What the startup sequence makes of an empty directory. -/
def freshStart (cfg : Config) : Outcome Unit :=
  { ret := ()
    store := {
      options := cfg.options
      wal := some { policy := cfg.policy, groupCommit := cfg.groupCommit } }
    events := [.unlink .compactTmp, .unlink .flushTmp, .openAppend .log] }

theorem startup_empty {cfg : Config} (hdir : cfg.options.hasDir = true) :
    startup cfg {} {} = some (freshStart cfg) := by
  obtain ⟨⟨hasDir, limit, bits, useBloom, useCompaction⟩, policy, groupCommit⟩ := cfg
  obtain rfl : hasDir = true := hdir
  rfl

end Cachedb
