import Cachedb.Lib.Trace
import Cachedb.Model.Media
import Cachedb.Proofs.CrashRecovery
import Cachedb.Proofs.Requests

/-!
# What a loss of power leaves of the answers given

The kernel's view of the directory may be ahead of the disk in three ways: bytes
of the log that were not synced, a table that has its name only in memory, and
a log whose cut is not safe yet. What saves the answers is the order of the
calls. A table is synced before it gets its name, the directory is synced
before the log is cut, and the log is synced before anything is sent.

`Media.Mirrors` relates the volume to the directory the engine believes in:
names and tables agree with what is safe, and only the log may have several
pasts. `Intact` adds that each of those pasts, read over the tables, shows a
beginning of the mutations at least as long as what clients were told. It
holds after every single call, in the middle of flushes too, so the power may
go anywhere.

All of this needs the name of the log to be safe to begin with.
-/

namespace Cachedb

open KMerge Layers Trace

/-! ## The volume under a running engine -/

/-- The log and the tables are where the engine thinks they are, and the
tables are safe. -/
structure Media.Mirrors (m : Media) (d : Disk) : Prop where
  wf : m.WellFormed
  log : m.Stable .log ∧ ∃ x, m.view .log = some x ∧ d.log = some x.current
  tables : ∀ seq, m.Stable (.table seq) ∧
    m.view (.table seq) = (d.tables.find seq).map Inode.rest

/-- The contents the log may turn out to have. -/
def Media.logMaybe (m : Media) : List Bytes := (m.view .log).elim [] (·.maybe)

section Mirrors

variable {m : Media} {d d' : Disk}

theorem leaves_rest {o : Option Bytes} {found : Option Bytes}
    (h : Volume.Leaves (o.map Inode.rest) found) : found = o := by
  cases o with
  | none => exact h
  | some file =>
      obtain ⟨data, hdata, hfound⟩ := h
      rw [hfound, List.mem_singleton.mp hdata]

/-- What is found: the tables, and one of the log's pasts. -/
theorem Media.Mirrors.survives (h : m.Mirrors d) (hs : m.Survives d'.read) :
    d'.tables = d.tables ∧ d'.logBytes ∈ m.logMaybe := by
  refine ⟨SortedMap.ext_find fun seq => ?_, ?_⟩
  · have hleft := hs.stable (h.tables seq).1
    rw [(h.tables seq).2] at hleft
    exact leaves_rest hleft
  · obtain ⟨hstable, x, hx, _⟩ := h.log
    have hleft := hs.stable hstable
    rw [hx] at hleft
    obtain ⟨data, hdata, hfound⟩ := hleft
    have hlog : d'.log = some data := hfound
    rw [Disk.logBytes, hlog, Media.logMaybe, hx]
    exact hdata

theorem Event.OnlyTemp.on {temp : FileName} {e : Event} (h : e.OnlyTemp temp) :
    ∀ op ∈ e.ops, op.On temp := by
  intro op hop
  cases e with
  | openTrunc file => rcases List.mem_pair.mp hop with rfl | rfl <;> exact h
  | write file data => rw [List.mem_singleton.mp hop]; exact h
  | fsync file ok =>
      cases ok with
      | true => rw [List.mem_singleton.mp hop]; exact h
      | false => cases hop
  | unlink file => rw [List.mem_singleton.mp hop]; exact h
  | openAppend file => cases h
  | ftruncate file length => cases h
  | rename src dst => cases h
  | fsyncDir ok => cases h
  | began ms => cases h
  | applied ms => cases h
  | sent fd data => cases h

/-- Work on a temporary file leaves the relation alone. -/
theorem Media.Mirrors.onlyTemp (h : m.Mirrors d) {temp : FileName} (ht : temp.IsTemp)
    {es : List Event} (hes : ∀ e ∈ es, e.OnlyTemp temp) :
    (m.after es).Mirrors (d.run es) ∧ (m.after es).logMaybe = m.logMaybe := by
  have hon : ∀ op ∈ es.flatMap Event.ops, op.On temp := by
    intro op hop
    obtain ⟨e, he, hop⟩ := List.mem_flatMap.mp hop
    exact (hes e he).on op hop
  have hlog : FileName.log ≠ temp := by rcases ht with rfl | rfl <;> decide
  have htable : ∀ seq, FileName.table seq ≠ temp := by
    intro seq
    rcases ht with rfl | rfl <;> exact fun h => by cases h
  obtain ⟨htables, hlogs⟩ := Disk.run_onlyTemp ht hes d
  obtain ⟨hwf, hview, hstable⟩ := Volume.run_on hlog hon h.wf
  obtain ⟨hs, x, hx, hcur⟩ := h.log
  refine ⟨⟨hwf, ⟨hstable hs, x, hview.trans hx, by rw [hlogs]; exact hcur⟩, fun seq => ?_⟩, ?_⟩
  · obtain ⟨_, hview, hstable⟩ := Volume.run_on (htable seq) hon h.wf
    rw [htables]
    exact ⟨hstable (h.tables seq).1, hview.trans (h.tables seq).2⟩
  · show (Volume.view _ _).elim _ _ = _
    rw [Media.after, hview]
    rfl

/-- A change of the log's contents. -/
theorem Media.Mirrors.change (h : m.Mirrors d) (op : Volume.Op FileName UInt8)
    (f : Inode UInt8 → Inode UInt8) (d' : Disk)
    (heffect : ∀ files, op.effect files = Function.update files .log ((files .log).map f))
    (hon : op.On .log) (hrenames : ¬op.Renames .log) {x : Inode UInt8}
    (hx : m.view .log = some x) (ht : d'.tables = d.tables)
    (hl : d'.log = some (f x).current) :
    Media.Mirrors (m.apply op) d' ∧ (m.apply op).view .log = some (f x) := by
  have hview : (m.apply op).view .log = some (f x) := by
    rw [Volume.view_apply h.wf, heffect, Function.update_self, hx]
    rfl
  refine ⟨⟨h.wf.apply op, ⟨h.log.1.apply op hrenames, f x, hview, hl⟩, fun seq => ?_⟩, hview⟩
  have hne : FileName.table seq ≠ .log := fun h => by cases h
  rw [ht, Volume.view_on h.wf hon hne]
  exact ⟨(h.tables seq).1.apply op (hon.not_renames hne), (h.tables seq).2⟩

theorem Media.Mirrors.log_eq (h : m.Mirrors d) :
    ∃ x, m.view .log = some x ∧ x.current = d.logBytes := by
  obtain ⟨_, x, hx, hcur⟩ := h.log
  exact ⟨x, hx, by rw [Disk.logBytes, hcur]; rfl⟩

/-- What an append adds to the log's pasts. -/
theorem Media.Mirrors.write (h : m.Mirrors d) (data : Bytes) :
    (m.after [.write .log data]).Mirrors (d.apply (.write .log data)) ∧
      ∀ found ∈ (m.after [.write .log data]).logMaybe,
        found ∈ m.logMaybe ∨ ∃ n, found = d.logBytes ++ data.take n := by
  obtain ⟨x, hx, hcur⟩ := h.log_eq
  obtain ⟨hmirrors, hview⟩ := h.change (.write .log data) (·.write data)
    (d.apply (.write .log data)) (fun _ => rfl) rfl id hx rfl (by
      show some (d.logBytes ++ data) = _
      rw [← hcur]; rfl)
  refine ⟨hmirrors, fun found hfound => ?_⟩
  rw [Media.logMaybe, show (m.after [.write .log data]).view .log = some (x.write data) from hview]
    at hfound
  rw [Media.logMaybe, hx, ← hcur]
  exact Inode.mem_maybe_write hfound

/-- After a sync the log has one past. -/
theorem Media.Mirrors.sync (h : m.Mirrors d) :
    (m.after [.fsync .log true]).Mirrors d ∧
      (m.after [.fsync .log true]).logMaybe = [d.logBytes] := by
  obtain ⟨x, hx, hcur⟩ := h.log_eq
  obtain ⟨hmirrors, hview⟩ := h.change (.sync .log) Inode.sync d (fun _ => rfl) rfl id hx
    rfl (by obtain ⟨_, y, hy, hl⟩ := h.log; rw [hx] at hy; cases hy; exact hl)
  refine ⟨hmirrors, ?_⟩
  rw [Media.logMaybe, show (m.after [.fsync .log true]).view .log = some x.sync from hview, ← hcur]
  rfl

/-- What a cut adds to the log's pasts. -/
theorem Media.Mirrors.cut (h : m.Mirrors d) (n : Nat) :
    (m.after [.ftruncate .log n]).Mirrors (d.apply (.ftruncate .log n)) ∧
      ∀ found ∈ (m.after [.ftruncate .log n]).logMaybe,
        found ∈ m.logMaybe ∨ found = d.logBytes.take n := by
  obtain ⟨x, hx, hcur⟩ := h.log_eq
  obtain ⟨hmirrors, hview⟩ := h.change (.cut .log n) (·.cut n)
    (d.apply (.ftruncate .log n)) (fun _ => rfl) rfl id hx rfl (by
      show some (d.logBytes.take n) = _
      rw [← hcur]; rfl)
  refine ⟨hmirrors, fun found hfound => ?_⟩
  rw [Media.logMaybe, show (m.after [.ftruncate .log n]).view .log = some (x.cut n) from hview]
    at hfound
  rw [Media.logMaybe, hx, ← hcur]
  exact Inode.mem_maybe_cut hfound

/-- A table that was written under a temporary name and synced is safe there. -/
theorem Media.view_tempEvents (h : m.WellFormed) (temp : FileName) (file : Bytes) :
    (m.after (tempEvents temp file)).view temp = some (Inode.rest file) := by
  show (Volume.apply (Volume.apply (Volume.apply (Volume.apply m (.openFile temp))
    (.cut temp 0)) (.write temp file)) (.sync temp)).view temp = _
  have hopen := h.apply (.openFile temp)
  have hcut := hopen.apply (.cut temp 0)
  have hwrite := hcut.apply (.write temp file)
  simp only [Volume.view_apply hwrite, Volume.view_apply hcut, Volume.view_apply hopen,
    Volume.view_apply h, Volume.Op.effect, Function.update_self, Option.map_some]
  rfl

/-- What a rename leaves alone. -/
theorem Media.Mirrors.view_moved (h : m.Mirrors d) {file : Bytes}
    (hfile : m.view .flushTmp = some (Inode.rest file)) (seq : Nat) (name : FileName)
    (htemp : name ≠ .flushTmp) (htable : name ≠ .table seq) :
    (m.apply (.move .flushTmp (.table seq))).view name = m.view name := by
  rw [Volume.view_apply h.wf, Volume.Op.effect, hfile]
  show Function.update (Function.update m.view _ _) _ _ name = _
  rw [Function.update_of_ne htable, Function.update_of_ne htemp]

/-- Between the rename and the sync of the directory the new table may be found
or not. -/
theorem Media.Mirrors.moved (h : m.Mirrors d) {file : Bytes}
    (hfile : m.view .flushTmp = some (Inode.rest file)) (seq : Nat)
    (hs : (m.after [.rename .flushTmp (.table seq)]).Survives d'.read) :
    (d'.tables = d.tables ∨ d'.tables = d.tables.insert seq file) ∧
      d'.logBytes ∈ m.logMaybe := by
  have hs : (m.apply (.move .flushTmp (.table seq))).Survives d'.read := hs
  have hother : ∀ seq', seq' ≠ seq → d'.tables.find seq' = d.tables.find seq' := by
    intro seq' hne
    have hname : FileName.table seq' ≠ .table seq := fun heq => hne (by cases heq; rfl)
    have hleft := hs.stable ((h.tables seq').1.apply (.move .flushTmp (.table seq))
      (by rintro (hc | hc) <;> [cases hc; exact hname hc.symm]))
    rw [h.view_moved hfile seq (.table seq') (fun h => by cases h) hname,
      (h.tables seq').2] at hleft
    exact leaves_rest hleft
  constructor
  · rcases hs.moved (h.tables seq).1 hfile with hleft | hleft
    · left
      rw [(h.tables seq).2] at hleft
      refine SortedMap.ext_find fun seq' => ?_
      by_cases heq : seq' = seq
      · rw [heq]
        exact leaves_rest hleft
      · exact hother seq' heq
    · right
      refine SortedMap.ext_find fun seq' => ?_
      rw [SortedMap.find_insert]
      split
      · next heq =>
          rw [heq]
          exact leaves_rest (o := some file) hleft
      · next heq => exact hother seq' heq
  · obtain ⟨hstable, x, hx, _⟩ := h.log
    have hleft := hs.stable (hstable.apply (.move .flushTmp (.table seq))
      (by rintro (hc | hc) <;> cases hc))
    rw [h.view_moved hfile seq .log (by decide) (fun h => by cases h), hx] at hleft
    obtain ⟨data, hdata, hfound⟩ := hleft
    have hlog : d'.log = some data := hfound
    rw [Disk.logBytes, hlog, Media.logMaybe, hx]
    exact hdata

/-- After the sync it is a table like the others. -/
theorem Media.Mirrors.named (h : m.Mirrors d) {file : Bytes}
    (hfile : m.view .flushTmp = some (Inode.rest file)) (seq : Nat)
    (ht : d'.tables = d.tables.insert seq file) (hl : d'.log = d.log) :
    (m.after [.rename .flushTmp (.table seq), .fsyncDir true]).Mirrors d' ∧
      (m.after [.rename .flushTmp (.table seq), .fsyncDir true]).logMaybe = m.logMaybe := by
  have hafter : m.after [.rename .flushTmp (.table seq), .fsyncDir true] =
      (m.apply (.move .flushTmp (.table seq))).apply .syncDir := rfl
  have hwf := h.wf.apply (.move .flushTmp (.table seq))
  have hview : ∀ name, ((m.apply (.move .flushTmp (.table seq))).apply .syncDir).view name =
      (m.apply (.move .flushTmp (.table seq))).view name := by
    intro name
    rw [Volume.view_apply hwf]
    rfl
  have hlog := h.view_moved hfile seq .log (by decide) fun h => by cases h
  obtain ⟨_, x, hx, hcur⟩ := h.log
  rw [hafter]
  refine ⟨⟨hwf.apply _, ⟨Volume.stable_syncDir _, x, ?_, by rw [hl]; exact hcur⟩,
    fun seq' => ⟨Volume.stable_syncDir _, ?_⟩⟩, ?_⟩
  · rw [hview, hlog, hx]
  · rw [hview, ht, SortedMap.find_insert]
    split
    · next heq =>
        rw [heq, Volume.view_apply h.wf, Volume.Op.effect, hfile]
        show Function.update _ _ _ (FileName.table seq) = _
        rw [Function.update_self]
        rfl
    · next heq =>
        rw [h.view_moved hfile seq (.table seq') (fun h => by cases h)
          fun hc => heq (by cases hc; rfl)]
        exact (h.tables seq').2
  · rw [Media.logMaybe, hview, hlog]
    rfl

end Mirrors

/-! ## What may be found -/

def Event.begun : Event → List Mutation
  | .began ms => ms
  | _ => []

/-- The mutations handed to the log, in order. -/
def begun (trace : List Event) : List Mutation := trace.flatMap Event.begun

theorem begun_append (xs ys : List Event) : begun (xs ++ ys) = begun xs ++ begun ys :=
  List.flatMap_append

theorem begun_began (trace : List Event) (ms : List Mutation) :
    begun (trace ++ [.began ms]) = begun trace ++ ms := by
  rw [begun_append]
  simp [begun, Event.begun]

theorem begun_silent {trace es : List Event} (hes : ∀ e ∈ es, e.begun = []) :
    begun (trace ++ es) = begun trace := by
  have hnil : begun es = [] := by
    rw [begun, List.flatMap_eq_nil_iff]
    exact hes
  rw [begun_append, hnil, List.append_nil]

theorem begun_one {trace : List Event} {e : Event} (he : e.begun = []) :
    begun (trace ++ [e]) = begun trace :=
  begun_silent fun e' he' => by rw [List.mem_singleton.mp he', he]

/-- Every key shows a beginning of the mutations, from the `lo`-th on. Which
one may depend on the key. -/
def ShowsFrom (base : RefMap) (last : Int64) (ms : List Mutation) (lo : Nat)
    (find : Bytes → Option Entry) : Prop :=
  ∀ key, ∃ n, lo ≤ n ∧ n ≤ ms.length ∧
    SameFrom Entry.view last (find key)
      ((((ms.take n).foldl RefMap.mutate base) key).map Found.entry)

/-- All mutations show. -/
def ShowsAll (base : RefMap) (last : Int64) (ms : List Mutation)
    (find : Bytes → Option Entry) : Prop :=
  ∀ key, SameFrom Entry.view last (find key) (((ms.foldl RefMap.mutate base) key).map Found.entry)

/-- Whatever had been begun when bytes were sent is among the first `lo`. -/
def Acked (lo : Nat) (trace : List Event) : Prop :=
  Preceded (fun earlier e => e.IsSent → (begun earlier).length ≤ lo) [] trace

section Shows

variable {base : RefMap} {last : Int64} {ms : List Mutation} {lo lo' : Nat}
  {find : Bytes → Option Entry} {trace es : List Event}

theorem ShowsAll.showsFrom (h : ShowsAll base last ms find) (hlo : lo ≤ ms.length) :
    ShowsFrom base last ms lo find := by
  intro key
  exact ⟨ms.length, hlo, Nat.le_refl _, by rw [List.take_length]; exact h key⟩

theorem ShowsFrom.congr {find' : Bytes → Option Entry} (h : ShowsFrom base last ms lo find)
    (heq : ∀ key, find' key = find key) : ShowsFrom base last ms lo find' := by
  intro key
  rw [heq]
  exact h key

/-- More mutations do not hide the earlier ones. -/
theorem ShowsFrom.append (h : ShowsFrom base last ms lo find) (ms' : List Mutation) :
    ShowsFrom base last (ms ++ ms') lo find := by
  intro key
  obtain ⟨n, hlo, hn, hsame⟩ := h key
  refine ⟨n, hlo, ?_, ?_⟩
  · rw [List.length_append]
    omega
  · rw [List.take_append_of_le_length hn]
    exact hsame

theorem ShowsAll.records (h : ShowsAll base last ms find) (ms' : List Mutation) (ts : Int64)
    (hlo : lo ≤ ms.length) (n : Nat) :
    ShowsFrom base last (ms ++ ms') lo fun key =>
      (recordsFind (batchRecords (ms'.take n) ts) key).or (find key) := by
  intro key
  refine ⟨ms.length + min n ms'.length, by omega, by rw [List.length_append]; omega, ?_⟩
  have htake : (ms ++ ms').take (ms.length + min n ms'.length) = ms ++ ms'.take n := by
    rw [List.take_append, List.take_of_length_le (by omega), Nat.add_sub_cancel_left]
    congr 1
    rw [← List.take_take, List.take_length]
  rw [htake, List.foldl_append]
  exact RefMap.foldl_same _ h key

theorem Acked.mono (h : Acked lo trace) (hle : lo ≤ lo') : Acked lo' trace := by
  rw [Acked, preceded_iff] at h ⊢
  exact fun earlier e later heq hsent => Nat.le_trans (h earlier e later heq hsent) hle

theorem Acked.append (h : Acked lo trace) (hes : ∀ e ∈ es, ¬e.IsSent) : Acked lo (trace ++ es) :=
  preceded_append.mpr ⟨h, .of_forall fun e he _ hsent => absurd hsent (hes e he)⟩

theorem Acked.one {e : Event} (h : Acked lo trace) (he : ¬e.IsSent) : Acked lo (trace ++ [e]) :=
  h.append fun e' he' => by rw [List.mem_singleton.mp he']; exact he

theorem begun_sent (hes : ∀ e ∈ es, e.IsSent) : begun es = [] := by
  rw [begun, List.flatMap_eq_nil_iff]
  intro e he
  have := hes e he
  cases e with
  | sent fd data => rfl
  | _ => cases this

theorem Acked.sent (h : Acked lo trace) (hes : ∀ e ∈ es, e.IsSent)
    (hlo : (begun trace).length ≤ lo) : Acked lo (trace ++ es) := by
  refine preceded_append.mpr ⟨h, preceded_iff.mpr ?_⟩
  rintro earlier e later rfl _
  have hearlier := begun_sent fun e he => hes e (List.mem_append_left _ he)
  rw [List.nil_append, begun_append, hearlier, List.append_nil]
  exact hlo

end Shows

/-! ## After every call -/

section PowerCut

variable (start : Media) (base : RefMap) (last : Int64)

/-- The volume has made the calls `trace`, the kernel shows `d`, and each past
of the log, over the tables, shows `lo` mutations or more, which is enough. -/
structure Intact (trace : List Event) (d : Disk) (lo : Nat) : Prop where
  mirrors : (start.after trace).Mirrors d
  acked : Acked lo trace
  le : lo ≤ (begun trace).length
  files : d.Sane
  shown : ∀ data ∈ (start.after trace).logMaybe,
    ShowsFrom base last (begun trace) lo fun key =>
      (logFind data key).or (tablesFind d.newestFirst key)

/-- Whatever a loss of power leaves shows enough. -/
def Recoverable (trace : List Event) : Prop :=
  ∀ d' : Disk, (start.after trace).Survives d'.read → d'.Sane ∧
    ∃ lo, Acked lo trace ∧ ShowsFrom base last (begun trace) lo d'.find

/-- The power may go anywhere in these calls. -/
def SafeThrough (trace es : List Event) : Prop :=
  ∀ done, Cut Event.Torn es done → Recoverable start base last (trace ++ done)

variable {start base last} {trace xs ys es : List Event} {d d' : Disk} {lo : Nat}

theorem Intact.recoverable (h : Intact start base last trace d lo) :
    Recoverable start base last trace := by
  intro d' hs
  obtain ⟨htables, hlog⟩ := h.mirrors.survives hs
  have hn : d'.newestFirst = d.newestFirst := newestFirst_congr htables
  refine ⟨by rw [Disk.Sane, hn]; exact h.files, lo, h.acked, fun key => ?_⟩
  rw [Disk.find, hn]
  exact h.shown _ hlog key

theorem SafeThrough.nil (h : Recoverable start base last trace) :
    SafeThrough start base last trace [] := by
  intro done hcut
  rw [hcut.nil_inv, List.append_nil]
  exact h

theorem SafeThrough.append (h : SafeThrough start base last trace xs)
    (h' : SafeThrough start base last (trace ++ xs) ys) :
    SafeThrough start base last trace (xs ++ ys) := by
  intro done hcut
  rcases hcut.append_inv with hcut | ⟨rest, rfl, hrest⟩
  · exact h done hcut
  · rw [← List.append_assoc]
    exact h' rest hrest

/-- A call that is no write happens or does not. -/
theorem SafeThrough.one {e : Event} (hwrite : ∀ file data, e ≠ .write file data)
    (h : Recoverable start base last trace) (h' : Recoverable start base last (trace ++ [e])) :
    SafeThrough start base last trace [e] := by
  intro done hcut
  rcases hcut.cons_inv with rfl | ⟨_, ht, _⟩ | ⟨rest, rfl, hrest⟩
  · rw [List.append_nil]
    exact h
  · cases ht
    exact absurd rfl (hwrite _ _)
  · rw [hrest.nil_inv]
    exact h'

/-! ## Single calls -/

/-- Calls the volume does not notice. -/
theorem Intact.marker (h : Intact start base last trace d lo) {e : Event} (hops : e.ops = [])
    (hsent : ¬e.IsSent) : Intact start base last (trace ++ [e]) d lo := by
  have hafter : start.after (trace ++ [e]) = start.after trace := by
    rw [Media.after_append]
    show Volume.run _ (e.ops ++ []) = _
    rw [hops]
    rfl
  refine ⟨by rw [hafter]; exact h.mirrors, h.acked.one hsent, ?_, h.files, ?_⟩
  · rw [begun_append, List.length_append]
    exact Nat.le_add_right_of_le h.le
  · rw [hafter]
    intro data hdata
    rw [begun_append]
    exact (h.shown data hdata).append _

theorem Intact.sent (h : Intact start base last trace d lo) (hlo : (begun trace).length ≤ lo)
    (hes : ∀ e ∈ es, e.IsSent) : Intact start base last (trace ++ es) d lo := by
  have hops : es.flatMap Event.ops = [] := by
    rw [List.flatMap_eq_nil_iff]
    intro e he
    have := hes e he
    cases e with
    | sent fd data => rfl
    | _ => cases this
  have hafter : start.after (trace ++ es) = start.after trace := by
    rw [Media.after_append, Media.after, hops]
    rfl
  have hbegun : begun (trace ++ es) = begun trace := by
    rw [begun_append, begun_sent hes, List.append_nil]
  exact ⟨by rw [hafter]; exact h.mirrors, h.acked.sent hes hlo, by rw [hbegun]; exact h.le,
    h.files, by rw [hafter, hbegun]; exact h.shown⟩

/-- Calls that begin nothing and send nothing leave the log's pasts alone, and
so leave everything. -/
theorem Intact.of_logMaybe (h : Intact start base last trace d lo)
    (hes : ∀ e ∈ es, e.begun = [] ∧ ¬e.IsSent)
    (hmirrors : (start.after (trace ++ es)).Mirrors d')
    (hmaybe : (start.after (trace ++ es)).logMaybe = (start.after trace).logMaybe)
    (ht : d'.tables = d.tables) : Intact start base last (trace ++ es) d' lo := by
  have hn : d'.newestFirst = d.newestFirst := newestFirst_congr ht
  have hbegun : begun (trace ++ es) = begun trace := begun_silent fun e he => (hes e he).1
  exact ⟨hmirrors, h.acked.append fun e he => (hes e he).2, by rw [hbegun]; exact h.le,
    by rw [Disk.Sane, hn]; exact h.files, by rw [hmaybe, hbegun, hn]; exact h.shown⟩

theorem Event.OnlyTemp.silent {temp : FileName} {e : Event} (h : e.OnlyTemp temp) :
    e.begun = [] ∧ ¬e.IsSent := by
  cases e <;> first | exact ⟨rfl, id⟩ | cases h

theorem Intact.onlyTemp (h : Intact start base last trace d lo) {temp : FileName}
    (ht : temp.IsTemp) (hes : ∀ e ∈ es, e.OnlyTemp temp) :
    Intact start base last (trace ++ es) (d.run es) lo := by
  obtain ⟨hmirrors, hmaybe⟩ := h.mirrors.onlyTemp ht hes
  rw [← Media.after_append] at hmirrors hmaybe
  exact h.of_logMaybe (fun e he => (hes e he).silent) hmirrors hmaybe
    (Disk.run_onlyTemp ht hes d).1

theorem Intact.onlyTemp_safe (h : Intact start base last trace d lo) {temp : FileName}
    (ht : temp.IsTemp) (hes : ∀ e ∈ es, e.OnlyTemp temp) :
    SafeThrough start base last trace es :=
  fun _ hcut => (h.onlyTemp ht (cut_onlyTemp hcut hes)).recoverable

/-- The log takes a batch, or a beginning of it. -/
theorem Intact.write (h : Intact start base last trace d lo) (hwhole : Whole d.logBytes)
    (hall : ShowsAll base last (begun trace) d.find) {ms : List Mutation}
    (hms : ∀ m ∈ ms, m.Fits) (ts : Int64) (n : Nat) :
    Intact start base last (trace ++ [.began ms] ++ [.write .log ((Wal.batchBytes ms ts).take n)])
      (d.apply (.write .log ((Wal.batchBytes ms ts).take n))) lo := by
  have hb := h.marker (e := .began ms) rfl id
  obtain ⟨hmirrors, hmaybe⟩ := hb.mirrors.write ((Wal.batchBytes ms ts).take n)
  rw [← Media.after_append] at hmirrors hmaybe
  have hbegun : begun (trace ++ [.began ms] ++ [.write .log ((Wal.batchBytes ms ts).take n)]) =
      begun (trace ++ [.began ms]) := begun_one rfl
  refine ⟨hmirrors, hb.acked.one id, by rw [hbegun]; exact hb.le, h.files, fun data hdata => ?_⟩
  rw [hbegun]
  rcases hmaybe data hdata with hold | ⟨k, rfl⟩
  · exact hb.shown data hold
  · -- What landed reads as the records that landed whole.
    rw [List.take_take, begun_began]
    exact (hall.records ms ts h.le (wholeRecords ms ts (min k n))).congr
      fun key => logFind_torn hwhole hms ts (min k n) key

/-- The log is synced. -/
theorem Intact.sync (h : Intact start base last trace d lo)
    (hall : ShowsAll base last (begun trace) d.find) :
    Intact start base last (trace ++ [.fsync .log true]) d (begun trace).length := by
  obtain ⟨hmirrors, hmaybe⟩ := h.mirrors.sync
  rw [← Media.after_append] at hmirrors hmaybe
  have hbegun : begun (trace ++ [.fsync .log true]) = begun trace := begun_one rfl
  refine ⟨hmirrors, (h.acked.mono h.le).one id, by rw [hbegun], h.files, ?_⟩
  rw [hmaybe, hbegun]
  intro data hdata
  rw [List.mem_singleton.mp hdata]
  exact hall.showsFrom (Nat.le_refl _)

/-- The log is cut to something that shows enough. -/
theorem Intact.cut (h : Intact start base last trace d lo) (n : Nat)
    (hcut : ShowsFrom base last (begun trace) lo fun key =>
      (logFind (d.logBytes.take n) key).or (tablesFind d.newestFirst key)) :
    Intact start base last (trace ++ [.ftruncate .log n]) (d.apply (.ftruncate .log n)) lo := by
  obtain ⟨hmirrors, hmaybe⟩ := h.mirrors.cut n
  rw [← Media.after_append] at hmirrors hmaybe
  have hbegun : begun (trace ++ [.ftruncate .log n]) = begun trace := begun_one rfl
  refine ⟨hmirrors, h.acked.one id, by rw [hbegun]; exact h.le, h.files, ?_⟩
  rw [hbegun]
  intro data hdata
  rcases hmaybe data hdata with hold | rfl
  · exact h.shown data hold
  · exact hcut

/-! ## A flush -/

section Named

variable {ps : List (Nat × Bytes)} {next : Nat} {mt : Memtable} {file : Bytes}
  {ms : List Mutation}

/-- A table with everything in it shows everything. -/
theorem ShowsAll.named (hst : Stands last d ps next mt)
    (hfile : FileHolds file mt.entries.entries)
    (hall : ShowsAll base last ms fun key => (mt.find key).or (tablesFind ps key))
    (ht : d'.tables = d.tables.insert next file) :
    ShowsAll base last ms (tablesFind d'.newestFirst) := by
  intro key
  rw [newestFirst_insert hst ht, tablesFind_cons, hfile.find]
  exact (SameFrom.or (alike_settled _) (.refl _)).trans (hall key)

/-- The same table under any past of the log: a key the log knows shows what it
showed without the table, and every other key shows the latest. -/
theorem ShowsFrom.named {data : Bytes} (hst : Stands last d ps next mt)
    (hfile : FileHolds file mt.entries.entries)
    (hall : ShowsAll base last ms fun key => (mt.find key).or (tablesFind ps key))
    (h : ShowsFrom base last ms lo fun key =>
      (logFind data key).or (tablesFind d.newestFirst key)) (hlo : lo ≤ ms.length)
    (ht : d'.tables = d.tables.insert next file) :
    ShowsFrom base last ms lo fun key =>
      (logFind data key).or (tablesFind d'.newestFirst key) := by
  intro key
  have hkey := h key
  beta_reduce at hkey ⊢
  cases hlog : logFind data key with
  | some e =>
      rw [hlog] at hkey
      exact hkey
  | none => exact (hall.named hst hfile ht).showsFrom hlo key

/-- The rename may be found or not. -/
theorem Intact.renamed (h : Intact start base last trace d lo)
    (hview : (start.after trace).view .flushTmp = some (Inode.rest file))
    (hst : Stands last d ps next mt) (hfile : FileHolds file mt.entries.entries)
    (hall : ShowsAll base last (begun trace) fun key => (mt.find key).or (tablesFind ps key)) :
    Recoverable start base last (trace ++ [.rename .flushTmp (.table next)]) := by
  intro d' hs
  rw [Media.after_append] at hs
  obtain ⟨ht, hdata⟩ := h.mirrors.moved hview next hs
  have hacked : Acked lo (trace ++ [.rename .flushTmp (.table next)]) :=
    h.acked.one id
  have hbegun : begun (trace ++ [.rename .flushTmp (.table next)]) = begun trace := begun_one rfl
  rw [hbegun]
  rcases ht with ht | ht
  · have hn : d'.newestFirst = d.newestFirst := newestFirst_congr ht
    have hshown := h.shown _ hdata
    rw [← hn] at hshown
    exact ⟨by rw [Disk.Sane, hn]; exact h.files, lo, hacked, hshown⟩
  · exact ⟨hst.named_sane hfile ht, lo, hacked,
      (h.shown _ hdata).named hst hfile hall h.le ht⟩

/-- Once the directory is synced it is found. -/
theorem Intact.named (h : Intact start base last trace d lo)
    (hview : (start.after trace).view .flushTmp = some (Inode.rest file))
    (hst : Stands last d ps next mt) (hfile : FileHolds file mt.entries.entries)
    (hall : ShowsAll base last (begun trace) fun key => (mt.find key).or (tablesFind ps key))
    (d' : Disk) (ht : d'.tables = d.tables.insert next file) (hl : d'.log = d.log) :
    Intact start base last (trace ++ [.rename .flushTmp (.table next), .fsyncDir true]) d' lo := by
  obtain ⟨hmirrors, hmaybe⟩ := h.mirrors.named hview next ht hl
  rw [← Media.after_append] at hmirrors hmaybe
  have hbegun : begun (trace ++ [.rename .flushTmp (.table next), .fsyncDir true]) =
      begun trace := by
    refine begun_silent fun e he => ?_
    rcases List.mem_pair.mp he with rfl | rfl <;> rfl
  refine ⟨hmirrors, h.acked.append ?_, by rw [hbegun]; exact h.le, hst.named_sane hfile ht, ?_⟩
  · intro e he
    rcases List.mem_pair.mp he with rfl | rfl <;> exact id
  · rw [hmaybe, hbegun]
    exact fun data hdata => (h.shown data hdata).named hst hfile hall h.le ht

end Named

/-- Where the tables show everything, the log may go. -/
theorem Intact.emptied (h : Intact start base last trace d lo)
    (hall : ShowsAll base last (begun trace) (tablesFind d.newestFirst)) :
    Intact start base last (trace ++ [.ftruncate .log 0]) (d.apply (.ftruncate .log 0)) lo ∧
      Intact start base last (trace ++ [.ftruncate .log 0] ++ [.fsync .log true])
        (d.apply (.ftruncate .log 0)) (begun trace).length := by
  have hcut := h.cut 0 ((hall.showsFrom h.le).congr fun key => by
    rw [List.take_zero, logFind_nil, Option.none_or])
  have hbegun : begun (trace ++ [.ftruncate .log 0]) = begun trace := begun_one rfl
  have hsync := hcut.sync (by
    rw [hbegun]
    intro key
    rw [Disk.find, show (d.apply (.ftruncate .log 0)).logBytes = [] from rfl, logFind_nil]
    exact hall key)
  rw [hbegun] at hsync
  exact ⟨hcut, hsync⟩

/-- The calls of a flush that runs through. -/
def flushEvents (file : Bytes) (next : Nat) : List Event :=
  tempEvents .flushTmp file ++ [.rename .flushTmp (.table next), .fsyncDir true] ++
    [.ftruncate .log 0, .fsync .log true]

theorem Intact.flush (h : Intact start base last trace d lo) {ps : List (Nat × Bytes)}
    {next : Nat} {mt : Memtable} {file : Bytes} (hst : Stands last d ps next mt)
    (hfile : FileHolds file mt.entries.entries)
    (hall : ShowsAll base last (begun trace) fun key => (mt.find key).or (tablesFind ps key)) :
    Intact start base last (trace ++ flushEvents file next) (d.run (flushEvents file next))
        (begun trace).length ∧
      SafeThrough start base last trace (flushEvents file next) := by
  have htemp : FileName.IsTemp .flushTmp := Or.inl rfl
  have honly := tempEvents_onlyTemp .flushTmp file
  obtain ⟨htables, hlog⟩ := Disk.run_onlyTemp htemp honly d
  -- The table is complete under its temporary name.
  have h₁ := h.onlyTemp htemp honly
  have hview : (start.after (trace ++ tempEvents .flushTmp file)).view .flushTmp =
      some (Inode.rest file) := by
    rw [Media.after_append]
    exact Media.view_tempEvents h.mirrors.wf _ _
  have hbegun : begun (trace ++ tempEvents .flushTmp file) = begun trace :=
    begun_silent fun e he => (honly e he).silent.1
  rw [← hbegun] at hall
  have hst₁ : Stands last (d.run (tempEvents .flushTmp file)) ps next mt :=
    hst.congr htables (by rw [Disk.logBytes, hlog]; rfl)
  -- It gets its name, the directory is synced, and the log is emptied.
  have h₂ := h₁.renamed hview hst₁ hfile hall
  have h₃ := h₁.named hview hst₁ hfile hall ((d.run (tempEvents .flushTmp file)).run
    [.rename .flushTmp (.table next), .fsyncDir true]) rfl rfl
  have hbegun₃ : begun (trace ++ tempEvents .flushTmp file ++
      [.rename .flushTmp (.table next), .fsyncDir true]) =
      begun (trace ++ tempEvents .flushTmp file) := by
    refine begun_silent fun e he => ?_
    rcases List.mem_pair.mp he with rfl | rfl <;> rfl
  obtain ⟨h₄, h₅⟩ := h₃.emptied (by rw [hbegun₃]; exact hall.named hst₁ hfile rfl)
  constructor
  · rw [hbegun₃, hbegun] at h₅
    have hrun : d.run (flushEvents file next) = ((d.run (tempEvents .flushTmp file)).run
        [.rename .flushTmp (.table next), .fsyncDir true]).apply (.ftruncate .log 0) := rfl
    rw [hrun]
    simpa only [flushEvents, List.append_assoc, List.cons_append, List.nil_append] using h₅
  · have hsafe₂ : SafeThrough start base last (trace ++ tempEvents .flushTmp file)
        [.rename .flushTmp (.table next)] := .one (fun _ _ h => by cases h) h₁.recoverable h₂
    have hsafe₃ := SafeThrough.one (e := .fsyncDir true) (fun _ _ h => by cases h) h₂
      (by rw [List.append_assoc]; exact h₃.recoverable)
    have hsafe₄ := SafeThrough.one (e := .ftruncate .log 0) (fun _ _ h => by cases h)
      h₃.recoverable h₄.recoverable
    have hsafe₅ := SafeThrough.one (e := .fsync .log true) (fun _ _ h => by cases h)
      h₄.recoverable h₅.recoverable
    have hnamed := hsafe₂.append hsafe₃
    exact ((h.onlyTemp_safe htemp honly).append hnamed).append (by
      rw [← List.append_assoc]
      exact hsafe₄.append hsafe₅)

end PowerCut

end Cachedb
