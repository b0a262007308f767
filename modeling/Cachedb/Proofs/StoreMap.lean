import Cachedb.Proofs.StoreSteps
import Cachedb.Spec.ReferenceMap

/-!
# The store is a plain map

A key may sit in the memtable and in many tables at once, live, deleted,
expired or swept. What a lookup shows of that is compared with the reference
map from a clock reading on (`Refines`), because a sweep or a merge may throw
away what the clock has already hidden. Each call is shown to keep the store
and the map together, and to give the answers the map gives; a run follows.

Flushes and merges need no success for this: in memory a failed one has not
happened.
-/

namespace Cachedb

open KMerge Layers

/-- A value of the reference map, as an entry that shows it. -/
def Found.entry (f : Found) : Entry :=
  { value := f.value, tombstone := false, expiresAtMs := f.expiresAtMs }

/-- From `now` on every lookup in the store gives what the map gives. -/
def Store.Refines (now : Int64) (s : Store) (m : RefMap) : Prop :=
  ∀ key, SameFrom Entry.view now (s.find key) ((m key).map Found.entry)

theorem RefMap.lookup_eq (m : RefMap) (t : Int64) (key : Bytes) :
    m.lookup t key = ((m key).map Found.entry).bind (Entry.view t) := by
  rw [RefMap.lookup]
  cases m key with
  | none => rfl
  | some f => rfl

theorem Store.Refines.lookup {now t : Int64} {s : Store} {m : RefMap} (h : s.Refines now m)
    (ht : now ≤ t) (key : Bytes) : s.lookup t key = m.lookup t key := by
  rw [RefMap.lookup_eq]
  exact h key t ht

theorem Store.Refines.get_isSome {now t : Int64} {s : Store} {m : RefMap}
    (h : s.Refines now m) (ht : now ≤ t) (key : Bytes) :
    (s.get t key).isSome = (m.lookup t key).isSome := by
  rw [Store.get, Option.isSome_map, h.lookup ht]

theorem Store.Refines.mono {now t : Int64} {s : Store} {m : RefMap} (h : s.Refines now m)
    (ht : now ≤ t) : s.Refines t m := fun key => (h key).mono ht

/-- What cannot be told from a store that agrees with the map agrees with it. -/
theorem Store.Refines.of_same {now : Int64} {s s' : Store} {m : RefMap} (h : s.Refines now m)
    (hs : ∀ key, SameFrom Entry.view now (s'.find key) (s.find key)) : s'.Refines now m :=
  fun key => (hs key).trans (h key)

/-- Every store agrees with some map. -/
theorem Store.exists_refines (s : Store) (now : Int64) : ∃ m : RefMap, s.Refines now m := by
  refine ⟨fun key => (s.find key).bind fun e =>
    if e.tombstone then none else some ⟨e.value, e.expiresAtMs⟩, fun key t _ => ?_⟩
  beta_reduce
  cases s.find key with
  | none => rfl
  | some e =>
      obtain ⟨value, tombstone, stamp⟩ := e
      cases tombstone <;> rfl

/-! ## Writes to the memtable -/

theorem Store.Refines.set {now : Int64} {s : Store} {m : RefMap} (h : s.Refines now m)
    (key value : Bytes) (stamp : Int64) :
    Store.Refines now { s with memtable := s.memtable.set key value stamp }
      (m.set key value stamp) := by
  intro k
  rw [Store.find, Memtable.find_set, RefMap.set]
  split
  · exact .refl _
  · exact h k

theorem Store.Refines.del {now : Int64} {s : Store} {m : RefMap} (h : s.Refines now m)
    (key : Bytes) :
    Store.Refines now { s with memtable := (s.memtable.del key).2 } (m.erase key) := by
  intro k
  rw [Store.find, Memtable.find_del, RefMap.erase]
  split
  · intro t _; rfl
  · exact h k

theorem Store.Refines.delLoop {now : Int64} {s : Store} {m : RefMap} (h : s.Refines now m)
    (keys : List Bytes) {clock : Nat → Reading} (hclock : ∀ n, now ≤ (clock n).wall) :
    (s.delLoop clock keys).1 = (m.eraseAll clock keys).1 ∧
      Store.Refines now { s with memtable := (s.delLoop clock keys).2 }
        (m.eraseAll clock keys).2 := by
  induction keys generalizing s m clock with
  | nil => exact ⟨rfl, h⟩
  | cons key keys ih =>
      obtain ⟨hcount, hrest⟩ := ih (h.del key) fun n => hclock (n + 1)
      rw [Store.delLoop, RefMap.eraseAll]
      exact ⟨by rw [hcount, h.get_isSome (hclock 0)], hrest⟩

/-! ## The store stays sane -/

theorem Memtable.fits_set {m : Memtable} {key value : Bytes} {stamp : Int64}
    (h : ∀ k e, m.find k = some e → EntryFits (k, e))
    (hkey : key.length < 2 ^ 32) (hvalue : value.length < 2 ^ 32) :
    ∀ k e, (m.set key value stamp).find k = some e → EntryFits (k, e) := by
  intro k e he
  rw [Memtable.find_set] at he
  split at he
  · next hk =>
      cases he
      exact ⟨by rw [hk]; exact hkey, hvalue⟩
  · exact h k e he

theorem Memtable.fits_del {m : Memtable} {key : Bytes}
    (h : ∀ k e, m.find k = some e → EntryFits (k, e)) (hkey : key.length < 2 ^ 32) :
    ∀ k e, (m.del key).2.find k = some e → EntryFits (k, e) := by
  intro k e he
  rw [Memtable.find_del] at he
  split at he
  · next hk =>
      cases he
      exact ⟨by rw [hk]; exact hkey, Nat.two_pow_pos 32⟩
  · exact h k e he

theorem Store.fits_delLoop {keys : List Bytes} :
    ∀ {s : Store} {clock : Nat → Reading},
      (∀ k e, s.memtable.find k = some e → EntryFits (k, e)) →
      (∀ key ∈ keys, key.length < 2 ^ 32) →
      ∀ k e, (s.delLoop clock keys).2.find k = some e → EntryFits (k, e) := by
  induction keys with
  | nil => intro s clock h _; exact h
  | cons key keys ih =>
      intro s clock h hkeys
      rw [Store.delLoop]
      exact ih (Memtable.fits_del h (hkeys key List.mem_cons_self))
        fun k hk => hkeys k (List.mem_cons_of_mem _ hk)

theorem fits_sweepFrom {now : Int64} :
    ∀ (budget : Nat) (es : List (Bytes × Entry)), (∀ p ∈ es, EntryFits p) →
      ∀ p ∈ (Memtable.sweepFrom now budget es).1, EntryFits p := by
  intro budget es
  induction es generalizing budget with
  | nil => intro _; cases budget <;> exact fun p hp => by cases hp
  | cons x rest ih =>
      obtain ⟨key, e⟩ := x
      intro h
      cases budget with
      | zero => exact h
      | succ budget =>
          intro p hp
          rw [Memtable.sweepFrom] at hp
          rcases List.mem_cons.mp hp with rfl | hp
          · have hfit := h _ List.mem_cons_self
            refine ⟨hfit.1, ?_⟩
            show (Memtable.sweepEntry now e).1.value.length < 2 ^ 32
            unfold Memtable.sweepEntry
            split
            · exact Nat.two_pow_pos 32
            · exact hfit.2
          · exact ih budget (fun q hq => h q (List.mem_cons_of_mem _ hq)) p hp

theorem Memtable.fits_sweepExpired {m : Memtable} {now : Int64} {budget : Nat}
    (h : ∀ k e, m.find k = some e → EntryFits (k, e)) :
    ∀ k e, (m.sweepExpired now budget).2.find k = some e → EntryFits (k, e) := by
  have hall : ∀ p ∈ m.entries.entries, EntryFits p :=
    fun p hp => h p.1 p.2 (SortedMap.find_eq_some_iff.mpr hp)
  intro k e he
  rw [Memtable.sweepExpired] at he
  split at he
  · exact h k e he
  · have hmem : (k, e) ∈ m.beforeCursor ++ (sweepFrom now budget m.fromCursor).1 :=
      SortedMap.find_eq_some_iff.mp he
    rw [← m.cursor_split] at hall
    rcases List.mem_append.mp hmem with hmem | hmem
    · exact hall _ (List.mem_append_left _ hmem)
    · exact fits_sweepFrom budget _ (fun q hq => hall q (List.mem_append_right _ hq)) _ hmem

/-- A value that can be found can be written again. -/
theorem Store.Sane.fits_lookup {s : Store} (h : s.Sane) {t : Int64} {key : Bytes}
    {found : Found} (hf : s.lookup t key = some found) : found.value.length < 2 ^ 32 := by
  rw [Store.lookup, Option.bind_eq_some_iff] at hf
  obtain ⟨e, he, hview⟩ := hf
  have hvalue : found.value = e.value := by
    unfold Entry.view at hview
    split at hview
    · cases hview
    · split at hview
      · cases hview
      · rw [← Option.some.inj hview]
  rw [hvalue]
  rw [Store.find, Option.or_eq_some_iff] at he
  rcases he with he | ⟨_, he⟩
  · exact (h.fits key e he).2
  · obtain ⟨ess, hess⟩ := h.tables
    rw [findSome?_get hess, Option.map_eq_some_iff] at he
    obtain ⟨e₀, he₀, rfl⟩ := he
    obtain ⟨r, hr, hmem⟩ := mem_of_firstIn he₀
    obtain ⟨t, _, ht⟩ := forall₂_mem_right hess hr
    have hfit := (ht.fits _ hmem).2
    show (if e₀.tombstone then [] else e₀.value).length < 2 ^ 32
    split
    · exact Nat.two_pow_pos 32
    · exact hfit

/-! ## Flushes and merges -/

/-- However a flush ends, the store is sane and shows what it showed. -/
theorem Store.Flushed.same {s : Store} {now : Reading} {fate : FlushFate} {o : Outcome Bool}
    (h : s.Flushed now fate o) (hs : s.Sane) :
    o.store.Sane ∧ ∀ t key, SameFrom Entry.view t (o.store.find key) (s.find key) := by
  cases h with
  | idle _ => exact ⟨hs, fun _ _ => .refl _⟩
  | unnamed _ _ => exact ⟨hs, fun _ _ => .refl _⟩
  | unsynced _ _ _ => exact ⟨hs, fun _ _ => .refl _⟩
  | uncut _ _ _ =>
      rw [Store.onLog_store]
      exact ⟨⟨hs.tables, hs.fits⟩, fun _ _ => .refl _⟩
  | done file table _ _ _ hholds _ =>
      obtain ⟨ess, hess⟩ := hs.tables
      refine ⟨⟨⟨s.memtable.entries.entries :: ess, .cons hholds hess⟩, ?_⟩, fun t key => ?_⟩
      · intro k e he; cases he
      · -- The memtable's entries answer from the table now.
        show SameFrom Entry.view t
          ((table :: s.sstables).findSome? fun t => t.get key) (s.find key)
        rw [findSome?_get (List.Forall₂.cons hholds hess), firstIn_cons, Option.map_or,
          ← findSome?_get hess]
        refine SameFrom.or ⟨Option.isSome_map, fun t' _ => ?_⟩ (.refl _)
        rw [Option.bind_map]
        congr 1
        funext e
        exact e.view_settled t'

theorem Store.maybeFlush_same {s : Store} (hs : s.Sane) (now : Reading) (fate : FlushFate) :
    (s.maybeFlush now fate).store.Sane ∧
      ∀ t key, SameFrom Entry.view t ((s.maybeFlush now fate).store.find key) (s.find key) := by
  rcases s.maybeFlush_cases now fate with h | h
  · rw [h]
    exact ⟨hs, fun _ _ => .refl _⟩
  · rw [h]
    obtain ⟨hsane, hsame⟩ := (Store.flush_cases hs now fate).same hs
    exact ⟨⟨hsane.tables, hsane.fits⟩, hsame⟩

/-- A merge loses nothing that could still be seen. `older` is what the tables
below the run know. -/
theorem Merged.same {drop : Bool} {now : Int64} {ess : List (List (Bytes × Entry))}
    {out : List (Bytes × Entry)} (h : Merged drop now ess out) (key : Bytes)
    {older : Option Entry} (hold : drop = true → older = none) :
    SameFrom Entry.view now
      (((SortedMap.findIn key out).map Entry.settled).or older)
      (((firstIn key ess).map Entry.settled).or older) := by
  rw [h.find key]
  cases hfirst : firstIn key ess with
  | none => exact .refl _
  | some e =>
      rw [Option.bind_some, keepEntry]
      split
      · next hdrop =>
          rw [Bool.and_eq_true] at hdrop
          rw [hold hdrop.1]
          intro t ht
          show none = e.settled.view t
          rw [e.view_settled, Entry.obsolete_iff.mp (Entry.obsolete_mono hdrop.2 ht)]
      · rw [Option.map_some, Entry.settled_stored]
        exact .refl _

/-- A table in front of others. -/
theorem Store.find_cons (s : Store) (t : Sstable) (older : List Sstable) (key : Bytes) :
    Store.find { s with sstables := t :: older } key =
      (s.memtable.find key).or ((t.get key).or (older.findSome? fun t => t.get key)) := by
  rw [Store.find]
  simp only [List.findSome?_cons]
  cases t.get key <;> rfl

/-- What the inputs of a merge answer, above whatever lies below. -/
theorem Merged.lookup_inputs {drop : Bool} {now : Int64} {ess : List (List (Bytes × Entry))}
    {out : List (Bytes × Entry)} (h : Merged drop now ess out) {inputs older : List Sstable}
    (hinputs : List.Forall₂ Sstable.Holds inputs ess) (hdrop : drop = true → older = [])
    (s : Store) {t : Int64} (ht : now ≤ t) (key : Bytes) :
    Store.lookup { s with sstables := inputs ++ older } t key =
      ((s.memtable.find key).or (((SortedMap.findIn key out).map Entry.settled).or
        (older.findSome? fun t => t.get key))).bind (Entry.view t) := by
  have hbelow : drop = true → (older.findSome? fun t => t.get key) = none := by
    intro hd
    rw [hdrop hd]
    rfl
  rw [Store.lookup, Store.find]
  simp only [List.findSome?_append, findSome?_get hinputs]
  exact (SameFrom.or (.refl (s.memtable.find key)) (h.same key hbelow) t ht).symm

/-- A merge of tables, however large its output, succeeds; every entry of its
inputs is written or counted as dropped, and the output opens with the merged
entries in it. From then on it answers for the inputs, above whatever lies
below, exactly if the count of its index entries does not come out as zero, or
what lies below shows every version in it anyway. -/
theorem compaction_keeps_answers_iff (inputs older : List Sstable)
    (ess : List (List (Bytes × Entry))) (hinputs : List.Forall₂ Sstable.Holds inputs ess)
    (bits : Int) (drop : Bool) (now : Int64) (hdrop : drop = true → older = [])
    (hsize : (writeTable bits (merge (keepEntry drop now) ess)).length < 2 ^ 63)
    (path : FileName) (useBloom : Bool) :
    let out := merge (keepEntry drop now) ess
    (compact inputs bits drop now).ok = true ∧
      (compact inputs bits drop now).written + (compact inputs bits drop now).dropped =
        (ess.map List.length).sum ∧
      SortedMap.KeysSorted out ∧
      ∃ merged, openTable path (compact inputs bits drop now).file useBloom = some merged ∧
        merged.cursor.Shows out ∧
        ((∀ (s : Store) (t : Int64) (key : Bytes), now ≤ t →
            Store.lookup { s with sstables := merged :: older } t key =
              Store.lookup { s with sstables := inputs ++ older } t key) ↔
          Indexed out ∨ ∀ p ∈ out, ∀ t, now ≤ t →
            Store.lookup { sstables := older } t p.1 = p.2.view t) := by
  intro out
  obtain ⟨out', hout, hcompact⟩ := compact_eq hinputs bits drop now
  obtain rfl : out' = out := hout.eq_merge
  obtain ⟨merged, hopen, _, _, _, _, _, hshows, hget⟩ := openTable_written hout.sorted hout.fits
    hsize path useBloom
  rw [hcompact]
  refine ⟨rfl, Nat.add_sub_of_le hout.length, hout.sorted, merged, hopen, hshows, ?_⟩
  constructor
  · intro h
    refine or_iff_not_imp_left.mpr fun hnot p hp t ht => ?_
    -- The output finds nothing, so a lookup goes on to what lies below.
    have hzero : indexCount out % 2 ^ 32 = 0 := not_not.mp fun hsome => hnot (Or.inr hsome)
    have hagree := h {} t p.1 ht
    rw [hout.lookup_inputs hinputs hdrop {} ht, SortedMap.findIn_of_mem hout.sorted hp,
      Store.lookup, Store.find_cons, hget, if_pos hzero] at hagree
    exact hagree.trans (p.2.view_settled t)
  · intro h s t key ht
    rw [hout.lookup_inputs hinputs hdrop s ht, Store.lookup, Store.find_cons]
    rcases h with hindexed | hshown
    · rw [hget, (get_agrees_iff hout.sorted).mpr hindexed]
    · rw [hget]
      split
      · cases hfind : SortedMap.findIn key out with
        | none => rfl
        | some e =>
            have hbelow := hshown (key, e) (SortedMap.mem_of_findIn hfind) t ht
            cases s.memtable.find key with
            | some _ => rfl
            | none => exact hbelow.trans (e.view_settled t).symm
      · rfl

/-- The newest version of a key over a tombstone, and a key of its own below. -/
def shadowedPair : List (List (Bytes × Entry)) :=
  [[([1], { value := [9] })],
   [([], { value := [7], expiresAtMs := -1 }), ([1], { value := [], tombstone := true })]]

theorem compaction_keeps_answers_two :
    ∃ inputs merged, (compact inputs 10 true 0).written + (compact inputs 10 true 0).dropped = 3 ∧
      openTable .compactTmp (compact inputs 10 true 0).file false = some merged ∧
      ∀ key, Store.lookup { sstables := [merged] } 5 key =
        Store.lookup { sstables := inputs ++ [] } 5 key := by
  have hsorted : ∀ es ∈ shadowedPair, SortedMap.KeysSorted es := by
    unfold SortedMap.KeysSorted; decide
  have hfits : ∀ es ∈ shadowedPair, ∀ p ∈ es, EntryFits p := by
    unfold EntryFits; decide
  have hsmall : ∀ es ∈ shadowedPair, (writeTable 10 es).length ≤ indexableBytes := by
    decide +kernel
  have htable : ∀ es ∈ shadowedPair, ∃ t : Sstable, t.Holds es := by
    intro es hes
    obtain ⟨t, _, ht, _⟩ := openTable_writeTable (hsorted es hes) (hfits es hes)
      ⟨rfl, hsmall es hes⟩ (.table 1) true
    exact ⟨t, ht⟩
  obtain ⟨newer, hnewer⟩ := htable _ List.mem_cons_self
  obtain ⟨below, hbelow⟩ := htable _ (List.mem_cons_of_mem _ List.mem_cons_self)
  obtain ⟨_, htotal, _, merged, hopen, _, hsame⟩ := compaction_keeps_answers_iff [newer, below] []
    shadowedPair (.cons hnewer (.cons hbelow .nil)) 10 true 0 (fun _ => rfl) (by decide +kernel)
    .compactTmp false
  have hagrees := hsame.mpr (Or.inl (Or.inr (by decide +kernel)))
  exact ⟨[newer, below], merged, htotal, hopen, fun key => hagrees {} 5 key (by decide)⟩

/-- Two tables, each of which answers, and together exactly 2^32 index entries.
The merge succeeds, and its output does not find the first key. -/
theorem compaction_loses_wide :
    ∃ a b merged, Sstable.Holds a (wideEntries 0 (2 ^ 31)) ∧
      Sstable.Holds b (wideEntries (2 ^ 31) (2 ^ 31)) ∧
      (compact [a, b] 10 false 0).ok = true ∧
      openTable .compactTmp (compact [a, b] 10 false 0).file true = some merged ∧
      Store.lookup { sstables := [a, b] } 0 (wideEntry 0).1 =
        some ⟨(wideEntry 0).2.value, 0⟩ ∧
      Store.lookup { sstables := [merged] } 0 (wideEntry 0).1 = none := by
  have hhalf : ∀ first, first + 2 ^ 31 ≤ 2 ^ 32 →
      ∃ t : Sstable, t.Holds (wideEntries first (2 ^ 31)) := by
    intro first hfirst
    have hindexed : Indexed (wideEntries first (2 ^ 31)) := by
      rw [Indexed, indexCount_wideEntries]
      exact Or.inr (by decide)
    obtain ⟨t, _, ht, _⟩ := openTable_indexed (wideEntries_sorted hfirst) (wideEntries_fit _ _)
      (wideEntries_size first (by decide)) hindexed (.table 1) true
    exact ⟨t, ht⟩
  obtain ⟨a, ha⟩ := hhalf 0 (by decide)
  obtain ⟨b, hb⟩ := hhalf (2 ^ 31) (by decide)
  have hinputs := List.Forall₂.cons ha (List.Forall₂.cons hb List.Forall₂.nil)
  obtain ⟨out, hout, hcompact⟩ := compact_eq hinputs 10 false 0
  have hwhole : wideEntries 0 (2 ^ 31) ++ wideEntries (2 ^ 31) (2 ^ 31) = wideEntries 0 (2 ^ 32) :=
    wideEntries_append 0 (2 ^ 31) (2 ^ 31)
  have hfirst : ∀ key, firstIn key [wideEntries 0 (2 ^ 31), wideEntries (2 ^ 31) (2 ^ 31)] =
      SortedMap.findIn key (wideEntries 0 (2 ^ 32)) := by
    intro key
    rw [firstIn_cons, firstIn_cons, ← hwhole, SortedMap.findIn_append]
    exact congrArg _ (Option.or_none)
  have hsorted : SortedMap.KeysSorted (wideEntries 0 (2 ^ 32)) := wideEntries_sorted (Nat.le_refl _)
  obtain rfl : out = wideEntries 0 (2 ^ 32) := by
    refine SortedMap.eq_of_findIn_eq hout.sorted hsorted fun key => ?_
    rw [hout.find key, hfirst key]
    cases hfind : SortedMap.findIn key (wideEntries 0 (2 ^ 32)) with
    | none => rfl
    | some e =>
        obtain ⟨i, _, hi⟩ := List.mem_map.mp (SortedMap.mem_of_findIn hfind)
        obtain ⟨_, rfl⟩ := Prod.ext_iff.mp hi
        rfl
  obtain ⟨merged, hopen, _, _, _, _, _, _, hget⟩ := openTable_written hsorted hout.fits
    (wideEntries_size 0 (Nat.le_refl _)) .compactTmp true
  refine ⟨a, b, merged, ha, hb, by rw [hcompact], by rw [hcompact]; exact hopen, ?_, ?_⟩
  · have hfind : SortedMap.findIn (wideEntry 0).1 (wideEntries 0 (2 ^ 32)) = some (wideEntry 0).2 :=
      SortedMap.findIn_of_mem hsorted (wideEntry_mem 0 (by decide))
    rw [Store.lookup, Store.find]
    simp only [findSome?_get hinputs]
    rw [hfirst, hfind]
    rfl
  · rw [Store.lookup, Store.find_cons {} merged [], hget, indexCount_wideEntries, Nat.mod_self,
      if_pos rfl]
    rfl

theorem Store.Compacted.same {s : Store} {first len : Nat} {env : Env}
    {out : List (Bytes × Entry)} {o : Outcome Nat} {ess : List (List (Bytes × Entry))}
    (h : s.Compacted first len env out o) (hs : s.Sane)
    (hess : List.Forall₂ Sstable.Holds s.sstables ess)
    (hout : Merged (first + len == s.sstables.length) (env.clock 0).wall
      ((ess.drop first).take len) out) :
    o.store.Sane ∧ ∀ key,
      SameFrom Entry.view (env.clock 0).wall (o.store.find key) (s.find key) := by
  have hnewer := List.forall₂_take first hess
  have holder := List.forall₂_drop (first + len) hess
  have hfind : ∀ (ts : List Sstable) (ess' : List (List (Bytes × Entry))),
      List.Forall₂ Sstable.Holds ts ess' →
      (∀ key, firstIn key ess' = (firstIn key (ess.take first)).or
        ((SortedMap.findIn key out).or (firstIn key (ess.drop (first + len))))) →
      ∀ key, SameFrom Entry.view (env.clock 0).wall
        ((s.memtable.find key).or (ts.findSome? fun t => t.get key)) (s.find key) := by
    intro ts ess' hts hess' key
    rw [Store.find, findSome?_get hts, findSome?_get hess, hess' key]
    refine SameFrom.or (.refl _) ?_
    conv => rhs; rw [← run_split ess first len, List.append_assoc]
    rw [firstIn_append, firstIn_append, Option.map_or, Option.map_or, Option.map_or,
      Option.map_or]
    refine SameFrom.or (.refl _) (hout.same key fun hdrop => ?_)
    have hlen := hess.length_eq
    have hend : first + len = s.sstables.length := by simpa using hdrop
    rw [List.drop_of_length_le (by omega)]
    rfl
  cases h with
  | unnamed _ _ => exact ⟨hs, fun _ => .refl _⟩
  | unsynced _ _ _ => exact ⟨hs, fun _ => .refl _⟩
  | replaced file table _ _ hholds _ =>
      have hts := List.rel_append hnewer (List.Forall₂.cons hholds holder)
      refine ⟨⟨⟨_, hts⟩, hs.fits⟩, hfind _ _ hts fun key => ?_⟩
      rw [firstIn_append, firstIn_cons]
  | emptied file _ hnil =>
      have hts := List.rel_append hnewer holder
      refine ⟨⟨⟨_, hts⟩, hs.fits⟩, hfind _ _ hts fun key => ?_⟩
      rw [firstIn_append, hnil]
      rfl

/-! ## Calls -/

theorem Wal.sync_ok (w : Wal) (now : Reading) (ok : Bool) : (w.sync now ok).ok = ok := by
  rw [Wal.sync]
  cases ok <;> rfl

theorem Wal.commit_ok (w : Wal) (buf : Bytes) (now : Reading) :
    (w.commit buf now {}).ok = true := by
  rw [Wal.commit]
  simp only [writeAll, Bool.not_true]
  rw [if_neg Bool.false_ne_true]
  split
  · exact Wal.sync_ok _ _ _
  · rfl

theorem Wal.appendBatch_ok (w : Wal) (ms : List Mutation) (now : Reading) :
    (w.appendBatch ms now {}).ok = true := by
  rw [Wal.appendBatch]
  split
  · rfl
  · exact w.commit_ok _ now

theorem Wal.truncate_ok (w : Wal) (now : Reading) : (w.truncate now {}).ok = true :=
  Wal.sync_ok _ _ _

theorem Store.onLog_ret {s : Store} {f : Wal → Logged} (h : ∀ w, (f w).ok = true) :
    (s.onLog f).ret = true := by
  rw [Store.onLog]
  split
  · rfl
  · exact h _

/-- A mutation the log takes is shown by the store, which stays sane. -/
theorem Store.mutate_refines {α : Type} {s : Store} {ms : List Mutation} {log : Wal → Logged}
    {memtable : Memtable} {now : Reading} {fate : FlushFate} {refused accepted : α}
    {t : Int64} {m : RefMap} (hs : s.Sane)
    (hfits : ∀ k e, memtable.find k = some e → EntryFits (k, e))
    (h : Store.Refines t { s with memtable } m) (hlog : ∀ w, (log w).ok = true) :
    (s.mutate ms log memtable now fate refused accepted).ret = accepted ∧
      (s.mutate ms log memtable now fate refused accepted).store.Sane ∧
      (s.mutate ms log memtable now fate refused accepted).store.Refines t m := by
  rw [Store.mutate_accepted (Store.onLog_ret hlog)]
  have hs' : Store.Sane { s with memtable, wal := (s.onLog log).store.wal } :=
    ⟨hs.tables, hfits⟩
  have h' : Store.Refines t { s with memtable, wal := (s.onLog log).store.wal } m :=
    fun key => h key
  obtain ⟨hsane, hsame⟩ := Store.maybeFlush_same hs' now fate
  exact ⟨rfl, hsane, h'.of_same (hsame t)⟩

theorem Store.set_refines {s : Store} {t : Int64} {m : RefMap} (hs : s.Sane)
    (h : s.Refines t m) {key value : Bytes} (hkey : key.length < 2 ^ 32)
    (hvalue : value.length < 2 ^ 32) (stamp : Int64) {env : Env} (henv : env.log = {}) :
    (s.set key value stamp env).ret = true ∧ (s.set key value stamp env).store.Sane ∧
      (s.set key value stamp env).store.Refines t (m.set key value stamp) :=
  Store.mutate_refines hs (Memtable.fits_set hs.fits hkey hvalue) (h.set key value stamp)
    fun w => by rw [henv]; exact w.commit_ok _ _

theorem Store.del_refines {s : Store} {t : Int64} {m : RefMap} (hs : s.Sane)
    (h : s.Refines t m) {key : Bytes} (hkey : key.length < 2 ^ 32) {env : Env}
    (henv : env.log = {}) (hclock : t ≤ (env.clock 0).wall) :
    (s.del key env).ret = ⟨true, (m.lookup (env.clock 0).wall key).isSome⟩ ∧
      (s.del key env).store.Sane ∧ (s.del key env).store.Refines t (m.erase key) := by
  rw [← h.get_isSome hclock]
  exact Store.mutate_refines hs (Memtable.fits_del hs.fits hkey) (h.del key)
    fun w => by rw [henv]; exact w.commit_ok _ _

theorem Store.delMany_refines {s : Store} {t : Int64} {m : RefMap} (hs : s.Sane)
    (h : s.Refines t m) {keys : List Bytes} (hkeys : ∀ key ∈ keys, key.length < 2 ^ 32)
    {env : Env} (henv : env.log = {}) (hclock : ∀ n, t ≤ (env.clock n).wall) :
    (s.delMany keys env).ret = ⟨true, (m.eraseAll env.later.clock keys).1⟩ ∧
      (s.delMany keys env).store.Sane ∧
      (s.delMany keys env).store.Refines t (m.eraseAll env.later.clock keys).2 := by
  have hlater : ∀ n, t ≤ (env.later.clock n).wall := fun n => hclock (n + 1)
  obtain ⟨hcount, hloop⟩ := h.delLoop keys hlater
  rw [← hcount]
  exact Store.mutate_refines hs (Store.fits_delLoop hs.fits hkeys) hloop
    fun w => by rw [henv]; exact w.appendBatch_ok _ _

theorem Store.expire_refines {s : Store} {t : Int64} {m : RefMap} (hs : s.Sane)
    (h : s.Refines t m) {key : Bytes} (hkey : key.length < 2 ^ 32) (stamp : Int64) {env : Env}
    (henv : env.log = {}) (hclock : t ≤ (env.clock 0).wall) :
    some (Reply.expire (s.expire key stamp env).ret) = (m.call env (.expire key stamp)).2 ∧
      (s.expire key stamp env).store.Sane ∧
      (s.expire key stamp env).store.Refines t (m.call env (.expire key stamp)).1 := by
  rw [Store.expire, RefMap.call, ← h.lookup hclock]
  cases hfound : s.lookup (env.clock 0).wall key with
  | none => exact ⟨rfl, hs, h⟩
  | some found =>
      have hlater : env.later.log = {} := henv
      obtain ⟨hret, hsane, href⟩ :=
        Store.set_refines hs h hkey (hs.fits_lookup hfound) stamp hlater
      simp only [hret]
      exact ⟨rfl, hsane, href⟩

theorem Store.sweepExpired_refines {s : Store} {m : RefMap} (hs : s.Sane) {env : Env}
    (h : s.Refines (env.clock 0).wall m) (budget : Nat) :
    (s.sweepExpired budget env).store.Sane ∧
      (s.sweepExpired budget env).store.Refines (env.clock 0).wall m :=
  ⟨⟨hs.tables, Memtable.fits_sweepExpired hs.fits⟩, h.of_same fun key =>
    SameFrom.or (Memtable.find_sweepExpired _ _ _ key) (.refl _)⟩

theorem Store.maybeCompact_refines {s : Store} {m : RefMap} (hs : s.Sane) {env : Env}
    (h : s.Refines (env.clock 0).wall m) (d : Disk) :
    (s.maybeCompact d env).store.Sane ∧
      (s.maybeCompact d env).store.Refines (env.clock 0).wall m := by
  rw [Store.maybeCompact]
  split
  · exact ⟨hs, h⟩
  · next first len _ =>
      obtain ⟨ess, hess⟩ := hs.tables
      obtain ⟨out, hout, hcases⟩ := Store.compactRun_cases hess first len env
      obtain ⟨hsane, hsame⟩ := hcases.same hs hess hout
      exact ⟨hsane, h.of_same hsame⟩

theorem unlinkAll_ok {unlink : Nat → Bool} (h : ∀ n, unlink n = true) :
    ∀ (n : Nat) (paths : List FileName), (unlinkAll unlink n paths).1 = true := by
  intro n paths
  induction paths generalizing n with
  | nil => rfl
  | cons path paths ih => rw [unlinkAll, ih (n + 1), h n]; rfl

theorem Store.flushAll_refines {s : Store} {env : Env} (henv : env.FlushAllSucceeds)
    (t : Int64) :
    (s.flushAll env).ret = true ∧ (s.flushAll env).store.Sane ∧
      (s.flushAll env).store.Refines t RefMap.empty := by
  have hcut : (Store.onLog { s with sstables := [] } fun w =>
      w.truncate (env.clock 0) env.flushAll.truncate).ret = true :=
    Store.onLog_ret fun w => by rw [henv.truncate]; exact w.truncate_ok _
  rw [Store.flushAll]
  simp only [unlinkAll_ok henv.unlink, henv.fsyncDir, hcut]
  rw [if_neg (by simp), if_neg (by decide), Store.onLog_store]
  refine ⟨rfl, ⟨⟨[], .nil⟩, fun k e he => by cases he⟩, fun key => ?_⟩
  exact .refl _

/-- One call keeps store and map together, and answers as the map does. -/
theorem Store.call_refines {s : Store} {m : RefMap} {now upTo : Int64} (hs : s.Sane)
    (h : s.Refines now m) {c : Call} (hc : c.Fits) {env : Env} (hlog : env.log = {})
    (hall : c = .flushAll → env.FlushAllSucceeds)
    (hclock : ∀ n, now ≤ (env.clock n).wall ∧ (env.clock n).wall ≤ upTo) (hupTo : now ≤ upTo)
    (d : Disk) :
    (s.call d env c).ret.visible = (m.call env c).2 ∧ (s.call d env c).store.Sane ∧
      (s.call d env c).store.Refines upTo (m.call env c).1 := by
  have hfrom := fun n => (hclock n).1
  cases c with
  | set key value stamp =>
      obtain ⟨hret, hsane, href⟩ := Store.set_refines hs h hc.1 hc.2 stamp hlog
      exact ⟨by show some (Reply.set _) = _; rw [hret]; rfl, hsane, href.mono hupTo⟩
  | del key =>
      obtain ⟨hret, hsane, href⟩ := Store.del_refines hs h hc hlog (hfrom 0)
      exact ⟨by show some (Reply.del _) = _; rw [hret]; rfl, hsane, href.mono hupTo⟩
  | delMany keys =>
      obtain ⟨hret, hsane, href⟩ := Store.delMany_refines hs h hc hlog hfrom
      exact ⟨by show some (Reply.delMany _) = _; rw [hret]; rfl, hsane, href.mono hupTo⟩
  | expire key stamp =>
      obtain ⟨hret, hsane, href⟩ := Store.expire_refines hs h hc stamp hlog (hfrom 0)
      exact ⟨hret, hsane, href.mono hupTo⟩
  | flush =>
      obtain ⟨hsane, hsame⟩ := (Store.flush_cases hs (env.clock 0) env.flush).same hs
      exact ⟨rfl, hsane, (h.of_same (hsame now)).mono hupTo⟩
  | sweepExpired budget =>
      obtain ⟨hsane, href⟩ := Store.sweepExpired_refines hs (h.mono (hfrom 0)) budget
      exact ⟨rfl, hsane, href.mono (hclock 0).2⟩
  | maybeCompact =>
      obtain ⟨hsane, href⟩ := Store.maybeCompact_refines hs (h.mono (hfrom 0)) d
      exact ⟨rfl, hsane, href.mono (hclock 0).2⟩
  | flushAll =>
      obtain ⟨hret, hsane, href⟩ := Store.flushAll_refines (hall rfl) upTo
      exact ⟨by show some (Reply.flushAll _) = _; rw [hret]; rfl, hsane, href⟩

/-! ## Runs -/

/-- A run keeps store and map together, and answers as the map does. -/
theorem Engine.run_refines {last : Int64} :
    ∀ (steps : List Step) {e : Engine} {m : RefMap} {now : Int64}, e.store.Sane →
      e.store.Refines now m → Timely now steps last →
      (∀ step ∈ steps, step.1.Fits ∧ Step.Succeeds step) →
      (e.replies steps).map Reply.visible = m.replies steps ∧ (e.run steps).store.Sane ∧
        (e.run steps).store.Refines last (m.run steps) := by
  intro steps
  induction steps with
  | nil => intro e m now hs h htime _; exact ⟨rfl, hs, h.mono htime⟩
  | cons step steps ih =>
      intro e m now hs h htime hall
      obtain ⟨upTo, hclock, hupTo, hrest⟩ := htime
      obtain ⟨hfits, hlog, hflush⟩ := hall step List.mem_cons_self
      obtain ⟨hret, hsane, href⟩ :=
        Store.call_refines hs h hfits hlog hflush hclock hupTo e.disk
      obtain ⟨hrets, hsane', href'⟩ := ih (e := e.step step) hsane href hrest
        fun step' hstep' => hall step' (List.mem_cons_of_mem _ hstep')
      refine ⟨?_, hsane', href'⟩
      rw [Engine.replies, RefMap.replies, List.map_cons, hrets]
      exact congrArg (· :: _) hret

/-- A store that has just been made. -/
def Store.fresh (options : StoreOptions) (wal : Option Wal) : Store := { options, wal }

theorem Store.fresh_sane (options : StoreOptions) (wal : Option Wal) :
    (Store.fresh options wal).Sane := ⟨⟨[], .nil⟩, fun k e he => by cases he⟩

theorem Store.fresh_refines (options : StoreOptions) (wal : Option Wal) (now : Int64) :
    (Store.fresh options wal).Refines now RefMap.empty := fun _ => .refl _

/-- A layered store refines a plain map. From a store and a map that agree from
`now` on, whatever calls are made, with a clock that does not go backwards:
from the last reading on, every lookup shows what the map shows, and every
answer was the map's. -/
theorem store_refines_map (e : Engine) (m : RefMap) (now last : Int64) (steps : List Step)
    (hs : e.store.Sane)
    (h : ∀ t, now ≤ t → ∀ key, e.store.lookup t key = m.lookup t key)
    (htime : Timely now steps last)
    (hsteps : ∀ step ∈ steps, step.1.Fits ∧ Step.Succeeds step) :
    (e.replies steps).map Reply.visible = m.replies steps ∧
      ∀ t, last ≤ t → ∀ key,
        (e.run steps).store.lookup t key = (m.run steps).lookup t key := by
  have href : e.store.Refines now m := by
    intro key t ht
    rw [← RefMap.lookup_eq]
    exact h t ht key
  obtain ⟨hrets, _, href'⟩ := Engine.run_refines steps hs href htime hsteps
  exact ⟨hrets, fun t ht key => href'.lookup ht key⟩

/-- A key is written, flushed, overwritten with a stamp and merged over, and
shows the last write until its stamp has passed. -/
theorem store_refines_map_run :
    let e : Engine := ⟨Store.fresh { memtableLimitBytes := 0 } (some {}), {}⟩
    let steps : List Step := [(.set [1] [7] 0, Env.at 1), (.del [2], Env.at 2),
      (.expire [1] 9, Env.at 3), (.set [3] [8] 0, Env.at 4), (.maybeCompact, Env.at 5),
      (.delMany [[3], [2], [3]], Env.at 6)]
    (e.run steps).store.lookup 8 [1] = some ⟨[7], 9⟩ ∧
      (e.run steps).store.lookup 9 [1] = none ∧
      (e.replies steps).map Reply.visible =
        [some (.set true), some (.del ⟨true, false⟩), some (.expire ⟨true, true⟩),
          some (.set true), none, some (.delMany ⟨true, 1⟩)] := by
  intro e steps
  have htime : Timely 0 steps 6 :=
    .stand _ (by decide) (.stand _ (by decide) (.stand _ (by decide) (.stand _ (by decide)
      (.stand _ (by decide) (.stand _ (by decide) (le_refl (6 : Int64)))))))
  have hsteps : ∀ step ∈ steps, step.1.Fits ∧ Step.Succeeds step := by
    intro step hstep
    simp only [steps, List.mem_cons, List.not_mem_nil, or_false] at hstep
    rcases hstep with rfl | rfl | rfl | rfl | rfl | rfl <;>
      exact ⟨by simp [Call.Fits], rfl, fun _ => ⟨fun _ => rfl, rfl, rfl⟩⟩
  obtain ⟨hrets, hfind⟩ := store_refines_map e RefMap.empty 0 6 steps
    (Store.fresh_sane _ _) (fun t ht key => (Store.fresh_refines _ _ 0).lookup ht key)
    htime hsteps
  exact ⟨(hfind 8 (by decide) [1]).trans (by decide),
    (hfind 9 (by decide) [1]).trans (by decide), hrets.trans (by decide)⟩

end Cachedb
