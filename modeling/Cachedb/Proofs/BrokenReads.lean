import Cachedb.Proofs.CrashRecovery

/-!
# Lookups whose reads fail

`Sstable::get` has one answer for a key it does not hold and for a block it
could not read, and `Store::lookup` goes on to the next older table on both.
So a failed read uncovers what the table was there to hide. When that shows is
a matter of the tables behind it: `read_error_hides_nothing_iff` says that no
failure can surface anything exactly if no table behind one that holds the key
has a version of it that is still alive.
-/

namespace Cachedb

/-- The block `Sstable::get` reads for a key, as offset and length, unless it
answers without reading. -/
def Sstable.block (t : Sstable) (key : Bytes) : Option (Nat × Nat) :=
  if t.useBloom && !Bloom.mayContain t.bloom key then none
  else if t.index.isEmpty then none
  else
    let it := upperBound key t.index
    if it = 0 then none
    else
      let start := (t.index.getD (it - 1) ⟨[], 0⟩).offset
      let stop := if it - 1 + 1 < t.index.length then (t.index.getD (it - 1 + 1) ⟨[], 0⟩).offset
        else t.dataEnd
      if stop ≤ start then none else some (start, stop - start)

theorem Sstable.getWith_eq (t : Sstable) (read : Nat → Nat → Option Bytes) (key : Bytes) :
    t.getWith read key = (t.block key).bind fun b =>
      (read b.1 b.2).bind fun block => scanBlock key block.length block := by
  rw [Sstable.getWith, Sstable.block]
  split
  · rfl
  · split
    · rfl
    · simp only []
      split
      · rfl
      · generalize (if upperBound key t.index - 1 + 1 < t.index.length then _
          else t.dataEnd) = stop
        split
        · rfl
        · rw [Option.bind_some]
          cases read _ _ <;> rfl

theorem Sstable.getWith_none (t : Sstable) (key : Bytes) :
    t.getWith (fun _ _ => none) key = none := by
  rw [Sstable.getWith_eq]
  cases t.block key <;> rfl

/-- What a table that could be read answers is what it holds. -/
theorem Sstable.get_of_getWith {t : Sstable} {read : Nat → Nat → Option Bytes} {key : Bytes}
    {e : Entry} (hread : ReadsFrom t.file read) (h : t.getWith read key = some e) :
    t.get key = some e := by
  rw [Sstable.getWith_eq] at h
  obtain ⟨b, hb, h⟩ := Option.bind_eq_some_iff.mp h
  obtain ⟨block, hblock, h⟩ := Option.bind_eq_some_iff.mp h
  have hfile := (hread b.1 b.2).resolve_left (by rw [hblock]; simp)
  rw [Sstable.get, Sstable.getWith_eq, hb, Option.bind_some, ← hfile, hblock]
  exact h

/-- The first table that answers decides. -/
theorem findTables_eq_some_iff {key : Bytes} {e : Entry} :
    ∀ {ts : List Sstable} {reads : Nat → Nat → Nat → Option Bytes},
      findTables reads key ts = some e ↔
        ∃ (m : Nat) (t : Sstable), ts[m]? = some t ∧ t.getWith (reads m) key = some e ∧
          ∀ i < m, ∀ t' : Sstable, ts[i]? = some t' → t'.getWith (reads i) key = none
  | [], reads => by simp [findTables]
  | t :: ts, reads => by
      rw [findTables]
      cases hget : t.getWith (reads 0) key with
      | some e' =>
          rw [Option.some_or]
          constructor
          · rintro ⟨⟩
            exact ⟨0, t, rfl, hget, fun i hi => absurd hi (Nat.not_lt_zero i)⟩
          · rintro ⟨m, t', hm, he, hnone⟩
            cases m with
            | zero =>
                injection hm with hm
                rw [← hm, hget] at he
                exact he
            | succ m =>
                have := hnone 0 (Nat.succ_pos m) t rfl
                rw [hget] at this
                cases this
      | none =>
          rw [Option.none_or, findTables_eq_some_iff]
          constructor
          · rintro ⟨m, t', hm, he, hnone⟩
            refine ⟨m + 1, t', hm, he, fun i hi t'' ht'' => ?_⟩
            cases i with
            | zero =>
                injection ht'' with ht''
                rw [← ht'']
                exact hget
            | succ i => exact hnone i (by omega) t'' ht''
          · rintro ⟨m, t', hm, he, hnone⟩
            cases m with
            | zero =>
                injection hm with hm
                rw [← hm, hget] at he
                cases he
            | succ m => exact ⟨m, t', hm, he, fun i hi => hnone (i + 1) (by omega)⟩

theorem findTables_readExact (key : Bytes) :
    ∀ {ts : List Sstable} {reads : Nat → Nat → Nat → Option Bytes},
      (∀ (i : Nat) (t : Sstable), ts[i]? = some t → reads i = readExact t.file) →
      findTables reads key ts = ts.findSome? fun t => t.get key
  | [], _, _ => rfl
  | t :: ts, reads, h => by
      have hhead : reads 0 = readExact t.file := h 0 t rfl
      have hrest : findTables (fun n => reads (n + 1)) key ts = ts.findSome? fun t => t.get key :=
        findTables_readExact key fun i t' ht' => h (i + 1) t' ht'
      rw [findTables, hhead, hrest, List.findSome?_cons, Sstable.get]
      cases t.getWith (readExact t.file) key <;> rfl

/-- Where no read fails this is `lookup`. -/
theorem Store.lookupWith_readExact {s : Store} {reads : Nat → Nat → Nat → Option Bytes}
    (h : ∀ (i : Nat) (t : Sstable), s.sstables[i]? = some t → reads i = readExact t.file)
    (now : Int64) (key : Bytes) : s.lookupWith reads now key = s.lookup now key := by
  rw [Store.lookupWith, findTables_readExact key h, Store.lookup, Store.find]

/-- A lookup of `key` comes to table `n`, which holds an entry for it, and the
read of its block fails. -/
structure Store.ReadFails (s : Store) (reads : Nat → Nat → Nat → Option Bytes) (key : Bytes)
    (n : Nat) (t : Sstable) : Prop where
  table : s.sstables[n]? = some t
  fresh : s.memtable.find key = none
  silent : ∀ i < n, ∀ t', s.sstables[i]? = some t' → t'.getWith (reads i) key = none
  holds : t.get key ≠ none
  fails : ∃ b, t.block key = some b ∧ reads n b.1 b.2 = none

theorem Store.ReadFails.silent_here {s : Store} {reads : Nat → Nat → Nat → Option Bytes}
    {key : Bytes} {n : Nat} {t : Sstable} (h : s.ReadFails reads key n t) :
    t.getWith (reads n) key = none := by
  obtain ⟨b, hb, hnone⟩ := h.fails
  rw [Sstable.getWith_eq, hb, Option.bind_some, hnone]
  rfl

/-- What answers after a failed read is a table behind the one that failed. -/
theorem Store.ReadFails.behind {s : Store} {reads : Nat → Nat → Nat → Option Bytes} {key : Bytes}
    {n : Nat} {t : Sstable} {e : Entry} (h : s.ReadFails reads key n t)
    (hfind : findTables reads key s.sstables = some e) :
    ∃ (m : Nat) (t' : Sstable), n < m ∧ s.sstables[m]? = some t' ∧
      t'.getWith (reads m) key = some e := by
  obtain ⟨m, t', ht', he, -⟩ := findTables_eq_some_iff.mp hfind
  refine ⟨m, t', ?_, ht', he⟩
  rcases Nat.lt_trichotomy n m with hlt | rfl | hlt
  · exact hlt
  · have hsame := ht'.symm.trans h.table
    injection hsame with hsame
    rw [hsame, h.silent_here] at he
    cases he
  · rw [h.silent m hlt t' ht'] at he
    cases he

/-! ## One table that can be read -/

/-- Every read fails but those of table `j`, which is `t`. -/
def onlyTable (j : Nat) (t : Sstable) (n : Nat) : Nat → Nat → Option Bytes :=
  if n = j then readExact t.file else fun _ _ => none

section OnlyTable

variable {s : Store} {key : Bytes} {j : Nat} {t' : Sstable}

theorem onlyTable_self (j : Nat) (t : Sstable) : onlyTable j t j = readExact t.file := if_pos rfl

theorem onlyTable_other {m : Nat} (h : m ≠ j) (t : Sstable) :
    onlyTable j t m = fun _ _ => none := if_neg h

theorem onlyTable_readsFrom (ht' : s.sstables[j]? = some t') (m : Nat) (t : Sstable)
    (ht : s.sstables[m]? = some t) : ReadsFrom t.file (onlyTable j t' m) := by
  by_cases hm : m = j
  · subst hm
    have hsame := ht.symm.trans ht'
    injection hsame with hsame
    rw [onlyTable_self, hsame]
    exact fun _ _ => .inr rfl
  · rw [onlyTable_other hm]
    exact fun _ _ => .inl rfl

theorem onlyTable_silent {m : Nat} (h : m ≠ j) (t : Sstable) :
    t.getWith (onlyTable j t' m) key = none := by
  rw [onlyTable_other h]
  exact t.getWith_none key

/-- Then a table before it that holds the key fails. -/
theorem onlyTable_fails {i : Nat} {t : Sstable} (hij : i < j) (ht : s.sstables[i]? = some t)
    (hmem : s.memtable.find key = none) (hget : t.get key ≠ none) :
    s.ReadFails (onlyTable j t') key i t := by
  refine ⟨ht, hmem, fun m hm t₀ _ => onlyTable_silent (by omega) t₀, hget, ?_⟩
  cases hb : t.block key with
  | none =>
      rw [Sstable.get, Sstable.getWith_eq, hb] at hget
      exact absurd rfl hget
  | some b => exact ⟨b, rfl, by rw [onlyTable_other (by omega)]⟩

/-- And the lookup shows what it holds. -/
theorem onlyTable_find {e : Entry} (ht' : s.sstables[j]? = some t') (h : t'.get key = some e) :
    findTables (onlyTable j t') key s.sstables = some e := by
  refine findTables_eq_some_iff.mpr ⟨j, t', ht', ?_, fun m hm t₀ _ =>
    onlyTable_silent (by omega) t₀⟩
  rw [onlyTable_self]
  exact h

end OnlyTable

/-! ## When nothing surfaces -/

/-- No failed read of a table that holds the key ever leads to a value from an
older table, exactly if no table behind one that holds the key has a live
version of it, or the memtable answers. -/
theorem read_error_hides_nothing_iff (s : Store) (now : Int64) (key : Bytes) :
    (∀ reads, (∀ i t, s.sstables[i]? = some t → ReadsFrom t.file (reads i)) →
      ∀ n t, s.ReadFails reads key n t → s.lookupWith reads now key = none) ↔
    (s.memtable.find key = none → ∀ (i j : Nat) (t t' : Sstable), i < j →
      s.sstables[i]? = some t → s.sstables[j]? = some t' → t.get key ≠ none →
      (t'.get key).bind (Entry.view now) = none) := by
  constructor
  · intro hsafe hmem i j t t' hij ht ht' hget
    have hlook := hsafe _ (onlyTable_readsFrom ht') i t (onlyTable_fails hij ht hmem hget)
    cases hshown : t'.get key with
    | none => rfl
    | some e =>
        rw [Store.lookupWith, hmem, onlyTable_find ht' hshown] at hlook
        exact hlook
  · intro hdead reads hreads n t hfails
    rw [Store.lookupWith, hfails.fresh, Option.none_or]
    cases hfind : findTables reads key s.sstables with
    | none => rfl
    | some e =>
        obtain ⟨m, t', hlt, ht', he⟩ := hfails.behind hfind
        have hview := hdead hfails.fresh n m t t' hlt hfails.table ht' hfails.holds
        rw [Sstable.get_of_getWith (hreads m t' ht') he] at hview
        exact hview

/-- Two tables: the older sets a key, the newer deletes it. -/
def deletedKey : Engine :=
  ((freshStart { options := { memtableLimitBytes := 0 } }).engine {}).run
    [(.set [1] [7] 0, Env.at 1), (.del [1], Env.at 2)]

/-- The newest table cannot be read. -/
def newestBroken (s : Store) (n : Nat) : Nat → Nat → Option Bytes :=
  if n = 0 then fun _ _ => none
  else readExact ((s.sstables.map (·.file)).getD n [])

/-- The deleted value comes back when the read of the tombstone's block
fails. -/
theorem read_error_surfaces_deleted :
    (∀ i t, deletedKey.store.sstables[i]? = some t →
        ReadsFrom t.file (newestBroken deletedKey.store i)) ∧
      (∃ t, deletedKey.store.ReadFails (newestBroken deletedKey.store) [1] 0 t) ∧
      deletedKey.store.lookup 3 [1] = none ∧
      deletedKey.store.lookupWith (newestBroken deletedKey.store) 3 [1] = some ⟨[7], 0⟩ := by
  refine ⟨fun i t h => ?_, ?_, by decide +kernel, by decide +kernel⟩
  · rw [newestBroken]
    split
    · exact fun _ _ => .inl rfl
    · rw [List.getD_eq_getElem?_getD, List.getElem?_map, h]
      exact fun _ _ => .inr rfl
  · obtain ⟨t, ht⟩ : ∃ t, deletedKey.store.sstables[0]? = some t :=
      Option.isSome_iff_exists.mp (by decide +kernel)
    have hholds : (deletedKey.store.sstables[0]?.bind (·.get [1])).isSome = true := by
      decide +kernel
    have hblock : (deletedKey.store.sstables[0]?.bind (·.block [1])).isSome = true := by
      decide +kernel
    rw [ht] at hholds hblock
    obtain ⟨b, hb⟩ := Option.isSome_iff_exists.mp hblock
    exact ⟨t, ht, by decide +kernel, fun i hi => absurd hi (Nat.not_lt_zero i),
      Option.isSome_iff_ne_none.mp hholds, b, hb, rfl⟩

end Cachedb
