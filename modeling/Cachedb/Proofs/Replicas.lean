import Cachedb.Proofs.PlainServer

/-!
# A full merge is canonical

A merge that reaches the oldest table keeps, of every key, the version a lookup
would show and nothing else: no tombstone, no lapsed entry, no older version.
So the table it writes depends on what the store shows and not on how the store
came to show it. Two servers that answer alike, with whatever thresholds,
filters and merges behind them, write the same bytes.
-/

namespace Cachedb

open KMerge Layers

/-- A merge with nothing below it keeps what a lookup shows. -/
theorem keepEntry_true (now : Int64) (e : Entry) :
    keepEntry true now e = (e.view now).map Found.entry := by
  obtain ⟨value, tombstone, stamp⟩ := e
  cases tombstone with
  | true => rfl
  | false =>
      simp only [keepEntry, Entry.obsolete, Entry.view, Entry.stored, Bool.true_and,
        Bool.false_or, Bool.false_eq_true, if_false]
      split <;> rfl

/-- What a full merge writes is given by what the tables show. -/
theorem compact_canonical {ts ts' : List Sstable} {ess ess' : List (List (Bytes × Entry))}
    (h : List.Forall₂ Sstable.Holds ts ess) (h' : List.Forall₂ Sstable.Holds ts' ess')
    {now : Int64}
    (hsame : ∀ key, (firstIn key ess).bind (Entry.view now) =
      (firstIn key ess').bind (Entry.view now)) (bits : Int) :
    (compact ts bits true now).file = (compact ts' bits true now).file ∧
      (compact ts bits true now).written = (compact ts' bits true now).written := by
  obtain ⟨out, hout, heq⟩ := compact_eq h bits true now
  obtain ⟨out', hout', heq'⟩ := compact_eq h' bits true now
  have hkept : ∀ (key : Bytes) (rs : List (List (Bytes × Entry))),
      (firstIn key rs).bind (keepEntry true now) =
        ((firstIn key rs).bind (Entry.view now)).map Found.entry := by
    intro key rs
    cases firstIn key rs with
    | none => rfl
    | some e => exact keepEntry_true now e
  obtain rfl : out = out' := by
    refine SortedMap.eq_of_findIn_eq hout.sorted hout'.sorted fun key => ?_
    rw [hout.find, hout'.find, hkept, hkept, hsame]
  rw [heq, heq']
  exact ⟨rfl, rfl⟩

/-- With nothing in memory a store shows what its tables show. -/
theorem Store.lookup_tables {s : Store} (hempty : s.memtable.isEmpty = true)
    {ess : List (List (Bytes × Entry))} (h : List.Forall₂ Sstable.Holds s.sstables ess)
    (now : Int64) (key : Bytes) :
    s.lookup now key = (firstIn key ess).bind (Entry.view now) := by
  have hnone : s.memtable.find key = none := by
    rw [Memtable.find, SortedMap.find, List.isEmpty_iff.mp hempty]
    rfl
  rw [Store.lookup, Store.find, hnone, Option.none_or, findSome?_get h]
  cases firstIn key ess with
  | none => rfl
  | some e => exact e.view_settled now

/-- A flush that empties the memory of a store leaves a store whose full merge
writes what the map shows. -/
theorem Store.flush_shows {s : Store} (hs : s.Sane) {last : Int64} {m : RefMap}
    (href : s.Refines last m) (r : Reading) (fate : FlushFate)
    (hempty : (s.flush r fate).store.memtable.isEmpty = true) :
    ∃ ess, List.Forall₂ Sstable.Holds (s.flush r fate).store.sstables ess ∧
      ∀ t, last ≤ t → ∀ key, (firstIn key ess).bind (Entry.view t) = m.lookup t key := by
  obtain ⟨hsane, hsame⟩ := (Store.flush_cases hs r fate).same hs
  obtain ⟨ess, hess⟩ := hsane.tables
  refine ⟨ess, hess, fun t ht key => ?_⟩
  rw [← Store.lookup_tables hempty hess]
  exact (href.of_same fun key => hsame last key).lookup ht key

/-- Two servers with any settings, on directories that show the same, are given
the same turns. Then both are flushed, and all tables of each are merged at the
same moment. The two tables written are the same byte for byte. -/
theorem replicas_converge {cfg cfg' : Config} {d d' : Disk} {boot boot' : Reading}
    {o o' : Outcome Unit} (hd : d.Sane) (hd' : d'.Sane) (hdir : cfg.options.hasDir = true)
    (hdir' : cfg'.options.hasDir = true) (h : startup cfg d boot = some o)
    (h' : startup cfg' d' boot' = some o') {now last : Int64}
    (hsame : ∀ t key, now ≤ t → d.lookup t key = d'.lookup t key)
    (its : List Iteration) (htimed : Iteration.AllTimed now its last)
    (hworks : ∀ it ∈ its, it.Works)
    (hasked : ∀ cmd ∈ ((o.serve d).run its).commands ++ ((o'.serve d').run its).commands,
      ¬cmd.IsNamed "info" ∧ ¬cmd.IsNamed "config")
    (hok : ((o.serve d).run its).ok = true) (hok' : ((o'.serve d').run its).ok = true)
    (r r' : Reading) (fate fate' : FlushFate)
    (hflushed : (((o.serve d).run its).server.engine.store.flush r
      fate).store.memtable.isEmpty = true)
    (hflushed' : (((o'.serve d').run its).server.engine.store.flush r'
      fate').store.memtable.isEmpty = true) (bits : Int) (t : Int64) (ht : last ≤ t) :
    let merged := compact
      (((o.serve d).run its).server.engine.store.flush r fate).store.sstables bits true t
    let merged' := compact
      (((o'.serve d').run its).server.engine.store.flush r' fate').store.sstables bits true t
    merged.file = merged'.file ∧ merged.written = merged'.written := by
  obtain ⟨p, hshows, hshows', _, _⟩ :=
    startup_run_same hd hd' hdir hdir' h h' hsame htimed hworks hasked hok hok'
  obtain ⟨ess, hess, hlookup⟩ :=
    Store.flush_shows hshows.store.sane hshows.store.refines r fate hflushed
  obtain ⟨ess', hess', hlookup'⟩ :=
    Store.flush_shows hshows'.store.sane hshows'.store.refines r' fate' hflushed'
  exact compact_canonical hess hess'
    (fun key => (hlookup t ht key).trans (hlookup' t ht key).symm) bits

/-- A server that flushes every write. -/
def flushesAll : Config := { options := { memtableLimitBytes := 0, useBloom := false } }

/-- One server flushed the key when it was set, the other does so now. -/
theorem replicas_converge_set :
    (((freshStart flushesAll).serve {}).run oneSet).server.engine.store.sstables.length = 1 ∧
      (((freshStart {}).serve {}).run oneSet).server.engine.store.sstables.length = 0 ∧
      (compact ((((freshStart flushesAll).serve {}).run oneSet).server.engine.store.flush {}
          {}).store.sstables 10 true 0).file =
        (compact ((((freshStart {}).serve {}).run oneSet).server.engine.store.flush {}
          {}).store.sstables 10 true 0).file := by
  have hcmds : (((freshStart flushesAll).serve {}).run oneSet).commands ++
      (((freshStart {}).serve {}).run oneSet).commands =
        [[text "SET", text "k", text "v"], [text "SET", text "k", text "v"]] := by
    decide +kernel
  have hsane : Disk.Sane {} := fun p hp => by cases hp
  have hstart : startup flushesAll {} {} = some (freshStart flushesAll) := startup_empty rfl
  have hstart' : startup {} {} {} = some (freshStart {}) := startup_empty rfl
  have hsame : ∀ t key, (0 : Int64) ≤ t → Disk.lookup {} t key = Disk.lookup {} t key :=
    fun _ _ _ => rfl
  have hmerged := replicas_converge hsane hsane rfl rfl hstart hstart' hsame oneSet oneSet_timed
    oneSet_works (by rw [hcmds]; decide) (by decide +kernel) (by decide +kernel) {} {} {} {}
    (by decide +kernel) (by decide +kernel) 10 0 (le_refl _)
  exact ⟨by decide +kernel, by decide +kernel, hmerged.1⟩

end Cachedb
