import Cachedb.Proofs.TableWrite

/-!
# What a written table says when it is read

Reading is followed in the order the reader works: the footer, the index
block, the search for the one run that can hold a key, the scan of that run.
`Sstable.Holds` is what the rest of the development knows about an open table:
it answers every lookup as its list of entries does, and its cursor walks
exactly those entries.

The index block begins with the number of its entries, of which the file has 32
bits. A reader that is told too small a number takes the first entries for all
of them, and the last one it takes then stands for everything up to the end of
the data, so that nothing is lost; unless it is told that there are none. So a
table is read as it was written except when its index entries are a multiple of
2^32 (`openTable_written`), and never in a file of no more than
`indexableBytes` (`openTable_writeTable`).
-/

namespace Cachedb

/-! ## The index block -/

theorem parseIndex_bytes {dataEnd : Nat} (hend : dataEnd < 2 ^ 64) :
    ∀ (index : List IndexEntry) (n : Nat), n ≤ index.length →
      (∀ e ∈ index, e.key.length < 2 ^ 32 ∧ e.offset ≤ dataEnd) →
      parseIndex dataEnd n (index.flatMap indexEntryBytes) = some (index.take n) := by
  intro index
  induction index with
  | nil =>
      intro n hn _
      rw [Nat.le_zero.mp hn]
      rfl
  | cons e index ih =>
      intro n hn hall
      cases n with
      | zero => rfl
      | succ n =>
      obtain ⟨hkey, hoff⟩ := hall e List.mem_cons_self
      have htail := ih n (Nat.le_of_succ_le_succ hn) fun e' he' =>
        hall e' (List.mem_cons_of_mem _ he')
      have hsplit : (e :: index).flatMap indexEntryBytes =
          putU32 e.key.length ++ (e.key ++ (putU64 e.offset ++
            index.flatMap indexEntryBytes)) := by
        simp [indexEntryBytes]
      have hklen : loadU32 ((e :: index).flatMap indexEntryBytes) = e.key.length := by
        rw [hsplit]; exact loadU32_putU32 hkey _
      have hdrop : ((e :: index).flatMap indexEntryBytes).drop (4 + e.key.length) =
          putU64 e.offset ++ index.flatMap indexEntryBytes := by
        rw [hsplit, ← List.drop_drop, List.drop_left' (by simp), List.drop_left' rfl]
      have hlen : ((e :: index).flatMap indexEntryBytes).length =
          4 + e.key.length + 8 + (index.flatMap indexEntryBytes).length := by
        rw [hsplit]
        simp only [List.length_append, length_putU32, length_putU64]
        omega
      have hname : (((e :: index).flatMap indexEntryBytes).drop 4).take e.key.length =
          e.key := by
        rw [hsplit, List.drop_left' (by simp), List.take_left' rfl]
      have hrest : ((e :: index).flatMap indexEntryBytes).drop (4 + e.key.length + 8) =
          index.flatMap indexEntryBytes := by
        rw [← List.drop_drop, hdrop, List.drop_left' (by simp)]
      rw [parseIndex, if_neg (by omega), hklen, if_neg (by omega), hdrop,
        loadU64_putU64 (by omega), if_neg (by omega), hname, hrest, htail]
      rfl

/-- Every offset of a run's index stays within the data, and every key is the
key of an entry. -/
theorem mem_runIndex {offset : Nat} {runs : List (List (Bytes × Entry))} {x : IndexEntry}
    (hne : ∀ run ∈ runs, run ≠ []) (h : x ∈ runIndex offset runs) :
    x.offset ≤ offset + (dataBlock runs.flatten).length ∧
      ∃ e, (x.key, e) ∈ runs.flatten := by
  induction runs generalizing offset with
  | nil => cases h
  | cons run runs ih =>
      rw [List.flatten_cons, dataBlock_append, List.length_append]
      rcases List.mem_cons.mp h with rfl | h
      · obtain ⟨p, ps, rfl⟩ := List.exists_cons_of_ne_nil (hne run List.mem_cons_self)
        exact ⟨by show offset ≤ _; omega, p.2, by simp⟩
      · obtain ⟨hoff, e, he⟩ := ih (fun r hr => hne r (List.mem_cons_of_mem _ hr)) h
        exact ⟨by omega, e, List.mem_append_right _ he⟩

/-- A position of a list splits it. -/
theorem exists_split_at {α : Type _} {xs : List α} {i : Nat} (h : i < xs.length) :
    ∃ front x back, xs = front ++ x :: back ∧ front.length = i :=
  ⟨xs.take i, xs[i], xs.drop (i + 1), by rw [List.getElem_cons_drop, List.take_append_drop],
    List.length_take_of_le (Nat.le_of_lt h)⟩

/-- The first `n + 1` index entries are the index of the runs they stand for,
the last of which takes in all that follow. -/
theorem runIndex_take {runs : List (List (Bytes × Entry))} (hne : ∀ run ∈ runs, run ≠ []) {n : Nat}
    (hn : n < runs.length) :
    ∃ runs' : List (List (Bytes × Entry)), runs'.flatten = runs.flatten ∧
      (∀ run ∈ runs', run ≠ []) ∧ (runIndex 0 runs).take (n + 1) = runIndex 0 runs' := by
  obtain ⟨front, run, back, rfl, rfl⟩ := exists_split_at hn
  obtain ⟨p, ps, rfl⟩ := List.exists_cons_of_ne_nil (hne run (by simp))
  refine ⟨front ++ [(p :: ps) ++ back.flatten], by simp, fun r hr => ?_, ?_⟩
  · rcases List.mem_append.mp hr with hr | hr
    · exact hne r (List.mem_append_left _ hr)
    · rw [List.mem_singleton.mp hr]
      exact List.cons_ne_nil _ _
  · rw [runIndex_append, runIndex_append, List.take_append, length_runIndex,
      List.take_of_length_le (by rw [length_runIndex]; omega), Nat.add_sub_cancel_left]
    rfl

/-! ## The search -/

/-- `upper_bound` finds the partition point, when there is one between its
bounds. -/
theorem upperBoundLoop_spec {key : Bytes} {index : List IndexEntry} :
    ∀ (fuel first len : Nat), len ≤ fuel → first + len ≤ index.length →
      (∀ i, i < first → (index.getD i ⟨[], 0⟩).key ≤ key) →
      (∀ i, first + len ≤ i → i < index.length → key < (index.getD i ⟨[], 0⟩).key) →
      (∀ i j, i ≤ j → j < index.length →
        (index.getD i ⟨[], 0⟩).key ≤ (index.getD j ⟨[], 0⟩).key) →
      upperBoundLoop key index fuel first len ≤ index.length ∧
        (∀ i, i < upperBoundLoop key index fuel first len →
          (index.getD i ⟨[], 0⟩).key ≤ key) ∧
        (∀ i, upperBoundLoop key index fuel first len ≤ i → i < index.length →
          key < (index.getD i ⟨[], 0⟩).key) := by
  intro fuel
  induction fuel with
  | zero =>
      intro first len hfuel hbound hlow hhigh _
      rw [upperBoundLoop]
      exact ⟨by omega, hlow, fun i hi hlt => hhigh i (by omega) hlt⟩
  | succ fuel ih =>
      intro first len hfuel hbound hlow hhigh hmono
      rw [upperBoundLoop]
      split
      · exact ⟨by omega, hlow, fun i hi hlt => hhigh i (by omega) hlt⟩
      · next hlen =>
          simp only []
          split
          · next hless =>
              refine ih first (len / 2) (by omega) (by omega) hlow ?_ hmono
              intro i hi hlt
              exact lt_of_lt_of_le hless (hmono _ i hi hlt)
          · next hless =>
              refine ih _ _ (by omega) (by omega) ?_ ?_ hmono
              · intro i hi
                exact le_trans (hmono i _ (by omega) (by omega)) (not_lt.mp hless)
              · intro i hi hlt
                exact hhigh i (by omega) hlt

theorem upperBound_spec (key : Bytes) {index : List IndexEntry}
    (hmono : ∀ i j, i ≤ j → j < index.length →
      (index.getD i ⟨[], 0⟩).key ≤ (index.getD j ⟨[], 0⟩).key) :
    upperBound key index ≤ index.length ∧
      (∀ i, i < upperBound key index → (index.getD i ⟨[], 0⟩).key ≤ key) ∧
      (∀ i, upperBound key index ≤ i → i < index.length →
        key < (index.getD i ⟨[], 0⟩).key) :=
  upperBoundLoop_spec _ 0 _ (Nat.le_refl _) (by omega) (fun i hi => absurd hi (by omega))
    (fun i hi hlt => absurd hlt (by omega)) hmono

/-- The index entry of the run behind `front`. -/
theorem getD_runIndex (front : List (List (Bytes × Entry))) (run : List (Bytes × Entry))
    (back : List (List (Bytes × Entry))) :
    (runIndex 0 (front ++ run :: back)).getD front.length ⟨[], 0⟩ =
      ⟨(run.head?.map Prod.fst).getD [], (dataBlock front.flatten).length⟩ := by
  rw [runIndex_append, List.getD_eq_getElem?_getD,
    List.getElem?_append_right (by rw [length_runIndex]), length_runIndex, Nat.sub_self,
    Nat.zero_add]
  rfl

/-- The first keys of the runs ascend with the entries. -/
theorem runIndex_mono {runs : List (List (Bytes × Entry))}
    (hne : ∀ run ∈ runs, run ≠ []) (hs : SortedMap.KeysSorted runs.flatten) :
    ∀ i j, i ≤ j → j < (runIndex 0 runs).length →
      ((runIndex 0 runs).getD i ⟨[], 0⟩).key ≤ ((runIndex 0 runs).getD j ⟨[], 0⟩).key := by
  intro i j hij hj
  rcases Nat.lt_or_ge i j with hlt | hge
  · rw [length_runIndex] at hj
    obtain ⟨front, b, back, rfl, rfl⟩ := exists_split_at hj
    obtain ⟨front', a, mid, rfl, rfl⟩ := exists_split_at hlt
    obtain ⟨q, qs, rfl⟩ := List.exists_cons_of_ne_nil (hne b (by simp))
    obtain ⟨p, ps, rfl⟩ := List.exists_cons_of_ne_nil (hne a (by simp))
    rw [getD_runIndex, List.append_assoc, List.cons_append, getD_runIndex]
    have hsplit : ((front' ++ (p :: ps) :: mid) ++ (q :: qs) :: back).flatten =
        (front' ++ (p :: ps) :: mid).flatten ++ ((q :: qs) :: back).flatten :=
      List.flatten_append
    rw [hsplit] at hs
    have := (SortedMap.keysSorted_append.mp hs).2.2 p (by simp) q (by simp)
    exact le_of_lt this
  · have : i = j := by omega
    rw [this]

/-! ## Lookup -/

/-- The run the search picks decides the lookup. -/
theorem findIn_run {key : Bytes} {front back : List (List (Bytes × Entry))}
    {run : List (Bytes × Entry)}
    (hs : SortedMap.KeysSorted (front ++ run :: back).flatten)
    (hne : ∀ r ∈ front ++ run :: back, r ≠ [])
    (hlow : ((runIndex 0 (front ++ run :: back)).getD front.length ⟨[], 0⟩).key ≤ key)
    (hhigh : ∀ next rest, back = next :: rest →
      key < ((runIndex 0 (front ++ run :: back)).getD (front.length + 1) ⟨[], 0⟩).key) :
    SortedMap.findIn key (front ++ run :: back).flatten = SortedMap.findIn key run := by
  have hsplit : (front ++ run :: back).flatten = front.flatten ++ (run ++ back.flatten) := by
    simp
  obtain ⟨p, ps, hrun⟩ := List.exists_cons_of_ne_nil (hne run (by simp))
  rw [getD_runIndex, hrun] at hlow
  have hfront : SortedMap.findIn key front.flatten = none := by
    refine SortedMap.findIn_eq_none_iff.mpr fun q hq heq => ?_
    rw [hsplit] at hs
    have := (SortedMap.keysSorted_append.mp hs).2.2 q hq p (by rw [hrun]; simp)
    exact absurd (lt_of_lt_of_le this hlow) (by rw [heq]; exact lt_irrefl _)
  have hback : SortedMap.findIn key back.flatten = none := by
    cases hb : back with
    | nil => rfl
    | cons next rest =>
        have hlt := hhigh next rest hb
        obtain ⟨q, qs, hnext⟩ := List.exists_cons_of_ne_nil (hne next (by rw [hb]; simp))
        have hreassoc : front ++ run :: back = (front ++ [run]) ++ next :: rest := by
          rw [hb]; simp
        rw [hreassoc, show front.length + 1 = (front ++ [run]).length by simp,
          getD_runIndex, hnext] at hlt
        have hs' : SortedMap.KeysSorted ((front ++ [run]).flatten ++ (next :: rest).flatten) := by
          rw [← List.flatten_append, ← hreassoc]; exact hs
        refine SortedMap.findIn_eq_none_of_lt fun r hr => ?_
        rw [List.flatten_cons, hnext] at hr hs'
        have htail := (SortedMap.keysSorted_append.mp hs').2.1
        rcases List.mem_cons.mp hr with rfl | hr
        · exact hlt
        · exact lt_trans hlt ((SortedMap.keysSorted_cons.mp htail).1 r hr)
  rw [hsplit, SortedMap.findIn_append, SortedMap.findIn_append, hfront, hback, Option.none_or,
    Option.or_none]

/-- The bytes between a run's offset and the next run's are the run. -/
theorem run_bytes {front back : List (List (Bytes × Entry))} {run : List (Bytes × Entry)}
    {file tail : Bytes}
    (hfile : file = dataBlock (front ++ run :: back).flatten ++ tail) :
    (file.drop (dataBlock front.flatten).length).take (dataBlock run).length =
      dataBlock run := by
  have hsplit : file = dataBlock front.flatten ++ (dataBlock run ++
      (dataBlock back.flatten ++ tail)) := by
    rw [hfile]; simp [dataBlock_append]
  rw [hsplit, List.drop_left' rfl, List.take_left' rfl]

/-- Where the picked run ends: the next run's offset, or the end of the
data. -/
theorem run_stop (front back : List (List (Bytes × Entry))) (run : List (Bytes × Entry)) :
    (if front.length + 1 < (runIndex 0 (front ++ run :: back)).length then
        ((runIndex 0 (front ++ run :: back)).getD (front.length + 1) ⟨[], 0⟩).offset
      else (dataBlock (front ++ run :: back).flatten).length) =
      (dataBlock front.flatten).length + (dataBlock run).length := by
  rw [length_runIndex, List.length_append, List.length_cons]
  cases back with
  | nil =>
      rw [if_neg (by simp)]
      simp [dataBlock_append]
  | cons next rest =>
      rw [if_pos (by simp)]
      have hreassoc : front ++ run :: next :: rest = (front ++ [run]) ++ next :: rest := by
        simp
      rw [hreassoc, show front.length + 1 = (front ++ [run]).length by simp, getD_runIndex]
      simp [dataBlock_append]

/-- A lookup past the filter, in a file that begins with the data block of
`runs`. -/
theorem getWith_runs {t : Sstable} {runs : List (List (Bytes × Entry))} {tail key : Bytes}
    (hne : ∀ run ∈ runs, run ≠ []) (hs : SortedMap.KeysSorted runs.flatten)
    (hfit : ∀ p ∈ runs.flatten, EntryFits p) (hidx : t.index = runIndex 0 runs)
    (hend : t.dataEnd = (dataBlock runs.flatten).length)
    (hfile : t.file = dataBlock runs.flatten ++ tail)
    (hbloom : (t.useBloom && !Bloom.mayContain t.bloom key) = false) :
    t.get key = (SortedMap.findIn key runs.flatten).map Entry.settled := by
  obtain ⟨hle, hlow, hhigh⟩ :=
    upperBound_spec key (runIndex_mono hne hs)
  rw [Sstable.get, Sstable.getWith, if_neg (by rw [hbloom]; exact Bool.false_ne_true), hidx,
    hend]
  cases runs with
  | nil => rfl
  | cons first others =>
      rw [if_neg (by rw [runIndex]; exact Bool.false_ne_true)]
      simp only []
      split
      · next hzero =>
          -- The key lies before the first key of the table.
          obtain ⟨p, ps, rfl⟩ := List.exists_cons_of_ne_nil (hne first List.mem_cons_self)
          have hlt := hhigh 0 (by omega) (by rw [length_runIndex, List.length_cons]; omega)
          rw [SortedMap.findIn_eq_none_of_lt]
          · rfl
          · intro q hq
            rw [List.flatten_cons, List.cons_append] at hq hs
            rcases List.mem_cons.mp hq with rfl | hq
            · exact hlt
            · exact lt_trans hlt ((SortedMap.keysSorted_cons.mp hs).1 q hq)
      · next hpos =>
          generalize hruns : first :: others = runs at *
          generalize hit : upperBound key (runIndex 0 runs) = it at *
          rw [length_runIndex] at hle
          obtain ⟨front, run, back, rfl, hlen⟩ :=
            exists_split_at (show it - 1 < runs.length by omega)
          have hrun : run ≠ [] := hne run (by simp)
          have hpos' : 0 < (dataBlock run).length := by
            have := length_dataBlock_ge run
            have := List.length_pos_of_ne_nil hrun
            omega
          have hstep : it - 1 + 1 = front.length + 1 := by omega
          rw [← hlen, run_stop, getD_runIndex]
          simp only []
          rw [if_neg (by omega), Nat.add_sub_cancel_left, readExact, if_pos, run_bytes hfile]
          · show scanBlock key (dataBlock run).length (dataBlock run) = _
            rw [scanBlock_dataBlock key run _ (by have := length_dataBlock_ge run; omega),
              findIn_run hs hne]
            · exact hlen ▸ hlow _ (by omega)
            · intro next rest hback
              refine hhigh _ (by omega) ?_
              rw [length_runIndex, hback]
              simp
            · have : (front ++ run :: back).flatten =
                  front.flatten ++ (run ++ back.flatten) := by simp
              rw [this] at hs
              exact (SortedMap.keysSorted_append.mp
                (SortedMap.keysSorted_append.mp hs).2.1).1
            · intro p hp
              exact hfit p (by simp [hp])
          · right
            rw [hfile]
            simp [dataBlock_append]

/-! ## The cursor -/

/-- The window shows bytes of the file. -/
structure Cursor.Steady (c : Cursor) : Prop where
  window : c.buf = (c.file.drop c.bufStart).take c.buf.length
  inside : c.dataEnd ≤ c.file.length

/-- `ensure` succeeds wherever the data reaches, and then the window begins
with the bytes the file has at `pos`. -/
theorem Cursor.ensure_spec {c : Cursor} (h : c.Steady) (need : Nat)
    (hneed : c.pos + need ≤ c.dataEnd) :
    ∃ c', c.ensureWith (readExact c.file) need = (true, c') ∧ c'.Steady ∧ c'.file = c.file ∧
      c'.dataEnd = c.dataEnd ∧ c'.pos = c.pos ∧ c'.failed = c.failed ∧
      c'.valid = c.valid ∧ c'.window.take need = (c.file.drop c.pos).take need := by
  have hin := h.inside
  rw [Cursor.ensureWith]
  split
  · next hhave =>
      refine ⟨c, rfl, h, rfl, rfl, rfl, rfl, rfl, ?_⟩
      rw [Cursor.window, h.window, List.drop_take, List.drop_drop, List.take_take,
        Nat.add_sub_cancel' hhave.1]
      congr 1
      have := congrArg List.length h.window
      omega
  · rw [if_neg (by omega)]
    simp only [readExact]
    rw [if_pos (by right; omega)]
    refine ⟨_, rfl, ⟨?_, hin⟩, rfl, rfl, rfl, rfl, rfl, ?_⟩
    · show List.take _ _ = List.take (List.length _) _
      rw [List.length_take, List.take_eq_take_iff]
      omega
    · show List.take need (List.drop (c.pos - c.pos) _) = _
      rw [Nat.sub_self, List.drop_zero, List.take_take]
      congr 1
      omega

/-- A cursor that stands before the entries `es`: what it has not yet parsed
is their encoding. -/
structure Cursor.Before (c : Cursor) (es : List (Bytes × Entry)) : Prop where
  steady : c.Steady
  live : c.failed = false
  ahead : ∃ tail, c.file.drop c.pos = dataBlock es ++ tail
  reach : c.dataEnd = c.pos + (dataBlock es).length

/-- A cursor that shows the first of `es`, or has run off the end. -/
def Cursor.Shows (c : Cursor) : List (Bytes × Entry) → Prop
  | [] => c.valid = false ∧ c.failed = false
  | p :: es => c.valid = true ∧ c.key = p.1 ∧ c.value = p.2.value ∧
      c.tombstone = p.2.tombstone ∧ c.expiresAtMs = p.2.stored.expiresAtMs ∧ c.Before es

theorem Cursor.Shows.live {c : Cursor} {es : List (Bytes × Entry)} (h : c.Shows es) :
    c.failed = false := by
  cases es with
  | nil => exact h.2
  | cons p es => exact h.2.2.2.2.2.live

theorem Cursor.Before.load {c : Cursor} {es : List (Bytes × Entry)} (h : c.Before es)
    (hfit : ∀ p ∈ es, EntryFits p) : c.load.Shows es := by
  have hlive := h.live
  have hreach := h.reach
  have hsteady : Cursor.Steady { c with valid := false } := ⟨h.steady.window, h.steady.inside⟩
  rw [Cursor.load, Cursor.loadWith]
  cases es with
  | nil =>
      rw [dataBlock_nil, List.length_nil] at hreach
      simp only []
      rw [if_pos (by right; show c.dataEnd ≤ c.pos; omega)]
      exact ⟨rfl, hlive⟩
  | cons p es =>
      obtain ⟨k, e⟩ := p
      have hp : EntryFits (k, e) := hfit _ List.mem_cons_self
      obtain ⟨tail, htail⟩ := h.ahead
      have hblock : dataBlock ((k, e) :: es) = encodeEntry k e ++ dataBlock es := rfl
      have hlen := length_encodeEntry k e
      rw [hblock, List.length_append] at hreach
      rw [hblock, List.append_assoc] at htail
      simp only []
      rw [if_neg (by show ¬(c.failed = true ∨ c.dataEnd ≤ c.pos); rw [hlive]; simp; omega)]
      obtain ⟨c₁, h₁, hs₁, hf₁, hd₁, hp₁, hl₁, _, hw₁⟩ :=
        Cursor.ensure_spec hsteady 9 (show c.pos + 9 ≤ c.dataEnd by omega)
      rw [show c.file = Cursor.file { c with valid := false } from rfl, h₁]
      -- Nine bytes are enough to know how long the entry is.
      have htotal : entryTotal c₁.window = (encodeEntry k e).length := by
        rw [← entryTotal_take (Nat.le_refl 9), hw₁, entryTotal_take (Nat.le_refl 9)]
        show entryTotal (c.file.drop c.pos) = _
        rw [htail, entryTotal_encode _ hp]
      obtain ⟨c₂, h₂, hs₂, hf₂, hd₂, hp₂, hl₂, _, hw₂⟩ :=
        Cursor.ensure_spec hs₁ (encodeEntry k e).length
          (by rw [hp₁, hd₁]; show c.pos + _ ≤ c.dataEnd; omega)
      simp only []
      rw [htotal, ← hf₁, h₂]
      have hwindow : c₂.window = encodeEntry k e ++ c₂.window.drop (encodeEntry k e).length := by
        conv_lhs => rw [← List.take_append_drop (encodeEntry k e).length c₂.window]
        rw [hw₂, hf₁, hp₁]
        show List.take _ (c.file.drop c.pos) ++ _ = _
        rw [htail, List.take_left' rfl]
      simp only []
      refine ⟨rfl, ?_, ?_, ?_, ?_, ⟨hs₂.window, hs₂.inside⟩, ?_, ⟨tail, ?_⟩, ?_⟩
      · show entryKey c₂.window = k
        rw [hwindow, entryKey_encode _ hp]
      · show entryValue c₂.window = e.value
        rw [hwindow, entryValue_encode _ hp]
      · show entryTombstone c₂.window = e.tombstone
        rw [hwindow, entryTombstone_encode]
      · show entryStamp c₂.window = e.stored.expiresAtMs
        rw [hwindow, entryStamp_encode]
      · show c₂.failed = false
        rw [hl₂, hl₁]; exact hlive
      · show c₂.file.drop (c₂.pos + (encodeEntry k e).length) = _
        rw [hf₂, hp₂, hf₁, hp₁, ← List.drop_drop]
        show List.drop _ (c.file.drop c.pos) = _
        rw [htail, List.drop_left' rfl]
      · show c₂.dataEnd = c₂.pos + (encodeEntry k e).length + _
        rw [hd₂, hd₁, hp₂, hp₁]
        show c.dataEnd = c.pos + _ + _
        omega

/-! ## Open tables -/

/-- What the rest of the engine knows about an open table. -/
structure Sstable.Holds (t : Sstable) (es : List (Bytes × Entry)) : Prop where
  sorted : SortedMap.KeysSorted es
  fits : ∀ p ∈ es, EntryFits p
  get : ∀ key, t.get key = (SortedMap.findIn key es).map Entry.settled
  cursor : t.cursor.Shows es
  dataEnd : t.dataEnd = (dataBlock es).length

/-- The footer and what lies between its offsets, read back. -/
theorem openTable_parts (path : FileName) (useBloom : Bool) (data filter : Bytes)
    {index : List IndexEntry} {count : Nat}
    (hsmall : (data ++ indexBlock index ++ filter ++
      footerBytes data.length (data.length + (indexBlock index).length) count).length < 2 ^ 64)
    (hcount : count < 2 ^ 64)
    (hall : ∀ e ∈ index, e.key.length < 2 ^ 32 ∧ e.offset ≤ data.length) :
    openTable path (data ++ indexBlock index ++ filter ++
      footerBytes data.length (data.length + (indexBlock index).length) count) useBloom =
    some {
      path, useBloom, bloom := filter, dataEnd := data.length, entryCount := count
      index := index.take (index.length % 2 ^ 32)
      file := data ++ indexBlock index ++ filter ++
        footerBytes data.length (data.length + (indexBlock index).length) count } := by
  obtain ⟨footer, hfooter⟩ : ∃ f, f = footerBytes data.length
    (data.length + (indexBlock index).length) count := ⟨_, rfl⟩
  obtain ⟨file, hfile⟩ : ∃ f, f = data ++ indexBlock index ++ filter ++ footer := ⟨_, rfl⟩
  have hflen : footer.length = 32 := by rw [hfooter]; exact length_footerBytes _ _ _
  rw [← hfooter, ← hfile] at hsmall ⊢
  have hlen : file.length = data.length + (indexBlock index).length + filter.length + 32 := by
    rw [hfile]; simp only [List.length_append, hflen]
  have hdrop : file.drop (file.length - kFooterSize) = footer := by
    rw [hfile]
    refine List.drop_left' ?_
    rw [← hfile, hlen, List.length_append, List.length_append, kFooterSize]
    omega
  have hsplit : footer = putU64 data.length ++ (putU64 (data.length + (indexBlock index).length)
      ++ (putU64 count ++ kMagic)) := by
    rw [hfooter]; simp [footerBytes]
  have hidx : loadU64 footer = data.length := by
    rw [hsplit]; exact loadU64_putU64 (by omega) _
  have hbloom : loadU64 (footer.drop 8) = data.length + (indexBlock index).length := by
    rw [hsplit, List.drop_left' (by simp)]; exact loadU64_putU64 (by omega) _
  have hcnt : loadU64 (footer.drop 16) = count := by
    rw [hsplit, show 16 = 8 + 8 from rfl, ← List.drop_drop, List.drop_left' (by simp),
      List.drop_left' (by simp)]
    exact loadU64_putU64 hcount _
  have hmagic : (footer.drop 24).take 8 = kMagic := by
    rw [hsplit, show 24 = 8 + (8 + 8) from rfl, ← List.drop_drop, List.drop_left' (by simp),
      ← List.drop_drop, List.drop_left' (by simp), List.drop_left' (by simp)]
    rfl
  have hblock : (file.drop data.length).take (indexBlock index).length = indexBlock index := by
    rw [hfile, List.append_assoc, List.append_assoc, List.drop_left' rfl, List.take_left' rfl]
  have hfilter : (file.drop (data.length + (indexBlock index).length)).take filter.length =
      filter := by
    rw [hfile, List.append_assoc, ← List.length_append, List.drop_left' rfl,
      List.take_left' rfl]
  have hcountIdx : loadU32 (indexBlock index) = index.length % 2 ^ 32 :=
    loadU32_putU32_mod _ _
  have hrest : (indexBlock index).drop 4 = index.flatMap indexEntryBytes :=
    List.drop_left' (by simp)
  have hfour : 4 ≤ (indexBlock index).length := by
    rw [indexBlock, List.length_append, length_putU32]; omega
  rw [openTable, if_neg (by rw [hlen, kFooterSize]; omega)]
  simp only [hdrop, hmagic, hidx, hbloom, hcnt]
  rw [if_neg (by simp), if_neg (by rw [hlen, kFooterSize]; omega), Nat.add_sub_cancel_left,
    readExact, if_pos (by right; omega), hblock]
  simp only []
  rw [if_neg (by omega), hcountIdx, hrest,
    parseIndex_bytes (by omega) index _ (Nat.mod_le _ _) hall]
  simp only []
  rw [show file.length - kFooterSize - (data.length + (indexBlock index).length) =
    filter.length by rw [hlen, kFooterSize]; omega, readExact, if_pos (by right; omega), hfilter]

/-- A lookup in a table whose index was cut off at the bits of its count. -/
theorem get_written {t : Sstable} {es : List (Bytes × Entry)} {tail key : Bytes}
    (hs : SortedMap.KeysSorted es) (hfit : ∀ p ∈ es, EntryFits p)
    (hidx : t.index = (indexOf 0 none es).take (indexCount es % 2 ^ 32))
    (hend : t.dataEnd = (dataBlock es).length) (hfile : t.file = dataBlock es ++ tail)
    (hbloom : (t.useBloom && !Bloom.mayContain t.bloom key) = false) :
    t.get key = if indexCount es % 2 ^ 32 = 0 then none
      else (SortedMap.findIn key es).map Entry.settled := by
  split
  · next hzero =>
      rw [hzero, List.take_zero] at hidx
      rw [Sstable.get, Sstable.getWith, if_neg (by rw [hbloom]; exact Bool.false_ne_true), hidx]
      rfl
  · next hsome =>
      obtain ⟨runs, hflat, hne, hruns⟩ := indexOf_runs es
      obtain ⟨n, hn⟩ := Nat.exists_eq_succ_of_ne_zero hsome
      have hlen : runs.length = indexCount es := by rw [indexCount, hruns, length_runIndex]
      have hle := Nat.mod_le (indexCount es) (2 ^ 32)
      obtain ⟨runs', hflat', hne', htake⟩ := runIndex_take hne (n := n) (by omega)
      rw [hruns, hn, htake] at hidx
      rw [hflat] at hflat'
      rw [← hflat'] at hs hfit hend hfile ⊢
      exact getWith_runs hne' hs hfit hidx hend hfile hbloom

/-- What a table is once it is opened: its cursor walks the entries that were
written, and unless the count of its index entries comes out as zero it answers
lookups as they do. -/
theorem openTable_written {bits : Int} {es : List (Bytes × Entry)}
    (hs : SortedMap.KeysSorted es) (hfit : ∀ p ∈ es, EntryFits p)
    (hsize : (writeTable bits es).length < 2 ^ 63) (path : FileName) (useBloom : Bool) :
    ∃ t, openTable path (writeTable bits es) useBloom = some t ∧ t.path = path ∧
      t.file = writeTable bits es ∧ t.useBloom = useBloom ∧ t.entryCount = es.length ∧
      t.dataEnd = (dataBlock es).length ∧ t.cursor.Shows es ∧
      ∀ key, t.get key = if indexCount es % 2 ^ 32 = 0 then none
        else (SortedMap.findIn key es).map Entry.settled := by
  have hfile := writeTable_eq bits es
  have hdata := length_dataBlock_ge es
  have hlen := congrArg List.length hfile
  rw [List.length_append, List.length_append, List.length_append] at hlen
  have hall : ∀ x ∈ indexOf 0 none es,
      x.key.length < 2 ^ 32 ∧ x.offset ≤ (dataBlock es).length := by
    intro x hx
    obtain ⟨runs, hflat, hne, hruns⟩ := indexOf_runs es
    rw [hruns] at hx
    obtain ⟨hoff, e, he⟩ := mem_runIndex hne hx
    rw [hflat] at hoff he
    exact ⟨(hfit _ he).1, by omega⟩
  have hopen := openTable_parts path useBloom (dataBlock es)
    (Bloom.build (es.map Prod.fst) bits) (by rw [← hfile]; omega)
    (show es.length < 2 ^ 64 by omega) hall
  rw [← hfile] at hopen
  have htail : ∃ tail, writeTable bits es = dataBlock es ++ tail := by
    rw [List.append_assoc, List.append_assoc] at hfile
    exact ⟨_, hfile⟩
  obtain ⟨tail, htail⟩ := htail
  refine ⟨_, hopen, rfl, rfl, rfl, rfl, rfl, ?_, fun key => ?_⟩
  · refine Cursor.Before.load (c := { file := writeTable bits es, dataEnd := _ })
      ⟨⟨rfl, ?_⟩, rfl, ⟨tail, htail⟩, (Nat.zero_add _).symm⟩ hfit
    show (dataBlock es).length ≤ (writeTable bits es).length
    omega
  · by_cases hbloom : (useBloom &&
        !Bloom.mayContain (Bloom.build (es.map Prod.fst) bits) key) = true
    · -- The filter never turns away a key that was added.
      have hnone : SortedMap.findIn key es = none := by
        refine SortedMap.findIn_eq_none_iff.mpr fun q hq heq => ?_
        have := Bloom.mayContain_of_mem (b := bits) (List.mem_map_of_mem (f := Prod.fst) hq)
        rw [heq] at this
        rw [this] at hbloom
        simp at hbloom
      rw [hnone, Sstable.get, Sstable.getWith, if_pos hbloom]
      exact (ite_self _).symm
    · exact get_written hs hfit rfl rfl htail (Bool.eq_false_iff.mpr hbloom)

/-- The count of the index entries, which has 32 bits, does not come out as zero
where there are entries. -/
def Indexed (es : List (Bytes × Entry)) : Prop := es = [] ∨ indexCount es % 2 ^ 32 ≠ 0

theorem get_agrees_iff {es : List (Bytes × Entry)} (hs : SortedMap.KeysSorted es) :
    (∀ key, (if indexCount es % 2 ^ 32 = 0 then none
      else (SortedMap.findIn key es).map Entry.settled) =
        (SortedMap.findIn key es).map Entry.settled) ↔ Indexed es := by
  constructor
  · intro h
    cases es with
    | nil => exact Or.inl rfl
    | cons p es =>
        right
        intro hzero
        have hfirst := h p.1
        rw [if_pos hzero, SortedMap.findIn_of_mem hs List.mem_cons_self] at hfirst
        cases hfirst
  · rintro (rfl | hsome) key
    · exact ite_self _
    · exact if_neg hsome

/-- A table whose index is counted right holds what was written. -/
theorem openTable_indexed {bits : Int} {es : List (Bytes × Entry)}
    (hs : SortedMap.KeysSorted es) (hfit : ∀ p ∈ es, EntryFits p)
    (hsize : (writeTable bits es).length < 2 ^ 63) (hindexed : Indexed es) (path : FileName)
    (useBloom : Bool) :
    ∃ t, openTable path (writeTable bits es) useBloom = some t ∧ t.Holds es ∧ t.path = path ∧
      t.file = writeTable bits es ∧ t.useBloom = useBloom ∧ t.entryCount = es.length := by
  obtain ⟨t, hopen, hpath, hfile, huse, hcount, hend, hcursor, hget⟩ :=
    openTable_written hs hfit hsize path useBloom
  refine ⟨t, hopen, ⟨hs, hfit, fun key => ?_, hcursor, hend⟩, hpath, hfile, huse, hcount⟩
  exact (hget key).trans ((get_agrees_iff hs).mpr hindexed key)

/-- Every file that could be written whole opens, and the table holds what was
written. -/
theorem openTable_writeTable {bits : Int} {es : List (Bytes × Entry)} {file : Bytes}
    (hs : SortedMap.KeysSorted es) (hfit : ∀ p ∈ es, EntryFits p)
    (h : TableWritten bits es file) (path : FileName) (useBloom : Bool) :
    ∃ t, openTable path file useBloom = some t ∧ t.Holds es ∧ t.path = path ∧
      t.file = file ∧ t.useBloom = useBloom ∧ t.entryCount = es.length := by
  obtain ⟨rfl, hsmall⟩ := h
  have hsize : (writeTable bits es).length < 2 ^ 63 :=
    Nat.lt_of_le_of_lt hsmall (by decide)
  refine openTable_indexed hs hfit hsize ?_ path useBloom
  by_cases hnil : es = []
  · exact Or.inl hnil
  · right
    have hlt := indexCount_lt hsmall
    have hpos := indexCount_pos hnil
    rw [Nat.mod_eq_of_lt hlt]
    omega

/-! ## The round trip -/

/-- A table that is written, of any length a file can have, opens, counts its
entries, and finds no key that was not written, with the filter and without. It
finds every entry as it was, a tombstone without stamp and value, exactly if the
number of its index entries is not a multiple of 2^32, or it has no entries at
all. -/
theorem table_round_trip_iff (es : List (Bytes × Entry)) (hs : SortedMap.KeysSorted es)
    (hfit : ∀ p ∈ es, EntryFits p) (bits : Int) (hsize : (writeTable bits es).length < 2 ^ 63)
    (path : FileName) (useBloom : Bool) :
    ∃ t, openTable path (writeTable bits es) useBloom = some t ∧ t.entryCount = es.length ∧
      (∀ key, (∀ p ∈ es, p.1 ≠ key) → t.get key = none) ∧
      ((∀ key e, (key, e) ∈ es → t.get key = some {
          value := if e.tombstone then [] else e.value
          tombstone := e.tombstone
          expiresAtMs := if e.tombstone then 0 else e.expiresAtMs }) ↔
        Indexed es) := by
  obtain ⟨t, hopen, _, _, _, hcount, _, _, hget⟩ := openTable_written hs hfit hsize path useBloom
  refine ⟨t, hopen, hcount, fun key hkey => ?_, fun h => ?_, fun h key e he => ?_⟩
  · rw [hget, SortedMap.findIn_eq_none_iff.mpr hkey]
    exact ite_self _
  · cases es with
    | nil => exact Or.inl rfl
    | cons p es =>
        right
        intro hzero
        have hfirst := h p.1 p.2 List.mem_cons_self
        rw [hget, if_pos hzero] at hfirst
        cases hfirst
  · rw [hget, (get_agrees_iff hs).mpr h, SortedMap.findIn_of_mem hs he]
    rfl

/-- The empty key with a negative stamp, and a tombstone that carries both a
value and a stamp. -/
def oddEntries : List (Bytes × Entry) :=
  [([], { value := [7], expiresAtMs := -1 }),
   ([1, 0], { value := [8], tombstone := true, expiresAtMs := 5 })]

theorem table_round_trip_odd :
    ∃ t, openTable (.table 1) (writeTable 10 oddEntries) true = some t ∧
      t.get [] = some { value := [7], expiresAtMs := -1 } ∧
      t.get [1, 0] = some { value := [], tombstone := true } ∧ t.get [1] = none := by
  obtain ⟨t, hopen, _, hmissing, hfound⟩ := table_round_trip_iff oddEntries
    (by unfold SortedMap.KeysSorted; decide) (by unfold EntryFits; decide) 10 (by decide +kernel)
    (.table 1) true
  have hentries := hfound.mpr (Or.inr (by decide +kernel))
  exact ⟨t, hopen, hentries [] _ List.mem_cons_self,
    hentries [1, 0] _ (List.mem_cons_of_mem _ List.mem_cons_self), hmissing [1] (by decide)⟩

/-- A table with exactly 2^32 index entries: it opens, and does not find its
first entry. -/
theorem table_round_trip_wide :
    let es := wideEntries 0 (2 ^ 32)
    SortedMap.KeysSorted es ∧ (∀ p ∈ es, EntryFits p) ∧ (writeTable 10 es).length < 2 ^ 63 ∧
      indexCount es = 2 ^ 32 ∧ wideEntry 0 ∈ es ∧
      ∃ t, openTable (.table 1) (writeTable 10 es) true = some t ∧
        t.get (wideEntry 0).1 = none := by
  intro es
  have hwide : 0 + 2 ^ 32 ≤ 2 ^ 32 := Nat.le_refl _
  have hs := wideEntries_sorted hwide
  have hfit := wideEntries_fit 0 (2 ^ 32)
  have hsize := wideEntries_size 0 (Nat.le_refl (2 ^ 32))
  have hcount := indexCount_wideEntries 0 (2 ^ 32)
  have hfirst := wideEntry_mem (n := 2 ^ 32) 0 (by decide)
  obtain ⟨t, hopen, _, _, _, _, _, _, hget⟩ := openTable_written hs hfit hsize (.table 1) true
  refine ⟨hs, hfit, hsize, hcount, hfirst, t, hopen, ?_⟩
  rw [hget, hcount, Nat.mod_self, if_pos rfl]

end Cachedb
