import Cachedb.Model.Accesses
import Cachedb.Proofs.TableScan

/-!
# Every access is inside

The checked readers of `Model/Accesses.lean` return on every input, and they
return what the functions of the model return. For a table this holds for any
bytes at all and for reads that fail whenever they like; what it takes is a
file whose length `lseek` can report.

Each function has one lemma, which says that the run returns, and what. The
conditions are the facts the code has checked by then: the constructor makes
sure of `Sstable.Accepted`, and a cursor keeps `Cursor.Sound`.
-/

namespace Cachedb

open Checked

/-! ## Single accesses -/

theorem loadU32At_ok {buf : Bytes} {pos : Nat} (h : pos + 4 ≤ buf.length) :
    loadU32At buf pos = .ok (loadU32 (buf.drop pos)) := by
  rw [loadU32At, slice_ok h, ok_bind, pure_eq_ok, loadU32, List.take_take, Nat.min_self, loadU32]

theorem loadU64At_ok {buf : Bytes} {pos : Nat} (h : pos + 8 ≤ buf.length) :
    loadU64At buf pos = .ok (loadU64 (buf.drop pos)) := by
  rw [loadU64At, slice_ok h, ok_bind, pure_eq_ok, loadU64, List.take_take, Nat.min_self, loadU64]

theorem readChecked_ok {file : Bytes} {offset length : Nat} (read : Nat → Nat → Option Bytes)
    (hsize : file.length < 2 ^ 63) (h : offset + length ≤ file.length) :
    readChecked file read offset length = .ok (read offset length) := by
  rw [readChecked, add_ok (by omega), ok_bind, if_pos (.inr h), pure_eq_ok]

/-! ## The constructor -/

theorem parseIndexChecked_ok {dataEnd : Nat} {block : Bytes} (hsize : block.length < 2 ^ 63) :
    ∀ (n pos : Nat), pos ≤ block.length →
      parseIndexChecked dataEnd block n pos = .ok (parseIndex dataEnd n (block.drop pos))
  | 0, _, _ => rfl
  | n + 1, pos, hpos => by
      rw [parseIndexChecked, parseIndex, List.length_drop, add_ok (by omega), ok_bind]
      split
      · next h => rw [if_pos (by omega), pure_eq_ok]
      next h =>
      have hklen := loadU32_lt (block.drop pos)
      rw [if_neg (by omega), loadU32At_ok (by omega), ok_bind, ok_bind, add_ok (by omega), ok_bind,
        add_ok (by omega), ok_bind]
      simp only []
      split
      · next h => rw [if_pos (by omega), pure_eq_ok]
      next h =>
      rw [if_neg (by omega), slice_ok (by omega), ok_bind, ok_bind, loadU64At_ok (by omega),
        ok_bind, add_ok (by omega), ok_bind, List.drop_drop, List.drop_drop, List.drop_drop,
        show pos + (4 + loadU32 (block.drop pos)) = pos + 4 + loadU32 (block.drop pos) by omega,
        show pos + (4 + loadU32 (block.drop pos) + 8) =
          pos + 4 + loadU32 (block.drop pos) + 8 by omega]
      split
      · rfl
      · rw [parseIndexChecked_ok hsize n _ (by omega), ok_bind, pure_eq_ok]

/-- The constructor returns on every file. It throws, or it has read what is
there; and if no read fails it does what the model's constructor does. -/
theorem openTableChecked_ok (path : FileName) {file : Bytes} (useBloom : Bool)
    (hsize : file.length < 2 ^ 63) {reads : Nat → Nat → Nat → Option Bytes}
    (hreads : ∀ n, ReadsFrom file (reads n)) :
    ∃ r, openTableChecked path file useBloom reads = .ok r ∧
      (r = openTable path file useBloom ∨ r = none ∧ ¬∀ n, Undisturbed file (reads n)) := by
  rw [openTableChecked, openTable]
  split
  · exact ⟨none, rfl, .inl rfl⟩
  next hlen =>
  rw [kFooterSize] at hlen
  have hfooter : ((file.drop (file.length - kFooterSize)).take kFooterSize) =
      file.drop (file.length - kFooterSize) := by
    refine List.take_of_length_le ?_
    rw [List.length_drop, kFooterSize]
    omega
  have hflen : (file.drop (file.length - kFooterSize)).length = 32 := by
    rw [List.length_drop, kFooterSize]
    omega
  rw [sub_ok (by rw [kFooterSize]; omega), ok_bind,
    readChecked_ok _ hsize (by rw [kFooterSize]; omega), ok_bind]
  rcases (hreads 0).cases (file.length - kFooterSize) kFooterSize
    (by rw [kFooterSize]; omega) with ⟨hnone, hbad⟩ | hsome
  · rw [hnone]
    exact ⟨none, rfl, .inr ⟨rfl, fun hall => hbad (hall 0)⟩⟩
  rw [hsome, hfooter]
  simp only []
  generalize hf : file.drop (file.length - kFooterSize) = footer at *
  rw [slice_ok (by omega), ok_bind]
  split
  · exact ⟨none, rfl, .inl rfl⟩
  rw [loadU64At_ok (by omega), ok_bind, loadU64At_ok (by omega), ok_bind,
    loadU64At_ok (by omega), ok_bind, List.drop_zero]
  split
  · exact ⟨none, rfl, .inl rfl⟩
  next hoffsets =>
  rw [kFooterSize] at *
  have hindex : loadU64 footer + (loadU64 (footer.drop 8) - loadU64 footer) ≤ file.length := by
    omega
  rw [sub_ok (by omega), ok_bind, readChecked_ok _ hsize hindex, ok_bind, readExact,
    if_pos (.inr hindex)]
  rcases (hreads 1).cases _ _ hindex with ⟨hnone, hbad⟩ | hsome
  · rw [hnone]
    exact ⟨none, rfl, .inr ⟨rfl, fun hall => hbad (hall 1)⟩⟩
  rw [hsome]
  simp only []
  have hblock : ((file.drop (loadU64 footer)).take
      (loadU64 (footer.drop 8) - loadU64 footer)).length < 2 ^ 63 := by
    rw [List.length_take, List.length_drop]
    omega
  generalize (file.drop (loadU64 footer)).take _ = block at *
  split
  · exact ⟨none, rfl, .inl rfl⟩
  next hfour =>
  rw [loadU32At_ok (by omega), ok_bind, parseIndexChecked_ok hblock _ _ (by omega), ok_bind,
    List.drop_zero]
  cases parseIndex (loadU64 footer) (loadU32 block) (block.drop 4) with
  | none => exact ⟨none, rfl, .inl rfl⟩
  | some index =>
      have hbloom : loadU64 (footer.drop 8) + (file.length - 32 - loadU64 (footer.drop 8)) ≤
          file.length := by omega
      simp only []
      rw [sub_ok (by omega), ok_bind, readChecked_ok _ hsize hbloom, ok_bind, readExact,
        if_pos (.inr hbloom)]
      rcases (hreads 2).cases _ _ hbloom with ⟨hnone, hbad⟩ | hsome
      · rw [hnone]
        exact ⟨none, rfl, .inr ⟨rfl, fun hall => hbad (hall 2)⟩⟩
      · rw [hsome]
        exact ⟨_, rfl, .inl rfl⟩

/-! ## Lookups -/

theorem testProbesChecked_ok {bits : Nat} {block : Bytes} (h2 : UInt32) (hpos : 0 < bits)
    (hbits : bits = (block.length - 1) * 8) : ∀ (n : Nat) (pos : UInt32),
      testProbesChecked bits h2 block n pos = .ok (Bloom.testProbes bits h2 block n pos)
  | 0, _ => rfl
  | n + 1, pos => by
      have hbit : pos.toNat % bits < bits := Nat.mod_lt _ hpos
      rw [testProbesChecked, Bloom.testProbes, item_ok (by omega) 0, ok_bind, Bloom.testBit]
      split
      · next hclear => rw [if_neg (by rw [hclear]; simp)]; rfl
      · next hset =>
          rw [if_pos (decide_eq_true hset)]
          exact testProbesChecked_ok h2 hpos hbits n _

theorem mayContainChecked_ok (block key : Bytes) :
    mayContainChecked block key = .ok (Bloom.mayContain block key) := by
  rw [mayContainChecked, Bloom.mayContain]
  split
  · rfl
  next hlen =>
  have hlast : block.getD (block.length - 1) 0 = block.getLastD 0 := by
    rw [List.getLastD_eq_getLast?, List.getLast?_eq_getElem?, List.getD_eq_getElem?_getD]
  rw [sub_ok (by omega), ok_bind, item_ok (by omega) 0, ok_bind, hlast]
  simp only []
  split
  · rfl
  · exact testProbesChecked_ok _ (by omega) rfl _ _

theorem upperBoundChecked_ok {key : Bytes} {index : List IndexEntry}
    (hcount : index.length < 2 ^ 32) : ∀ (fuel first len : Nat), len ≤ fuel →
      first + len ≤ index.length →
      upperBoundChecked key index fuel first len = .ok (upperBoundLoop key index fuel first len)
  | 0, first, len, hfuel, _ => by
      rw [upperBoundChecked, if_pos (by omega)]
      rfl
  | fuel + 1, first, len, hfuel, hlen => by
      rw [upperBoundChecked, upperBoundLoop]
      split
      · rfl
      simp only []
      rw [add_ok (by omega), ok_bind, item_ok (by omega) ⟨[], 0⟩, ok_bind]
      split
      · exact upperBoundChecked_ok hcount fuel _ _ (by omega) (by omega)
      · rw [add_ok (by omega), ok_bind, add_ok (by omega), ok_bind, sub_ok (by omega), ok_bind,
          upperBoundChecked_ok hcount fuel _ _ (by omega) (by omega), Nat.sub_sub]

theorem upperBoundLoop_le (key : Bytes) (index : List IndexEntry) :
    ∀ fuel first len : Nat, upperBoundLoop key index fuel first len ≤ first + len
  | 0, first, len => Nat.le_add_right first len
  | fuel + 1, first, len => by
      rw [upperBoundLoop]
      split
      · exact Nat.le_add_right first len
      simp only []
      split
      · exact (upperBoundLoop_le key index fuel _ _).trans (by omega)
      · exact (upperBoundLoop_le key index fuel _ _).trans (by omega)

/-- The accesses to one entry, of the scan and of the cursor alike, as soon as
its header is there. -/
theorem entry_accesses (buf : Bytes) (p : Nat) (h : p + 9 ≤ buf.length) :
    loadU32At buf p = .ok (entryKlen (buf.drop p)) ∧
      loadU32At buf (p + 4) = .ok (entryVlen (buf.drop p)) ∧
      item buf (p + 8) = .ok (entryFlags (buf.drop p)) := by
  refine ⟨loadU32At_ok (by omega), ?_, ?_⟩
  · rw [loadU32At_ok (by omega), entryVlen, List.drop_drop]
  · rw [item_ok (by omega) 0, entryFlags, List.getD_eq_getElem?_getD, List.getD_eq_getElem?_getD,
      List.getElem?_drop]

/-- The first nine bytes say what an entry is like. -/
structure SameHeader (p q : Bytes) : Prop where
  klen : entryKlen p = entryKlen q
  vlen : entryVlen p = entryVlen q
  flags : entryFlags p = entryFlags q
  expiry : entryHasExpiry p = entryHasExpiry q
  total : entryTotal p = entryTotal q

theorem sameHeader_of_take {p q : Bytes} (h : p.take 9 = q.take 9) : SameHeader p q where
  klen := by rw [← entryKlen_take (Nat.le_refl 9), h, entryKlen_take (Nat.le_refl 9)]
  vlen := by rw [← entryVlen_take (Nat.le_refl 9), h, entryVlen_take (Nat.le_refl 9)]
  flags := by rw [← entryFlags_take (Nat.le_refl 9), h, entryFlags_take (Nat.le_refl 9)]
  expiry := by rw [← entryHasExpiry_take (Nat.le_refl 9), h, entryHasExpiry_take (Nat.le_refl 9)]
  total := by rw [← entryTotal_take (Nat.le_refl 9), h, entryTotal_take (Nat.le_refl 9)]

theorem entryTotal_lt (p : Bytes) : entryTotal p < 2 ^ 34 := by
  have hklen : entryKlen p < 2 ^ 32 := loadU32_lt _
  have hvlen : entryVlen p < 2 ^ 32 := loadU32_lt _
  rw [entryTotal, entryBody]
  split <;> omega

/-- The stamp, once the whole entry is there. -/
theorem stampAt_entry {buf : Bytes} {p : Nat} (h : p + entryTotal (buf.drop p) ≤ buf.length) :
    stampAt buf (p + 9) (entryHasExpiry (buf.drop p)) = .ok (entryStamp (buf.drop p)) := by
  rw [stampAt, entryStamp]
  split
  · next hx =>
      rw [entryTotal, entryBody, if_pos hx] at h
      rw [loadU64At_ok (by omega), List.drop_drop]
      rfl
  · rfl

theorem scanBlockChecked_ok {key block : Bytes} (hsize : block.length < 2 ^ 63) :
    ∀ (fuel pos : Nat), pos ≤ block.length → block.length - pos < 9 * fuel →
      scanBlockChecked key block fuel pos = .ok (scanBlock key fuel (block.drop pos))
  | 0, pos, _, hfuel => absurd hfuel (by omega)
  | fuel + 1, pos, hpos, hfuel => by
      have hlt := entryTotal_lt (block.drop pos)
      rw [scanBlockChecked, scanBlock, List.length_drop, add_ok (by omega), ok_bind]
      split
      · next h => rw [if_pos (by omega), pure_eq_ok]
      next h =>
      obtain ⟨hklen, hvlen, hflags⟩ := entry_accesses block pos (by omega)
      rw [if_neg (by omega), hklen, ok_bind, add_ok (by omega), ok_bind, hvlen, ok_bind,
        add_ok (by omega), ok_bind, hflags, ok_bind]
      rw [show (decide (entryFlags (block.drop pos) &&& kExpiryFlag ≠ 0)) =
        entryHasExpiry (block.drop pos) from rfl]
      have hbody : pos + 9 + (if entryHasExpiry (block.drop pos) = true then 8 else 0) =
          pos + entryBody (block.drop pos) := by
        rw [entryBody]
        omega
      have htotal : pos + entryBody (block.drop pos) + entryKlen (block.drop pos) +
          entryVlen (block.drop pos) = pos + entryTotal (block.drop pos) := by
        rw [entryTotal]
        omega
      simp only []
      rw [ok_bind, add_ok (by omega), ok_bind, hbody, add_ok (by omega), ok_bind,
        add_ok (by omega), ok_bind, htotal]
      split
      · next h' => rw [if_pos (by omega), pure_eq_ok]
      next h' =>
      rw [if_neg (show ¬block.length - pos < entryTotal (block.drop pos) by omega),
        slice_ok (by omega), ok_bind, entryKey, List.drop_drop]
      split
      · rw [stampAt_entry (by omega), ok_bind, entryValue, List.drop_drop, ← Nat.add_assoc]
        rw [show decide (entryFlags (block.drop pos) &&& kTombstoneFlag ≠ 0) =
          entryTombstone (block.drop pos) from rfl]
        cases entryTombstone (block.drop pos) with
        | true => rfl
        | false =>
            rw [if_neg (by simp), slice_ok (by omega)]
            rfl
      · split
        · rfl
        · have hge := entryTotal_ge (block.drop pos)
          rw [List.drop_drop]
          exact scanBlockChecked_ok hsize fuel _ (by omega) (by omega)

/-- A lookup in an accepted table returns. -/
theorem Sstable.getChecked_ok {t : Sstable} (h : t.Accepted) (hsize : t.file.length < 2 ^ 63)
    {read : Nat → Nat → Option Bytes} (hread : ReadsFrom t.file read) (key : Bytes) :
    t.getChecked read key = .ok (t.getWith read key) := by
  have hend := h.dataEnd
  have hcount := h.count
  have hoffset : ∀ i, i < t.index.length → (t.index.getD i ⟨[], 0⟩).offset ≤ t.dataEnd := by
    intro i hi
    rw [List.getD_eq_getElem?_getD, List.getElem?_eq_getElem hi]
    exact h.index _ (List.getElem_mem hi)
  have hbound := upperBoundLoop_le key t.index t.index.length 0 t.index.length
  rw [Sstable.getChecked, Sstable.getWith, mayContainChecked_ok, ok_bind]
  split
  · rfl
  split
  · rfl
  rw [upperBoundChecked_ok hcount _ _ _ (Nat.le_refl _) (by omega), ok_bind, upperBound]
  generalize upperBoundLoop key t.index t.index.length 0 t.index.length = it at *
  simp only []
  split
  · rfl
  next hit =>
  rw [sub_ok (by omega), ok_bind, item_ok (by omega) ⟨[], 0⟩, ok_bind, add_ok (by omega), ok_bind]
  have hstop : ∃ stop, stop ≤ t.dataEnd ∧
      (if it - 1 + 1 < t.index.length then IndexEntry.offset <$> item t.index (it - 1 + 1)
        else pure t.dataEnd : Run Nat) = .ok stop ∧
      (if it - 1 + 1 < t.index.length then (t.index.getD (it - 1 + 1) ⟨[], 0⟩).offset
        else t.dataEnd) = stop := by
    by_cases hlast : it - 1 + 1 < t.index.length
    · refine ⟨_, hoffset _ hlast, ?_, if_pos hlast⟩
      rw [if_pos hlast, item_ok hlast ⟨[], 0⟩]
      rfl
    · exact ⟨t.dataEnd, Nat.le_refl _, if_neg hlast, if_neg hlast⟩
  obtain ⟨stop, hle, hchecked, hplain⟩ := hstop
  rw [hchecked, ok_bind, hplain]
  split
  · rfl
  next hlt =>
  have hread' := hread.cases (t.index.getD (it - 1) ⟨[], 0⟩).offset
    (stop - (t.index.getD (it - 1) ⟨[], 0⟩).offset) (by omega)
  rw [sub_ok (by omega), ok_bind, readChecked_ok read hsize (by omega), ok_bind]
  rcases hread' with ⟨hnone, -⟩ | hsome
  · rw [hnone]
    rfl
  · rw [hsome]
    have hlen : ((t.file.drop (t.index.getD (it - 1) ⟨[], 0⟩).offset).take
        (stop - (t.index.getD (it - 1) ⟨[], 0⟩).offset)).length =
        stop - (t.index.getD (it - 1) ⟨[], 0⟩).offset := by
      rw [List.length_take, List.length_drop]
      omega
    exact scanBlockChecked_ok (by omega) _ 0 (Nat.zero_le _) (by omega)

/-! ## The cursor -/

theorem Cursor.heldChecked_ok {c : Cursor} {need : Nat} (h : c.Sound)
    (hsize : c.file.length < 2 ^ 63) (hneed : need < 2 ^ 34) :
    c.heldChecked need =
      .ok (decide (c.bufStart ≤ c.pos ∧ c.pos - c.bufStart + need ≤ c.buf.length)) := by
  have hin := h.inside
  have hreached := h.reached
  have hbehind := h.behind
  rw [Cursor.heldChecked, if_pos hbehind, sub_ok hbehind, ok_bind, add_ok (by omega), ok_bind,
    pure_eq_ok, decide_eq_decide.mpr (and_iff_right hbehind).symm]

theorem Cursor.ensureChecked_ok {c : Cursor} {need : Nat} (h : c.Sound)
    (hsize : c.file.length < 2 ^ 63) (hneed : need < 2 ^ 34)
    (read : Nat → Nat → Option Bytes) :
    c.ensureChecked read need = .ok (c.ensureWith read need) := by
  have hin := h.inside
  have hreached := h.reached
  rw [Cursor.ensureChecked, Cursor.ensureWith, Cursor.heldChecked_ok h hsize hneed, ok_bind]
  simp only [decide_eq_true_eq]
  split
  · rfl
  · rw [add_ok (by omega), ok_bind]
    split
    · rfl
    · rw [sub_ok hreached, ok_bind, readChecked_ok read hsize (by omega), ok_bind]
      cases read _ _ <;> rfl

/-- What `ensure` has promised is inside the window. -/
theorem Cursor.window_inside {c c' : Cursor} {need : Nat} (hpos : 0 < need)
    (reach : need ≤ c.rest.length) (shows : c'.window.take need = c.rest.take need) :
    c'.pos - c'.bufStart + need ≤ c'.buf.length := by
  have hlen := congrArg List.length shows
  rw [List.length_take, List.length_take, Cursor.window, List.length_drop] at hlen
  omega

theorem Cursor.loadChecked_ok {c : Cursor} {read : Nat → Nat → Option Bytes} (h : c.Sound)
    (hsize : c.file.length < 2 ^ 63) (hread : ReadsFrom c.file read) :
    c.loadChecked read = .ok (c.loadWith read) := by
  have h₀ : Cursor.Sound { c with valid := false } :=
    ⟨⟨h.window, h.inside⟩, h.behind, h.within, h.reached⟩
  rw [Cursor.loadChecked, Cursor.loadWith]
  simp only []
  split
  · rfl
  rw [Cursor.ensureChecked_ok h₀ hsize (by decide), ok_bind]
  have hc₁ := Cursor.ensureWith_cases h₀ hread 9
  generalize Cursor.ensureWith _ read 9 = r at hc₁ ⊢
  cases hc₁ with
  | short | broken => rfl
  | @held c₁ reach same shows =>
      have hin₁ := Cursor.window_inside (by decide) reach shows
      have hlt := entryTotal_lt c₁.window
      have hsize₁ : c₁.file.length < 2 ^ 63 := by rw [same.file]; exact hsize
      have hwithin := same.sound.within
      have hinside := same.sound.inside
      obtain ⟨hklen, hvlen, hflags⟩ := entry_accesses _ _ hin₁
      rw [show c₁.buf.drop (c₁.pos - c₁.bufStart) = c₁.window from rfl] at hklen hvlen hflags
      have htotal : (9 + if entryHasExpiry c₁.window = true then 8 else 0) + entryKlen c₁.window +
          entryVlen c₁.window = entryTotal c₁.window := rfl
      simp only []
      rw [sub_ok same.sound.behind, ok_bind, hklen, ok_bind, add_ok (by omega), ok_bind, hvlen,
        ok_bind, add_ok (by omega), ok_bind, hflags, ok_bind,
        show decide (entryFlags c₁.window &&& kExpiryFlag ≠ 0) = entryHasExpiry c₁.window from rfl]
      rw [add_ok (by omega), ok_bind, add_ok (by omega), ok_bind, htotal,
        Cursor.ensureChecked_ok same.sound hsize₁ hlt, ok_bind]
      have hc₂ := Cursor.ensureWith_cases same.sound (by rw [same.file]; exact hread)
        (entryTotal c₁.window)
      generalize Cursor.ensureWith c₁ read (entryTotal c₁.window) = r at hc₂ ⊢
      cases hc₂ with
      | short | broken => rfl
      | @held c₂ reach₂ same₂ shows₂ =>
          have hge := entryTotal_ge c₁.window
          have hin₂ := Cursor.window_inside (by omega) reach₂ shows₂
          have hwithin₂ := same₂.sound.within
          have hinside₂ := same₂.sound.inside
          have hreached₂ := same₂.sound.reached
          rw [same₂.file] at hinside₂
          -- The header was read before the window moved, and moving does not change it.
          have h9 : c₂.window.take 9 = c₁.window.take 9 := by
            have := congrArg (List.take 9) shows₂
            rw [List.take_take, List.take_take, Nat.min_eq_left hge, same.rest] at this
            exact this.trans shows.symm
          have hsame := sameHeader_of_take h9
          rw [← hsame.total] at hin₂ hlt
          have hstamp := stampAt_entry hin₂
          rw [show c₂.buf.drop (c₂.pos - c₂.bufStart) = c₂.window from rfl] at hstamp
          have hparts : entryTotal c₂.window = entryBody c₂.window + entryKlen c₂.window +
            entryVlen c₂.window := rfl
          have hkey : (c₂.buf.drop (c₂.pos - c₂.bufStart + entryBody c₂.window)).take
              (entryKlen c₂.window) = entryKey c₂.window := by
            rw [entryKey, Cursor.window, List.drop_drop]
          have hvalue : (c₂.buf.drop (c₂.pos - c₂.bufStart + entryBody c₂.window +
              entryKlen c₂.window)).take (entryVlen c₂.window) = entryValue c₂.window := by
            rw [entryValue, Cursor.window, List.drop_drop, Nat.add_assoc]
          simp only []
          rw [sub_ok same₂.sound.behind, ok_bind, add_ok (by omega), ok_bind, ← hsame.expiry,
            ← hsame.klen, ← hsame.vlen, ← hsame.flags, ← hsame.total, hstamp, ok_bind,
            show (9 + if entryHasExpiry c₂.window = true then 8 else 0) = entryBody c₂.window
              from rfl]
          rw [add_ok (by omega), ok_bind, slice_ok (by omega), ok_bind, hkey, ok_bind,
            add_ok (by omega), ok_bind, slice_ok (by omega), ok_bind, hvalue, add_ok (by omega),
            ok_bind]
          rfl

/-- A cursor that shows an entry can go on. -/
def Cursor.Going (c : Cursor) (file : Bytes) : Prop :=
  c.valid = true → c.Sound ∧ c.failed = false ∧ c.file = file

theorem Cursor.Loaded.going {c c' : Cursor} {read : Nat → Nat → Option Bytes}
    (h : Cursor.Loaded read c c') : c'.Going c.file := by
  intro hv
  cases h with
  | stopped _ invalid => rw [invalid] at hv; cases hv
  | broken _ invalid => rw [invalid] at hv; cases hv
  | shown _ sound file _ _ live => exact ⟨sound, live, file⟩

theorem Cursor.walkChecked_ok {file : Bytes} (hsize : file.length < 2 ^ 63) :
    ∀ (fuel : Nat) {c : Cursor} {reads : Nat → Nat → Nat → Option Bytes}, c.Going file →
      (∀ n, ReadsFrom file (reads n)) → (Cursor.walk reads fuel c).2.valid = false →
      Cursor.walkChecked reads fuel c = .ok (Cursor.walk reads fuel c)
  | 0, c, reads, _, _, hend => by
      rw [Cursor.walkChecked, show c.valid = false from hend]
      rfl
  | fuel + 1, c, reads, hc, hreads, hend => by
      rw [Cursor.walkChecked, Cursor.walk]
      split
      · next hv =>
          obtain ⟨hsound, hlive, rfl⟩ := hc hv
          rw [Cursor.walk, if_pos hv] at hend
          rw [Cursor.loadChecked_ok hsound hsize (hreads 0), ok_bind,
            Cursor.walkChecked_ok hsize fuel
              (Cursor.loadWith_cases hsound hlive (hreads 0)).going (fun n => hreads (n + 1)) hend]
          rfl
      · rfl

theorem Sstable.walkChecked_ok {t : Sstable} (h : t.Accepted) (hsize : t.file.length < 2 ^ 63)
    {reads : Nat → Nat → Nat → Option Bytes} (hreads : ∀ n, ReadsFrom t.file (reads n))
    {fuel : Nat} (hfuel : t.dataEnd / 9 ≤ fuel) :
    t.walkChecked reads fuel = .ok (t.walk reads fuel) ∧ (t.walk reads fuel).2.valid = false := by
  obtain ⟨es, left, hp⟩ := Parses.exists (t.file.take t.dataEnd)
  have hlen := hp.length
  rw [List.length_take, Nat.min_eq_left h.dataEnd] at hlen
  have hends := (Sstable.walk_spec h hp hreads fuel).ends (by omega)
  have hsound := t.cursor_sound h
  refine ⟨?_, hends⟩
  rw [Sstable.walkChecked, Cursor.loadChecked_ok hsound hsize (hreads 0), ok_bind]
  exact Cursor.walkChecked_ok hsize fuel (Cursor.loadWith_cases hsound rfl (hreads 0)).going
    (fun n => hreads (n + 1)) hends

/-! ## Tables -/

/-- For any bytes offered as a table file and any reads that fail, the
constructor returns a table or throws, and no check fails on the way. Every
`get` on the table it returns comes back with what the model's `get` says, and
an iteration ends after at most one step per nine bytes of data. The length of
the file is what `lseek` returned as an `off_t`. -/
theorem table_accesses_inside (path : FileName) (file : Bytes) (useBloom : Bool)
    (hsize : file.length < 2 ^ 63) (reads : Nat → Nat → Nat → Option Bytes)
    (hreads : ∀ n, ReadsFrom file (reads n)) :
    ∃ opened, openTableChecked path file useBloom reads = .ok opened ∧
      (opened = none ∨ opened = openTable path file useBloom) ∧
      ((∀ n, Undisturbed file (reads n)) → opened = openTable path file useBloom) ∧
      ∀ t, opened = some t →
        (∀ read, ReadsFrom file read → ∀ key,
          t.getChecked read key = .ok (t.getWith read key)) ∧
        ∀ reads, (∀ n, ReadsFrom file (reads n)) → ∀ fuel, t.dataEnd / 9 ≤ fuel →
          t.walkChecked reads fuel = .ok (t.walk reads fuel) ∧
          (t.walk reads fuel).2.valid = false := by
  obtain ⟨opened, hopened, hcases⟩ := openTableChecked_ok path useBloom hsize hreads
  refine ⟨opened, hopened, hcases.symm.imp_left And.left,
    fun hall => hcases.resolve_right fun h => h.2 hall, fun t ht => ?_⟩
  have hopen : openTable path file useBloom = some t := by
    rcases hcases with rfl | ⟨rfl, -⟩
    · exact ht
    · cases ht
  obtain ⟨hacc, rfl⟩ := openTable_accepted hopen
  exact ⟨fun read hread key => Sstable.getChecked_ok hacc hsize hread key,
    fun reads hreads fuel hfuel => Sstable.walkChecked_ok hacc hsize hreads hfuel⟩

/-- The damaged file of `damagedFile`: it opens, its key is not found and the
walk ends at once. -/
theorem table_accesses_inside_damaged :
    ∃ t, openTableChecked (.table 1) damagedFile true (fun _ => readExact damagedFile) =
        .ok (some t) ∧
      t.getChecked (readExact damagedFile) [97] = .ok none ∧
      ∃ r, t.walkChecked (fun _ => readExact damagedFile) 1 = .ok r ∧ r.2.valid = false := by
  obtain ⟨opened, hopened, -, hsame, hall⟩ := table_accesses_inside (.table 1) damagedFile true
    (by decide +kernel) (fun _ => readExact damagedFile) (fun _ _ _ => .inr rfl)
  have hopen := hsame fun _ _ _ => rfl
  have hfacts : (openTable (.table 1) damagedFile true).map (fun t =>
      (t.getWith (readExact damagedFile) [97], t.dataEnd)) = some (none, 11) := by decide +kernel
  rw [← hopen] at hfacts
  obtain ⟨t, rfl, ht⟩ := Option.map_eq_some_iff.mp hfacts
  obtain ⟨hget, hend⟩ := Prod.mk.inj ht
  obtain ⟨hlookups, hwalks⟩ := hall t rfl
  refine ⟨t, hopened, (hlookups _ (fun _ _ => .inr rfl) [97]).trans (congrArg _ hget), ?_⟩
  exact ⟨_, hwalks (fun _ => readExact damagedFile) (fun _ _ _ => .inr rfl) 1 (by rw [hend])⟩

end Cachedb
