import Cachedb.Proofs.TableRead
import Cachedb.Model.Compaction

/-!
# Walking a table

A cursor takes the data block for what its bytes say: as long as a whole entry
lies ahead it shows it and moves behind it, and otherwise it stops. That is
said here for any bytes at all (`Parses`) and any reads, so what a walk yields
and where it ends is a matter of the bytes of the data block
(`Sstable.walk_spec`). On a table the writer wrote, it yields what was written.

Stopping without a whole entry ahead is not a failure to the cursor. So a walk
that was not disturbed ends behind the last whole entry, and that is the end of
the data block only if the block consists of whole entries (`Framed`).
-/

namespace Cachedb

/-! ## What the bytes say -/

/-- The bytes begin with a whole entry. -/
def WholeEntry (data : Bytes) : Prop := 9 ≤ data.length ∧ entryTotal data ≤ data.length

/-- The entry they begin with. -/
def entryAt (data : Bytes) : Bytes × Entry :=
  (entryKey data, {
    value := entryValue data, tombstone := entryTombstone data, expiresAtMs := entryStamp data })

/-- Bytes as whole entries, and what is behind the last of them. -/
inductive Parses : Bytes → List (Bytes × Entry) → Bytes → Prop
  | stop {data : Bytes} (h : ¬WholeEntry data) : Parses data [] data
  | entry {data rest : Bytes} {es : List (Bytes × Entry)} (h : WholeEntry data)
      (hrest : Parses (data.drop (entryTotal data)) es rest) :
      Parses data (entryAt data :: es) rest

/-- Bytes that are whole entries throughout. -/
inductive Framed : Bytes → Prop
  | nil : Framed []
  | entry {data : Bytes} (h : WholeEntry data) (hrest : Framed (data.drop (entryTotal data))) :
      Framed data

theorem entryTotal_ge (data : Bytes) : 9 ≤ entryTotal data := by
  rw [entryTotal, entryBody]
  omega

/-- An entry is decided by the bytes it takes up. -/
theorem entryAt_take {p : Bytes} {n : Nat} (h : entryTotal p ≤ n) :
    entryAt (p.take n) = entryAt p := by
  have h9 := le_trans (entryTotal_ge p) h
  rw [entryTotal] at h
  have hkey : entryKey (p.take n) = entryKey p := by
    rw [entryKey, entryBody_take h9, entryKlen_take h9, entryKey, List.drop_take,
      List.take_take, Nat.min_eq_left (by omega)]
  have hvalue : entryValue (p.take n) = entryValue p := by
    rw [entryValue, entryBody_take h9, entryKlen_take h9, entryVlen_take h9, entryValue,
      List.drop_take, List.take_take, Nat.min_eq_left (by omega)]
  have hstamp : entryStamp (p.take n) = entryStamp p := by
    rw [entryStamp, entryHasExpiry_take h9, entryStamp]
    split
    · next hx =>
        rw [entryBody, if_pos hx] at h
        rw [loadU64, loadU64, loadLe_drop_take (by omega)]
    · rfl
  rw [entryAt, hkey, hvalue, hstamp, entryTombstone, entryFlags_take h9]
  rfl

theorem Parses.exists (data : Bytes) : ∃ es rest, Parses data es rest := by
  induction hn : data.length using Nat.strong_induction_on generalizing data with
  | _ n ih =>
      by_cases h : WholeEntry data
      · have hge := entryTotal_ge data
        have hlen := h.1
        obtain ⟨es, rest, hrest⟩ := ih _ (by rw [← hn, List.length_drop]; omega)
          (data.drop (entryTotal data)) rfl
        exact ⟨_, _, .entry h hrest⟩
      · exact ⟨[], data, .stop h⟩

theorem Parses.length {data rest : Bytes} {es : List (Bytes × Entry)}
    (h : Parses data es rest) : 9 * es.length + rest.length ≤ data.length := by
  induction h with
  | stop => simp
  | @entry data _ _ h _ ih =>
      have hge := entryTotal_ge data
      have hle := h.2
      rw [List.length_drop] at ih
      rw [List.length_cons]
      omega

theorem Parses.rest_eq_nil_iff {data rest : Bytes} {es : List (Bytes × Entry)}
    (h : Parses data es rest) : rest = [] ↔ Framed data := by
  induction h with
  | @stop data h =>
      constructor
      · rintro rfl
        exact .nil
      · intro hf
        cases hf with
        | nil => rfl
        | entry hw => exact absurd hw h
  | @entry data _ _ h _ ih =>
      rw [ih]
      constructor
      · exact .entry h
      · intro hf
        cases hf with
        | nil => exact absurd h.1 (by decide)
        | entry _ hrest => exact hrest

/-- A written data block says what was written. -/
theorem parses_dataBlock : ∀ {es : List (Bytes × Entry)}, (∀ p ∈ es, EntryFits p) →
    Parses (dataBlock es) (es.map fun p => (p.1, p.2.stored)) []
  | [], _ => .stop fun h => absurd h.1 (by decide)
  | (k, e) :: es, hfit => by
      have hp : EntryFits (k, e) := hfit _ List.mem_cons_self
      have htotal := entryTotal_encode (dataBlock es) hp
      have hentry : entryAt (dataBlock ((k, e) :: es)) = (k, e.stored) := by
        rw [dataBlock_cons, entryAt, entryKey_encode _ hp, entryValue_encode _ hp,
          entryTombstone_encode, entryStamp_encode]
        rfl
      have hwhole : WholeEntry (dataBlock ((k, e) :: es)) := by
        have hlen := length_encodeEntry k e
        show 9 ≤ (encodeEntry k e ++ dataBlock es).length ∧
          entryTotal (encodeEntry k e ++ dataBlock es) ≤ (encodeEntry k e ++ dataBlock es).length
        rw [htotal, List.length_append]
        omega
      rw [List.map_cons, ← hentry]
      refine .entry hwhole ?_
      rw [dataBlock_cons, htotal, List.drop_left' rfl]
      exact parses_dataBlock fun q hq => hfit q (List.mem_cons_of_mem _ hq)

/-! ## One call -/

/-- The part of the data block a cursor has not parsed yet. -/
def Cursor.rest (c : Cursor) : Bytes := (c.file.take c.dataEnd).drop c.pos

/-- A cursor in use: its window shows data bytes of the file, and it has not
left the data. -/
structure Cursor.Sound (c : Cursor) : Prop extends c.Steady where
  behind : c.bufStart ≤ c.pos
  within : c.bufStart + c.buf.length ≤ c.dataEnd
  reached : c.pos ≤ c.dataEnd

theorem Cursor.Sound.length_rest {c : Cursor} (h : c.Sound) :
    c.rest.length = c.dataEnd - c.pos := by
  have hin := h.inside
  rw [Cursor.rest, List.length_drop, List.length_take]
  omega

/-- No read fails. -/
def Undisturbed (file : Bytes) (read : Nat → Nat → Option Bytes) : Prop :=
  ∀ offset length, read offset length = readExact file offset length

/-- A cursor before and after its window moved. -/
structure Cursor.Refilled (c c' : Cursor) : Prop where
  sound : c'.Sound
  file : c'.file = c.file
  dataEnd : c'.dataEnd = c.dataEnd
  pos : c'.pos = c.pos
  failed : c'.failed = c.failed
  valid : c'.valid = c.valid

theorem Cursor.Refilled.rest {c c' : Cursor} (h : c.Refilled c') : c'.rest = c.rest := by
  rw [Cursor.rest, h.file, h.dataEnd, h.pos, Cursor.rest]

/-- The three ways `ensure` ends: the bytes are in the window, the data does
not reach that far, or the read failed. -/
inductive Cursor.Ensured (read : Nat → Nat → Option Bytes) (need : Nat) (c : Cursor) :
    Bool × Cursor → Prop
  | held {c' : Cursor} (reach : need ≤ c.rest.length) (same : c.Refilled c')
      (shows : c'.window.take need = c.rest.take need) : Ensured read need c (true, c')
  | short (h : c.rest.length < need) : Ensured read need c (false, c)
  | broken (h : ¬Undisturbed c.file read) :
      Ensured read need c (false, { c with failed := true })

theorem ReadsFrom.cases {file : Bytes} {read : Nat → Nat → Option Bytes}
    (h : ReadsFrom file read) (offset length : Nat) (hin : offset + length ≤ file.length) :
    (read offset length = none ∧ ¬Undisturbed file read) ∨
      read offset length = some ((file.drop offset).take length) := by
  have hfile : readExact file offset length = some ((file.drop offset).take length) :=
    if_pos (.inr hin)
  rcases h offset length with hnone | hread
  · refine .inl ⟨hnone, fun hall => ?_⟩
    rw [hall, hfile] at hnone
    cases hnone
  · exact .inr (hread.trans hfile)

theorem Cursor.ensureWith_cases {c : Cursor} {read : Nat → Nat → Option Bytes} (h : c.Sound)
    (hread : ReadsFrom c.file read) (need : Nat) :
    Cursor.Ensured read need c (c.ensureWith read need) := by
  have hin := h.inside
  have hwithin := h.within
  have hreached := h.reached
  have hrest := h.length_rest
  rw [Cursor.ensureWith]
  split
  · next hhave =>
      refine .held (by omega) ⟨h, rfl, rfl, rfl, rfl, rfl⟩ ?_
      have := congrArg List.length h.window
      rw [Cursor.window, h.window, List.drop_take, List.drop_drop, List.take_take,
        Nat.add_sub_cancel' hhave.1, Cursor.rest, List.drop_take, List.take_take]
      congr 1
      omega
  · split
    · exact .short (by omega)
    · simp only []
      rcases hread.cases c.pos (min (c.dataEnd - c.pos) (max need kCursorWindow))
        (by omega) with ⟨hnone, hbad⟩ | hsome
      · rw [hnone]
        exact .broken hbad
      · rw [hsome]
        obtain ⟨want, hwant⟩ : ∃ n, n = min (c.dataEnd - c.pos) (max need kCursorWindow) := ⟨_, rfl⟩
        rw [← hwant]
        have hlen : ((c.file.drop c.pos).take want).length = want := by
          rw [List.length_take, List.length_drop]
          omega
        refine .held (by omega)
          ⟨⟨⟨?_, hin⟩, Nat.le_refl _, ?_, hreached⟩, rfl, rfl, rfl, rfl, rfl⟩ ?_
        · show (c.file.drop c.pos).take want = (c.file.drop c.pos).take (List.length _)
          rw [hlen]
        · show c.pos + List.length _ ≤ c.dataEnd
          rw [hlen]
          omega
        · show (((c.file.drop c.pos).take want).drop (c.pos - c.pos)).take need = _
          rw [Nat.sub_self, List.drop_zero, List.take_take, Cursor.rest, List.drop_take,
            List.take_take]
          congr 1
          omega

/-- What `load` makes of a cursor: it stops for want of a whole entry, a read
failed, or it shows the entry that lies ahead and stands behind it. -/
inductive Cursor.Loaded (read : Nat → Nat → Option Bytes) (c : Cursor) : Cursor → Prop
  | stopped {c' : Cursor} (h : ¬WholeEntry c.rest) (invalid : c'.valid = false)
      (live : c'.failed = false) (pos : c'.pos = c.pos) : Loaded read c c'
  | broken {c' : Cursor} (h : ¬Undisturbed c.file read) (invalid : c'.valid = false)
      (failed : c'.failed = true) : Loaded read c c'
  | shown {c' : Cursor} (h : WholeEntry c.rest) (sound : c'.Sound) (file : c'.file = c.file)
      (dataEnd : c'.dataEnd = c.dataEnd) (valid : c'.valid = true) (live : c'.failed = false)
      (entry : c'.entry = entryAt c.rest) (rest : c'.rest = c.rest.drop (entryTotal c.rest)) :
      Loaded read c c'

theorem Cursor.loadWith_cases {c : Cursor} {read : Nat → Nat → Option Bytes} (h : c.Sound)
    (hlive : c.failed = false) (hread : ReadsFrom c.file read) :
    Cursor.Loaded read c (c.loadWith read) := by
  have hrest := h.length_rest
  have hreached := h.reached
  have h₀ : Cursor.Sound { c with valid := false } :=
    ⟨⟨h.window, h.inside⟩, h.behind, h.within, h.reached⟩
  rw [Cursor.loadWith]
  simp only []
  split
  · next hend =>
      have hend : c.dataEnd ≤ c.pos := hend.resolve_left (by simp [hlive])
      exact .stopped (fun hw => by have := hw.1; omega) rfl hlive rfl
  · -- Nine bytes are enough to know how long the entry is.
    have hc₁ := Cursor.ensureWith_cases h₀ hread 9
    generalize Cursor.ensureWith _ read 9 = r at hc₁ ⊢
    cases hc₁ with
    | short hshort => exact .stopped (fun hw => absurd hshort (Nat.not_lt.mpr hw.1)) rfl hlive rfl
    | broken hbad => exact .broken hbad rfl rfl
    | @held c₁ reach same shows =>
        have htotal : entryTotal c₁.window = entryTotal c.rest := by
          rw [← entryTotal_take (Nat.le_refl 9), shows, entryTotal_take (Nat.le_refl 9)]
          rfl
        have hrest₁ : c₁.rest = c.rest := same.rest
        have hc₂ := Cursor.ensureWith_cases same.sound (by rw [same.file]; exact hread)
          (entryTotal c.rest)
        simp only [htotal]
        generalize Cursor.ensureWith _ read (entryTotal c.rest) = r at hc₂ ⊢
        cases hc₂ with
        | short hshort =>
            rw [hrest₁] at hshort
            exact .stopped (fun hw => absurd hshort (Nat.not_lt.mpr hw.2)) same.valid
              (same.failed.trans hlive) same.pos
        | broken hbad =>
            rw [same.file] at hbad
            exact .broken hbad same.valid rfl
        | @held c₂ reach₂ same₂ shows₂ =>
            rw [hrest₁] at reach₂ shows₂
            have hentry : entryAt c₂.window = entryAt c.rest := by
              have htotal₂ : entryTotal c₂.window = entryTotal c.rest := by
                rw [← entryTotal_take (entryTotal_ge c.rest), shows₂,
                  entryTotal_take (entryTotal_ge c.rest)]
              rw [← entryAt_take (Nat.le_of_eq htotal₂), shows₂, entryAt_take (Nat.le_refl _)]
            have hpos : c₂.pos = c.pos := same₂.pos.trans same.pos
            have hend : c₂.dataEnd = c.dataEnd := same₂.dataEnd.trans same.dataEnd
            have hfile : c₂.file = c.file := same₂.file.trans same.file
            refine .shown ⟨reach, reach₂⟩ ⟨⟨same₂.sound.window, same₂.sound.inside⟩,
              Nat.le_add_right_of_le same₂.sound.behind, same₂.sound.within, ?_⟩ hfile hend rfl
              (same₂.failed.trans (same.failed.trans hlive)) hentry ?_
            · show c₂.pos + entryTotal c.rest ≤ c₂.dataEnd
              rw [hpos, hend]
              omega
            · show (c₂.file.take c₂.dataEnd).drop (c₂.pos + entryTotal c.rest) = _
              rw [hfile, hend, hpos, ← List.drop_drop]
              rfl

/-! ## The whole walk -/

/-- What is known of a walk over bytes that parse as `es`, ending at `stop`:
it ends, and unless a read failed it has taken all of `es`. -/
structure Cursor.Walked (undisturbed : Prop) (es : List (Bytes × Entry)) (stop fuel : Nat)
    (r : List (Bytes × Entry) × Cursor) : Prop where
  ends : es.length ≤ fuel → r.2.valid = false
  whole : r.2.valid = false → r.2.failed = false → r.1 = es ∧ r.2.pos = stop
  live : undisturbed → r.2.failed = false

theorem Cursor.walk_spec {data left : Bytes} {es : List (Bytes × Entry)}
    (h : Parses data es left) : ∀ {c : Cursor} (reads : Nat → Nat → Nat → Option Bytes)
    (fuel : Nat), c.Sound → c.failed = false → c.rest = data →
      (∀ n, ReadsFrom c.file (reads n)) →
      Cursor.Walked (∀ n, Undisturbed c.file (reads n)) es (c.dataEnd - left.length) fuel
        (Cursor.walk (fun n => reads (n + 1)) fuel (c.loadWith (reads 0))) := by
  -- A cursor that does not show anything ends the walk at once.
  have hstop : ∀ (reads : Nat → Nat → Nat → Option Bytes) (fuel : Nat) {c : Cursor},
      c.valid = false → Cursor.walk reads fuel c = ([], c) := by
    intro reads fuel c hc
    cases fuel with
    | zero => rfl
    | succ fuel => rw [Cursor.walk, hc]; rfl
  induction h with
  | @stop data hno =>
      intro c reads fuel hs hlive hdata hreads
      have hlen := hs.length_rest
      have hreached := hs.reached
      rw [hdata] at hlen
      have hload := Cursor.loadWith_cases hs hlive (hreads 0)
      cases hload with
      | stopped _ invalid live pos =>
          rw [hstop _ _ invalid]
          exact ⟨fun _ => invalid, fun _ _ => ⟨rfl, by rw [pos]; omega⟩, fun _ => live⟩
      | broken hbad invalid failed =>
          rw [hstop _ _ invalid]
          exact ⟨fun _ => invalid, fun _ hf => absurd hf (by rw [failed]; simp),
            fun hall => absurd (hall 0) hbad⟩
      | shown hw => exact absurd (hdata ▸ hw) hno
  | @entry data left es hwhole _ ih =>
      intro c reads fuel hs hlive hdata hreads
      have hload := Cursor.loadWith_cases hs hlive (hreads 0)
      cases hload with
      | stopped hno => exact absurd (hdata ▸ hwhole) hno
      | broken hbad invalid failed =>
          rw [hstop _ _ invalid]
          exact ⟨fun _ => invalid, fun _ hf => absurd hf (by rw [failed]; simp),
            fun hall => absurd (hall 0) hbad⟩
      | shown _ sound file dataEnd valid live entry rest =>
          cases fuel with
          | zero =>
              refine ⟨fun hf => absurd hf (by simp), fun hv => ?_, fun _ => live⟩
              rw [show (c.loadWith (reads 0)).valid = false from hv] at valid
              cases valid
          | succ fuel =>
              have hrest := ih (fun n => reads (n + 1)) fuel sound live
                (by rw [rest, hdata]) (by rw [file]; exact fun n => hreads (n + 1))
              rw [file, dataEnd] at hrest
              rw [Cursor.walk, if_pos valid]
              refine ⟨fun hf => hrest.ends (by simpa using hf), fun hv hl => ?_,
                fun hall => hrest.live fun n => hall (n + 1)⟩
              obtain ⟨hes, hpos⟩ := hrest.whole hv hl
              exact ⟨by rw [entry, hdata]; exact congrArg _ hes, hpos⟩

/-! ## Tables -/

/-- What the constructor made sure of. -/
structure Sstable.Accepted (t : Sstable) : Prop where
  dataEnd : t.dataEnd ≤ t.file.length
  index : ∀ x ∈ t.index, x.offset ≤ t.dataEnd
  count : t.index.length < 2 ^ 32

theorem parseIndex_offset {dataEnd : Nat} : ∀ {n : Nat} {block : Bytes} {index : List IndexEntry},
    parseIndex dataEnd n block = some index →
      (∀ x ∈ index, x.offset ≤ dataEnd) ∧ index.length = n
  | 0, _, index, h => by
      rw [parseIndex] at h
      injection h with h
      subst h
      exact ⟨List.forall_mem_nil _, rfl⟩
  | n + 1, block, index, h => by
      rw [parseIndex] at h
      split at h
      · cases h
      simp only [] at h
      split at h
      · cases h
      split at h
      · cases h
      next hle =>
        obtain ⟨rest, hrest, rfl⟩ := Option.map_eq_some_iff.mp h
        obtain ⟨hall, hlen⟩ := parseIndex_offset hrest
        refine ⟨fun x hx => ?_, by rw [List.length_cons, hlen]⟩
        rcases List.mem_cons.mp hx with rfl | hx
        · exact Nat.not_lt.mp hle
        · exact hall x hx

theorem openTable_accepted {path : FileName} {file : Bytes} {useBloom : Bool} {t : Sstable}
    (h : openTable path file useBloom = some t) : t.Accepted ∧ t.file = file := by
  rw [openTable] at h
  split at h
  · cases h
  simp only [] at h
  split at h
  · cases h
  split at h
  · cases h
  next hoffsets =>
    split at h
    · cases h
    split at h
    · cases h
    split at h
    · cases h
    next index hindex =>
      split at h
      · cases h
      injection h with h
      subst h
      obtain ⟨hall, hlen⟩ := parseIndex_offset hindex
      refine ⟨⟨?_, hall, lt_of_eq_of_lt hlen (loadU32_lt _)⟩, rfl⟩
      rw [not_or] at hoffsets
      show loadU64 _ ≤ file.length
      omega

/-- The cursor before its first `load`. -/
theorem Sstable.cursor_sound (t : Sstable) (h : t.Accepted) :
    Cursor.Sound { file := t.file, dataEnd := t.dataEnd } :=
  ⟨⟨rfl, h.dataEnd⟩, Nat.le_refl _, Nat.zero_le _, Nat.zero_le _⟩

theorem Sstable.walk_spec {t : Sstable} (h : t.Accepted) {es : List (Bytes × Entry)}
    {left : Bytes} (hp : Parses (t.file.take t.dataEnd) es left)
    {reads : Nat → Nat → Nat → Option Bytes} (hreads : ∀ n, ReadsFrom t.file (reads n))
    (fuel : Nat) :
    Cursor.Walked (∀ n, Undisturbed t.file (reads n)) es (t.dataEnd - left.length) fuel
      (t.walk reads fuel) :=
  Cursor.walk_spec (c := { file := t.file, dataEnd := t.dataEnd }) hp reads fuel
    (t.cursor_sound h) rfl rfl hreads

theorem take_dataBlock (bits : Int) (es : List (Bytes × Entry)) :
    (writeTable bits es).take (dataBlock es).length = dataBlock es := by
  rw [writeTable_eq, List.append_assoc, List.append_assoc, List.take_left' rfl]

/-- Iterating a written table ends, whatever its index says. -/
theorem walk_written {bits : Int} {es : List (Bytes × Entry)} (hfit : ∀ p ∈ es, EntryFits p)
    {path : FileName} {useBloom : Bool} {t : Sstable}
    (hopen : openTable path (writeTable bits es) useBloom = some t)
    (hend : t.dataEnd = (dataBlock es).length) (reads : Nat → Nat → Nat → Option Bytes)
    (hreads : ∀ n, ReadsFrom (writeTable bits es) (reads n)) {fuel : Nat}
    (hfuel : es.length ≤ fuel) :
    (t.walk reads fuel).2.valid = false ∧
      ((t.walk reads fuel).2.failed = false →
        (t.walk reads fuel).1 = es.map fun p => (p.1, p.2.stored)) ∧
      ((∀ n, Undisturbed (writeTable bits es) (reads n)) →
        (t.walk reads fuel).2.failed = false) := by
  obtain ⟨hacc, hfile⟩ := openTable_accepted hopen
  have hdata : t.file.take t.dataEnd = dataBlock es := by
    rw [hfile, hend]
    exact take_dataBlock bits es
  have hw := Sstable.walk_spec hacc (hdata ▸ parses_dataBlock hfit)
    (by rw [hfile]; exact hreads) fuel
  rw [hfile] at hw
  have hends := hw.ends (by rw [List.length_map]; exact hfuel)
  exact ⟨hends, fun hl => (hw.whole hends hl).1, hw.live⟩

/-- Iterating a written table always ends, and yields exactly the entries, in
order, unless a read failed. What it yields for a key is what `get` says of it,
except that `get` leaves out the value of a tombstone, exactly if the count of
the index entries does not come out as zero. -/
theorem cursor_agrees_iff {bits : Int} {es : List (Bytes × Entry)}
    (hs : SortedMap.KeysSorted es) (hfit : ∀ p ∈ es, EntryFits p)
    (hsize : (writeTable bits es).length < 2 ^ 63) (path : FileName) (useBloom : Bool) :
    ∃ t, openTable path (writeTable bits es) useBloom = some t ∧
      (∀ reads, (∀ n, ReadsFrom (writeTable bits es) (reads n)) → ∀ fuel, es.length ≤ fuel →
        (t.walk reads fuel).2.valid = false ∧
        ((t.walk reads fuel).2.failed = false →
          (t.walk reads fuel).1 = es.map fun p => (p.1, p.2.stored)) ∧
        ((∀ n, Undisturbed (writeTable bits es) (reads n)) →
          (t.walk reads fuel).2.failed = false)) ∧
      ((∀ key, t.get key = (SortedMap.findIn key (es.map fun p => (p.1, p.2.stored))).map
          fun e => { e with value := if e.tombstone then [] else e.value }) ↔
        Indexed es) := by
  obtain ⟨t, hopen, _, _, _, _, hend, _, hget⟩ := openTable_written hs hfit hsize path useBloom
  have hstored : ∀ key, ((SortedMap.findIn key (es.map fun p => (p.1, p.2.stored))).map
      fun e => { e with value := if e.tombstone then [] else e.value }) =
      (SortedMap.findIn key es).map Entry.settled := by
    intro key
    rw [SortedMap.findIn_map, Option.map_map]
    rfl
  refine ⟨t, hopen, fun reads hreads fuel hfuel => ?_, ?_⟩
  · exact walk_written hfit hopen hend reads hreads hfuel
  · simp only [hstored, hget]
    exact get_agrees_iff hs

theorem cursor_agrees_odd :
    ∃ t, openTable (.table 1) (writeTable 10 oddEntries) true = some t ∧
      ∃ c, t.walk (fun _ => readExact (writeTable 10 oddEntries)) 2 =
          ([([], { value := [7], expiresAtMs := -1 }),
            ([1, 0], { value := [8], tombstone := true })], c) ∧
        c.valid = false ∧ c.failed = false ∧
        t.get [] = some { value := [7], expiresAtMs := -1 } ∧
        t.get [1, 0] = some { value := [], tombstone := true } := by
  obtain ⟨t, hopen, hwalk, hget⟩ := cursor_agrees_iff
    (by unfold SortedMap.KeysSorted; decide) (by unfold EntryFits; decide)
    (show (writeTable 10 oddEntries).length < 2 ^ 63 by decide +kernel) (.table 1) true
  obtain ⟨hends, hyields, hlive⟩ := hwalk (fun _ => readExact _) (fun _ _ _ => .inr rfl) 2
    (Nat.le_refl _)
  have hfailed := hlive fun _ _ _ => rfl
  have hagrees := hget.mpr (Or.inr (by decide +kernel))
  exact ⟨t, hopen, _, Prod.ext (hyields hfailed) rfl, hends, hfailed, hagrees [], hagrees [1, 0]⟩

/-- A table with exactly 2^32 index entries: its cursor yields all of them, and
`get` does not find the first. -/
theorem cursor_disagrees_wide :
    let es := wideEntries 0 (2 ^ 32)
    ∃ t, openTable (.table 1) (writeTable 10 es) true = some t ∧
      (t.walk (fun _ => readExact (writeTable 10 es)) es.length).1 =
        (es.map fun p => (p.1, p.2.stored)) ∧
      wideEntry 0 ∈ es ∧ t.get (wideEntry 0).1 = none := by
  intro es
  have hwide : 0 + 2 ^ 32 ≤ 2 ^ 32 := Nat.le_refl _
  have hfit := wideEntries_fit 0 (2 ^ 32)
  obtain ⟨t, hopen, _, _, _, _, hend, _, hget⟩ := openTable_written (wideEntries_sorted hwide)
    hfit (wideEntries_size 0 (Nat.le_refl (2 ^ 32))) (.table 1) true
  obtain ⟨_, hyields, hlive⟩ := walk_written hfit hopen hend
    (fun _ => readExact (writeTable 10 es)) (fun _ _ _ => .inr rfl) (Nat.le_refl _)
  refine ⟨t, hopen, hyields (hlive fun _ _ _ => rfl), wideEntry_mem 0 (by decide), ?_⟩
  rw [hget, indexCount_wideEntries, Nat.mod_self, if_pos rfl]

/-- For a table the constructor accepts, whatever its bytes, to stop without a
failure means to have read the data block to its end exactly when the data
block is whole entries throughout; and so for what `compact` reports. -/
theorem cursor_stops_at_end_iff {path : FileName} {file : Bytes} {useBloom : Bool} {t : Sstable}
    (h : openTable path file useBloom = some t) :
    ((∀ reads, (∀ n, ReadsFrom file (reads n)) → ∀ fuel,
        (t.walk reads fuel).2.valid = false → (t.walk reads fuel).2.failed = false →
        (t.walk reads fuel).2.pos = t.dataEnd) ∧
      ∀ inputs bits dropObsolete now, t ∈ inputs →
        (compact inputs bits dropObsolete now).ok = true →
        ∃ fuel, (t.walk (fun _ => readExact file) fuel).2.valid = false ∧
          (t.walk (fun _ => readExact file) fuel).2.pos = t.dataEnd) ↔
    Framed (file.take t.dataEnd) := by
  obtain ⟨hacc, rfl⟩ := openTable_accepted h
  obtain ⟨es, left, hp⟩ := Parses.exists (t.file.take t.dataEnd)
  have hplain : ∀ n : Nat, ReadsFrom t.file ((fun _ => readExact t.file) n) :=
    fun _ _ _ => .inr rfl
  have hw := Sstable.walk_spec hacc hp hplain es.length
  have hends := hw.ends (Nat.le_refl _)
  obtain ⟨-, hpos⟩ := hw.whole hends (hw.live fun _ _ _ => rfl)
  have hlen := hp.length
  rw [List.length_take, Nat.min_eq_left hacc.dataEnd] at hlen
  rw [← hp.rest_eq_nil_iff]
  constructor
  · rintro ⟨hall, -⟩
    have := hall _ hplain es.length hends (hw.live fun _ _ _ => rfl)
    rw [hpos] at this
    exact List.eq_nil_of_length_eq_zero (by omega)
  · rintro rfl
    refine ⟨fun reads hreads fuel hv hl => ?_, fun _ _ _ _ _ _ => ⟨es.length, hends, hpos⟩⟩
    exact ((Sstable.walk_spec hacc hp hreads fuel).whole hv hl).2

theorem cursor_stops_at_end_odd :
    ∃ t, openTable (.table 1) (writeTable 10 oddEntries) true = some t ∧
      ∀ reads, (∀ n, ReadsFrom (writeTable 10 oddEntries) (reads n)) → ∀ fuel,
        (t.walk reads fuel).2.valid = false → (t.walk reads fuel).2.failed = false →
        (t.walk reads fuel).2.pos = t.dataEnd := by
  have hfit : ∀ p ∈ oddEntries, EntryFits p := by unfold EntryFits; decide
  obtain ⟨t, hopen, _, _, _, _, hend, _⟩ := openTable_written
    (by unfold SortedMap.KeysSorted; decide) hfit
    (show (writeTable 10 oddEntries).length < 2 ^ 63 by decide +kernel) (.table 1) true
  have hframed : Framed (dataBlock oddEntries) := (parses_dataBlock hfit).rest_eq_nil_iff.mp rfl
  have hdata : (writeTable 10 oddEntries).take t.dataEnd = dataBlock oddEntries := by
    rw [hend]
    exact take_dataBlock 10 oddEntries
  exact ⟨t, hopen, ((cursor_stops_at_end_iff hopen).mpr (hdata ▸ hframed)).1⟩

/-- One entry, the length of its value damaged from 1 to 2. -/
def damagedFile : Bytes := (writeTable 10 [([97], { value := [1] })]).set 4 2

/-- The constructor accepts it, the cursor stops before its only entry with
nothing marked as failed, and a merge of it reports success and an empty
table. -/
theorem damaged_entry_taken_for_end :
    ∃ t, openTable (.table 1) damagedFile true = some t ∧ t.dataEnd = 11 ∧
      (t.walk (fun _ => readExact damagedFile) 0).2.valid = false ∧
      (t.walk (fun _ => readExact damagedFile) 0).2.failed = false ∧
      (t.walk (fun _ => readExact damagedFile) 0).2.pos = 0 ∧
      (compact [t] 10 false 0).ok = true ∧ (compact [t] 10 false 0).written = 0 := by
  refine ⟨((openTable (.table 1) damagedFile true).get (by decide +kernel)),
    (Option.some_get _).symm, ?_⟩
  decide +kernel

end Cachedb
