import Cachedb.Model.Sstable
import Cachedb.Proofs.Bloom

/-!
# What the table writer puts into a file

The first half is about one entry: every field access of the reader, applied
to an encoded entry with anything behind it, gives back the field. The second
half follows the writer. The sparse index cuts the entries into runs, one per
index entry, and that cut is the invariant (`SstableWriter.Wrote`): the runs
put together are the entries, and the index holds the first key and the offset
of each. Every run but the last has `kIndexInterval` bytes, so a table of no
more than `indexableBytes` has few enough runs for the 32-bit count the index
block begins with (`indexCount_lt`).
-/

namespace Cachedb

/-- Lengths fit the format's 32-bit fields. -/
def EntryFits (p : Bytes × Entry) : Prop :=
  p.1.length < 2 ^ 32 ∧ p.2.value.length < 2 ^ 32

/-- An entry as the cursor reads it back. -/
def Entry.stored (e : Entry) : Entry :=
  { e with expiresAtMs := if e.tombstone then 0 else e.expiresAtMs }

/-- An entry as a lookup reads it back. -/
def Entry.settled (e : Entry) : Entry :=
  { e.stored with value := if e.tombstone then [] else e.value }

theorem length_entryStampField (e : Entry) :
    e.stampField.length = if e.carriesExpiry then 8 else 0 := by
  unfold Entry.stampField
  split <;> simp

theorem length_encodeEntry (key : Bytes) (e : Entry) :
    (encodeEntry key e).length =
      9 + e.stampField.length + key.length + e.value.length := by
  simp only [encodeEntry, List.length_append, length_putU32, List.length_singleton]

theorem flags_expiry (e : Entry) : (e.flags &&& kExpiryFlag ≠ 0) ↔ e.carriesExpiry = true := by
  unfold Entry.flags
  cases e.tombstone <;> cases e.carriesExpiry <;> decide

theorem flags_tombstone (e : Entry) : (e.flags &&& kTombstoneFlag ≠ 0) ↔ e.tombstone = true := by
  unfold Entry.flags
  cases e.tombstone <;> cases e.carriesExpiry <;> decide

section Encoded

variable (key : Bytes) (e : Entry) (rest : Bytes)

theorem encodeEntry_split9 :
    encodeEntry key e ++ rest =
      (putU32 key.length ++ putU32 e.value.length ++ [e.flags]) ++
        (e.stampField ++ (key ++ (e.value ++ rest))) := by
  simp [encodeEntry]

theorem entryFlags_encode : entryFlags (encodeEntry key e ++ rest) = e.flags := by
  rw [entryFlags, encodeEntry_split9, List.getD_eq_getElem?_getD,
    List.getElem?_append_left (by simp), List.getElem?_append_right (by simp)]
  simp

theorem entryHasExpiry_encode :
    entryHasExpiry (encodeEntry key e ++ rest) = e.carriesExpiry := by
  rw [entryHasExpiry, entryFlags_encode, Bool.eq_iff_iff, decide_eq_true_iff]
  exact flags_expiry e

theorem entryTombstone_encode :
    entryTombstone (encodeEntry key e ++ rest) = e.tombstone := by
  rw [entryTombstone, entryFlags_encode, Bool.eq_iff_iff, decide_eq_true_iff]
  exact flags_tombstone e

theorem entryBody_encode :
    entryBody (encodeEntry key e ++ rest) = 9 + e.stampField.length := by
  rw [entryBody, entryHasExpiry_encode, length_entryStampField]

theorem entryStamp_encode :
    entryStamp (encodeEntry key e ++ rest) = e.stored.expiresAtMs := by
  rw [entryStamp, entryHasExpiry_encode, Entry.stored]
  cases ht : e.tombstone with
  | true => simp [Entry.carriesExpiry, ht]
  | false =>
      by_cases h0 : e.expiresAtMs = 0
      · simp [Entry.carriesExpiry, ht, h0]
      · have hc : e.carriesExpiry = true := by simp [Entry.carriesExpiry, ht, h0]
        rw [if_pos hc, encodeEntry_split9, List.drop_left' (by simp), Entry.stampField,
          if_pos hc, loadU64_putU64 (stampBits_lt _), bitsStamp_stampBits]
        simp

theorem drop_entryBody_encode :
    (encodeEntry key e ++ rest).drop (entryBody (encodeEntry key e ++ rest)) =
      key ++ (e.value ++ rest) := by
  rw [entryBody_encode, ← List.drop_drop, encodeEntry_split9, List.drop_left' (by simp)]
  exact List.drop_left' rfl

variable {key e} (hfit : EntryFits (key, e))
include hfit

theorem entryKlen_encode : entryKlen (encodeEntry key e ++ rest) = key.length := by
  rw [entryKlen, encodeEntry_split9, List.append_assoc, List.append_assoc]
  exact loadU32_putU32 hfit.1 _

theorem entryVlen_encode : entryVlen (encodeEntry key e ++ rest) = e.value.length := by
  rw [entryVlen, encodeEntry_split9, List.append_assoc, List.append_assoc,
    List.drop_left' (by simp)]
  exact loadU32_putU32 hfit.2 _

theorem entryTotal_encode :
    entryTotal (encodeEntry key e ++ rest) = (encodeEntry key e).length := by
  rw [entryTotal, entryBody_encode, entryKlen_encode rest hfit, entryVlen_encode rest hfit,
    length_encodeEntry]

theorem entryKey_encode : entryKey (encodeEntry key e ++ rest) = key := by
  rw [entryKey, drop_entryBody_encode, entryKlen_encode rest hfit]
  exact List.take_left' rfl

theorem entryValue_encode : entryValue (encodeEntry key e ++ rest) = e.value := by
  rw [entryValue, ← List.drop_drop, drop_entryBody_encode,
    entryKlen_encode rest hfit, entryVlen_encode rest hfit, List.drop_left' rfl]
  exact List.take_left' rfl

end Encoded

section Header

variable {p : Bytes} {n : Nat} (h : 9 ≤ n)
include h

theorem entryFlags_take : entryFlags (p.take n) = entryFlags p := by
  rw [entryFlags, entryFlags, List.getD_eq_getElem?_getD, List.getD_eq_getElem?_getD,
    List.getElem?_take_of_lt (by omega)]

theorem entryKlen_take : entryKlen (p.take n) = entryKlen p := by
  rw [entryKlen, entryKlen, loadU32, loadU32, List.take_take, Nat.min_eq_left (by omega)]

theorem entryVlen_take : entryVlen (p.take n) = entryVlen p := by
  rw [entryVlen, entryVlen, loadU32, loadU32, loadLe_drop_take (by omega)]

theorem entryHasExpiry_take : entryHasExpiry (p.take n) = entryHasExpiry p := by
  rw [entryHasExpiry, entryFlags_take h, entryHasExpiry]

theorem entryBody_take : entryBody (p.take n) = entryBody p := by
  rw [entryBody, entryHasExpiry_take h, entryBody]

/-- The length of an entry is decided by its first nine bytes. -/
theorem entryTotal_take : entryTotal (p.take n) = entryTotal p := by
  rw [entryTotal, entryTotal, entryBody_take h, entryKlen_take h, entryVlen_take h]

end Header

/-- The data block of a table. -/
def dataBlock (es : List (Bytes × Entry)) : Bytes :=
  es.flatMap fun p => encodeEntry p.1 p.2

@[simp] theorem dataBlock_nil : dataBlock [] = [] := rfl

theorem dataBlock_cons (p : Bytes × Entry) (es : List (Bytes × Entry)) :
    dataBlock (p :: es) = encodeEntry p.1 p.2 ++ dataBlock es := rfl

theorem dataBlock_append (xs ys : List (Bytes × Entry)) :
    dataBlock (xs ++ ys) = dataBlock xs ++ dataBlock ys := by
  simp [dataBlock]

theorem length_dataBlock_ge (es : List (Bytes × Entry)) :
    9 * es.length ≤ (dataBlock es).length := by
  induction es with
  | nil => simp
  | cons p es ih =>
      rw [dataBlock_cons, List.length_append, length_encodeEntry, List.length_cons]
      omega

/-! ## The scan of one block -/

/-- Scanning a block that holds whole entries in key order finds what the
entries say. -/
theorem scanBlock_dataBlock (key : Bytes) :
    ∀ (es : List (Bytes × Entry)) (fuel : Nat), es.length ≤ fuel →
      SortedMap.KeysSorted es → (∀ p ∈ es, EntryFits p) →
      scanBlock key fuel (dataBlock es) = (SortedMap.findIn key es).map Entry.settled := by
  intro es
  induction es with
  | nil =>
      intro fuel _ _ _
      cases fuel with
      | zero => rfl
      | succ fuel => rw [scanBlock, dataBlock_nil, if_pos (by decide)]; rfl
  | cons p es ih =>
      intro fuel hfuel hs hfit
      obtain ⟨k, e⟩ := p
      obtain ⟨hlt, hs'⟩ := SortedMap.keysSorted_cons.mp hs
      have hp : EntryFits (k, e) := hfit _ List.mem_cons_self
      have hes : ∀ p ∈ es, EntryFits p := fun q hq => hfit q (List.mem_cons_of_mem _ hq)
      obtain ⟨fuel, rfl⟩ : ∃ f, fuel = f + 1 := ⟨fuel - 1, by
        rw [List.length_cons] at hfuel; omega⟩
      rw [List.length_cons] at hfuel
      have hlen := length_encodeEntry k e
      have hblock : dataBlock ((k, e) :: es) = encodeEntry k e ++ dataBlock es := rfl
      rw [scanBlock, hblock, entryTotal_encode _ hp, entryKey_encode _ hp,
        entryTombstone_encode, entryValue_encode _ hp, entryStamp_encode,
        if_neg (by rw [List.length_append]; omega),
        if_neg (by rw [List.length_append]; omega), SortedMap.findIn_cons]
      by_cases hk : k = key
      · rw [if_pos hk, if_pos hk.symm]
        rfl
      · rw [if_neg hk, if_neg (Ne.symm hk)]
        split
        · next hlt' =>
            rw [SortedMap.findIn_eq_none_of_lt fun q hq => lt_trans hlt' (hlt q hq)]
            rfl
        · rw [List.drop_left' rfl]
          exact ih fuel (by omega) hs' hes

/-! ## The writer's pass -/

/-- The index of entries cut into runs, the first of them at `offset`. -/
def runIndex : Nat → List (List (Bytes × Entry)) → List IndexEntry
  | _, [] => []
  | offset, run :: runs =>
      ⟨(run.head?.map Prod.fst).getD [], offset⟩ ::
        runIndex (offset + (dataBlock run).length) runs

theorem runIndex_append (offset : Nat) (xs ys : List (List (Bytes × Entry))) :
    runIndex offset (xs ++ ys) =
      runIndex offset xs ++ runIndex (offset + (dataBlock xs.flatten).length) ys := by
  induction xs generalizing offset with
  | nil => simp [runIndex]
  | cons x xs ih =>
      rw [List.cons_append, runIndex, ih, runIndex, List.flatten_cons, dataBlock_append,
        List.length_append, List.cons_append, Nat.add_assoc]

@[simp] theorem length_runIndex (offset : Nat) (runs : List (List (Bytes × Entry))) :
    (runIndex offset runs).length = runs.length := by
  induction runs generalizing offset with
  | nil => rfl
  | cons run runs ih => rw [runIndex, List.length_cons, ih, List.length_cons]

/-- Where a writer stands after a pass over `es`. -/
structure SstableWriter.Wrote (w : SstableWriter) (es : List (Bytes × Entry)) : Prop where
  file : w.file = dataBlock es
  offset : w.offset = (dataBlock es).length
  count : w.entryCount = es.length
  keys : w.bloomKeys = es.map Prod.fst
  runs : ∃ runs : List (List (Bytes × Entry)), runs.flatten = es ∧
    (∀ run ∈ runs, run ≠ []) ∧ w.index = runIndex 0 runs
  /-- Each index entry but the last has a full interval of data behind it, and
  the last has at least an entry. -/
  spaced : w.index = [] ∨ 0 < w.bytesSinceIndex ∧
    (w.index.length - 1) * kIndexInterval + w.bytesSinceIndex ≤ (dataBlock es).length

theorem SstableWriter.wrote_nil (bits : Int) :
    SstableWriter.Wrote { bitsPerKey := bits } [] :=
  ⟨rfl, rfl, rfl, rfl, ⟨[], rfl, by simp, rfl⟩, Or.inl rfl⟩

/-- `mark` changes the index and its byte counter, and nothing else. -/
theorem SstableWriter.mark_frame (w : SstableWriter) (key : Bytes) :
    (w.mark key).file = w.file ∧ (w.mark key).offset = w.offset ∧
      (w.mark key).entryCount = w.entryCount ∧ (w.mark key).bloomKeys = w.bloomKeys ∧
      (w.mark key).bitsPerKey = w.bitsPerKey := by
  unfold SstableWriter.mark
  split <;> exact ⟨rfl, rfl, rfl, rfl, rfl⟩

section

variable {w : SstableWriter} {es : List (Bytes × Entry)} (h : w.Wrote es) (key : Bytes)

include h

/-- The index with an entry more: it begins a run, or joins the last one. -/
theorem SstableWriter.Wrote.mark_runs (e : Entry) :
    ∃ runs : List (List (Bytes × Entry)), runs.flatten = es ++ [(key, e)] ∧
      (∀ run ∈ runs, run ≠ []) ∧ (w.mark key).index = runIndex 0 runs := by
  obtain ⟨runs, hflat, hne, hidx⟩ := h.runs
  unfold SstableWriter.mark
  split
  · refine ⟨runs ++ [[(key, e)]], by simp [hflat], ?_, ?_⟩
    · intro run hrun
      rcases List.mem_append.mp hrun with hrun | hrun
      · exact hne run hrun
      · rw [List.mem_singleton.mp hrun]; exact List.cons_ne_nil _ _
    · rw [runIndex_append, hflat, ← hidx, Nat.zero_add, ← h.offset]
      rfl
  · -- The first key of the last run and its offset stay.
    next hmark =>
    have hruns : runs ≠ [] := by
      rintro rfl
      exact hmark (Or.inl (by rw [hidx]; rfl))
    obtain ⟨front, run, rfl⟩ := List.eq_nil_or_concat runs |>.resolve_left hruns
    have hrun : run ≠ [] := hne run (by simp)
    refine ⟨front ++ [run ++ [(key, e)]], ?_, ?_, ?_⟩
    · rw [← hflat]; simp
    · intro r hr
      rcases List.mem_append.mp hr with hr | hr
      · exact hne r (by simp [hr])
      · rw [List.mem_singleton.mp hr]; simp
    · rw [hidx, List.concat_eq_append, runIndex_append, runIndex_append]
      obtain ⟨x, xs, rfl⟩ := List.exists_cons_of_ne_nil hrun
      rfl

/-- Every row of the index but the last stands for an interval of data. -/
theorem SstableWriter.Wrote.mark_spaced :
    ((w.mark key).index.length - 1) * kIndexInterval + (w.mark key).bytesSinceIndex ≤
      (dataBlock es).length := by
  unfold SstableWriter.mark
  split
  · next hmark =>
      simp only [List.length_append, List.length_singleton, Nat.add_sub_cancel, Nat.add_zero]
      rcases h.spaced with hnil | ⟨_, hsp⟩
      · rw [hnil, List.length_nil, Nat.zero_mul]
        exact Nat.zero_le _
      · rcases hmark with hemp | hfull
        · rw [List.isEmpty_iff] at hemp
          rw [hemp, List.length_nil, Nat.zero_mul]
          exact Nat.zero_le _
        · obtain ⟨n, hn⟩ : ∃ n, n = w.index.length := ⟨_, rfl⟩
          rw [← hn] at hsp ⊢
          cases n with
          | zero => omega
          | succ n => rw [Nat.add_sub_cancel] at hsp; rw [Nat.succ_mul]; omega
  · next hmark =>
      rcases h.spaced with hnil | ⟨_, hsp⟩
      · exact absurd (Or.inl (by rw [hnil]; rfl)) hmark
      · exact hsp

theorem SstableWriter.Wrote.add (e : Entry) : (w.add key e).Wrote (es ++ [(key, e)]) := by
  obtain ⟨hfile, hoffset, hcount, hkeys, _⟩ := w.mark_frame key
  have hblock : dataBlock (es ++ [(key, e)]) = dataBlock es ++ encodeEntry key e := by
    rw [dataBlock_append]; simp [dataBlock]
  have henc := length_encodeEntry key e
  have hspaced := h.mark_spaced key
  refine ⟨?_, ?_, ?_, ?_, h.mark_runs key e, ?_⟩
  · show (w.mark key).file ++ encodeEntry key e = _
    rw [hfile, h.file, hblock]
  · show (w.mark key).offset + _ = _
    rw [hoffset, h.offset, hblock, List.length_append]
  · show (w.mark key).entryCount + 1 = _
    rw [hcount, h.count, List.length_append, List.length_singleton]
  · show (w.mark key).bloomKeys ++ [key] = _
    rw [hkeys, h.keys, List.map_append, List.map_singleton]
  · right
    show 0 < (w.mark key).bytesSinceIndex + (encodeEntry key e).length ∧
      ((w.mark key).index.length - 1) * kIndexInterval +
        ((w.mark key).bytesSinceIndex + (encodeEntry key e).length) ≤ _
    rw [hblock, List.length_append]
    exact ⟨by omega, by omega⟩

end

theorem SstableWriter.Wrote.addAll {w : SstableWriter} {done : List (Bytes × Entry)}
    (h : w.Wrote done) (es : List (Bytes × Entry)) : (w.addAll es).Wrote (done ++ es) := by
  induction es generalizing w done with
  | nil => rw [List.append_nil]; exact h
  | cons p es ih =>
      have := ih (h.add p.1 p.2)
      rwa [List.append_assoc] at this

theorem SstableWriter.addAll_bitsPerKey (w : SstableWriter) (es : List (Bytes × Entry)) :
    (w.addAll es).bitsPerKey = w.bitsPerKey := by
  induction es generalizing w with
  | nil => rfl
  | cons p es ih =>
      have hstep : w.addAll (p :: es) = (w.add p.1 p.2).addAll es := rfl
      rw [hstep, ih]
      exact (w.mark_frame p.1).2.2.2.2

/-! ## The index -/

/-- The index of a pass, from its byte count and the bytes since the last index
entry, if there is one. -/
def indexOf : Nat → Option Nat → List (Bytes × Entry) → List IndexEntry
  | _, _, [] => []
  | offset, since, (key, e) :: es =>
      let size := (encodeEntry key e).length
      if since.all (kIndexInterval ≤ ·) then
        ⟨key, offset⟩ :: indexOf (offset + size) (some size) es
      else indexOf (offset + size) (since.map (· + size)) es

/-- The number of index entries in a table of these entries. -/
def indexCount (es : List (Bytes × Entry)) : Nat := (indexOf 0 none es).length

/-- The bytes since the last index entry. -/
def SstableWriter.since (w : SstableWriter) : Option Nat :=
  if w.index.isEmpty then none else some w.bytesSinceIndex

/-- An entry goes into the index if it is due. -/
theorem SstableWriter.add_index (w : SstableWriter) (key : Bytes) (e : Entry)
    (es : List (Bytes × Entry)) :
    (w.add key e).index ++ indexOf (w.add key e).offset (w.add key e).since es =
      w.index ++ indexOf w.offset w.since ((key, e) :: es) := by
  unfold SstableWriter.add SstableWriter.mark SstableWriter.since
  rw [indexOf]
  by_cases hempty : w.index.isEmpty = true
  · rw [if_pos (.inl hempty), if_pos hempty]
    simp
  · by_cases hdue : kIndexInterval ≤ w.bytesSinceIndex
    · rw [if_pos (.inr hdue), if_neg hempty]
      simp [hdue]
    · rw [if_neg (not_or.mpr ⟨hempty, hdue⟩), if_neg hempty]
      simp [hdue, hempty]

theorem SstableWriter.addAll_index (w : SstableWriter) (es : List (Bytes × Entry)) :
    (w.addAll es).index = w.index ++ indexOf w.offset w.since es := by
  induction es generalizing w with
  | nil => exact (List.append_nil _).symm
  | cons p es ih => exact (ih (w.add p.1 p.2)).trans (w.add_index p.1 p.2 es)

theorem writeTable_wrote (bits : Int) (es : List (Bytes × Entry)) :
    SstableWriter.Wrote (SstableWriter.addAll { bitsPerKey := bits } es) es :=
  (SstableWriter.wrote_nil bits).addAll es

/-- The file of a table, part by part. -/
theorem writeTable_eq (bits : Int) (es : List (Bytes × Entry)) :
    writeTable bits es =
      dataBlock es ++ indexBlock (indexOf 0 none es) ++ Bloom.build (es.map Prod.fst) bits ++
        footerBytes (dataBlock es).length
          ((dataBlock es).length + (indexBlock (indexOf 0 none es)).length) es.length := by
  have hw := writeTable_wrote bits es
  have hindex := SstableWriter.addAll_index { bitsPerKey := bits } es
  have hbits := SstableWriter.addAll_bitsPerKey { bitsPerKey := bits } es
  rw [writeTable, SstableWriter.finish]
  simp only [hw.file, hw.offset, hw.keys, hw.count, hindex, hbits]
  rfl

/-- The index cuts the entries into runs. -/
theorem indexOf_runs (es : List (Bytes × Entry)) :
    ∃ runs : List (List (Bytes × Entry)), runs.flatten = es ∧ (∀ run ∈ runs, run ≠ []) ∧
      indexOf 0 none es = runIndex 0 runs := by
  obtain ⟨runs, hflat, hne, hindex⟩ := (writeTable_wrote 0 es).runs
  exact ⟨runs, hflat, hne, (SstableWriter.addAll_index _ es).symm.trans hindex⟩

theorem indexCount_pos {es : List (Bytes × Entry)} (h : es ≠ []) : 0 < indexCount es := by
  obtain ⟨runs, hflat, _, hruns⟩ := indexOf_runs es
  rw [indexCount, hruns, length_runIndex]
  refine List.length_pos_of_ne_nil fun hnil => h ?_
  rw [← hflat, hnil]
  rfl

/-- Every index entry but the last stands for an interval of data. -/
theorem indexCount_spaced (es : List (Bytes × Entry)) :
    es = [] ∨ (indexCount es - 1) * kIndexInterval < (dataBlock es).length := by
  have hindex : _ = indexOf 0 none es := SstableWriter.addAll_index { bitsPerKey := 0 } es
  rcases (writeTable_wrote 0 es).spaced with hnil | ⟨hpos, hspaced⟩
  · left
    by_contra hne
    have hpos := indexCount_pos hne
    rw [indexCount, ← hindex, hnil] at hpos
    exact absurd hpos (Nat.lt_irrefl 0)
  · right
    rw [hindex] at hspaced
    rw [indexCount]
    omega

/-- A table that is small enough does not overflow the count of its index. -/
theorem indexCount_lt {bits : Int} {es : List (Bytes × Entry)}
    (h : (writeTable bits es).length ≤ indexableBytes) : indexCount es < 2 ^ 32 := by
  have hdata : (dataBlock es).length ≤ (writeTable bits es).length := by
    rw [writeTable_eq, List.append_assoc, List.append_assoc, List.length_append]
    omega
  rcases indexCount_spaced es with rfl | hspaced
  · exact Nat.two_pow_pos 32
  · simp only [indexableBytes, kIndexInterval] at h hspaced
    omega

/-- The table of these entries, in a file that can be written whole. -/
structure TableWritten (bits : Int) (es : List (Bytes × Entry)) (file : Bytes) : Prop where
  bytes : file = writeTable bits es
  small : file.length ≤ indexableBytes

/-! ## Tables with many index entries -/

/-- A number of `w` bytes, most significant first. -/
def bigEndian : Nat → Nat → Bytes
  | 0, _ => []
  | w + 1, v => UInt8.ofNat (v / 256 ^ w) :: bigEndian w (v % 256 ^ w)

@[simp] theorem length_bigEndian (w v : Nat) : (bigEndian w v).length = w := by
  induction w generalizing v with
  | zero => rfl
  | succ w ih => rw [bigEndian, List.length_cons, ih]

/-- Numbers of one width come in the order of their spellings. -/
theorem bigEndian_lt {w i j : Nat} (hij : i < j) (hj : j < 256 ^ w) :
    bigEndian w i < bigEndian w j := by
  induction w generalizing i j with
  | zero => omega
  | succ w ih =>
      have hpos : 0 < 256 ^ w := Nat.pow_pos (by decide)
      have htop : ∀ v, v ≤ j → (UInt8.ofNat (v / 256 ^ w)).toNat = v / 256 ^ w := by
        intro v hv
        rw [UInt8.toNat_ofNat']
        refine Nat.mod_eq_of_lt ((Nat.div_lt_iff_lt_mul hpos).mpr ?_)
        rw [Nat.pow_succ, Nat.mul_comm] at hj
        omega
      rw [bigEndian, bigEndian, List.cons_lt_cons_iff]
      rcases Nat.lt_or_ge (i / 256 ^ w) (j / 256 ^ w) with hlt | hge
      · left
        rw [UInt8.lt_iff_toNat_lt, htop i (by omega), htop j (Nat.le_refl _)]
        exact hlt
      · have hsame : i / 256 ^ w = j / 256 ^ w :=
          Nat.le_antisymm (Nat.div_le_div_right (by omega)) hge
        refine Or.inr ⟨by rw [hsame], ih ?_ (Nat.mod_lt _ hpos)⟩
        have hi := Nat.div_add_mod i (256 ^ w)
        have hj := Nat.div_add_mod j (256 ^ w)
        rw [hsame] at hi
        omega

/-- An entry as long as an interval of the index. -/
def wideEntry (i : Nat) : Bytes × Entry :=
  (bigEndian 4 i, { value := List.replicate kIndexInterval 0 })

/-- `n` such entries, from number `first` on. -/
def wideEntries (first n : Nat) : List (Bytes × Entry) := (List.range' first n).map wideEntry

theorem wideEntry_mem {n : Nat} (first : Nat) (h : 0 < n) : wideEntry first ∈ wideEntries first n :=
  List.mem_map_of_mem (List.mem_range'_1.mpr ⟨Nat.le_refl _, by omega⟩)

theorem wideEntries_append (first m n : Nat) :
    wideEntries first m ++ wideEntries (first + m) n = wideEntries first (m + n) := by
  rw [wideEntries, wideEntries, wideEntries, ← List.map_append, List.range'_append_1]

theorem wideEntries_sorted {first n : Nat} (h : first + n ≤ 2 ^ 32) :
    SortedMap.KeysSorted (wideEntries first n) := by
  rw [SortedMap.KeysSorted, wideEntries, List.pairwise_map, List.pairwise_map]
  refine (List.pairwise_lt_range' ..).imp_of_mem fun {i j} _ hj hij => ?_
  rw [List.mem_range'_1] at hj
  exact bigEndian_lt hij (by omega)

theorem wideEntries_fit (first n : Nat) : ∀ p ∈ wideEntries first n, EntryFits p := by
  intro p hp
  obtain ⟨i, _, rfl⟩ := List.mem_map.mp hp
  exact ⟨by rw [wideEntry, length_bigEndian]; decide,
    by rw [wideEntry, List.length_replicate]; decide⟩

theorem length_wideEntry (i : Nat) :
    (encodeEntry (wideEntry i).1 (wideEntry i).2).length = 13 + kIndexInterval := by
  rw [length_encodeEntry, length_entryStampField, wideEntry, length_bigEndian,
    List.length_replicate]
  rfl

/-- Entries as long as an interval are all in the index. -/
theorem indexOf_wide {es : List (Bytes × Entry)}
    (h : ∀ p ∈ es, kIndexInterval ≤ (encodeEntry p.1 p.2).length) :
    ∀ (offset : Nat) (since : Option Nat), since.all (kIndexInterval ≤ ·) = true →
      (indexOf offset since es).map IndexEntry.key = es.map Prod.fst := by
  induction es with
  | nil => exact fun _ _ _ => rfl
  | cons p es ih =>
      intro offset since hdue
      obtain ⟨hp, hes⟩ := List.forall_mem_cons.mp h
      rw [indexOf, if_pos hdue, List.map_cons, ih hes _ _ (by simpa using hp), List.map_cons]

theorem wideEntries_indexed (first n : Nat) :
    (indexOf 0 none (wideEntries first n)).map IndexEntry.key =
      (wideEntries first n).map Prod.fst := by
  refine indexOf_wide (fun p hp => ?_) 0 none rfl
  obtain ⟨i, _, rfl⟩ := List.mem_map.mp hp
  rw [length_wideEntry]
  exact Nat.le_add_left _ _

theorem indexCount_wideEntries (first n : Nat) : indexCount (wideEntries first n) = n := by
  have hlen := congrArg List.length (wideEntries_indexed first n)
  rw [List.length_map, List.length_map] at hlen
  rw [indexCount, hlen, wideEntries, List.length_map, List.length_range']

theorem length_dataBlock_wide (first n : Nat) :
    (dataBlock (wideEntries first n)).length = n * (13 + kIndexInterval) := by
  induction n generalizing first with
  | zero => rw [Nat.zero_mul]; rfl
  | succ n ih =>
      have hcons : wideEntries first (n + 1) = wideEntry first :: wideEntries (first + 1) n := rfl
      rw [hcons, dataBlock_cons, List.length_append, ih, length_wideEntry, Nat.succ_mul,
        Nat.add_comm]

theorem length_indexBlock (index : List IndexEntry) :
    (indexBlock index).length =
      4 + ((index.map IndexEntry.key).map fun key => 12 + key.length).sum := by
  rw [indexBlock, List.length_append, length_putU32, List.length_flatMap, List.map_map]
  congr 2
  refine List.map_congr_left fun e _ => ?_
  rw [indexEntryBytes, List.length_append, List.length_append, length_putU32, length_putU64]
  show _ = 12 + e.key.length
  omega

theorem length_indexBlock_wide (first n : Nat) :
    (indexBlock (indexOf 0 none (wideEntries first n))).length = 4 + n * 16 := by
  have hsame : ∀ key ∈ (wideEntries first n).map Prod.fst, 12 + List.length key = 16 := by
    intro key hkey
    obtain ⟨p, hp, rfl⟩ := List.mem_map.mp hkey
    obtain ⟨i, _, rfl⟩ := List.mem_map.mp hp
    rw [wideEntry, length_bigEndian]
  rw [length_indexBlock, wideEntries_indexed, List.map_congr_left hsame, List.map_const',
    List.sum_replicate_nat, List.length_map, wideEntries, List.length_map, List.length_range']

theorem length_footerBytes (a b n : Nat) : (footerBytes a b n).length = kFooterSize := by
  simp [footerBytes, kMagic, kFooterSize]

/-- Such a table is a file a system could have. -/
theorem wideEntries_size (first : Nat) {n : Nat} (h : n ≤ 2 ^ 32) :
    (writeTable 10 (wideEntries first n)).length < 2 ^ 63 := by
  have hbits : Bloom.bitsFor n 10 ≤ 64 + n * 10 := by
    rw [Bloom.bitsFor, show (max 1 (10 : Int)).toNat = 10 from rfl]
    omega
  have hkeys : ((wideEntries first n).map Prod.fst).length = n := by
    rw [List.length_map, wideEntries, List.length_map, List.length_range']
  rw [writeTable_eq, List.length_append, List.length_append, List.length_append,
    length_dataBlock_wide, length_indexBlock_wide, Bloom.build_eq, Bloom.length_blockOf, hkeys,
    length_footerBytes, kFooterSize, kIndexInterval]
  omega

end Cachedb
