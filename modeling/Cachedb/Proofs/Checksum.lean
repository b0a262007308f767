import Cachedb.Lib.Crc
import Cachedb.Proofs.LogReplay

/-!
# What the checksum catches

The table-driven `crc32` is the division of `Lib/Crc.lean`, symbol by symbol
(`toBitVec_crcByte`), so damage inside four consecutive covered bytes always
shows.
-/

namespace Cachedb

/-! ## The table -/

def kPolynomial : BitVec 32 := 0xEDB88320

theorem toBitVec_crcBit (c : UInt32) : (crcBit c).toBitVec = Crc.bit kPolynomial c.toBitVec := by
  have hbit : (c &&& 1 = 1) ↔ c.toBitVec.getLsbD 0 = true := by
    rw [← UInt32.toBitVec_inj, UInt32.toBitVec_and, show (1 : UInt32).toBitVec = 1#32 from rfl,
      BitVec.and_one_eq_setWidth_ofBool_getLsbD]
    cases c.toBitVec.getLsbD 0 <;> decide
  rw [crcBit, Crc.bit]
  by_cases h : c &&& 1 = 1
  · rw [if_pos h, if_pos (hbit.mp h)]
    rfl
  · rw [if_neg h, if_neg (mt hbit.mpr h)]
    rfl

theorem toBitVec_crcTable (i : UInt8) :
    (crcTable i).toBitVec = Crc.bits kPolynomial 8 (i.toBitVec.setWidth 32) := by
  simp only [crcTable, toBitVec_crcBit]
  rfl

theorem toBitVec_crcByte (c : UInt32) (b : UInt8) :
    (crcByte c b).toBitVec = Crc.feed kPolynomial c.toBitVec b.toBitVec := by
  rw [crcByte, Crc.feed, Crc.bits_eq_table, UInt32.toBitVec_xor, toBitVec_crcTable]
  have hindex : ((c ^^^ b.toUInt32) &&& 0xFF).toUInt8.toBitVec =
      (c.toBitVec ^^^ b.toBitVec.setWidth 32).setWidth 8 := by
    rw [UInt32.toBitVec_toUInt8, UInt32.toBitVec_and, UInt32.toBitVec_xor,
      UInt8.toBitVec_toUInt32]
    refine BitVec.eq_of_getLsbD_eq fun i hi => ?_
    rw [show (0xFF : UInt32).toBitVec = (BitVec.allOnes 8).setWidth 32 from rfl,
      BitVec.getLsbD_setWidth, BitVec.getLsbD_and, BitVec.getLsbD_setWidth,
      BitVec.getLsbD_allOnes, BitVec.getLsbD_setWidth]
    simp [hi, show i < 32 by omega]
  have hrest : (c >>> 8).toBitVec = (c.toBitVec ^^^ b.toBitVec.setWidth 32) >>> 8 := by
    refine BitVec.eq_of_getLsbD_eq fun i hi => ?_
    rw [show (c >>> 8).toBitVec = c.toBitVec >>> 8 from rfl]
    simp [hi]
  rw [hindex, hrest]

theorem toBitVec_foldl (data : Bytes) (c : UInt32) :
    (data.foldl crcByte c).toBitVec =
      Crc.run kPolynomial c.toBitVec (data.map UInt8.toBitVec) := by
  induction data generalizing c with
  | nil => rfl
  | cons b data ih =>
      rw [List.foldl_cons, ih, toBitVec_crcByte]
      rfl

/-- Strings that differ in at most four consecutive bytes and have the same
checksum do not differ. -/
theorem crc32_burst {front xs ys back : Bytes} (hlen : xs.length = ys.length)
    (h4 : xs.length ≤ 4) (h : crc32 (front ++ (xs ++ back)) = crc32 (front ++ (ys ++ back))) :
    xs = ys := by
  have hrun := congrArg UInt32.toBitVec ((UInt32.xor_left_inj _).mp h)
  rw [toBitVec_foldl, toBitVec_foldl, List.map_append, List.map_append, List.map_append,
    List.map_append] at hrun
  have hmap := Crc.run_burst kPolynomial (by decide) _ (by simpa using hlen)
    (by rw [List.length_map]; omega) hrun
  exact List.map_injective_iff.mpr (fun _ _ => UInt8.toBitVec_inj.mp) hmap

/-- The same by positions. -/
theorem crc32_ne_of_window {xs ys : Bytes} {p : Nat} (hlen : xs.length = ys.length)
    (hsame : ∀ i, ¬(p ≤ i ∧ i < p + 4) → xs[i]? = ys[i]?) (hne : xs ≠ ys) :
    crc32 xs ≠ crc32 ys := by
  have hsplit : ∀ zs : Bytes, zs = zs.take p ++ ((zs.drop p).take 4 ++ zs.drop (p + 4)) := by
    intro zs
    rw [← List.drop_drop, List.take_append_drop, List.take_append_drop]
  have hfront : xs.take p = ys.take p := by
    refine List.ext_getElem? fun i => ?_
    rw [List.getElem?_take, List.getElem?_take]
    split
    · exact hsame i (by omega)
    · rfl
  have hback : xs.drop (p + 4) = ys.drop (p + 4) := by
    refine List.ext_getElem? fun i => ?_
    rw [List.getElem?_drop, List.getElem?_drop]
    exact hsame _ (by omega)
  intro h
  rw [hsplit xs, hsplit ys, hfront, hback] at h
  have hmid := crc32_burst (by rw [List.length_take, List.length_take, List.length_drop,
    List.length_drop, hlen]) (List.length_take_le _ _) h
  exact hne (by rw [hsplit xs, hsplit ys, hfront, hback, hmid])

/-! ## Decoding under a checksum that is not the record's -/

/-- What a header says does not depend on the checksum in front of it. -/
theorem header_congr {a b : Bytes} (h : a.drop 4 = b.drop 4) :
    headerOp a = headerOp b ∧ headerTotal a = headerTotal b ∧ headerRecord a = headerRecord b := by
  have hdrop : ∀ k, 4 ≤ k → a.drop k = b.drop k := by
    intro k hk
    rw [← Nat.add_sub_cancel' hk, ← List.drop_drop, h, List.drop_drop]
  have hop : headerOp a = headerOp b := by
    have := congrArg (fun l : Bytes => l[8]?) h
    simp only [List.getElem?_drop] at this
    rw [headerOp, headerOp, List.getD_eq_getElem?_getD, List.getD_eq_getElem?_getD, this]
  have hklen : headerKlen a = headerKlen b := by
    rw [headerKlen, hdrop 13 (by decide), headerKlen]
  have hvlen : headerVlen a = headerVlen b := by
    rw [headerVlen, hdrop 17 (by decide), headerVlen]
  have hextra : headerExtra a = headerExtra b := by rw [headerExtra, hop, headerExtra]
  have hheader : kRecordHeaderSize = 21 := rfl
  refine ⟨hop, by rw [headerTotal, hextra, hklen, hvlen, headerTotal], ?_⟩
  rw [headerRecord, headerRecord]
  simp only [hop, hklen, hvlen, hextra]
  rw [hdrop 4 (by decide), hdrop kRecordHeaderSize (by omega), hdrop _ (by omega),
    hdrop _ (by omega)]

theorem drop_encodeRecord (m : Mutation) (ts : Int64) :
    (encodeRecord m ts).drop 4 = coveredBytes m ts := by
  rw [encodeRecord, List.drop_left' (length_putU32 _)]

/-- A record decodes under exactly one checksum. -/
theorem decodeRecord_sealed {m : Mutation} (hm : m.Fits) (ts : Int64) {stored : Bytes}
    (hstored : stored.length = 4) (rest : Bytes) :
    decodeRecord (stored ++ coveredBytes m ts ++ rest) =
      if (crc32 (coveredBytes m ts)).toNat = loadLe stored then
        .ok (encodeRecord m ts).length (m.record ts)
      else .corrupt := by
  have hdrop : (stored ++ coveredBytes m ts ++ rest).drop 4 =
      (encodeRecord m ts ++ rest).drop 4 := by
    rw [encodeRecord, List.append_assoc, List.append_assoc, List.drop_left' hstored,
      List.drop_left' (length_putU32 _)]
  have hlen : (stored ++ coveredBytes m ts ++ rest).length =
      (encodeRecord m ts ++ rest).length := by
    rw [encodeRecord]
    simp [hstored]
  have hcov : (List.drop 4 (encodeRecord m ts ++ rest)).take
      ((encodeRecord m ts).length - 4) = coveredBytes m ts := by
    rw [encodeRecord, List.append_assoc, List.drop_left' (by simp)]
    exact List.take_left' (by simp)
  have hload : loadU32 (stored ++ coveredBytes m ts ++ rest) = loadLe stored := by
    rw [loadU32, List.append_assoc, List.take_left' hstored]
  have h21 := length_encodeRecord m ts
  obtain ⟨hop, htotal, hrecord⟩ := header_congr hdrop
  rw [decodeRecord, hop, htotal, hrecord, hdrop, hlen, hload, headerTotal_encode ts rest hm,
    headerRecord_encode ts rest hm, headerOp_encode, hcov, if_neg, if_neg]
  · by_cases h : (crc32 (coveredBytes m ts)).toNat = loadLe stored
    · rw [if_neg (not_not.mpr h), if_pos h, if_neg (opByte_le m)]
    · rw [if_pos h, if_neg h]
  · rw [List.length_append]; omega
  · rw [kRecordHeaderSize, List.length_append]; omega

/-! ## Bursts -/

/-- `data'` is `data` with some bits changed, all within four consecutive bytes
and at positions from `lo` up to `hi`. -/
structure Burst (data data' : Bytes) (lo hi : Nat) : Prop where
  length : data'.length = data.length
  changed : data' ≠ data
  inside : ∃ p, ∀ i, ¬(p ≤ i ∧ i < p + 4 ∧ lo ≤ i ∧ i < hi) → data'[i]? = data[i]?

theorem loadLe_injective {xs ys : Bytes} (hlen : xs.length = ys.length)
    (h : loadLe xs = loadLe ys) : xs = ys := by
  induction xs generalizing ys with
  | nil => exact (List.eq_nil_of_length_eq_zero hlen.symm).symm
  | cons x xs ih =>
      obtain ⟨y, ys, rfl⟩ := List.exists_cons_of_length_eq_add_one hlen.symm
      rw [loadLe, loadLe] at h
      have hx := UInt8.toNat_lt x
      have hy := UInt8.toNat_lt y
      have hhead : x = y := UInt8.toNat_inj.mp (by omega)
      rw [hhead, ih (by simpa using hlen) (by omega)]

/-- The length a header announces is in its op byte and its two lengths. -/
theorem headerTotal_eq_of_bytes {a b : Bytes} (h : ∀ i, 12 ≤ i → i < 21 → a[i]? = b[i]?) :
    headerTotal a = headerTotal b := by
  have hfield : ∀ k, 12 ≤ k → k + 4 ≤ 21 → (a.drop k).take 4 = (b.drop k).take 4 := by
    intro k hlo hhi
    refine List.ext_getElem? fun i => ?_
    rw [List.getElem?_take, List.getElem?_take, List.getElem?_drop, List.getElem?_drop]
    split
    · exact h _ (by omega) (by omega)
    · rfl
  have hop : headerOp a = headerOp b := by
    rw [headerOp, headerOp, List.getD_eq_getElem?_getD, List.getD_eq_getElem?_getD,
      h 12 (by decide) (by decide)]
  rw [headerTotal, headerTotal, headerExtra, headerExtra, hop, headerKlen, headerKlen, headerVlen,
    headerVlen, loadU32, loadU32, loadU32, loadU32, hfield 13 (by decide) (by decide),
    hfield 17 (by decide) (by decide)]

/-- Damage behind the stored checksum that leaves the length alone. -/
theorem corrupt_of_covered {m : Mutation} {ts : Int64} {data : Bytes} (hi : Nat)
    (h : Burst (encodeRecord m ts) data 4 hi) (rest : Bytes)
    (htotal : headerTotal (data ++ rest) = (encodeRecord m ts).length) :
    decodeRecord (data ++ rest) = .corrupt := by
  obtain ⟨p, hsame⟩ := h.inside
  have hlen := length_encodeRecord m ts
  have hdlen := h.length
  have hstored : data.take 4 = (encodeRecord m ts).take 4 := by
    refine List.ext_getElem? fun i => ?_
    rw [List.getElem?_take, List.getElem?_take]
    split
    · exact hsame i (by omega)
    · rfl
  have hne : data.drop 4 ≠ (encodeRecord m ts).drop 4 := by
    intro heq
    exact h.changed (by rw [← List.take_append_drop 4 data, hstored, heq, List.take_append_drop])
  have hcrc : crc32 (data.drop 4) ≠ crc32 (coveredBytes m ts) := by
    rw [← drop_encodeRecord]
    refine crc32_ne_of_window (p := p - 4) (by rw [List.length_drop, List.length_drop, hdlen])
      (fun i hi => ?_) hne
    rw [List.getElem?_drop, List.getElem?_drop]
    exact hsame _ (by omega)
  have hload : loadU32 (data ++ rest) = (crc32 (coveredBytes m ts)).toNat := by
    rw [loadU32, List.take_append_of_le_length (by omega), hstored, encodeRecord,
      List.take_left' (length_putU32 _), putU32, loadLe_putLe]
    exact Nat.mod_eq_of_lt (UInt32.toNat_lt _)
  have hdrop : ((data ++ rest).drop 4).take ((encodeRecord m ts).length - 4) = data.drop 4 := by
    rw [List.drop_append_of_le_length (by omega)]
    exact List.take_left' (by rw [List.length_drop, hdlen])
  rw [decodeRecord, htotal, hdrop, hload, if_neg, if_neg, if_pos]
  · exact fun heq => hcrc (UInt32.toNat_inj.mp heq)
  · rw [List.length_append]; omega
  · rw [kRecordHeaderSize, List.length_append]; omega

/-- Damage behind the stored checksum and outside of the op byte and the
lengths. -/
theorem corrupt_of_payload {m : Mutation} (hm : m.Fits) {ts : Int64} {data : Bytes} {lo hi : Nat}
    (h : Burst (encodeRecord m ts) data lo hi) (hlo : 4 ≤ lo)
    (hheader : ∀ i, 12 ≤ i → i < 21 → ¬(lo ≤ i ∧ i < hi)) (rest : Bytes) :
    decodeRecord (data ++ rest) = .corrupt := by
  obtain ⟨p, hsame⟩ := h.inside
  have hlen := length_encodeRecord m ts
  have hdlen := h.length
  refine corrupt_of_covered hi
    ⟨h.length, h.changed, p, fun i hi => hsame i (by omega)⟩ rest ?_
  rw [← headerTotal_encode ts rest hm]
  refine headerTotal_eq_of_bytes fun i hi₁ hi₂ => ?_
  rw [List.getElem?_append_left (by omega), List.getElem?_append_left (by omega)]
  have := hheader i hi₁ hi₂
  exact hsame i (by omega)

/-- Damage to the stored checksum. -/
theorem corrupt_of_stored {m : Mutation} (hm : m.Fits) {ts : Int64} {data : Bytes}
    (h : Burst (encodeRecord m ts) data 0 4) (rest : Bytes) :
    decodeRecord (data ++ rest) = .corrupt := by
  obtain ⟨p, hsame⟩ := h.inside
  have hlen := length_encodeRecord m ts
  have hdlen := h.length
  have hdrop : data.drop 4 = coveredBytes m ts := by
    rw [← drop_encodeRecord]
    refine List.ext_getElem? fun i => ?_
    rw [List.getElem?_drop, List.getElem?_drop]
    exact hsame _ (by omega)
  have hstored : (data.take 4).length = 4 := by
    rw [List.length_take]
    omega
  have hdata : data = data.take 4 ++ coveredBytes m ts := by
    rw [← hdrop, List.take_append_drop]
  rw [hdata, decodeRecord_sealed hm ts hstored, if_neg]
  intro heq
  refine h.changed (hdata.trans ?_)
  rw [encodeRecord]
  congr 1
  refine loadLe_injective (hstored.trans (length_putU32 _).symm) ?_
  rw [← heq, putU32, loadLe_putLe]
  exact (Nat.mod_eq_of_lt (UInt32.toNat_lt _)).symm

/-- Where a record may be damaged without its header saying something else:
the stored checksum, the timestamp, and everything behind the header. -/
def Mutation.spans (m : Mutation) (ts : Int64) : List (Nat × Nat) :=
  [(0, 4), (4, 12), (21, (encodeRecord m ts).length)]

/-- Damage within four bytes of one of the spans of a record, whatever follows
the record, is told from the record. -/
theorem burst_is_corrupt (m : Mutation) (hm : m.Fits) (ts : Int64) (data rest : Bytes)
    (span : Nat × Nat) (hspan : span ∈ m.spans ts)
    (h : Burst (encodeRecord m ts) data span.1 span.2) :
    decodeRecord (data ++ rest) = .corrupt := by
  simp only [Mutation.spans, List.mem_cons, List.not_mem_nil, or_false] at hspan
  rcases hspan with rfl | rfl | rfl
  · exact corrupt_of_stored hm h rest
  · exact corrupt_of_payload hm h (Nat.le_refl 4) (fun i h₁ h₂ => by omega) rest
  · exact corrupt_of_payload hm h (show 4 ≤ 21 by decide) (fun i h₁ h₂ => by omega) rest

/-- One byte of a value is overwritten. -/
theorem burst_is_corrupt_value :
    decodeRecord ((encodeRecord { op := .kSet, key := [1], value := [7, 8] } 3).set 22 9 ++ [5]) =
      .corrupt :=
  burst_is_corrupt _ (by decide) 3 _ [5] (21, 24) (by decide +kernel)
    ⟨by simp, by decide +kernel, 22, fun i hi => List.getElem?_set_ne (by omega)⟩

end Cachedb
