import Cachedb.Model.Wal

/-!
# What a log says after it was appended to

A log that decodes to its last byte (`Whole`) can be appended to, and replay
then goes on behind it. That needs no more than that decoding a record never
looks past the record's own bytes. From it come the two facts every recovery
argument uses: cutting a log at `goodBytes` leaves a whole log with the same
records, and a batch that landed in part delivers the records that landed
whole.
-/

namespace Cachedb

/-! ## Decoding looks at no byte past the record -/

theorem loadU32_take {inp : Bytes} {k : Nat} (h : 4 ≤ k) :
    loadU32 (inp.take k) = loadU32 inp := by
  rw [loadU32, loadU32, List.take_take, Nat.min_eq_left h]

theorem headerOp_take {inp : Bytes} {k : Nat} (h : kRecordHeaderSize ≤ k) :
    headerOp (inp.take k) = headerOp inp := by
  have h21 : 21 ≤ k := h
  rw [headerOp, headerOp, List.getD_eq_getElem?_getD, List.getD_eq_getElem?_getD,
    List.getElem?_take_of_lt (by omega)]

theorem headerKlen_take {inp : Bytes} {k : Nat} (h : kRecordHeaderSize ≤ k) :
    headerKlen (inp.take k) = headerKlen inp := by
  have h21 : 21 ≤ k := h
  rw [headerKlen, headerKlen, loadU32, loadU32, loadLe_drop_take (by omega)]

theorem headerVlen_take {inp : Bytes} {k : Nat} (h : kRecordHeaderSize ≤ k) :
    headerVlen (inp.take k) = headerVlen inp := by
  have h21 : 21 ≤ k := h
  rw [headerVlen, headerVlen, loadU32, loadU32, loadLe_drop_take (by omega)]

theorem headerRecord_take {inp : Bytes} {k : Nat} (h : headerTotal inp ≤ k) :
    headerRecord (inp.take k) = headerRecord inp := by
  have hsize : kRecordHeaderSize = 21 := rfl
  have hexp : kExpirySize = 8 := rfl
  have h21 : kRecordHeaderSize ≤ k := by rw [headerTotal] at h; omega
  have hextra : headerExtra (inp.take k) = headerExtra inp := by
    rw [headerExtra, headerExtra, headerOp_take h21]
  rw [headerTotal] at h
  have hdate : ((inp.take k).drop 4).take 8 = (inp.drop 4).take 8 :=
    loadLe_drop_take (by omega)
  have hkey : ((inp.take k).drop (kRecordHeaderSize + headerExtra inp)).take (headerKlen inp) =
      (inp.drop (kRecordHeaderSize + headerExtra inp)).take (headerKlen inp) :=
    loadLe_drop_take (by omega)
  have hvalue : ((inp.take k).drop (kRecordHeaderSize + headerExtra inp + headerKlen inp)).take
      (headerVlen inp) =
      (inp.drop (kRecordHeaderSize + headerExtra inp + headerKlen inp)).take (headerVlen inp) :=
    loadLe_drop_take (by omega)
  have hstamp : (if headerOp inp = kSetExOpByte then
        bitsStamp (loadLe (((inp.take k).drop kRecordHeaderSize).take 8)) else 0) =
      if headerOp inp = kSetExOpByte then
        bitsStamp (loadLe ((inp.drop kRecordHeaderSize).take 8)) else 0 := by
    split
    · next hop =>
        rw [headerExtra, if_pos hop] at h
        rw [loadLe_drop_take (by omega)]
    · rfl
  rw [headerRecord, headerRecord]
  simp only [headerOp_take h21, headerKlen_take h21, headerVlen_take h21, hextra, loadU64,
    hdate, hkey, hvalue, hstamp]

/-- A view that holds all the bytes the header claims decodes as the whole
file does. -/
theorem decodeRecord_take {inp : Bytes} {k : Nat} (h : headerTotal inp ≤ k)
    (hk : k ≤ inp.length) : decodeRecord (inp.take k) = decodeRecord inp := by
  have h21 : kRecordHeaderSize ≤ k := by rw [headerTotal] at h; omega
  have hsize : kRecordHeaderSize = 21 := rfl
  have hlen : (inp.take k).length = k := List.length_take_of_le hk
  rw [decodeRecord, decodeRecord, hlen, headerTotal_take h21, headerOp_take h21,
    headerRecord_take h, loadU32_take (by omega), loadLe_drop_take (by omega),
    if_neg (show ¬k < kRecordHeaderSize by omega), if_neg (show ¬k < headerTotal inp by omega),
    if_neg (show ¬inp.length < kRecordHeaderSize by omega),
    if_neg (show ¬inp.length < headerTotal inp by omega)]

theorem decodeRecord_ok_header {inp : Bytes} {n : Nat} {r : Record}
    (h : decodeRecord inp = .ok n r) : headerTotal inp = n ∧ headerRecord inp = r := by
  unfold decodeRecord at h
  split at h
  · cases h
  · split at h
    · cases h
    · split at h
      · cases h
      · split at h
        · cases h
        · cases h; exact ⟨rfl, rfl⟩

theorem headerRecord_fits (inp : Bytes) :
    (headerRecord inp).key.length < 2 ^ 32 ∧ (headerRecord inp).value.length < 2 ^ 32 := by
  have hk : headerKlen inp < 2 ^ 32 := loadU32_lt _
  have hv : headerVlen inp < 2 ^ 32 := loadU32_lt _
  have hkey := List.length_take_le (headerKlen inp)
    (inp.drop (kRecordHeaderSize + headerExtra inp))
  have hvalue := List.length_take_le (headerVlen inp)
    (inp.drop (kRecordHeaderSize + headerExtra inp + headerKlen inp))
  exact ⟨Nat.lt_of_le_of_lt hkey hk, Nat.lt_of_le_of_lt hvalue hv⟩

theorem decodeRecord_append {inp : Bytes} {n : Nat} {r : Record}
    (h : decodeRecord inp = .ok n r) (rest : Bytes) : decodeRecord (inp ++ rest) = .ok n r := by
  obtain ⟨hlo, hhi⟩ := decodeRecord_ok_bounds h
  have htotal := (decodeRecord_ok_header h).1
  have htake : (inp ++ rest).take inp.length = inp := List.take_left' rfl
  have hsame := @headerTotal_take (inp ++ rest) inp.length (by omega)
  rw [htake] at hsame
  have hdec := @decodeRecord_take (inp ++ rest) inp.length (by omega) (by simp)
  rw [← hdec, htake, h]

/-! ## Whole logs -/

/-- The log decodes to its last byte. -/
def Whole (data : Bytes) : Prop := (replay data).goodBytes = data.length

instance (data : Bytes) : Decidable (Whole data) := Nat.decEq _ _

theorem whole_nil : Whole [] := by
  rw [Whole, goodBytes_eq, decodeRecord_nil]
  rfl

/-- A whole log that is not empty is a record and a whole log behind it. -/
theorem Whole.cases {data : Bytes} (h : Whole data) :
    data = [] ∨ ∃ n r, decodeRecord data = .ok n r ∧ n ≤ data.length ∧ 0 < n ∧
      Whole (data.drop n) := by
  rw [Whole, goodBytes_eq] at h
  cases hd : decodeRecord data with
  | incomplete => rw [hd] at h; exact Or.inl (List.eq_nil_of_length_eq_zero h.symm)
  | corrupt => rw [hd] at h; exact Or.inl (List.eq_nil_of_length_eq_zero h.symm)
  | ok n r =>
      rw [hd] at h
      obtain ⟨hlo, hhi⟩ := decodeRecord_ok_bounds hd
      have hsize : kRecordHeaderSize = 21 := rfl
      refine Or.inr ⟨n, r, rfl, hhi, by omega, ?_⟩
      rw [Whole, List.length_drop]
      simp only [] at h
      omega

/-- Replay of a whole log and more delivers the log, and goes on. -/
theorem Whole.replay_append {data : Bytes} (h : Whole data) (rest : Bytes) :
    recordsOf (data ++ rest) = recordsOf data ++ recordsOf rest ∧
      (replay (data ++ rest)).goodBytes = data.length + (replay rest).goodBytes := by
  obtain ⟨len, hlen⟩ : ∃ len, data.length = len := ⟨_, rfl⟩
  induction len using Nat.strongRecOn generalizing data with
  | ind len ih =>
      rcases h.cases with rfl | ⟨n, r, hd, hn, hpos, hw⟩
      · simp [recordsOf_nil]
      · obtain ⟨hrec, hgood⟩ := ih (data.drop n).length (by rw [List.length_drop]; omega) hw rfl
        have hdrop : (data ++ rest).drop n = data.drop n ++ rest :=
          List.drop_append_of_le_length hn
        constructor
        · rw [recordsOf_eq (data ++ rest), decodeRecord_append hd, recordsOf_eq data, hd]
          simp only []
          rw [hdrop, hrec, List.cons_append]
        · rw [goodBytes_eq (data ++ rest), decodeRecord_append hd]
          simp only []
          rw [hdrop, hgood, List.length_drop]
          omega

theorem Whole.append {a b : Bytes} (ha : Whole a) (hb : Whole b) : Whole (a ++ b) := by
  rw [Whole, (ha.replay_append b).2, hb, List.length_append]

theorem goodBytes_le (data : Bytes) : (replay data).goodBytes ≤ data.length := by
  obtain ⟨len, hlen⟩ : ∃ len, data.length = len := ⟨_, rfl⟩
  induction len using Nat.strongRecOn generalizing data with
  | ind len ih =>
      rw [goodBytes_eq]
      cases hd : decodeRecord data with
      | incomplete => exact Nat.zero_le _
      | corrupt => exact Nat.zero_le _
      | ok n r =>
          obtain ⟨hlo, hhi⟩ := decodeRecord_ok_bounds hd
          have hsize : kRecordHeaderSize = 21 := rfl
          have := ih (data.drop n).length (by rw [List.length_drop]; omega) _ rfl
          rw [List.length_drop] at this
          simp only []
          omega

/-- Cut where replay stopped, a log is whole and says the same. -/
theorem replay_take_good (data : Bytes) :
    Whole (data.take (replay data).goodBytes) ∧
      recordsOf (data.take (replay data).goodBytes) = recordsOf data := by
  obtain ⟨len, hlen⟩ : ∃ len, data.length = len := ⟨_, rfl⟩
  induction len using Nat.strongRecOn generalizing data with
  | ind len ih =>
      rw [goodBytes_eq, recordsOf_eq data]
      cases hd : decodeRecord data with
      | incomplete => exact ⟨whole_nil, recordsOf_nil⟩
      | corrupt => exact ⟨whole_nil, recordsOf_nil⟩
      | ok n r =>
          obtain ⟨hlo, hhi⟩ := decodeRecord_ok_bounds hd
          have hsize : kRecordHeaderSize = 21 := rfl
          have htotal := (decodeRecord_ok_header hd).1
          obtain ⟨hw, hrec⟩ :=
            ih (data.drop n).length (by rw [List.length_drop]; omega) _ rfl
          have hgood := goodBytes_le (data.drop n)
          rw [List.length_drop] at hgood
          simp only []
          generalize hg : (replay (data.drop n)).goodBytes = g at *
          have hdec : decodeRecord (data.take (n + g)) = .ok n r := by
            rw [decodeRecord_take (by omega) (by omega), hd]
          have hrest : (data.take (n + g)).drop n = (data.drop n).take g := by
            rw [List.drop_take, Nat.add_sub_cancel_left]
          have hlen' : (data.take (n + g)).length = n + g := by
            rw [List.length_take]; omega
          constructor
          · have : ((data.drop n).take g).length = g := by
              rw [List.length_take, List.length_drop]; omega
            rw [Whole, goodBytes_eq, hdec]
            simp only []
            rw [hrest, hw, this, hlen']
          · rw [recordsOf_eq, hdec]
            simp only []
            rw [hrest, hrec]

/-! ## Appended mutations -/

/-- The records of a batch. -/
def batchRecords (ms : List Mutation) (ts : Int64) : List Record := ms.map (·.record ts)

theorem batchBytes_cons (m : Mutation) (ms : List Mutation) (ts : Int64) :
    Wal.batchBytes (m :: ms) ts = encodeRecord m ts ++ Wal.batchBytes ms ts := rfl

theorem batchBytes_pos {ms : List Mutation} (h : ms ≠ []) (ts : Int64) :
    0 < (Wal.batchBytes ms ts).length := by
  obtain ⟨m, ms, rfl⟩ := List.exists_cons_of_ne_nil h
  rw [batchBytes_cons, List.length_append, length_encodeRecord]
  omega

theorem replay_batch {ms : List Mutation} (hms : ∀ m ∈ ms, m.Fits) (ts : Int64)
    (rest : Bytes) :
    recordsOf (Wal.batchBytes ms ts ++ rest) = batchRecords ms ts ++ recordsOf rest ∧
      (replay (Wal.batchBytes ms ts ++ rest)).goodBytes =
        (Wal.batchBytes ms ts).length + (replay rest).goodBytes := by
  induction ms with
  | nil => exact ⟨rfl, by simp [Wal.batchBytes]⟩
  | cons m ms ih =>
      have hm := hms m List.mem_cons_self
      obtain ⟨hrec, hgood⟩ := ih fun m' hm' => hms m' (List.mem_cons_of_mem _ hm')
      rw [batchBytes_cons, List.append_assoc]
      constructor
      · rw [recordsOf_encode hm, hrec]
        rfl
      · rw [goodBytes_encode hm, hgood, List.length_append, Nat.add_assoc]

theorem whole_batch {ms : List Mutation} (hms : ∀ m ∈ ms, m.Fits) (ts : Int64) :
    Whole (Wal.batchBytes ms ts) := by
  have := (replay_batch hms ts []).2
  rw [List.append_nil] at this
  rw [Whole, this, show (replay []).goodBytes = 0 from whole_nil, Nat.add_zero]

theorem recordsOf_batch {ms : List Mutation} (hms : ∀ m ∈ ms, m.Fits) (ts : Int64) :
    recordsOf (Wal.batchBytes ms ts) = batchRecords ms ts := by
  have := (replay_batch hms ts []).1
  rwa [List.append_nil, recordsOf_nil, List.append_nil] at this

/-- How many records of a batch are whole after `n` bytes of it. -/
def wholeRecords (ms : List Mutation) (ts : Int64) (n : Nat) : Nat :=
  match ms with
  | [] => 0
  | m :: ms =>
      if n < (encodeRecord m ts).length then 0
      else wholeRecords ms ts (n - (encodeRecord m ts).length) + 1

/-- A batch that landed in part delivers the records that landed whole. -/
theorem recordsOf_batch_take {ms : List Mutation} (hms : ∀ m ∈ ms, m.Fits) (ts : Int64)
    (n : Nat) :
    recordsOf ((Wal.batchBytes ms ts).take n) =
      batchRecords (ms.take (wholeRecords ms ts n)) ts := by
  induction ms generalizing n with
  | nil => rw [show (Wal.batchBytes [] ts).take n = [] from List.take_nil, recordsOf_nil]; rfl
  | cons m ms ih =>
      have hm := hms m List.mem_cons_self
      have htail := ih fun m' hm' => hms m' (List.mem_cons_of_mem _ hm')
      rw [batchBytes_cons, wholeRecords]
      split
      · next hlt =>
          rw [List.take_append_of_le_length (Nat.le_of_lt hlt), (replay_torn hm hlt).1]
          rfl
      · next hge =>
          rw [List.take_append, List.take_of_length_le (by omega), recordsOf_encode hm, htail]
          rfl

end Cachedb
