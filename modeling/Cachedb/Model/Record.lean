import Cachedb.Model.Bytes

/-!
# The log's records and their replay

One record per mutation. The checksum comes first and covers everything after
itself, so a record can only be judged once its length is known, and its
length depends on the op byte: a SET that carries an expiry has eight more
bytes between its header and its key and says so with an op byte of its own
that exists nowhere but on the wire.

`decodeRecord` believes nothing it reads. A claimed length that does not fit
in what is left is `incomplete`, which is what a torn tail looks like, and a
record that is all there but disagrees with its checksum is `corrupt`.
`replay` takes records off the front for as long as they decode.
-/

namespace Cachedb

/-- `Record::Op`. -/
inductive Op where
  | kSet
  | kDelete
  deriving DecidableEq, Repr

/-- `Wal::Mutation`: one change as a caller hands it to the log. -/
structure Mutation where
  op : Op
  key : Bytes
  value : Bytes := []
  expiresAtMs : Int64 := 0
  deriving DecidableEq, Repr

/-- One mutation as it comes back out of the log. -/
structure Record where
  op : Op
  timestampMs : Int64
  expiresAtMs : Int64
  key : Bytes
  value : Bytes
  deriving DecidableEq, Repr

def kRecordHeaderSize : Nat := 21

def kExpirySize : Nat := 8

/-- The op byte of a SET that carries an expiry. Never an `Op`. -/
def kSetExOpByte : UInt8 := 2

def Op.byte : Op → UInt8
  | .kSet => 0
  | .kDelete => 1

/-! ## The checksum -/

/-- One bit of the reflected CRC-32 division. -/
def crcBit (c : UInt32) : UInt32 :=
  if c &&& 1 = 1 then (0xEDB88320 : UInt32) ^^^ (c >>> 1) else c >>> 1

/-- Entry `i` of `crc_table`: eight bits of division. The source tabulates
this function once. -/
def crcTable (i : UInt8) : UInt32 :=
  crcBit (crcBit (crcBit (crcBit (crcBit (crcBit (crcBit (crcBit i.toUInt32)))))))

def crcByte (c : UInt32) (b : UInt8) : UInt32 :=
  crcTable ((c ^^^ b.toUInt32) &&& 0xFF).toUInt8 ^^^ (c >>> 8)

def crc32 (data : Bytes) : UInt32 := data.foldl crcByte 0xFFFFFFFF ^^^ 0xFFFFFFFF

/-! ## Encoding -/

/-- Only a SET can carry an expiry: an expiring tombstone would be a deleted
key coming back. -/
def Mutation.carriesExpiry (m : Mutation) : Bool := m.op == .kSet && m.expiresAtMs != 0

def Mutation.opByte (m : Mutation) : UInt8 :=
  if m.carriesExpiry then kSetExOpByte else m.op.byte

/-- The optional expiry field. -/
def Mutation.stampField (m : Mutation) : Bytes :=
  if m.carriesExpiry then putU64 (stampBits m.expiresAtMs) else []

/-- Timestamp through value: what the checksum covers. -/
def coveredBytes (m : Mutation) (timestampMs : Int64) : Bytes :=
  putU64 (stampBits timestampMs) ++ [m.opByte] ++ putU32 m.key.length ++
    putU32 m.value.length ++ m.stampField ++ m.key ++ m.value

/-- `encode_record`, as the bytes it appends. -/
def encodeRecord (m : Mutation) (timestampMs : Int64) : Bytes :=
  putU32 (crc32 (coveredBytes m timestampMs)).toNat ++ coveredBytes m timestampMs

/-! ## Decoding -/

inductive DecodeResult where
  | ok (consumed : Nat) (record : Record)
  | incomplete
  | corrupt
  deriving DecidableEq, Repr

/-- `in[12]`. -/
def headerOp (inp : Bytes) : UInt8 := inp.getD 12 0

def headerKlen (inp : Bytes) : Nat := loadU32 (inp.drop 13)

def headerVlen (inp : Bytes) : Nat := loadU32 (inp.drop 17)

/-- What sits between the header and the key. An op byte nobody wrote is
charged nothing, so that a short buffer still reads as incomplete. -/
def headerExtra (inp : Bytes) : Nat :=
  if headerOp inp = kSetExOpByte then kExpirySize else 0

/-- The length the header claims for the whole record. -/
def headerTotal (inp : Bytes) : Nat :=
  kRecordHeaderSize + headerExtra inp + headerKlen inp + headerVlen inp

/-- The record a header that passed its checks describes. -/
def headerRecord (inp : Bytes) : Record :=
  let body := kRecordHeaderSize + headerExtra inp
  { op := if headerOp inp = kSetExOpByte then .kSet
      else if headerOp inp = 0 then .kSet else .kDelete
    timestampMs := bitsStamp (loadU64 (inp.drop 4))
    expiresAtMs :=
      if headerOp inp = kSetExOpByte then bitsStamp (loadU64 (inp.drop kRecordHeaderSize))
      else 0
    key := (inp.drop body).take (headerKlen inp)
    value := (inp.drop (body + headerKlen inp)).take (headerVlen inp) }

/-- `decode_record`: the record at the front of `inp`. -/
def decodeRecord (inp : Bytes) : DecodeResult :=
  if inp.length < kRecordHeaderSize then .incomplete
  else if inp.length < headerTotal inp then .incomplete
  else if (crc32 ((inp.drop 4).take (headerTotal inp - 4))).toNat ≠ loadU32 inp then
    .corrupt
  else if kSetExOpByte < headerOp inp then .corrupt
  else .ok (headerTotal inp) (headerRecord inp)

/-! ## Replay -/

/-- The scan of `replay`: the records handed to the callback, in order, and
the length of the intact beginning. Every record takes at least a header, so
the length of the file is fuel enough (`replayScan_eq`). -/
def replayScan : Nat → Bytes → List Record × Nat
  | 0, _ => ([], 0)
  | fuel + 1, inp =>
      match decodeRecord inp with
      | .ok consumed record =>
          let rest := replayScan fuel (inp.drop consumed)
          (record :: rest.1, consumed + rest.2)
      | .incomplete => ([], 0)
      | .corrupt => ([], 0)

structure ReplayResult where
  records : List Record
  goodBytes : Nat
  truncated : Bool
  deriving DecidableEq, Repr

/-- `replay` over the bytes of an existing log. The file is cut to
`goodBytes` afterwards when `truncated` says there was anything to cut. -/
def replay (data : Bytes) : ReplayResult :=
  let scan := replayScan (data.length + 1) data
  { records := scan.1, goodBytes := scan.2, truncated := scan.2 < data.length }

/-! ## What a record is when it comes back -/

/-- The record `m` becomes: the stamp of anything but a SET is dropped. -/
def Mutation.record (m : Mutation) (timestampMs : Int64) : Record :=
  { op := m.op, timestampMs := timestampMs
    expiresAtMs := if m.op = .kSet then m.expiresAtMs else 0
    key := m.key, value := m.value }

/-- Lengths fit the format's 32-bit fields. The protocol never lets a longer
string in. -/
def Mutation.Fits (m : Mutation) : Prop :=
  m.key.length < 2 ^ 32 ∧ m.value.length < 2 ^ 32

instance (m : Mutation) : Decidable m.Fits := inferInstanceAs (Decidable (_ ∧ _))

theorem length_stampField (m : Mutation) :
    m.stampField.length = if m.carriesExpiry then 8 else 0 := by
  unfold Mutation.stampField
  split <;> simp

theorem length_encodeRecord (m : Mutation) (ts : Int64) :
    (encodeRecord m ts).length =
      21 + m.stampField.length + m.key.length + m.value.length := by
  simp only [encodeRecord, coveredBytes, List.length_append, length_putU32,
    length_putU64, List.length_singleton]
  omega

theorem opByte_eq_setEx_iff (m : Mutation) :
    m.opByte = kSetExOpByte ↔ m.carriesExpiry = true := by
  unfold Mutation.opByte
  split
  · next h => simp [h]
  · next h =>
      simp only [h, Bool.false_eq_true, iff_false]
      cases m.op <;> decide

theorem opByte_le (m : Mutation) : ¬ kSetExOpByte < m.opByte := by
  unfold Mutation.opByte
  split
  · decide
  · cases m.op <;> decide

section Encoded

variable (m : Mutation) (ts : Int64) (rest : Bytes)

/-- The encoding, split after its op byte. -/
theorem encodeRecord_split13 :
    encodeRecord m ts ++ rest =
      (putU32 (crc32 (coveredBytes m ts)).toNat ++ putU64 (stampBits ts) ++ [m.opByte]) ++
        (putU32 m.key.length ++
          (putU32 m.value.length ++ (m.stampField ++ (m.key ++ (m.value ++ rest))))) := by
  simp [encodeRecord, coveredBytes]

/-- The encoding, split after its key length. -/
theorem encodeRecord_split17 :
    encodeRecord m ts ++ rest =
      (putU32 (crc32 (coveredBytes m ts)).toNat ++ putU64 (stampBits ts) ++ [m.opByte] ++
        putU32 m.key.length) ++
        (putU32 m.value.length ++ (m.stampField ++ (m.key ++ (m.value ++ rest)))) := by
  simp [encodeRecord, coveredBytes]

/-- The encoding, split after its fixed header. -/
theorem encodeRecord_split21 :
    encodeRecord m ts ++ rest =
      (putU32 (crc32 (coveredBytes m ts)).toNat ++ putU64 (stampBits ts) ++ [m.opByte] ++
        putU32 m.key.length ++ putU32 m.value.length) ++
        (m.stampField ++ (m.key ++ (m.value ++ rest))) := by
  simp [encodeRecord, coveredBytes]

theorem headerOp_encode : headerOp (encodeRecord m ts ++ rest) = m.opByte := by
  rw [headerOp, encodeRecord_split13, List.getD_eq_getElem?_getD,
    List.getElem?_append_left (by simp), List.getElem?_append_right (by simp)]
  simp

theorem headerExtra_encode :
    headerExtra (encodeRecord m ts ++ rest) = m.stampField.length := by
  rw [headerExtra, headerOp_encode, length_stampField]
  by_cases h : m.carriesExpiry = true
  · rw [if_pos ((opByte_eq_setEx_iff m).mpr h), if_pos h, kExpirySize]
  · rw [if_neg (fun h' => h ((opByte_eq_setEx_iff m).mp h')), if_neg h]

variable {m} (hm : m.Fits)
include hm

theorem headerKlen_encode : headerKlen (encodeRecord m ts ++ rest) = m.key.length := by
  rw [headerKlen, encodeRecord_split13, List.drop_left' (by simp)]
  exact loadU32_putU32 hm.1 _

theorem headerVlen_encode : headerVlen (encodeRecord m ts ++ rest) = m.value.length := by
  rw [headerVlen, encodeRecord_split17, List.drop_left' (by simp)]
  exact loadU32_putU32 hm.2 _

theorem headerTotal_encode :
    headerTotal (encodeRecord m ts ++ rest) = (encodeRecord m ts).length := by
  rw [headerTotal, headerExtra_encode, headerKlen_encode ts rest hm,
    headerVlen_encode ts rest hm, length_encodeRecord, kRecordHeaderSize]

theorem headerRecord_encode :
    headerRecord (encodeRecord m ts ++ rest) = m.record ts := by
  have hbody : kRecordHeaderSize + headerExtra (encodeRecord m ts ++ rest) =
      (putU32 (crc32 (coveredBytes m ts)).toNat ++ putU64 (stampBits ts) ++ [m.opByte] ++
        putU32 m.key.length ++ putU32 m.value.length ++ m.stampField).length := by
    rw [headerExtra_encode, kRecordHeaderSize]
    simp only [List.length_append, length_putU32, length_putU64, List.length_singleton]
  have hkey : (List.drop (kRecordHeaderSize + headerExtra (encodeRecord m ts ++ rest))
      (encodeRecord m ts ++ rest)) = m.key ++ (m.value ++ rest) := by
    rw [hbody, encodeRecord_split21, ← List.append_assoc _ m.stampField]
    exact List.drop_left' rfl
  have hval : List.drop (kRecordHeaderSize + headerExtra (encodeRecord m ts ++ rest) +
      m.key.length) (encodeRecord m ts ++ rest) = m.value ++ rest := by
    rw [← List.drop_drop, hkey]
    exact List.drop_left' rfl
  have hts : loadU64 (List.drop 4 (encodeRecord m ts ++ rest)) = stampBits ts := by
    rw [show encodeRecord m ts ++ rest = putU32 (crc32 (coveredBytes m ts)).toNat ++
      (putU64 (stampBits ts) ++ ([m.opByte] ++ putU32 m.key.length ++
        putU32 m.value.length ++ m.stampField ++ m.key ++ m.value ++ rest)) by
      simp [encodeRecord, coveredBytes], List.drop_left' (by simp)]
    exact loadU64_putU64 (stampBits_lt ts) _
  simp only [headerRecord, headerKlen_encode ts rest hm, headerVlen_encode ts rest hm,
    hkey, hval, hts, headerOp_encode, bitsStamp_stampBits, List.take_left']
  by_cases h : m.carriesExpiry = true
  · -- The wire op is unfolded back into a plain SET with its stamp.
    have hop : m.op = .kSet := by
      simp only [Mutation.carriesExpiry, Bool.and_eq_true, beq_iff_eq] at h
      exact h.1
    rw [if_pos ((opByte_eq_setEx_iff m).mpr h), if_pos ((opByte_eq_setEx_iff m).mpr h),
      encodeRecord_split21, List.drop_left' (by simp [kRecordHeaderSize]),
      Mutation.stampField, if_pos h, loadU64_putU64 (stampBits_lt _),
      bitsStamp_stampBits, Mutation.record, if_pos hop, hop]
  · rw [if_neg (fun h' => h ((opByte_eq_setEx_iff m).mp h')),
      if_neg (fun h' => h ((opByte_eq_setEx_iff m).mp h')), Mutation.opByte, if_neg h,
      Mutation.record]
    cases hop : m.op with
    | kSet =>
        have h0 : m.expiresAtMs = 0 := by
          simpa [Mutation.carriesExpiry, hop] using h
        simp [Op.byte, h0]
    | kDelete => simp [Op.byte]

/-- A record read back is the record written, whatever follows it. -/
theorem decodeRecord_encode :
    decodeRecord (encodeRecord m ts ++ rest) =
      .ok (encodeRecord m ts).length (m.record ts) := by
  have hlen := length_encodeRecord m ts
  have hcov : (List.drop 4 (encodeRecord m ts ++ rest)).take
      ((encodeRecord m ts).length - 4) = coveredBytes m ts := by
    rw [encodeRecord, List.append_assoc, List.drop_left' (by simp)]
    exact List.take_left' (by simp)
  rw [decodeRecord, headerTotal_encode ts rest hm, if_neg, if_neg, if_neg, if_neg,
    headerRecord_encode ts rest hm]
  · rw [headerOp_encode]; exact opByte_le m
  · rw [not_not, hcov, encodeRecord, List.append_assoc]
    exact (loadU32_putU32 (UInt32.toNat_lt _) _).symm
  · simp
  · rw [kRecordHeaderSize, List.length_append]; omega

end Encoded

/-! ## Only the bytes of the header decide how long a record is -/

theorem loadLe_drop_take {inp : Bytes} {n i w : Nat} (h : i + w ≤ n) :
    ((inp.take n).drop i).take w = (inp.drop i).take w := by
  rw [List.drop_take, List.take_take, Nat.min_eq_left (by omega)]

theorem headerTotal_take {inp : Bytes} {n : Nat} (h : kRecordHeaderSize ≤ n) :
    headerTotal (inp.take n) = headerTotal inp := by
  have h21 : 21 ≤ n := h
  have hop : headerOp (inp.take n) = headerOp inp := by
    rw [headerOp, headerOp, List.getD_eq_getElem?_getD, List.getD_eq_getElem?_getD,
      List.getElem?_take_of_lt (by omega)]
  rw [headerTotal, headerTotal, headerExtra, headerExtra, hop, headerKlen, headerKlen,
    headerVlen, headerVlen, loadU32, loadU32, loadU32, loadU32,
    loadLe_drop_take (by omega), loadLe_drop_take (by omega)]

/-- A record cut short is incomplete at every cut. -/
theorem decodeRecord_torn {m : Mutation} (hm : m.Fits) {ts : Int64} {n : Nat}
    (hn : n < (encodeRecord m ts).length) :
    decodeRecord ((encodeRecord m ts).take n) = .incomplete := by
  have hlen : ((encodeRecord m ts).take n).length = n := by
    rw [List.length_take]; omega
  rw [decodeRecord, hlen]
  by_cases h21 : n < kRecordHeaderSize
  · rw [if_pos h21]
  · have htot : headerTotal ((encodeRecord m ts).take n) = (encodeRecord m ts).length := by
      rw [headerTotal_take (by omega)]
      simpa using headerTotal_encode ts [] hm
    rw [if_neg h21, htot, if_pos hn]

theorem decodeRecord_nil : decodeRecord [] = .incomplete := by decide

theorem decodeRecord_ok_bounds {inp : Bytes} {n : Nat} {r : Record}
    (h : decodeRecord inp = .ok n r) : kRecordHeaderSize ≤ n ∧ n ≤ inp.length := by
  unfold decodeRecord at h
  split at h
  · cases h
  · split at h
    · cases h
    · next hlen =>
        split at h
        · cases h
        · split at h
          · cases h
          · cases h
            exact ⟨by rw [headerTotal]; omega, by omega⟩

/-! ## The scan as a recursion on the file -/

/-- Any fuel above the length of the file gives the same scan. -/
theorem replayScan_congr : ∀ (fuel fuel' : Nat) (inp : Bytes), inp.length < fuel →
    inp.length < fuel' → replayScan fuel inp = replayScan fuel' inp := by
  intro fuel
  induction fuel with
  | zero => intro fuel' inp h _; exact absurd h (Nat.not_lt_zero _)
  | succ f ih =>
      intro fuel' inp h h'
      obtain ⟨f', rfl⟩ : ∃ m, fuel' = m + 1 := ⟨fuel' - 1, by omega⟩
      rw [replayScan, replayScan]
      cases hd : decodeRecord inp with
      | incomplete => rfl
      | corrupt => rfl
      | ok n r =>
          obtain ⟨hlo, hhi⟩ := decodeRecord_ok_bounds hd
          have : (inp.drop n).length < inp.length := by
            rw [List.length_drop]
            have : kRecordHeaderSize = 21 := rfl
            omega
          simp only []
          rw [ih f' (inp.drop n) (by omega) (by omega)]

/-- What `replay` hands to its callback. -/
def recordsOf (data : Bytes) : List Record := (replay data).records

theorem recordsOf_eq (data : Bytes) :
    recordsOf data = match decodeRecord data with
      | .ok n r => r :: recordsOf (data.drop n)
      | .incomplete => []
      | .corrupt => [] := by
  rw [recordsOf, replay, replayScan]
  cases hd : decodeRecord data with
  | incomplete => rfl
  | corrupt => rfl
  | ok n r =>
      obtain ⟨hlo, hhi⟩ := decodeRecord_ok_bounds hd
      have hlt : (data.drop n).length < data.length := by
        rw [List.length_drop]
        have : kRecordHeaderSize = 21 := rfl
        omega
      simp only [recordsOf, replay]
      rw [replayScan_congr _ ((data.drop n).length + 1) _ (by omega) (by omega)]

theorem goodBytes_eq (data : Bytes) :
    (replay data).goodBytes = match decodeRecord data with
      | .ok n _ => n + (replay (data.drop n)).goodBytes
      | .incomplete => 0
      | .corrupt => 0 := by
  rw [replay, replayScan]
  cases hd : decodeRecord data with
  | incomplete => rfl
  | corrupt => rfl
  | ok n r =>
      obtain ⟨hlo, hhi⟩ := decodeRecord_ok_bounds hd
      have hlt : (data.drop n).length < data.length := by
        rw [List.length_drop]
        have : kRecordHeaderSize = 21 := rfl
        omega
      simp only [replay]
      rw [replayScan_congr _ ((data.drop n).length + 1) _ (by omega) (by omega)]

/-! ## Whole logs -/

/-- Mutations with the timestamps they were logged under, one record after
another. -/
def encodeAll (ms : List (Mutation × Int64)) : Bytes :=
  ms.flatMap fun p => encodeRecord p.1 p.2

theorem recordsOf_encode {m : Mutation} (hm : m.Fits) (ts : Int64) (rest : Bytes) :
    recordsOf (encodeRecord m ts ++ rest) = m.record ts :: recordsOf rest := by
  rw [recordsOf_eq, decodeRecord_encode ts rest hm]
  simp

theorem goodBytes_encode {m : Mutation} (hm : m.Fits) (ts : Int64) (rest : Bytes) :
    (replay (encodeRecord m ts ++ rest)).goodBytes =
      (encodeRecord m ts).length + (replay rest).goodBytes := by
  rw [goodBytes_eq, decodeRecord_encode ts rest hm]
  simp

/-- Whole records at the front are delivered in order, and the scan goes on
behind them. -/
theorem recordsOf_encodeAll {ms : List (Mutation × Int64)}
    (hms : ∀ p ∈ ms, p.1.Fits) (rest : Bytes) :
    recordsOf (encodeAll ms ++ rest) =
      ms.map (fun p => p.1.record p.2) ++ recordsOf rest := by
  induction ms with
  | nil => simp [encodeAll]
  | cons p ms ih =>
      have hrest := ih fun q hq => hms q (List.mem_cons_of_mem _ hq)
      rw [show encodeAll (p :: ms) ++ rest =
        encodeRecord p.1 p.2 ++ (encodeAll ms ++ rest) by simp [encodeAll],
        recordsOf_encode (hms p List.mem_cons_self), hrest]
      rfl

theorem goodBytes_encodeAll {ms : List (Mutation × Int64)}
    (hms : ∀ p ∈ ms, p.1.Fits) (rest : Bytes) :
    (replay (encodeAll ms ++ rest)).goodBytes =
      (encodeAll ms).length + (replay rest).goodBytes := by
  induction ms with
  | nil => simp [encodeAll]
  | cons p ms ih =>
      have hrest := ih fun q hq => hms q (List.mem_cons_of_mem _ hq)
      rw [show encodeAll (p :: ms) ++ rest =
        encodeRecord p.1 p.2 ++ (encodeAll ms ++ rest) by simp [encodeAll],
        goodBytes_encode (hms p List.mem_cons_self), hrest]
      simp [encodeAll, Nat.add_assoc]

/-- A torn tail delivers nothing and is cut at its first byte. -/
theorem replay_torn {m : Mutation} (hm : m.Fits) {ts : Int64} {n : Nat}
    (hn : n < (encodeRecord m ts).length) :
    recordsOf ((encodeRecord m ts).take n) = [] ∧
      (replay ((encodeRecord m ts).take n)).goodBytes = 0 := by
  rw [recordsOf_eq, goodBytes_eq, decodeRecord_torn hm hn]
  exact ⟨rfl, rfl⟩

theorem recordsOf_nil : recordsOf [] = [] := by
  rw [recordsOf_eq, decodeRecord_nil]

end Cachedb
