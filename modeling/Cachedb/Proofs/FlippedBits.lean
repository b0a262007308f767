import Cachedb.Proofs.Checksum

/-!
# Records with one flipped bit

A flipped bit in the stored checksum, in the timestamp or behind the header is
a burst, and the checksum catches it. In the op byte or in a length it also
changes which bytes are checked. If the record is then longer than what is
there, it is incomplete. If it is shorter, the checksum of the record is
compared with that of another, shorter one, and nothing keeps the two from
being equal. `Mutation.Shortens` says which mutations those shorter records
are of.
-/

namespace Cachedb

/-- The bytes with bit `pos` flipped, counted from the low bit of the first
byte on. -/
def flipBit (data : Bytes) (pos : Nat) : Bytes :=
  data.modify (pos / 8) (· ^^^ UInt8.ofNat (2 ^ (pos % 8)))

/-! ## Flipping a bit of a field -/

theorem flipBit_append_right (xs ys : Bytes) (pos : Nat) :
    flipBit (xs ++ ys) (8 * xs.length + pos) = xs ++ flipBit ys pos := by
  rw [flipBit, flipBit, Nat.mul_add_div (by decide), Nat.mul_add_mod]
  induction xs with
  | nil => rw [List.length_nil, Nat.zero_add]; rfl
  | cons x xs ih =>
      rw [List.length_cons, List.cons_append, Nat.add_right_comm, List.modify_succ_cons, ih]
      rfl

theorem flipBit_append_left {xs : Bytes} (ys : Bytes) {pos : Nat} (h : pos < 8 * xs.length) :
    flipBit (xs ++ ys) pos = flipBit xs pos ++ ys := by
  rw [flipBit, flipBit]
  have hi : pos / 8 < xs.length := by omega
  clear h
  generalize pos / 8 = i at hi ⊢
  induction xs generalizing i with
  | nil => exact absurd hi (Nat.not_lt_zero i)
  | cons x xs ih =>
      cases i with
      | zero => rfl
      | succ i =>
          rw [List.cons_append, List.modify_succ_cons, List.modify_succ_cons, List.cons_append,
            ih i (Nat.lt_of_succ_lt_succ hi)]

theorem xor_one (q : Nat) : q ^^^ 1 = if q % 2 = 1 then q - 1 else q + 1 := by
  have hdiv := Nat.div_add_mod (q ^^^ 1) (2 ^ 1)
  rw [Nat.xor_div_two_pow, Nat.xor_mod_two_pow] at hdiv
  rcases Nat.mod_two_eq_zero_or_one q with h | h
  · rw [if_neg (by omega)]
    rw [show (2 : Nat) ^ 1 = 2 from rfl, h] at hdiv
    simp at hdiv
    omega
  · rw [if_pos h]
    rw [show (2 : Nat) ^ 1 = 2 from rfl, h] at hdiv
    simp at hdiv
    omega

/-- Flipping a bit of a number. -/
theorem xor_two_pow (v b : Nat) :
    v ^^^ 2 ^ b = if v.testBit b = true then v - 2 ^ b else v + 2 ^ b := by
  have hpos : 0 < 2 ^ b := Nat.two_pow_pos b
  have hdiv := Nat.div_add_mod (v ^^^ 2 ^ b) (2 ^ b)
  rw [Nat.xor_div_two_pow, Nat.xor_mod_two_pow, Nat.div_self hpos, Nat.mod_self,
    Nat.xor_zero, xor_one] at hdiv
  have hv := Nat.div_add_mod v (2 ^ b)
  simp only [Nat.testBit_eq_decide_div_mod_eq, decide_eq_true_eq]
  generalize v / 2 ^ b = q at *
  split
  · next hodd =>
      rw [if_pos hodd] at hdiv
      obtain ⟨q, rfl⟩ : ∃ r, q = r + 1 := ⟨q - 1, by omega⟩
      rw [Nat.add_sub_cancel] at hdiv
      rw [Nat.mul_succ] at hv
      omega
  · next heven =>
      rw [if_neg heven, Nat.mul_succ] at hdiv
      omega

theorem flipBit_putLe : ∀ {w b : Nat} (v : Nat), b < 8 * w →
    flipBit (putLe w v) b = putLe w (v ^^^ 2 ^ b)
  | 0, b, _, h => absurd h (by omega)
  | w + 1, b, v, h => by
      by_cases hb : b < 8
      · have hpow : 2 ^ b < 2 ^ 8 := Nat.pow_lt_pow_right (by decide) hb
        have htail : (v ^^^ 2 ^ b) / 256 = v / 256 := by
          rw [show 256 = 2 ^ 8 from rfl, Nat.xor_div_two_pow, Nat.div_eq_of_lt hpow, Nat.xor_zero]
        rw [flipBit, Nat.div_eq_of_lt hb, Nat.mod_eq_of_lt hb, putLe, List.modify_zero_cons, putLe,
          UInt8.ofNat_xor, htail]
      · obtain ⟨c, rfl⟩ : ∃ c, b = 8 * 1 + c := ⟨b - 8, by omega⟩
        have hpow : 2 ^ (8 * 1 + c) = 256 * 2 ^ c := Nat.pow_add 2 8 c
        have hhead : UInt8.ofNat (v ^^^ 2 ^ (8 * 1 + c)) = UInt8.ofNat v := by
          have hzero : UInt8.ofNat (256 * 2 ^ c) = 0 :=
            UInt8.toNat_inj.mp (by rw [UInt8.toNat_ofNat']; exact Nat.mul_mod_right 256 _)
          rw [UInt8.ofNat_xor, hpow, hzero, UInt8.xor_zero]
        have htail : (v ^^^ 2 ^ (8 * 1 + c)) / 256 = v / 256 ^^^ 2 ^ c := by
          rw [show (256 : Nat) = 2 ^ 8 from rfl, Nat.xor_div_two_pow, Nat.pow_add,
            Nat.mul_div_cancel_left _ (by decide)]
        rw [putLe, putLe, hhead, htail, ← flipBit_putLe (v / 256) (by omega)]
        exact flipBit_append_right [UInt8.ofNat v] _ c

theorem flipBit_putU32 {b : Nat} (v : Nat) (h : b < 32) :
    flipBit (putU32 v) b = putU32 (v ^^^ 2 ^ b) := flipBit_putLe v h

theorem burst_flipBit {data : Bytes} {pos : Nat} (h : pos < 8 * data.length) {lo hi : Nat}
    (hlo : lo ≤ pos / 8) (hhi : pos / 8 < hi) : Burst data (flipBit data pos) lo hi := by
  have hi : pos / 8 < data.length := by omega
  have hmask : ∀ j < 8, UInt8.ofNat (2 ^ j) ≠ 0 := by decide
  refine ⟨List.length_modify _ _ _, fun heq => ?_, pos / 8, fun i hout => ?_⟩
  · have hat : (flipBit data pos)[pos / 8]? = data[pos / 8]? := by rw [heq]
    rw [flipBit, List.getElem?_modify, List.getElem?_eq_getElem hi] at hat
    simp only [if_true, Option.map_eq_map, Option.map_some, Option.some.injEq] at hat
    refine hmask (pos % 8) (Nat.mod_lt _ (by decide)) ((UInt8.xor_right_inj data[pos / 8]).mp ?_)
    rw [hat, UInt8.xor_zero]
  · rw [flipBit, List.getElem?_modify]
    simp only [show ¬pos / 8 = i by omega, if_false]
    exact Option.map_id'

/-! ## Records by their fields -/

/-- The layout of a record, with fields that need not belong together. -/
def rawRecord (crc stamp : Nat) (op : UInt8) (klen vlen : Nat) (body : Bytes) : Bytes :=
  putU32 crc ++ (putU64 stamp ++ ([op] ++ (putU32 klen ++ (putU32 vlen ++ body))))

section Raw

variable (crc stamp : Nat) (op : UInt8) (klen vlen : Nat) (body : Bytes)

theorem length_rawRecord : (rawRecord crc stamp op klen vlen body).length = 21 + body.length := by
  simp only [rawRecord, List.length_append, length_putU32, length_putU64, List.length_singleton]
  omega

theorem flipBit_op {j : Nat} (hj : j < 8) :
    flipBit (rawRecord crc stamp op klen vlen body) (8 * 12 + j) =
      rawRecord crc stamp (op ^^^ UInt8.ofNat (2 ^ j)) klen vlen body := by
  rw [rawRecord, show 8 * 12 + j = 8 * (putU32 crc).length + (8 * (putU64 stamp).length + j) by
      rw [length_putU32, length_putU64]; omega,
    flipBit_append_right, flipBit_append_right, flipBit_append_left _ (by simpa using hj),
    flipBit, Nat.div_eq_of_lt hj, Nat.mod_eq_of_lt hj]
  rfl

theorem flipBit_klen {b : Nat} (hb : b < 32) :
    flipBit (rawRecord crc stamp op klen vlen body) (8 * 13 + b) =
      rawRecord crc stamp op (klen ^^^ 2 ^ b) vlen body := by
  rw [rawRecord, show 8 * 13 + b = 8 * (putU32 crc).length + (8 * (putU64 stamp).length +
      (8 * [op].length + b)) by rw [length_putU32, length_putU64, List.length_singleton]; omega,
    flipBit_append_right, flipBit_append_right, flipBit_append_right,
    flipBit_append_left _ (by simpa using hb), flipBit_putU32 klen hb]
  rfl

theorem flipBit_vlen {b : Nat} (hb : b < 32) :
    flipBit (rawRecord crc stamp op klen vlen body) (8 * 17 + b) =
      rawRecord crc stamp op klen (vlen ^^^ 2 ^ b) body := by
  rw [rawRecord, show 8 * 17 + b = 8 * (putU32 crc).length + (8 * (putU64 stamp).length +
      (8 * [op].length + (8 * (putU32 klen).length + b))) by
      rw [length_putU32, length_putU32, length_putU64, List.length_singleton]; omega,
    flipBit_append_right, flipBit_append_right, flipBit_append_right, flipBit_append_right,
    flipBit_append_left _ (by simpa using hb), flipBit_putU32 vlen hb]
  rfl

theorem headerOp_raw : headerOp (rawRecord crc stamp op klen vlen body) = op := by
  rw [headerOp, rawRecord, List.getD_eq_getElem?_getD, List.getElem?_append_right (by simp),
    List.getElem?_append_right (by simp), List.getElem?_append_left (by simp)]
  simp

variable {klen vlen} (hk : klen < 2 ^ 32) (hv : vlen < 2 ^ 32)
include hk hv

theorem headerTotal_raw : headerTotal (rawRecord crc stamp op klen vlen body) =
    21 + (if op = kSetExOpByte then 8 else 0) + klen + vlen := by
  have hklen : headerKlen (rawRecord crc stamp op klen vlen body) = klen := by
    rw [headerKlen, rawRecord, ← List.append_assoc, ← List.append_assoc,
      List.drop_left' (by simp), loadU32_putU32 hk]
  have hvlen : headerVlen (rawRecord crc stamp op klen vlen body) = vlen := by
    rw [headerVlen, rawRecord, ← List.append_assoc, ← List.append_assoc, ← List.append_assoc,
      List.drop_left' (by simp), loadU32_putU32 hv]
  rw [headerTotal, headerExtra, headerOp_raw, hklen, hvlen]
  rfl

end Raw

theorem encodeRecord_eq_raw (m : Mutation) (ts : Int64) :
    encodeRecord m ts = rawRecord (crc32 (coveredBytes m ts)).toNat (stampBits ts) m.opByte
      m.key.length m.value.length (m.stampField ++ (m.key ++ m.value)) := by
  simp [encodeRecord, coveredBytes, rawRecord]

/-- Fields that are those of `m` make a record of `m`, under any checksum. -/
theorem rawRecord_eq_sealed (m : Mutation) (ts : Int64) (crc : Nat) {op : UInt8} {klen vlen : Nat}
    {body : Bytes} (tail : Bytes) (hop : op = m.opByte) (hk : m.key.length = klen)
    (hv : m.value.length = vlen) (hbody : body = m.stampField ++ (m.key ++ (m.value ++ tail))) :
    rawRecord crc (stampBits ts) op klen vlen body =
      putU32 crc ++ coveredBytes m ts ++ tail := by
  rw [hop, ← hk, ← hv, hbody]
  simp [coveredBytes, rawRecord]

theorem not_ok_of_op {inp : Bytes} (h : kSetExOpByte < headerOp inp) (n : Nat) (r : Record) :
    decodeRecord inp ≠ .ok n r := by
  intro hdec
  rw [decodeRecord] at hdec
  split at hdec
  · cases hdec
  · split at hdec
    · cases hdec
    · split at hdec
      · cases hdec
      · cases hdec

theorem not_ok_of_total {inp : Bytes} (h : inp.length < headerTotal inp) (n : Nat) (r : Record) :
    decodeRecord inp ≠ .ok n r := by
  intro hdec
  rw [decodeRecord, if_pos h] at hdec
  split at hdec <;> cases hdec

/-! ## The shorter record -/

/-- `m` with its key and value cut out of `body` anew. -/
def Mutation.reframed (m : Mutation) (body : Bytes) (klen vlen : Nat) : Mutation :=
  { m with key := body.take klen, value := (body.drop klen).take vlen }

def Mutation.withoutExpiry (m : Mutation) : Mutation := { m with expiresAtMs := 0 }

/-- Flipping bit `pos` of a record of `m` makes its header announce a shorter
record, which would be one of `m'`: the op byte of a SET with an expiry turns
into that of a SET without, or a length loses one of its bits. -/
inductive Mutation.Shortens (m : Mutation) : Nat → Mutation → Prop
  | op (h : m.carriesExpiry = true) :
      Shortens m (8 * 12 + 1) (m.withoutExpiry.reframed (m.stampField ++ (m.key ++ m.value))
        m.key.length m.value.length)
  | klen {b : Nat} (hb : b < 32) (h : m.key.length.testBit b = true) :
      Shortens m (8 * 13 + b)
        (m.reframed (m.key ++ m.value) (m.key.length - 2 ^ b) m.value.length)
  | vlen {b : Nat} (hb : b < 32) (h : m.value.length.testBit b = true) :
      Shortens m (8 * 17 + b)
        (m.reframed (m.key ++ m.value) m.key.length (m.value.length - 2 ^ b))

theorem Mutation.reframed_spec (m : Mutation) (body : Bytes) (klen vlen : Nat)
    (h : klen + vlen ≤ body.length) :
    (m.reframed body klen vlen).key.length = klen ∧
      (m.reframed body klen vlen).value.length = vlen ∧
      body = (m.reframed body klen vlen).key ++
        ((m.reframed body klen vlen).value ++ body.drop (klen + vlen)) := by
  refine ⟨?_, ?_, ?_⟩
  · show (body.take klen).length = klen
    rw [List.length_take]
    omega
  · show ((body.drop klen).take vlen).length = vlen
    rw [List.length_take, List.length_drop]
    omega
  · show body = body.take klen ++ ((body.drop klen).take vlen ++ body.drop (klen + vlen))
    rw [← List.drop_drop, List.take_append_drop, List.take_append_drop]

/-- The flipped record is the shorter one, under the checksum of the longer
one and with the rest of it behind. -/
theorem Mutation.Shortens.flip {m m' : Mutation} {pos : Nat} (h : m.Shortens pos m') (hm : m.Fits)
    (ts : Int64) :
    pos < 8 * (encodeRecord m ts).length ∧ m'.Fits ∧
      ∃ tail, flipBit (encodeRecord m ts) pos =
        putU32 (crc32 (coveredBytes m ts)).toNat ++ coveredBytes m' ts ++ tail := by
  have hk := hm.1
  have hv := hm.2
  rw [encodeRecord_eq_raw, length_rawRecord]
  cases h with
  | op h =>
      have hset : m.op = .kSet := by
        simp only [Mutation.carriesExpiry, Bool.and_eq_true, beq_iff_eq] at h
        exact h.1
      have hplain : m.withoutExpiry.carriesExpiry = false := by
        show (m.op == .kSet && (0 : Int64) != 0) = false
        rw [hset]
        rfl
      have hop : m.withoutExpiry.opByte = 0 := by
        rw [Mutation.opByte, hplain, Mutation.withoutExpiry, hset]
        rfl
      have hstamp : m.withoutExpiry.stampField = [] := by rw [Mutation.stampField, hplain]; rfl
      obtain ⟨hkey, hvalue, hbody⟩ := m.withoutExpiry.reframed_spec
        (m.stampField ++ (m.key ++ m.value)) m.key.length m.value.length
        (by rw [List.length_append, List.length_append]; omega)
      refine ⟨by omega, ⟨lt_of_eq_of_lt hkey hk, lt_of_eq_of_lt hvalue hv⟩,
        (m.stampField ++ (m.key ++ m.value)).drop (m.key.length + m.value.length), ?_⟩
      rw [flipBit_op _ _ _ _ _ _ (by decide), (opByte_eq_setEx_iff m).mpr h,
        show kSetExOpByte ^^^ UInt8.ofNat (2 ^ 1) = 0 by decide]
      exact rawRecord_eq_sealed _ ts _ _ hop.symm hkey hvalue
        (hbody.trans (congrArg (· ++ _) hstamp).symm)
  | @klen b hb h =>
      have hle := Nat.sub_le m.key.length (2 ^ b)
      obtain ⟨hkey, hvalue, hbody⟩ := m.reframed_spec (m.key ++ m.value)
        (m.key.length - 2 ^ b) m.value.length
        (by rw [List.length_append]; exact Nat.add_le_add_right hle _)
      refine ⟨by omega, ⟨lt_of_le_of_lt (hkey.le.trans hle) hk, lt_of_eq_of_lt hvalue hv⟩,
        (m.key ++ m.value).drop (m.key.length - 2 ^ b + m.value.length), ?_⟩
      rw [flipBit_klen _ _ _ _ _ _ hb, xor_two_pow, if_pos h]
      exact rawRecord_eq_sealed _ ts _ _ rfl hkey hvalue (congrArg (m.stampField ++ ·) hbody)
  | @vlen b hb h =>
      have hle := Nat.sub_le m.value.length (2 ^ b)
      obtain ⟨hkey, hvalue, hbody⟩ := m.reframed_spec (m.key ++ m.value) m.key.length
        (m.value.length - 2 ^ b)
        (by rw [List.length_append]; exact Nat.add_le_add_left hle _)
      refine ⟨by omega, ⟨lt_of_eq_of_lt hkey hk, lt_of_le_of_lt (hvalue.le.trans hle) hv⟩,
        (m.key ++ m.value).drop (m.key.length + (m.value.length - 2 ^ b)), ?_⟩
      rw [flipBit_vlen _ _ _ _ _ _ hb, xor_two_pow, if_pos h]
      exact rawRecord_eq_sealed _ ts _ _ rfl hkey hvalue (congrArg (m.stampField ++ ·) hbody)

/-! ## The other flips -/

theorem not_ok_of_corrupt {inp : Bytes} (h : decodeRecord inp = .corrupt) (n : Nat) (r : Record) :
    decodeRecord inp ≠ .ok n r := by
  intro hdec
  cases h.symm.trans hdec

/-- The op byte announces the stamp that is there. -/
theorem extra_eq_stamp (m : Mutation) :
    (if m.opByte = kSetExOpByte then 8 else 0) = m.stampField.length := by
  rw [length_stampField]
  simp only [opByte_eq_setEx_iff]

section Flips

variable {m : Mutation} (hm : m.Fits) (ts : Int64) (n : Nat) (r : Record)

include hm

theorem flip_op_not_ok {j : Nat} (hj : j < 8) (hno : j = 1 → ¬m.carriesExpiry = true) :
    decodeRecord (flipBit (encodeRecord m ts) (8 * 12 + j)) ≠ .ok n r := by
  have hlen := length_encodeRecord m ts
  have hflip : flipBit (encodeRecord m ts) (8 * 12 + j) = rawRecord
      (crc32 (coveredBytes m ts)).toNat (stampBits ts) (m.opByte ^^^ UInt8.ofNat (2 ^ j))
      m.key.length m.value.length (m.stampField ++ (m.key ++ m.value)) := by
    rw [encodeRecord_eq_raw, flipBit_op _ _ _ _ _ _ hj]
  by_cases hexp : m.carriesExpiry = true
  · -- Anything but the op byte of a plain SET is an op nobody knows.
    have hunknown : ∀ j < 8, j ≠ 1 → kSetExOpByte < kSetExOpByte ^^^ UInt8.ofNat (2 ^ j) := by
      decide
    refine not_ok_of_op ?_ n r
    rw [hflip, headerOp_raw, (opByte_eq_setEx_iff m).mpr hexp]
    exact hunknown j hj fun h => hno h hexp
  · have hstamp := length_stampField m
    rw [if_neg hexp] at hstamp
    have htotal := headerTotal_raw (crc32 (coveredBytes m ts)).toNat (stampBits ts)
      (m.opByte ^^^ UInt8.ofNat (2 ^ j)) (m.stampField ++ (m.key ++ m.value)) hm.1 hm.2
    by_cases hset : m.opByte ^^^ UInt8.ofNat (2 ^ j) = kSetExOpByte
    · refine not_ok_of_total ?_ n r
      rw [hflip, htotal, length_rawRecord, if_pos hset, List.length_append, List.length_append]
      omega
    · refine not_ok_of_corrupt ?_ n r
      have := corrupt_of_covered _
        (burst_flipBit (show 8 * 12 + j < 8 * (encodeRecord m ts).length by omega)
          (show 4 ≤ (8 * 12 + j) / 8 by omega) (Nat.lt_succ_self _)) [] (by
          rw [List.append_nil, hflip, htotal, if_neg hset]
          omega)
      rwa [List.append_nil] at this

/-- A bit that is set makes a length longer than what is there. -/
theorem flip_klen_not_ok {b : Nat} (hb : b < 32) (hclear : ¬m.key.length.testBit b = true) :
    decodeRecord (flipBit (encodeRecord m ts) (8 * 13 + b)) ≠ .ok n r := by
  have hlt : m.key.length ^^^ 2 ^ b < 2 ^ 32 :=
    Nat.xor_lt_two_pow hm.1 (Nat.pow_lt_pow_right (by decide) hb)
  refine not_ok_of_total ?_ n r
  rw [encodeRecord_eq_raw, flipBit_klen _ _ _ _ _ _ hb, length_rawRecord,
    headerTotal_raw _ _ _ _ hlt hm.2, xor_two_pow, if_neg hclear, extra_eq_stamp,
    List.length_append, List.length_append]
  have := Nat.two_pow_pos b
  omega

theorem flip_vlen_not_ok {b : Nat} (hb : b < 32) (hclear : ¬m.value.length.testBit b = true) :
    decodeRecord (flipBit (encodeRecord m ts) (8 * 17 + b)) ≠ .ok n r := by
  have hlt : m.value.length ^^^ 2 ^ b < 2 ^ 32 :=
    Nat.xor_lt_two_pow hm.2 (Nat.pow_lt_pow_right (by decide) hb)
  refine not_ok_of_total ?_ n r
  rw [encodeRecord_eq_raw, flipBit_vlen _ _ _ _ _ _ hb, length_rawRecord,
    headerTotal_raw _ _ _ _ hm.1 hlt, xor_two_pow, if_neg hclear, extra_eq_stamp,
    List.length_append, List.length_append]
  have := Nat.two_pow_pos b
  omega

end Flips

/-- A flipped bit that does not shorten the record does not leave a record. -/
theorem flip_not_ok {m : Mutation} (hm : m.Fits) (ts : Int64) {pos : Nat}
    (hpos : pos < 8 * (encodeRecord m ts).length) (hno : ∀ m', ¬m.Shortens pos m') (n : Nat)
    (r : Record) : decodeRecord (flipBit (encodeRecord m ts) pos) ≠ .ok n r := by
  rcases Nat.lt_or_ge pos (8 * 4) with h | h₄
  · refine not_ok_of_corrupt ?_ n r
    have := corrupt_of_stored hm (burst_flipBit hpos (Nat.zero_le _) (show pos / 8 < 4 by omega)) []
    rwa [List.append_nil] at this
  rcases Nat.lt_or_ge pos (8 * 12) with h | h₁₂
  · refine not_ok_of_corrupt ?_ n r
    have := corrupt_of_payload hm (burst_flipBit hpos (show 4 ≤ pos / 8 by omega)
      (show pos / 8 < 12 by omega)) (Nat.le_refl 4) (fun i h₁ h₂ => by omega) []
    rwa [List.append_nil] at this
  rcases Nat.lt_or_ge pos (8 * 13) with h | h₁₃
  · obtain ⟨j, rfl⟩ : ∃ j, pos = 8 * 12 + j := ⟨pos - 8 * 12, by omega⟩
    refine flip_op_not_ok hm ts n r (by omega) ?_
    rintro rfl hexp
    exact hno _ (.op hexp)
  rcases Nat.lt_or_ge pos (8 * 17) with h | h₁₇
  · obtain ⟨b, rfl⟩ : ∃ b, pos = 8 * 13 + b := ⟨pos - 8 * 13, by omega⟩
    have hb : b < 32 := by omega
    exact flip_klen_not_ok hm ts n r hb fun hbit => hno _ (.klen hb hbit)
  rcases Nat.lt_or_ge pos (8 * 21) with h | h₂₁
  · obtain ⟨b, rfl⟩ : ∃ b, pos = 8 * 17 + b := ⟨pos - 8 * 17, by omega⟩
    have hb : b < 32 := by omega
    exact flip_vlen_not_ok hm ts n r hb fun hbit => hno _ (.vlen hb hbit)
  · refine not_ok_of_corrupt ?_ n r
    have hlen := length_encodeRecord m ts
    have := corrupt_of_payload hm (burst_flipBit hpos (show 21 ≤ pos / 8 by omega)
      (show pos / 8 < (encodeRecord m ts).length by omega)) (by decide)
      (fun i h₁ h₂ => by omega) []
    rwa [List.append_nil] at this

/-! ## Every bit -/

/-- No flipped bit of a record leaves a valid record, exactly if no flip that
makes the record shorter meets a shorter record with the same checksum. -/
theorem flipped_bit_caught_iff (m : Mutation) (hm : m.Fits) (ts : Int64) :
    (∀ pos < 8 * (encodeRecord m ts).length, ∀ n r,
        decodeRecord (flipBit (encodeRecord m ts) pos) ≠ .ok n r) ↔
      ∀ pos m', m.Shortens pos m' → crc32 (coveredBytes m' ts) ≠ crc32 (coveredBytes m ts) := by
  have hload : loadLe (putU32 (crc32 (coveredBytes m ts)).toNat) =
      (crc32 (coveredBytes m ts)).toNat := by
    rw [putU32, loadLe_putLe]
    exact Nat.mod_eq_of_lt (UInt32.toNat_lt _)
  constructor
  · intro hcaught pos m' hshort heq
    obtain ⟨hpos, hfits, tail, hflip⟩ := hshort.flip hm ts
    refine hcaught pos hpos (encodeRecord m' ts).length (m'.record ts) ?_
    rw [hflip, decodeRecord_sealed hfits ts (length_putU32 _), hload, heq, if_pos rfl]
  · intro hcrc pos hpos n r
    by_cases hshort : ∃ m', m.Shortens pos m'
    · obtain ⟨m', hshort⟩ := hshort
      obtain ⟨-, hfits, tail, hflip⟩ := hshort.flip hm ts
      rw [hflip, decodeRecord_sealed hfits ts (length_putU32 _), hload,
        if_neg fun heq => hcrc pos m' hshort (UInt32.toNat_inj.mp heq)]
      exact fun h => by cases h
    · exact flip_not_ok hm ts hpos (not_exists.mp hshort) n r

/-- A SET with an expiry can be shortened in each of the three ways, and none
meets the checksum. -/
theorem flipped_bit_caught_set :
    let m : Mutation := { op := .kSet, key := [107], value := [118], expiresAtMs := 5 }
    m.Fits ∧ ∀ pos < 8 * (encodeRecord m 0).length, ∀ n r,
      decodeRecord (flipBit (encodeRecord m 0) pos) ≠ .ok n r := by
  intro m
  have hfits : m.Fits := by decide
  -- A length of one has the one bit to lose.
  have hbit : ∀ b < 32, Nat.testBit 1 b = true → b = 0 := by decide
  refine ⟨hfits, (flipped_bit_caught_iff m hfits 0).mpr fun pos m' h => ?_⟩
  cases h with
  | op _ => decide +kernel
  | klen hb h =>
      obtain rfl := hbit _ hb h
      decide +kernel
  | vlen hb h =>
      obtain rfl := hbit _ hb h
      decide +kernel

/-- Bit 2 of the value's length, flipped from 4 to 0: the record is taken for
one that sets the key to the empty string. -/
theorem flipped_length_taken :
    let m : Mutation := { op := .kSet, key := [1], value := [47, 29, 60, 31] }
    decodeRecord (flipBit (encodeRecord m 0) (8 * 17 + 2)) =
      .ok 22 { op := .kSet, timestampMs := 0, expiresAtMs := 0, key := [1], value := [] } := by
  decide +kernel

end Cachedb
