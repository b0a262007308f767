import Mathlib.Algebra.Order.Ring.Int
import Mathlib.Data.List.Lex

/-!
# Bytes, their order, and integers on the wire

Everything the engine stores is a byte string. Keys compare the way
`std::string` compares them, byte by byte as unsigned values with a proper
beginning of a string below the string itself, which is the lexicographic
order on lists.

Both file formats write their integers little-endian, one byte at a time, and
both read them back the same way, so one writer and one reader parameterised
by the width cover `put_u32`, `put_u64`, `load_u32` and `load_u64` of the log
and of the tables. The writer keeps the low `8 * w` bits of what it is given,
which is the `static_cast` at each of its call sites.
-/

namespace Cachedb

abbrev Bytes := List UInt8

instance instLinearOrderUInt8 : LinearOrder UInt8 where
  le_refl := UInt8.le_refl
  le_trans _ _ _ := UInt8.le_trans
  le_antisymm _ _ := UInt8.le_antisymm
  le_total := UInt8.le_total
  lt_iff_le_not_ge a b := by
    rw [UInt8.lt_iff_toNat_lt, UInt8.le_iff_toNat_le, UInt8.le_iff_toNat_le]
    omega
  toDecidableLE := fun _ _ => inferInstance

instance instLinearOrderInt64 : LinearOrder Int64 where
  le_refl := Int64.le_refl
  le_trans _ _ _ := Int64.le_trans
  le_antisymm _ _ := Int64.le_antisymm
  le_total := Int64.le_total
  lt_iff_le_not_ge a b := by
    rw [Int64.lt_iff_toInt_lt, Int64.le_iff_toInt_le, Int64.le_iff_toInt_le]
    omega
  toDecidableLE := fun _ _ => inferInstance

/-- The low `w` bytes of `v`, least significant first. -/
def putLe : Nat → Nat → Bytes
  | 0, _ => []
  | w + 1, v => UInt8.ofNat v :: putLe w (v / 256)

/-- The number a little-endian byte string spells. -/
def loadLe : Bytes → Nat
  | [] => 0
  | b :: rest => b.toNat + 256 * loadLe rest

def putU32 (v : Nat) : Bytes := putLe 4 v

def putU64 (v : Nat) : Bytes := putLe 8 v

/-- Reads the first four bytes of `p`. -/
def loadU32 (p : Bytes) : Nat := loadLe (p.take 4)

/-- Reads the first eight bytes of `p`. -/
def loadU64 (p : Bytes) : Nat := loadLe (p.take 8)

/-- `static_cast<uint64_t>` of a stamp. -/
def stampBits (stamp : Int64) : Nat := stamp.toUInt64.toNat

/-- `static_cast<int64_t>` of eight bytes read back. -/
def bitsStamp (bits : Nat) : Int64 := (UInt64.ofNat bits).toInt64

@[simp] theorem length_putLe (w v : Nat) : (putLe w v).length = w := by
  induction w generalizing v with
  | zero => rfl
  | succ w ih => rw [putLe, List.length_cons, ih]

@[simp] theorem length_putU32 (v : Nat) : (putU32 v).length = 4 := length_putLe 4 v

@[simp] theorem length_putU64 (v : Nat) : (putU64 v).length = 8 := length_putLe 8 v

theorem loadLe_putLe (w v : Nat) : loadLe (putLe w v) = v % 256 ^ w := by
  induction w generalizing v with
  | zero => simp [putLe, loadLe, Nat.mod_one]
  | succ w ih =>
      rw [putLe, loadLe, ih, UInt8.toNat_ofNat', Nat.pow_succ 256 w,
        Nat.mul_comm (256 ^ w), Nat.mod_mul]

theorem loadLe_lt (p : Bytes) : loadLe p < 256 ^ p.length := by
  induction p with
  | nil => simp [loadLe]
  | cons b rest ih =>
      have hb := UInt8.toNat_lt b
      rw [loadLe, List.length_cons, Nat.pow_succ]
      omega

theorem loadU32_lt (p : Bytes) : loadU32 p < 2 ^ 32 := by
  refine lt_of_lt_of_le (loadLe_lt (p.take 4)) ?_
  exact Nat.pow_le_pow_right (n := 256) (by decide) (List.length_take_le 4 p)

/-- Of a 32-bit field the low 32 bits read back, whatever follows it. -/
theorem loadU32_putU32_mod (v : Nat) (rest : Bytes) :
    loadU32 (putU32 v ++ rest) = v % 2 ^ 32 := by
  rw [loadU32, List.take_left' (length_putU32 v)]
  exact loadLe_putLe 4 v

theorem loadU32_putU32 {v : Nat} (hv : v < 2 ^ 32) (rest : Bytes) :
    loadU32 (putU32 v ++ rest) = v := by
  rw [loadU32_putU32_mod, Nat.mod_eq_of_lt hv]

theorem loadU64_putU64 {v : Nat} (hv : v < 2 ^ 64) (rest : Bytes) :
    loadU64 (putU64 v ++ rest) = v := by
  rw [loadU64, List.take_left' (length_putU64 v), putU64, loadLe_putLe]
  exact Nat.mod_eq_of_lt hv

theorem stampBits_lt (stamp : Int64) : stampBits stamp < 2 ^ 64 :=
  UInt64.toNat_lt _

@[simp] theorem bitsStamp_stampBits (stamp : Int64) :
    bitsStamp (stampBits stamp) = stamp := by
  rw [bitsStamp, stampBits, UInt64.ofNat_toNat, Int64.toInt64_toUInt64]

end Cachedb
