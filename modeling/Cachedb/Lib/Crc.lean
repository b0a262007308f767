import Mathlib.Data.BitVec
import Mathlib.Logic.Function.Iterate

/-!
# Reflected cyclic redundancy checks

A register of `n` bits, a polynomial, and one operation: shift down by one
bit, and add the polynomial if a one fell out. A message is a list of symbols
of `w` bits, each of which is added to the register before `w` such steps.

The step is linear, and a bijection if the polynomial has its top bit. The
first makes the table lookup work. The second is why damage does not heal: two
registers that differ go on to differ whatever follows. Up to `n` bits of
message only move into the register, so a message of that length can be told
from any other of that length by the register alone.
-/

namespace Crc

variable {n w : Nat} (poly : BitVec n)

/-- One bit of division. -/
def bit (c : BitVec n) : BitVec n :=
  if c.getLsbD 0 then poly ^^^ (c >>> 1) else c >>> 1

/-- `k` bits of division. -/
def bits (k : Nat) (c : BitVec n) : BitVec n := (bit poly)^[k] c

/-- One symbol. -/
def feed (c : BitVec n) (b : BitVec w) : BitVec n := bits poly w (c ^^^ b.setWidth n)

/-- A whole message. -/
def run (c : BitVec n) (data : List (BitVec w)) : BitVec n := data.foldl (feed poly) c

/-! ## One step -/

theorem bit_xor (a b : BitVec n) : bit poly (a ^^^ b) = bit poly a ^^^ bit poly b := by
  rw [bit, bit, bit, BitVec.getLsbD_xor, BitVec.ushiftRight_xor_distrib]
  cases a.getLsbD 0 <;> cases b.getLsbD 0
  · rfl
  · simp only [Bool.false_xor, Bool.false_eq_true, if_true, if_false]
    rw [← BitVec.xor_assoc, ← BitVec.xor_assoc, BitVec.xor_comm poly]
  · simp only [Bool.xor_false, Bool.false_eq_true, if_true, if_false]
    rw [BitVec.xor_assoc]
  · simp only [Bool.xor_self, Bool.false_eq_true, if_true, if_false]
    rw [BitVec.xor_comm poly (a >>> 1), BitVec.xor_assoc, ← BitVec.xor_assoc poly,
      BitVec.xor_self, BitVec.zero_xor]

theorem bits_xor (k : Nat) (a b : BitVec n) :
    bits poly k (a ^^^ b) = bits poly k a ^^^ bits poly k b := by
  induction k generalizing a b with
  | zero => rfl
  | succ k ih =>
      rw [bits, Function.iterate_succ_apply, bit_xor]
      exact ih _ _

theorem bits_add (j k : Nat) (c : BitVec n) : bits poly (j + k) c = bits poly j (bits poly k c) :=
  Function.iterate_add_apply _ _ _ _

/-- The bit that fell out can be read off the top of the register. -/
theorem bit_injective (hpoly : poly.getLsbD (n - 1) = true) : Function.Injective (bit poly) := by
  have hn : n - 1 < n := BitVec.lt_of_getLsbD hpoly
  have htop : ∀ c : BitVec n, (c >>> 1).getLsbD (n - 1) = false := by
    intro c
    rw [BitVec.getLsbD_ushiftRight]
    exact BitVec.getLsbD_of_ge _ _ (by omega)
  have hbit : ∀ c : BitVec n, (bit poly c).getLsbD (n - 1) = c.getLsbD 0 := by
    intro c
    rw [bit]
    split
    · next h => rw [BitVec.getLsbD_xor, hpoly, htop, h]; rfl
    · next h => rw [htop]; exact (Bool.eq_false_iff.mpr h).symm
  intro a b hab
  have hlow : a.getLsbD 0 = b.getLsbD 0 := by rw [← hbit, hab, hbit]
  have hhigh : a >>> 1 = b >>> 1 := by
    rw [bit, bit, hlow] at hab
    split at hab
    · exact (BitVec.xor_right_inj poly).mp hab
    · exact hab
  refine BitVec.eq_of_getLsbD_eq fun i hi => ?_
  cases i with
  | zero => exact hlow
  | succ i =>
      have := congrArg (fun c => c.getLsbD i) hhigh
      simp only [BitVec.getLsbD_ushiftRight] at this
      rw [Nat.add_comm]
      exact this

theorem bits_injective (hpoly : poly.getLsbD (n - 1) = true) (k : Nat) :
    Function.Injective (bits poly k) :=
  (bit_injective poly hpoly).iterate k

/-- Zeros below the register fall out without effect. -/
theorem bits_shiftLeft {k : Nat} {c : BitVec n} (h : c.toNat * 2 ^ k < 2 ^ n) :
    bits poly k (c <<< k) = c := by
  induction k with
  | zero => exact BitVec.shiftLeft_zero c
  | succ k ih =>
      have hk : c.toNat * 2 ^ k * 2 < 2 ^ n := by rwa [Nat.mul_assoc, ← Nat.pow_succ]
      have hshift : (c <<< (k + 1)) >>> 1 = c <<< k := by
        apply BitVec.eq_of_toNat_eq
        rw [BitVec.toNat_ushiftRight, BitVec.toNat_shiftLeft, BitVec.toNat_shiftLeft,
          Nat.shiftLeft_eq, Nat.shiftLeft_eq, Nat.mod_eq_of_lt h, Nat.mod_eq_of_lt (by omega),
          Nat.shiftRight_eq_div_pow, Nat.pow_succ, ← Nat.mul_assoc]
        exact Nat.mul_div_cancel _ (by decide)
      have heven : (c <<< (k + 1)).getLsbD 0 = false := by
        rw [BitVec.getLsbD_shiftLeft]
        simp
      rw [bits, Function.iterate_succ_apply, bit, heven, hshift]
      exact ih (by omega)

/-! ## The table -/

/-- The low symbol of the register by a table of `bits w`, the rest by a
shift. -/
theorem bits_eq_table (c : BitVec n) :
    bits poly w c = bits poly w ((c.setWidth w).setWidth n) ^^^ (c >>> w) := by
  have hsmall : (c >>> w).toNat * 2 ^ w < 2 ^ n := by
    rw [BitVec.toNat_ushiftRight, Nat.shiftRight_eq_div_pow]
    exact lt_of_le_of_lt (Nat.div_mul_le_self _ _) c.isLt
  have hsplit : (c.setWidth w).setWidth n ^^^ ((c >>> w) <<< w) = c := by
    refine BitVec.eq_of_getLsbD_eq fun i hi => ?_
    rw [BitVec.getLsbD_xor, BitVec.getLsbD_setWidth, BitVec.getLsbD_setWidth,
      BitVec.getLsbD_shiftLeft, BitVec.getLsbD_ushiftRight]
    by_cases h : i < w
    · simp [hi, h]
    · simp [hi, h, Nat.add_sub_cancel' (Nat.not_lt.mp h)]
  conv_lhs => rw [← hsplit]
  rw [bits_xor, bits_shiftLeft poly hsmall]

/-! ## Messages -/

theorem run_cons (c : BitVec n) (b : BitVec w) (data : List (BitVec w)) :
    run poly c (b :: data) = run poly (feed poly c b) data := rfl

theorem run_append (c : BitVec n) (xs ys : List (BitVec w)) :
    run poly c (xs ++ ys) = run poly (run poly c xs) ys := List.foldl_append

/-- Registers that differ go on to differ. -/
theorem run_injective (hpoly : poly.getLsbD (n - 1) = true) (data : List (BitVec w)) :
    Function.Injective fun c => run poly c data := by
  induction data with
  | nil => exact Function.injective_id
  | cons b data ih =>
      intro c c' h
      have hfeed : feed poly c b = feed poly c' b := ih h
      exact (BitVec.xor_left_inj _).mp (bits_injective poly hpoly w hfeed)

/-- A message as one number, its first symbol lowest. -/
def pack : List (BitVec w) → BitVec n
  | [] => 0
  | b :: rest => b.setWidth n ^^^ (pack rest <<< w)

theorem pack_getLsbD {data : List (BitVec w)} {i : Nat} (hi : w * data.length ≤ i) :
    (pack data : BitVec n).getLsbD i = false := by
  induction data generalizing i with
  | nil => exact BitVec.getLsbD_zero
  | cons b data ih =>
      rw [List.length_cons, Nat.mul_succ] at hi
      rw [pack, BitVec.getLsbD_xor, BitVec.getLsbD_setWidth, BitVec.getLsbD_shiftLeft,
        BitVec.getLsbD_of_ge b i (by omega), ih (by omega)]
      simp

theorem pack_lt (data : List (BitVec w)) :
    (pack data : BitVec n).toNat < 2 ^ (w * data.length) := by
  refine Nat.lt_pow_two_of_testBit _ fun i hi => ?_
  exact pack_getLsbD hi

/-- Up to the width of the register, a message moves into it as it is. -/
theorem run_eq_bits {data : List (BitVec w)} (h : w * data.length ≤ n) (c : BitVec n) :
    run poly c data = bits poly (w * data.length) (c ^^^ pack data) := by
  induction data generalizing c with
  | nil =>
      show c = c ^^^ 0
      exact BitVec.xor_zero.symm
  | cons b data ih =>
      rw [List.length_cons, Nat.mul_succ] at h
      have hsmall : (pack data : BitVec n).toNat * 2 ^ w < 2 ^ n := by
        have := Nat.mul_lt_mul_of_pos_right (pack_lt (n := n) data)
          (Nat.two_pow_pos w)
        rw [← Nat.pow_add] at this
        exact lt_of_lt_of_le this (Nat.pow_le_pow_right (by decide) h)
      rw [run_cons, ih (by omega), feed]
      conv_lhs => rw [← bits_shiftLeft poly hsmall]
      rw [← bits_xor, ← bits_add, BitVec.xor_assoc, List.length_cons, Nat.mul_succ]
      rfl

theorem pack_injective {xs ys : List (BitVec w)} (hlen : xs.length = ys.length)
    (h : w * xs.length ≤ n) (heq : (pack xs : BitVec n) = pack ys) : xs = ys := by
  induction xs generalizing ys with
  | nil => exact (List.eq_nil_of_length_eq_zero hlen.symm).symm
  | cons x xs ih =>
      obtain ⟨y, ys, rfl⟩ := List.exists_cons_of_length_eq_add_one hlen.symm
      rw [List.length_cons, List.length_cons, Nat.add_right_cancel_iff] at hlen
      rw [List.length_cons, Nat.mul_succ] at h
      have hbit : ∀ i, (pack (x :: xs) : BitVec n).getLsbD i =
          (pack (y :: ys) : BitVec n).getLsbD i := fun i => by rw [heq]
      simp only [pack, BitVec.getLsbD_xor, BitVec.getLsbD_setWidth,
        BitVec.getLsbD_shiftLeft] at hbit
      have hhead : x = y := by
        refine BitVec.eq_of_getLsbD_eq fun i hi => ?_
        have := hbit i
        simpa [hi, show i < n by omega] using this
      have htail : (pack xs : BitVec n) = pack ys := by
        refine BitVec.eq_of_getLsbD_eq fun i hi => ?_
        by_cases hin : w + i < n
        · have := hbit (w + i)
          simpa [hin, hhead, show ¬w + i < w by omega] using this
        · rw [pack_getLsbD (by omega), pack_getLsbD (by rw [← hlen]; omega)]
      rw [hhead, ih hlen (by omega) htail]

/-- Two messages that differ only in as many consecutive bits as the register
has end in different registers. -/
theorem run_burst (hpoly : poly.getLsbD (n - 1) = true) {front xs ys : List (BitVec w)}
    (back : List (BitVec w)) (hlen : xs.length = ys.length) (h : w * xs.length ≤ n) {c : BitVec n}
    (heq : run poly c (front ++ (xs ++ back)) = run poly c (front ++ (ys ++ back))) :
    xs = ys := by
  rw [run_append, run_append, run_append, run_append] at heq
  have hmid := run_injective poly hpoly back heq
  generalize run poly c front = c at hmid
  rw [run_eq_bits poly h, run_eq_bits poly (by rw [← hlen]; exact h), ← hlen] at hmid
  exact pack_injective hlen h
    ((BitVec.xor_right_inj _).mp (bits_injective poly hpoly _ hmid))

end Crc
