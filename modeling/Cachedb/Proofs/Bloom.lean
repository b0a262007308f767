import Cachedb.Lib.Probing
import Cachedb.Model.Bloom

/-!
# The bloom filter never says no to a key it was built from

A block stands for the set of its bits (`marked`), and the bits of a key are
`h1 + i * h2` for its probes (`probed`). `build` marks the bits of every key and
no others, and the reader, which recovers the bit count from the length of the
block and the probe count from its last byte, asks whether all bits of its key
are marked. So a block is a filter of `Lib/Probing.lean` (`mayContain_blockOf`),
for any probe count its last byte can hold.
-/

namespace Cachedb.Bloom

open Probing

theorem optimalProbes_bounds (b : Int) : 1 ≤ optimalProbes b ∧ optimalProbes b ≤ 30 := by
  unfold optimalProbes
  omega

theorem bitsFor_pos (n : Nat) (b : Int) : 0 < bitsFor n b := by
  simp only [bitsFor]
  omega

theorem bitsFor_mod (n : Nat) (b : Int) : bitsFor n b / 8 * 8 = bitsFor n b := by
  simp only [bitsFor]
  omega

/-! ## Bits -/

/-- The bits that are set. -/
def marked (block : Bytes) : Set Nat := {bit | testBit block bit = true}

theorem length_setBit (block : Bytes) (bit : Nat) :
    (setBit block bit).length = block.length := List.length_modify ..

theorem or_and_mask (x y m : UInt8) : (x ||| y) &&& m = (x &&& m) ||| (y &&& m) :=
  UInt8.toBitVec_inj.1 BitVec.and_or_distrib_right

theorem bitMask_and (bit bit' : Nat) :
    bitMask bit &&& bitMask bit' ≠ 0 ↔ bit % 8 = bit' % 8 := by
  have h : ∀ i j : Fin 8,
      (1 <<< UInt8.ofNat i : UInt8) &&& (1 <<< UInt8.ofNat j) ≠ 0 ↔ i.val = j.val := by decide
  exact h ⟨bit % 8, Nat.mod_lt _ (by omega)⟩ ⟨bit' % 8, Nat.mod_lt _ (by omega)⟩

/-- Setting a bit sets this one and clears none. -/
theorem marked_setBit {block : Bytes} {bit : Nat} (h : bit / 8 < block.length) :
    marked (setBit block bit) = insert bit (marked block) := by
  ext bit'
  simp only [marked, Set.mem_ofPred_eq, Set.mem_insert_iff, testBit, decide_eq_true_eq, setBit,
    List.getD_eq_getElem?_getD, List.getElem?_modify]
  by_cases hbyte : bit / 8 = bit' / 8
  · have hmask := bitMask_and bit bit'
    rw [hbyte] at h
    have hsame : bit' = bit ↔ bit % 8 = bit' % 8 := by omega
    simp only [hbyte, if_true, List.getElem?_eq_getElem h, Option.map_eq_map, Option.map_some,
      Option.getD_some, or_and_mask, ne_eq, UInt8.or_eq_zero_iff, not_and_or, hsame, ← hmask]
    exact or_comm
  · have hne : bit' ≠ bit := fun heq => hbyte (by rw [heq])
    simp [hbyte, hne]

theorem marked_replicate (n : Nat) : marked (List.replicate n 0) = ∅ := by
  ext bit
  simp only [marked, Set.mem_ofPred_eq, testBit, List.getD_eq_getElem?_getD,
    List.getElem?_replicate, Set.mem_empty_iff_false]
  split <;> simp

/-! ## Probes -/

/-- The bits `n` probes from `pos` on come to. -/
def steps (bits : Nat) (h2 : UInt32) (n : Nat) (pos : UInt32) : Set Nat :=
  {bit | ∃ i < n, bit = (pos + UInt32.ofNat i * h2).toNat % bits}

/-- The bits of a key. -/
def probed (bits k : Nat) (key : Bytes) : Set Nat :=
  steps bits (probeFor key).h2 k (probeFor key).h1

theorem steps_zero (bits : Nat) (h2 pos : UInt32) : steps bits h2 0 pos = ∅ := by
  ext bit
  simp [steps]

theorem probe_succ (pos h2 : UInt32) (i : Nat) :
    pos + UInt32.ofNat (i + 1) * h2 = pos + h2 + UInt32.ofNat i * h2 := by
  rw [UInt32.ofNat_add, UInt32.add_mul, UInt32.add_assoc, UInt32.ofNat_one, UInt32.one_mul,
    UInt32.add_comm (UInt32.ofNat i * h2)]

theorem steps_succ (bits : Nat) (h2 : UInt32) (n : Nat) (pos : UInt32) :
    steps bits h2 (n + 1) pos = insert (pos.toNat % bits) (steps bits h2 n (pos + h2)) := by
  have hfirst : pos + UInt32.ofNat 0 * h2 = pos := by simp
  ext bit
  simp only [steps, Set.mem_ofPred_eq, Set.mem_insert_iff]
  constructor
  · rintro ⟨i, hi, rfl⟩
    cases i with
    | zero => exact .inl (by rw [hfirst])
    | succ i => exact .inr ⟨i, by omega, by rw [probe_succ]⟩
  · rintro (rfl | ⟨i, hi, rfl⟩)
    · exact ⟨0, by omega, by rw [hfirst]⟩
    · exact ⟨i + 1, by omega, by rw [probe_succ]⟩

theorem length_markProbes (bits : Nat) (h2 : UInt32) (n : Nat) : ∀ (pos : UInt32) (block : Bytes),
    (markProbes bits h2 n pos block).length = block.length := by
  induction n with
  | zero => intro pos block; rfl
  | succ n ih => intro pos block; rw [markProbes, ih, length_setBit]

/-- The inner loop of `build`. -/
theorem marked_markProbes {bits : Nat} (hpos : 0 < bits) (h2 : UInt32) (n : Nat) :
    ∀ (pos : UInt32) {block : Bytes}, bits = block.length * 8 →
      marked (markProbes bits h2 n pos block) = marked block ∪ steps bits h2 n pos := by
  induction n with
  | zero =>
      intro pos block _
      rw [steps_zero, Set.union_empty]
      rfl
  | succ n ih =>
      intro pos block hlen
      have hlt : pos.toNat % bits < bits := Nat.mod_lt _ hpos
      rw [markProbes, ih (pos + h2) (by rwa [length_setBit]), marked_setBit (by omega),
        steps_succ, Set.insert_union, Set.union_insert]

/-- The loop of `may_contain`. -/
theorem testProbes_iff (bits : Nat) (h2 : UInt32) (block : Bytes) (n : Nat) : ∀ pos : UInt32,
    testProbes bits h2 block n pos = true ↔ steps bits h2 n pos ⊆ marked block := by
  induction n with
  | zero =>
      intro pos
      rw [steps_zero]
      simp [testProbes]
  | succ n ih =>
      intro pos
      rw [testProbes, steps_succ, Set.insert_subset_iff]
      by_cases hset : testBit block (pos.toNat % bits) = true
      · rw [if_pos hset, ih]
        exact (and_iff_right hset).symm
      · rw [if_neg hset]
        exact iff_of_false Bool.false_ne_true fun h => hset h.1

/-- A block with room for the bits is a filter that is filled key by key. -/
theorem represents {bits : Nat} (hpos : 0 < bits) (k : Nat) :
    Represents (probed bits k) (fun block : Bytes => bits = block.length * 8) marked
      (markKey bits k) where
  keeps := by
    intro block hlen key
    rwa [markKey, length_markProbes]
  adds := by
    intro block hlen key
    exact marked_markProbes hpos _ k _ hlen

/-! ## Blocks -/

/-- The block of `build`, given the two sizes. -/
def blockOf (keys : List Bytes) (bits k : Nat) : Bytes :=
  keys.foldl (markKey bits k) (List.replicate (bits / 8) 0) ++ [UInt8.ofNat k]

theorem length_blockOf (keys : List Bytes) (bits k : Nat) :
    (blockOf keys bits k).length = bits / 8 + 1 := by
  have hfold : ∀ block : Bytes, (keys.foldl (markKey bits k) block).length = block.length := by
    induction keys with
    | nil => exact fun _ => rfl
    | cons key keys ih =>
        intro block
        rw [List.foldl_cons, ih, markKey, length_markProbes]
  rw [blockOf, List.length_append, hfold, List.length_replicate, List.length_singleton]

theorem build_eq (keys : List Bytes) (b : Int) :
    build keys b = blockOf keys (bitsFor keys.length b) (optimalProbes b) := rfl

/-- The trailing probe-count byte is outside every probe. -/
theorem steps_subset_append {bits : Nat} {h2 : UInt32} {block : Bytes} (tail : Bytes) {n : Nat}
    {pos : UInt32} (hpos : 0 < bits) (hlen : bits = block.length * 8) :
    steps bits h2 n pos ⊆ marked (block ++ tail) ↔ steps bits h2 n pos ⊆ marked block := by
  have hsame : ∀ bit ∈ steps bits h2 n pos, testBit (block ++ tail) bit = testBit block bit := by
    rintro bit ⟨i, _, rfl⟩
    have hlt := Nat.mod_lt (pos + UInt32.ofNat i * h2).toNat hpos
    have hbyte : (pos + UInt32.ofNat i * h2).toNat % bits / 8 < block.length := by omega
    simp only [testBit, List.getD_eq_getElem?_getD, List.getElem?_append_left hbyte]
  constructor
  · exact fun h bit hbit => (hsame bit hbit).symm.trans (h hbit)
  · exact fun h bit hbit => (hsame bit hbit).trans (h hbit)

/-- What the reader makes of a block, whatever the probe count: a key is let
through just if each of its bits is a bit of one of the keys. -/
theorem mayContain_blockOf (keys : List Bytes) {bits k : Nat} (hbits : 0 < bits)
    (hmod : bits / 8 * 8 = bits) (hk : 1 ≤ k ∧ k ≤ 30) (key : Bytes) :
    mayContain (blockOf keys bits k) key = true ↔
      Admits (probed bits k) (covered (probed bits k) keys) key := by
  obtain ⟨hlen, hmarked⟩ := (represents hbits k).foldl keys
    (show bits = (List.replicate (bits / 8) (0 : UInt8)).length * 8 by
      rw [List.length_replicate, hmod])
  rw [marked_replicate, Set.empty_union] at hmarked
  rw [Admits, ← hmarked]
  unfold blockOf
  generalize keys.foldl (markKey bits k) (List.replicate (bits / 8) 0) = block at hlen
  have hsize : (block ++ [UInt8.ofNat k]).length = block.length + 1 := by simp
  have hlast : ((block ++ [UInt8.ofNat k]).getLastD 0).toNat = k := by
    rw [List.getLastD_concat, UInt8.toNat_ofNat']
    omega
  simp only [mayContain]
  rw [hsize, hlast, if_neg (by omega), if_neg (by omega), Nat.add_sub_cancel, ← hlen,
    testProbes_iff, steps_subset_append _ hbits hlen]
  rfl

/-- A key has a probe at least. -/
theorem probed_nonempty (bits : Nat) {k : Nat} (hk : 1 ≤ k) (key : Bytes) :
    (probed bits k key).Nonempty := ⟨_, 0, hk, rfl⟩

theorem blockOf_of_mem {keys : List Bytes} {bits k : Nat} (hbits : 0 < bits)
    (hmod : bits / 8 * 8 = bits) (hk : 1 ≤ k ∧ k ≤ 30) {key : Bytes} (h : key ∈ keys) :
    mayContain (blockOf keys bits k) key = true :=
  (mayContain_blockOf keys hbits hmod hk key).mpr (admits_covered h)

theorem blockOf_nil {bits k : Nat} (hbits : 0 < bits) (hmod : bits / 8 * 8 = bits)
    (hk : 1 ≤ k ∧ k ≤ 30) (key : Bytes) : mayContain (blockOf [] bits k) key = false := by
  rw [Bool.eq_false_iff, ne_eq, mayContain_blockOf [] hbits hmod hk, covered_nil]
  exact not_admits_empty (probed_nonempty bits hk.1 key)

theorem mayContain_of_mem {keys : List Bytes} (b : Int) {key : Bytes} (h : key ∈ keys) :
    mayContain (build keys b) key = true := by
  rw [build_eq]
  exact blockOf_of_mem (bitsFor_pos _ _) (bitsFor_mod _ _) (optimalProbes_bounds b) h

/-- No false negatives, for any options and any probe count, and a filter built
from nothing turns every key away. -/
theorem no_false_negatives (keys : List Bytes) (bitsPerKey : Int) :
    (∀ key ∈ keys, mayContain (build keys bitsPerKey) key = true) ∧
      (∀ key, mayContain (build [] bitsPerKey) key = false) ∧
      ∀ k, 1 ≤ k → k ≤ 30 →
        (∀ key ∈ keys,
          mayContain (blockOf keys (bitsFor keys.length bitsPerKey) k) key = true) ∧
        ∀ key, mayContain (blockOf [] (bitsFor 0 bitsPerKey) k) key = false := by
  refine ⟨fun key h => mayContain_of_mem bitsPerKey h, fun key => ?_, fun k hlo hhi =>
    ⟨fun key h => ?_, fun key => ?_⟩⟩
  · rw [build_eq]
    exact blockOf_nil (bitsFor_pos _ _) (bitsFor_mod _ _) (optimalProbes_bounds bitsPerKey) key
  · exact blockOf_of_mem (bitsFor_pos _ _) (bitsFor_mod _ _) ⟨hlo, hhi⟩ h
  · exact blockOf_nil (bitsFor_pos _ _) (bitsFor_mod _ _) ⟨hlo, hhi⟩ key

theorem no_false_negatives_negative :
    mayContain (build [[7], [7], []] (-5)) [7] = true ∧ mayContain (build [] (-5)) [7] = false :=
  ⟨(no_false_negatives [[7], [7], []] (-5)).1 [7] (by simp),
    (no_false_negatives [] (-5)).2.1 [7]⟩

end Cachedb.Bloom
