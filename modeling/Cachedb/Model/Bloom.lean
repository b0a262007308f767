import Cachedb.Model.Bytes

/-!
# The bloom filter block of a table

A flat array of bits followed by one byte that says how many probes each key
makes. The positions of a key's probes are `h1 + i * h2` in 32-bit arithmetic,
from the two halves of one 64-bit hash.

`bits_per_key` is whatever integer the options hold. `optimal_probes` works in
`double`; its result is the integer below. The product is off the exact one by
far less than a hundredth, and between the two clamps no multiple of 0.69 lies
that close to a half.
-/

namespace Cachedb.Bloom

def kDefaultBitsPerKey : Int := 10

def fnv1a (data : Bytes) : UInt64 :=
  data.foldl (fun h c => (h ^^^ c.toUInt64) * 0x100000001b3) 0xcbf29ce484222325

/-- The finaliser of splitmix64. -/
def mix (z : UInt64) : UInt64 :=
  let z := (z ^^^ (z >>> 30)) * 0xbf58476d1ce4e5b9
  let z := (z ^^^ (z >>> 27)) * 0x94d049bb133111eb
  z ^^^ (z >>> 31)

structure Probe where
  h1 : UInt32
  h2 : UInt32

def probeFor (key : Bytes) : Probe :=
  let h := mix (fnv1a key)
  { h1 := h.toUInt32, h2 := (h >>> 32).toUInt32 ||| 1 }

def optimalProbes (bitsPerKey : Int) : Nat :=
  (min 30 (max 1 ((69 * bitsPerKey + 50).tdiv 100))).toNat

def bitsFor (keyCount : Nat) (bitsPerKey : Int) : Nat :=
  let bits := keyCount * (max 1 bitsPerKey).toNat % 2 ^ 64
  max 64 ((bits + 7) % 2 ^ 64 / 8 * 8)

/-- `1u << (bit % 8)`, as the byte it is or-ed into. -/
def bitMask (bit : Nat) : UInt8 := 1 <<< UInt8.ofNat (bit % 8)

def setBit (block : Bytes) (bit : Nat) : Bytes :=
  block.modify (bit / 8) (· ||| bitMask bit)

def testBit (block : Bytes) (bit : Nat) : Bool :=
  block.getD (bit / 8) 0 &&& bitMask bit ≠ 0

/-- The inner loop of `build`: `n` probes from `pos`. -/
def markProbes (bits : Nat) (h2 : UInt32) : Nat → UInt32 → Bytes → Bytes
  | 0, _, block => block
  | n + 1, pos, block => markProbes bits h2 n (pos + h2) (setBit block (pos.toNat % bits))

/-- The loop of `may_contain`: one clear bit is proof of absence. -/
def testProbes (bits : Nat) (h2 : UInt32) (block : Bytes) : Nat → UInt32 → Bool
  | 0, _ => true
  | n + 1, pos =>
      if testBit block (pos.toNat % bits) then testProbes bits h2 block n (pos + h2)
      else false

def markKey (bits k : Nat) (block : Bytes) (key : Bytes) : Bytes :=
  let p := probeFor key
  markProbes bits p.h2 k p.h1 block

def build (keys : List Bytes) (bitsPerKey : Int) : Bytes :=
  let bits := bitsFor keys.length bitsPerKey
  let k := optimalProbes bitsPerKey
  keys.foldl (markKey bits k) (List.replicate (bits / 8) 0) ++ [UInt8.ofNat k]

/-- A block that makes no sense answers `true`, the way that cannot lose
data. -/
def mayContain (block key : Bytes) : Bool :=
  if block.length < 2 then true
  else
    let k := (block.getLastD 0).toNat
    if k < 1 ∨ 30 < k then true
    else
      let p := probeFor key
      testProbes ((block.length - 1) * 8) p.h2 block k p.h1

end Cachedb.Bloom
