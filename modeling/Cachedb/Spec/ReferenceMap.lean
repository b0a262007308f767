import Cachedb.Model.Store

/-!
# The plain map a store stands for

What the store is for, without layers, log or files: a map from keys to the
value and stamp of the last write. A delete forgets the key, removing
everything forgets every key, and a key whose stamp has passed is hidden from
every lookup, though the map itself keeps it. Flushes, sweeps and merges do
nothing to it.

The map is driven by the same calls and clock readings as the store, and
gives the answers a client can see: whether a key was live, how many were
removed, whether there was a key to expire.
-/

namespace Cachedb

abbrev RefMap := Bytes → Option Found

namespace RefMap

def empty : RefMap := fun _ => none

/-- A key whose stamp is not zero is hidden once the stamp has passed. -/
def lookup (m : RefMap) (t : Int64) (key : Bytes) : Option Found :=
  (m key).bind fun found => if expired found.expiresAtMs t then none else some found

def set (m : RefMap) (key value : Bytes) (expiresAtMs : Int64) : RefMap :=
  fun k => if k = key then some { value, expiresAtMs } else m k

def erase (m : RefMap) (key : Bytes) : RefMap := fun k => if k = key then none else m k

/-- Keys are looked up and forgotten one after the other. -/
def eraseAll (m : RefMap) (clock : Nat → Reading) : List Bytes → Nat × RefMap
  | [] => (0, m)
  | key :: keys =>
      let rest := (m.erase key).eraseAll (fun n => clock (n + 1)) keys
      (rest.1 + (m.lookup (clock 0).wall key).isSome.toNat, rest.2)

/-- What a call does to the map, and its answer where a client sees one. -/
def call (m : RefMap) (env : Env) : Call → RefMap × Option Reply
  | .set key value expiresAtMs => (m.set key value expiresAtMs, some (.set true))
  | .del key =>
      (m.erase key, some (.del ⟨true, (m.lookup (env.clock 0).wall key).isSome⟩))
  | .delMany keys =>
      let done := m.eraseAll env.later.clock keys
      (done.2, some (.delMany ⟨true, done.1⟩))
  | .expire key expiresAtMs =>
      match m.lookup (env.clock 0).wall key with
      | none => (m, some (.expire ⟨true, false⟩))
      | some found => (m.set key found.value expiresAtMs, some (.expire ⟨true, true⟩))
  | .flush => (m, none)
  | .sweepExpired _ => (m, none)
  | .maybeCompact => (m, none)
  | .flushAll => (empty, some (.flushAll true))

def step (m : RefMap) (step : Step) : RefMap := (m.call step.2 step.1).1

def run (m : RefMap) (steps : List Step) : RefMap := steps.foldl RefMap.step m

def replies (m : RefMap) : List Step → List (Option Reply)
  | [] => []
  | step :: steps => (m.call step.2 step.1).2 :: (m.step step).replies steps

/-- One logged mutation. -/
def mutate (m : RefMap) (mutation : Mutation) : RefMap :=
  match mutation.op with
  | .kSet => m.set mutation.key mutation.value mutation.expiresAtMs
  | .kDelete => m.erase mutation.key

/-- The mutations a call makes, in order. -/
def mutations (m : RefMap) (env : Env) : Call → List Mutation
  | .set key value expiresAtMs => [{ op := .kSet, key, value, expiresAtMs }]
  | .del key => [Mutation.delete key]
  | .delMany keys => keys.map Mutation.delete
  | .expire key expiresAtMs =>
      match m.lookup (env.clock 0).wall key with
      | none => []
      | some found => [{ op := .kSet, key, value := found.value, expiresAtMs }]
  | _ => []

theorem eraseAll_eq (m : RefMap) (clock : Nat → Reading) (keys : List Bytes) :
    (m.eraseAll clock keys).2 = (keys.map Mutation.delete).foldl mutate m := by
  induction keys generalizing m clock with
  | nil => rfl
  | cons key keys ih => rw [eraseAll, ih, List.map_cons, List.foldl_cons]; rfl

/-- A call that does not remove everything does what its mutations do. -/
theorem call_eq (m : RefMap) (env : Env) {c : Call} (hc : c ≠ .flushAll) :
    (m.call env c).1 = (m.mutations env c).foldl mutate m := by
  cases c with
  | set => rfl
  | del => rfl
  | delMany keys => exact m.eraseAll_eq _ keys
  | expire key stamp =>
      rw [call, mutations]
      cases m.lookup (env.clock 0).wall key <;> rfl
  | flush => rfl
  | sweepExpired => rfl
  | maybeCompact => rfl
  | flushAll => exact absurd rfl hc

end RefMap

/-- The part of an answer the reference map has a say in. -/
def Reply.visible : Reply → Option Reply
  | .flush _ => none
  | .swept _ => none
  | .compacted _ => none
  | r => some r

/-- The clock readings of a run never go backwards: those of each call lie
between the bounds of the calls before and after it. -/
def Timely (now : Int64) : List Step → Int64 → Prop
  | [], last => now ≤ last
  | step :: steps, last =>
      ∃ upTo, (∀ n, now ≤ (step.2.clock n).wall ∧ (step.2.clock n).wall ≤ upTo) ∧
        now ≤ upTo ∧ Timely upTo steps last

/-- A call made while the clock stands still. -/
def Env.at (wall : Int64) : Env := { clock := fun _ => { wall } }

theorem Timely.stand {now wall last : Int64} {steps : List Step} (c : Call) (h : now ≤ wall)
    (hrest : Timely wall steps last) : Timely now ((c, Env.at wall) :: steps) last :=
  ⟨wall, fun _ => ⟨h, le_refl wall⟩, h, hrest⟩

theorem Timely.append_inv {last : Int64} {ys : List Step} :
    ∀ {xs : List Step} {now : Int64}, Timely now (xs ++ ys) last →
      ∃ mid, Timely now xs mid ∧ Timely mid ys last := by
  intro xs
  induction xs with
  | nil => intro now h; exact ⟨now, le_refl now, h⟩
  | cons x xs ih =>
      intro now h
      obtain ⟨upTo, hclock, hle, hrest⟩ := h
      obtain ⟨mid, hxs, hys⟩ := ih hrest
      exact ⟨mid, ⟨upTo, hclock, hle, hxs⟩, hys⟩

/-- Keys and values the file formats can hold. -/
def Call.Fits : Call → Prop
  | .set key value _ => key.length < 2 ^ 32 ∧ value.length < 2 ^ 32
  | .del key => key.length < 2 ^ 32
  | .delMany keys => ∀ key ∈ keys, key.length < 2 ^ 32
  | .expire key _ => key.length < 2 ^ 32
  | _ => True

/-- A `flush_all` runs through. -/
structure Env.FlushAllSucceeds (env : Env) : Prop where
  unlink : ∀ n, env.flushAll.unlink n = true
  fsyncDir : env.flushAll.fsyncDir = true
  truncate : env.flushAll.truncate = {}

/-- The log accepts what it is given, and a `flush_all` runs through. What may
still fail is a flush or a merge. -/
def Step.Succeeds (step : Step) : Prop :=
  step.2.log = {} ∧ (step.1 = .flushAll → step.2.FlushAllSucceeds)

end Cachedb
