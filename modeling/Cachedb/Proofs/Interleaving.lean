import Cachedb.Proofs.CrashRecovery
import Cachedb.Proofs.Dispatch

/-!
# What happens to a key nobody writes

Between two commands of one client the server may execute those of others,
flush, sweep and merge, and the newest copy of a key moves from the memtable
into a table and from one table into the next. A run of such acts leaves a key
alone if none of its commands is a `FLUSHALL` or names the key where it
writes. Whatever the map held under the key before the run, it holds after it.
-/

namespace Cachedb

/-- One thing the server does with its store. -/
inductive Act where
  | execute (cmd : Command)
  | flush
  | sweepExpired (budget : Nat)
  | maybeCompact
  deriving DecidableEq, Repr

/-- An act, with the reply of a command. -/
def Engine.act (e : Engine) (env : Env) : Act → Outcome Bytes
  | .execute cmd => execute cmd e.store env
  | .flush => (e.store.call e.disk env .flush).map fun _ => []
  | .sweepExpired budget => (e.store.call e.disk env (.sweepExpired budget)).map fun _ => []
  | .maybeCompact => (e.store.call e.disk env .maybeCompact).map fun _ => []

/-- One act and its surroundings. -/
abbrev Happening := Act × Env

def Engine.happen (e : Engine) (h : Happening) : Engine := (e.act h.2 h.1).engine e.disk

def Engine.happenAll (e : Engine) (hs : List Happening) : Engine := hs.foldl Engine.happen e

/-- The act is no `FLUSHALL` and no command that writes to the key. -/
def Act.Leaves (key : Bytes) : Act → Prop
  | .execute cmd => ¬cmd.isFlushall ∧ key ∉ cmd.writes
  | _ => True

def Act.Fits : Act → Prop
  | .execute cmd => cmd.Fits
  | _ => True

/-- The clock readings of a run never go backwards, as in `Timely`. -/
def Paced (now : Int64) : List Happening → Int64 → Prop
  | [], last => now ≤ last
  | h :: hs, last =>
      ∃ upTo, (∀ n, now ≤ (h.2.clock n).wall ∧ (h.2.clock n).wall ≤ upTo) ∧ now ≤ upTo ∧
        Paced upTo hs last

theorem Paced.le {last : Int64} : ∀ {hs : List Happening} {now : Int64}, Paced now hs last →
    now ≤ last := by
  intro hs
  induction hs with
  | nil => intro now h; exact h
  | cons h hs ih =>
      rintro now ⟨upTo, _, hupTo, hrest⟩
      exact le_trans hupTo (ih hrest)

/-- An act while the clock stands still. -/
theorem Paced.stand {now wall last : Int64} {hs : List Happening} (a : Act) (h : now ≤ wall)
    (hrest : Paced wall hs last) : Paced now ((a, Env.at wall) :: hs) last :=
  ⟨wall, fun _ => ⟨h, le_refl wall⟩, h, hrest⟩

/-! ## One act -/

theorem RefMap.eraseAll_other {key : Bytes} (keys : List Bytes) :
    ∀ (m : RefMap) (clock : Nat → Reading), key ∉ keys →
      (m.eraseAll clock keys).2 key = m key := by
  induction keys with
  | nil => intro m clock _; rfl
  | cons k keys ih =>
      intro m clock hk
      have hne := List.ne_of_not_mem_cons hk
      have hrest := List.not_mem_of_not_mem_cons hk
      rw [RefMap.eraseAll, ih (m.erase k) _ hrest, RefMap.erase, if_neg hne]

/-- A call leaves every other key of the map alone. -/
theorem RefMap.call_other (m : RefMap) (env : Env) {c : Call} (hc : c ≠ .flushAll) {key : Bytes}
    (hkey : key ∉ c.keys) : (m.call env c).1 key = m key := by
  cases c with
  | set k value stamp => exact if_neg (List.ne_of_not_mem_cons hkey)
  | del k => exact if_neg (List.ne_of_not_mem_cons hkey)
  | delMany keys => exact m.eraseAll_other keys _ hkey
  | expire k stamp =>
      rw [RefMap.call]
      split
      · rfl
      · exact if_neg (List.ne_of_not_mem_cons hkey)
  | flush => rfl
  | sweepExpired budget => rfl
  | maybeCompact => rfl
  | flushAll => exact absurd rfl hc

/-- An act that leaves a key alone comes down to one call that does, or to
none. -/
inductive Engine.Left (key : Bytes) (e : Engine) (env : Env) : Outcome Bytes → Prop
  | replied (out : Bytes) : Left key e env (e.store.reply out)
  | called (c : Call) (env' : Env) (henv : env' = env ∨ env' = env.later) (hc : c ≠ .flushAll)
      (hfits : c.Fits) (hkey : key ∉ c.keys) (f : Reply → Bytes) :
      Left key e env ((e.store.call e.disk env' c).map f)

theorem Engine.act_left {key : Bytes} (e : Engine) (env : Env) {a : Act} (hleaves : a.Leaves key)
    (hfits : a.Fits) : e.Left key env (e.act env a) := by
  cases a with
  | execute cmd =>
      have hran := execute_ran cmd e.store e.disk env
      show e.Left key env (Cachedb.execute cmd e.store env)
      generalize Cachedb.execute cmd e.store env = o at hran
      cases hran with
      | replied out => exact .replied out
      | called c env' henv hkind hcall hkeys f _ =>
          refine .called c env' henv ?_ (hcall hfits) (fun hkey => hleaves.2 (hkeys key hkey)) f
          rintro rfl
          rcases hkind with hwrites | ⟨_, hflush⟩
          · exact hwrites
          · exact hleaves.1 hflush
  | flush =>
      exact .called .flush env (Or.inl rfl) Call.noConfusion trivial List.not_mem_nil fun _ => []
  | sweepExpired budget =>
      exact .called (.sweepExpired budget) env (Or.inl rfl) Call.noConfusion trivial
        List.not_mem_nil fun _ => []
  | maybeCompact =>
      exact .called .maybeCompact env (Or.inl rfl) Call.noConfusion trivial List.not_mem_nil
        fun _ => []

/-- Every reading of an act lies between the bounds, whichever comes first. -/
theorem Env.bounds_later {env env' : Env} {now upTo : Int64}
    (hclock : ∀ n, now ≤ (env.clock n).wall ∧ (env.clock n).wall ≤ upTo)
    (henv : env' = env ∨ env' = env.later) :
    ∀ n, now ≤ (env'.clock n).wall ∧ (env'.clock n).wall ≤ upTo := by
  rcases henv with rfl | rfl
  · exact hclock
  · exact fun n => hclock (n + 1)

/-- One act keeps store and map together, and the map's value of the key. -/
theorem Engine.Left.refines {key : Bytes} {e : Engine} {env : Env} {o : Outcome Bytes}
    (h : e.Left key env o) (hs : e.store.Sane) {m : RefMap} {now upTo : Int64}
    (href : e.store.Refines now m) (hlog : env.log = {})
    (hclock : ∀ n, now ≤ (env.clock n).wall ∧ (env.clock n).wall ≤ upTo) (hupTo : now ≤ upTo) :
    o.store.Sane ∧ ∃ m' : RefMap, o.store.Refines upTo m' ∧ m' key = m key := by
  cases h with
  | replied out => exact ⟨hs, m, href.mono hupTo, rfl⟩
  | called c env' henv hc hfits hkey f =>
      have hlog' : env'.log = {} := by
        rcases henv with rfl | rfl
        · exact hlog
        · exact hlog
      obtain ⟨_, hsane, hafter⟩ := Store.call_refines hs href hfits hlog'
        (fun h => absurd h hc) (Env.bounds_later hclock henv) hupTo e.disk
      exact ⟨hsane, (m.call env' c).1, hafter, m.call_other env' hc hkey⟩

/-! ## Runs -/

/-- A run that leaves the key alone keeps what the map holds under it. -/
theorem Engine.happenAll_refines {key : Bytes} {last : Int64} :
    ∀ (hs : List Happening) {e : Engine} {m : RefMap} {now : Int64}, e.store.Sane →
      e.store.Refines now m → Paced now hs last →
      (∀ h ∈ hs, h.1.Leaves key ∧ h.1.Fits ∧ h.2.log = {}) →
      (e.happenAll hs).store.Sane ∧
        ∃ m' : RefMap, (e.happenAll hs).store.Refines last m' ∧ m' key = m key := by
  intro hs
  induction hs with
  | nil => intro e m now hsane href hpaced _; exact ⟨hsane, m, href.mono hpaced, rfl⟩
  | cons h hs ih =>
      intro e m now hsane href hpaced hall
      obtain ⟨upTo, hclock, hupTo, hrest⟩ := hpaced
      obtain ⟨hleaves, hfits, hlog⟩ := hall h List.mem_cons_self
      obtain ⟨hsane', m', href', hm'⟩ :=
        (e.act_left h.2 hleaves hfits).refines hsane href hlog hclock hupTo
      obtain ⟨hdone, m'', href'', hm''⟩ := ih (e := e.happen h) hsane' href' hrest
        fun h' hh' => hall h' (List.mem_cons_of_mem _ hh')
      exact ⟨hdone, m'', href'', hm''.trans hm'⟩

end Cachedb
