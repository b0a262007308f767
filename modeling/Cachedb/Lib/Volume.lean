import Mathlib.Data.List.Basic
import Mathlib.Logic.Function.Basic

/-!
# A volume that may lose its power

What `fsync` promises, and nothing more. A file's contents are safe as of its
last sync; of the appends and cuts made since, any beginning may be found, each
append byte by byte. A name that was made, moved or removed is safe once its
directory was synced; of the changes since then, any may be found and any may
be missing, in the order they were made.

Contents belong to a numbered inode, names point to inodes, and a loss of power
picks a sublist of the pending changes of names and, for each inode, one of the
contents it may have (`Volume.Survives`). What a running system sees is
`Volume.view`, and every operation acts on it name by name (`view_apply`). A
name with no change pending is `Stable`: a loss of power leaves it pointing
where it points. A new name to which a file was moved is `Arriving`: the file is
found there, or nothing is.
-/

universe u v

/-- One file: what a reader sees now, and what a loss of power may leave. -/
structure Inode (β : Type v) where
  current : List β
  maybe : List (List β)

namespace Inode

variable {β : Type v}

def created : Inode β := { current := [], maybe := [[]] }

/-- A file whose contents are safe. -/
def rest (data : List β) : Inode β := { current := data, maybe := [data] }

def write (x : Inode β) (data : List β) : Inode β :=
  { current := x.current ++ data
    maybe := x.maybe ++ (List.range (data.length + 1)).map fun n => x.current ++ data.take n }

def cut (x : Inode β) (n : Nat) : Inode β :=
  { current := x.current.take n, maybe := x.maybe ++ [x.current.take n] }

def sync (x : Inode β) : Inode β := rest x.current

theorem mem_maybe_write {x : Inode β} {data found : List β} (h : found ∈ (x.write data).maybe) :
    found ∈ x.maybe ∨ ∃ n, found = x.current ++ data.take n := by
  rcases List.mem_append.mp h with h | h
  · exact Or.inl h
  · obtain ⟨n, _, rfl⟩ := List.mem_map.mp h
    exact Or.inr ⟨n, rfl⟩

theorem mem_maybe_cut {x : Inode β} {n : Nat} {found : List β} (h : found ∈ (x.cut n).maybe) :
    found ∈ x.maybe ∨ found = x.current.take n := by
  rcases List.mem_append.mp h with h | h
  · exact Or.inl h
  · exact Or.inr (List.mem_singleton.mp h)

end Inode

/-- A change of names that the directory has not made safe yet. -/
inductive NameOp (ν : Type u) where
  | link (name : ν) (inode : Nat)
  | move (src dst : ν) (inode : Nat)
  | unlink (name : ν)

structure Volume (ν : Type u) (β : Type v) where
  inodes : Nat → Inode β
  /-- Inodes from here on are free. -/
  next : Nat
  /-- The names as of the last sync of the directory. -/
  synced : ν → Option Nat
  pending : List (NameOp ν)

/-- What a running program can ask for. -/
inductive Volume.Op (ν : Type u) (β : Type v) where
  /-- Make the file if there is none. -/
  | openFile (name : ν)
  | write (name : ν) (data : List β)
  | sync (name : ν)
  | cut (name : ν) (length : Nat)
  | move (src dst : ν)
  | unlink (name : ν)
  | syncDir

variable {ν : Type u} {β : Type v} [DecidableEq ν]

def NameOp.apply (names : ν → Option Nat) : NameOp ν → ν → Option Nat
  | .link name i => Function.update names name (some i)
  | .move src dst i => Function.update (Function.update names src none) dst (some i)
  | .unlink name => Function.update names name none

def NameOp.Touches (name : ν) : NameOp ν → Prop
  | .link name' _ => name' = name
  | .move src dst _ => src = name ∨ dst = name
  | .unlink name' => name' = name

theorem NameOp.apply_of_not_touches {names : ν → Option Nat} {op : NameOp ν} {name : ν}
    (h : ¬op.Touches name) : op.apply names name = names name := by
  cases op with
  | link name' i => exact Function.update_of_ne (Ne.symm h) _ _
  | move src dst i =>
      obtain ⟨hsrc, hdst⟩ := not_or.mp h
      rw [NameOp.apply, Function.update_of_ne (Ne.symm hdst),
        Function.update_of_ne (Ne.symm hsrc)]
  | unlink name' => exact Function.update_of_ne (Ne.symm h) _ _

theorem NameOp.foldl_of_not_touches {ops : List (NameOp ν)} {names : ν → Option Nat} {name : ν}
    (h : ∀ op ∈ ops, ¬op.Touches name) : ops.foldl NameOp.apply names name = names name := by
  induction ops generalizing names with
  | nil => rfl
  | cons op ops ih =>
      rw [List.forall_mem_cons] at h
      rw [List.foldl_cons, ih h.2, NameOp.apply_of_not_touches h.1]

namespace Volume

/-- The names a running program sees. -/
def names (vol : Volume ν β) : ν → Option Nat := vol.pending.foldl NameOp.apply vol.synced

/-- The files a running program sees. -/
def view (vol : Volume ν β) (name : ν) : Option (Inode β) := (vol.names name).map vol.inodes

def push (vol : Volume ν β) (op : NameOp ν) : Volume ν β :=
  { vol with pending := vol.pending ++ [op] }

def openFile (vol : Volume ν β) (name : ν) : Volume ν β :=
  match vol.names name with
  | some _ => vol
  | none =>
      { vol with
        inodes := Function.update vol.inodes vol.next Inode.created
        next := vol.next + 1 }.push (.link name vol.next)

def change (vol : Volume ν β) (name : ν) (f : Inode β → Inode β) : Volume ν β :=
  match vol.names name with
  | none => vol
  | some i => { vol with inodes := Function.update vol.inodes i (f (vol.inodes i)) }

def apply (vol : Volume ν β) : Op ν β → Volume ν β
  | .openFile name => vol.openFile name
  | .write name data => vol.change name (·.write data)
  | .sync name => vol.change name Inode.sync
  | .cut name n => vol.change name (·.cut n)
  | .move src dst =>
      match vol.names src with
      | none => vol
      | some i => vol.push (.move src dst i)
  | .unlink name => vol.push (.unlink name)
  | .syncDir => { vol with synced := vol.names, pending := [] }

def run (vol : Volume ν β) (ops : List (Op ν β)) : Volume ν β := ops.foldl apply vol

/-- What may be found under a name that points to this file, or to none. -/
def Leaves : Option (Inode β) → Option (List β) → Prop
  | none, found => found = none
  | some x, found => ∃ data ∈ x.maybe, found = some data

/-- What a loss of power may leave of the volume. -/
def Survives (vol : Volume ν β) (found : ν → Option (List β)) : Prop :=
  ∃ ops : List (NameOp ν), ops.Sublist vol.pending ∧
    ∀ name, Leaves ((ops.foldl NameOp.apply vol.synced name).map vol.inodes) (found name)

/-- No change of the name is pending. -/
def Stable (vol : Volume ν β) (name : ν) : Prop := ∀ op ∈ vol.pending, ¬op.Touches name

/-- No two names share a file, and free inodes are free. -/
structure WellFormed (vol : Volume ν β) : Prop where
  bounded : ∀ name i, vol.names name = some i → i < vol.next
  injective : ∀ name name' i, vol.names name = some i → vol.names name' = some i → name = name'

/-! ## What a running program sees -/

variable {vol : Volume ν β}

@[simp] theorem names_push (op : NameOp ν) : (vol.push op).names = op.apply vol.names := by
  rw [names, push, List.foldl_append]
  rfl

theorem names_change (name : ν) (f : Inode β → Inode β) :
    (vol.change name f).names = vol.names := by
  unfold change
  split <;> rfl

theorem openFile_eq_self {name : ν} {x : Inode β} (h : vol.view name = some x) :
    vol.apply (.openFile name) = vol := by
  obtain ⟨i, hi, _⟩ := Option.map_eq_some_iff.mp h
  rw [apply, openFile, hi]

theorem WellFormed.push_move (h : vol.WellFormed) {src dst : ν} {i : Nat}
    (hsrc : vol.names src = some i) : (vol.push (.move src dst i)).WellFormed := by
  have hcases : ∀ name j, (vol.push (.move src dst i)).names name = some j →
      name = dst ∧ j = i ∨ name ≠ dst ∧ name ≠ src ∧ vol.names name = some j := by
    intro name j hj
    rw [names_push, NameOp.apply] at hj
    by_cases hdst : name = dst
    · rw [hdst, Function.update_self, Option.some.injEq] at hj
      exact Or.inl ⟨hdst, hj.symm⟩
    · rw [Function.update_of_ne hdst] at hj
      by_cases hs : name = src
      · rw [hs, Function.update_self] at hj
        cases hj
      · rw [Function.update_of_ne hs] at hj
        exact Or.inr ⟨hdst, hs, hj⟩
  constructor
  · intro name j hj
    rcases hcases name j hj with ⟨_, rfl⟩ | ⟨_, _, hj⟩
    · exact h.bounded src j hsrc
    · exact h.bounded name j hj
  · intro name name' j hj hj'
    rcases hcases name j hj with ⟨hdst, hji⟩ | ⟨_, hs, hold⟩ <;>
      rcases hcases name' j hj' with ⟨hdst', hji'⟩ | ⟨_, hs', hold'⟩
    · rw [hdst, hdst']
    · exact absurd (h.injective name' src i (hji ▸ hold') hsrc) hs'
    · exact absurd (h.injective name src i (hji' ▸ hold) hsrc) hs
    · exact h.injective name name' j hold hold'

theorem WellFormed.push_unlink (h : vol.WellFormed) (name : ν) :
    (vol.push (.unlink name)).WellFormed := by
  have hold : ∀ name' j, (vol.push (.unlink name)).names name' = some j →
      vol.names name' = some j := by
    intro name' j hj
    rw [names_push, NameOp.apply] at hj
    by_cases heq : name' = name
    · rw [heq, Function.update_self] at hj
      cases hj
    · rwa [Function.update_of_ne heq] at hj
  exact ⟨fun name' j hj => h.bounded name' j (hold name' j hj),
    fun name₁ name₂ j h₁ h₂ => h.injective name₁ name₂ j (hold _ _ h₁) (hold _ _ h₂)⟩

theorem WellFormed.openFile (h : vol.WellFormed) (name : ν) :
    (vol.openFile name).WellFormed := by
  cases hname : vol.names name with
  | some i => rw [Volume.openFile, hname]; exact h
  | none =>
      rw [Volume.openFile, hname]
      have hcases : ∀ name' j, Function.update vol.names name (some vol.next) name' = some j →
          name' = name ∧ j = vol.next ∨ vol.names name' = some j := by
        intro name' j hj
        by_cases heq : name' = name
        · rw [heq, Function.update_self, Option.some.injEq] at hj
          exact Or.inl ⟨heq, hj.symm⟩
        · rw [Function.update_of_ne heq] at hj
          exact Or.inr hj
      refine ⟨fun name' j hj => ?_, fun name₁ name₂ j h₁ h₂ => ?_⟩
      · rw [names_push] at hj
        show j < vol.next + 1
        rcases hcases name' j hj with ⟨_, rfl⟩ | hj
        · exact Nat.lt_succ_self _
        · exact Nat.lt_succ_of_lt (h.bounded name' j hj)
      · rw [names_push] at h₁ h₂
        -- The new file's inode is above every other.
        rcases hcases name₁ j h₁ with ⟨heq₁, hnew⟩ | h₁ <;>
          rcases hcases name₂ j h₂ with ⟨heq₂, hnew'⟩ | h₂
        · rw [heq₁, heq₂]
        · exact absurd (h.bounded _ _ h₂) (by omega)
        · exact absurd (h.bounded _ _ h₁) (by omega)
        · exact h.injective name₁ name₂ j h₁ h₂

theorem WellFormed.change (h : vol.WellFormed) (name : ν) (f : Inode β → Inode β) :
    (vol.change name f).WellFormed := by
  have hnext : (vol.change name f).next = vol.next := by
    unfold Volume.change
    split <;> rfl
  refine ⟨?_, ?_⟩
  · rw [names_change, hnext]; exact h.bounded
  · rw [names_change]; exact h.injective

theorem WellFormed.apply (h : vol.WellFormed) (op : Op ν β) : (vol.apply op).WellFormed := by
  cases op with
  | openFile name => exact h.openFile name
  | write name data => exact h.change name fun x => x.write data
  | sync name => exact h.change name Inode.sync
  | cut name n => exact h.change name fun x => x.cut n
  | move src dst =>
      rw [Volume.apply]
      split
      · exact h
      · next i hi => exact h.push_move hi
  | unlink name => exact h.push_unlink name
  | syncDir => exact ⟨h.bounded, h.injective⟩

/-- What an operation does to the files a program sees. -/
def Op.effect (files : ν → Option (Inode β)) : Op ν β → ν → Option (Inode β)
  | .openFile name => Function.update files name (some ((files name).getD Inode.created))
  | .write name data => Function.update files name ((files name).map (·.write data))
  | .sync name => Function.update files name ((files name).map Inode.sync)
  | .cut name n => Function.update files name ((files name).map (·.cut n))
  | .move src dst =>
      match files src with
      | none => files
      | some x => Function.update (Function.update files src none) dst (some x)
  | .unlink name => Function.update files name none
  | .syncDir => files

theorem view_change (h : vol.WellFormed) (name : ν) (f : Inode β → Inode β) :
    (vol.change name f).view = Function.update vol.view name ((vol.view name).map f) := by
  funext name'
  rw [view, names_change]
  cases hi : vol.names name with
  | none =>
      have hself : Function.update vol.view name ((vol.view name).map f) = vol.view := by
        rw [show (vol.view name).map f = vol.view name by rw [view, hi]; rfl,
          Function.update_eq_self]
      rw [hself, change, hi]
      rfl
  | some i =>
      rw [change, hi]
      show (vol.names name').map (Function.update vol.inodes i (f (vol.inodes i))) = _
      by_cases heq : name' = name
      · rw [heq, Function.update_self, hi, view, hi]
        show some (Function.update vol.inodes i _ i) = _
        rw [Function.update_self]
        rfl
      · rw [Function.update_of_ne heq, view]
        cases hj : vol.names name' with
        | none => rfl
        | some j =>
            have hne : j ≠ i := fun hji => heq (h.injective name' name i (hji ▸ hj) hi)
            show some (Function.update vol.inodes i _ j) = _
            rw [Function.update_of_ne hne]
            rfl

theorem view_openFile (h : vol.WellFormed) (name : ν) :
    (vol.openFile name).view =
      Function.update vol.view name (some ((vol.view name).getD Inode.created)) := by
  cases hi : vol.names name with
  | some i =>
      have hview : vol.view name = some (vol.inodes i) := by rw [view, hi]; rfl
      rw [hview, Option.getD_some, ← hview, Function.update_eq_self, openFile, hi]
  | none =>
      funext name'
      have hview : vol.view name = none := by rw [view, hi]; rfl
      rw [hview, Option.getD_none, openFile, hi, view, names_push, NameOp.apply]
      show (Function.update vol.names name (some vol.next) name').map
        (Function.update vol.inodes vol.next Inode.created) = _
      by_cases heq : name' = name
      · rw [heq, Function.update_self, Function.update_self]
        show some (Function.update vol.inodes vol.next _ vol.next) = _
        rw [Function.update_self]
      · rw [Function.update_of_ne heq, Function.update_of_ne heq, view]
        cases hj : vol.names name' with
        | none => rfl
        | some j =>
            have hne : j ≠ vol.next := Nat.ne_of_lt (h.bounded name' j hj)
            show some (Function.update vol.inodes vol.next _ j) = _
            rw [Function.update_of_ne hne]
            rfl

/-- `Function.update` of names is `Function.update` of files. -/
theorem view_update (files : ν → Option Nat) (name : ν) (o : Option Nat) (name' : ν) :
    (Function.update files name o name').map vol.inodes =
      Function.update (fun n => (files n).map vol.inodes) name (o.map vol.inodes) name' := by
  by_cases heq : name' = name
  · rw [heq, Function.update_self, Function.update_self]
  · rw [Function.update_of_ne heq, Function.update_of_ne heq]

theorem view_apply (h : vol.WellFormed) (op : Op ν β) :
    (vol.apply op).view = op.effect vol.view := by
  cases op with
  | openFile name => exact view_openFile h name
  | write name data => exact view_change h name _
  | sync name => exact view_change h name _
  | cut name n => exact view_change h name _
  | move src dst =>
      rw [Volume.apply, Op.effect]
      cases hi : vol.names src with
      | none => rw [show vol.view src = none by rw [view, hi]; rfl]
      | some i =>
          rw [show vol.view src = some (vol.inodes i) by rw [view, hi]; rfl]
          funext name
          show ((vol.push (.move src dst i)).names name).map vol.inodes = _
          rw [names_push, NameOp.apply, view_update]
          congr 1
          funext name
          exact view_update _ _ _ _
  | unlink name =>
      funext name'
      show ((vol.push (.unlink name)).names name').map vol.inodes = _
      rw [names_push]
      exact view_update _ _ _ _
  | syncDir => rfl

/-- The operation acts on one name. -/
def Op.On (name : ν) : Op ν β → Prop
  | .openFile name' => name' = name
  | .write name' _ => name' = name
  | .sync name' => name' = name
  | .cut name' _ => name' = name
  | .unlink name' => name' = name
  | .move _ _ => False
  | .syncDir => False

/-- What an operation on one name leaves alone. -/
theorem view_on (h : vol.WellFormed) {name name' : ν} {op : Op ν β} (hop : op.On name)
    (hne : name' ≠ name) : (vol.apply op).view name' = vol.view name' := by
  rw [view_apply h]
  cases op with
  | openFile => cases hop; exact Function.update_of_ne hne _ _
  | write => cases hop; exact Function.update_of_ne hne _ _
  | sync => cases hop; exact Function.update_of_ne hne _ _
  | cut => cases hop; exact Function.update_of_ne hne _ _
  | unlink => cases hop; exact Function.update_of_ne hne _ _
  | move => cases hop
  | syncDir => cases hop

/-! ## What survives -/

/-- The operation changes where the name points. -/
def Op.Renames (name : ν) : Op ν β → Prop
  | .openFile name' => name' = name
  | .move src dst => src = name ∨ dst = name
  | .unlink name' => name' = name
  | _ => False

omit [DecidableEq ν] in
theorem Op.On.not_renames {name name' : ν} {op : Op ν β} (hop : op.On name)
    (hne : name' ≠ name) : ¬op.Renames name' := by
  cases op with
  | openFile => cases hop; exact Ne.symm hne
  | unlink => cases hop; exact Ne.symm hne
  | write => exact id
  | sync => exact id
  | cut => exact id
  | move => cases hop
  | syncDir => cases hop

theorem pending_change (name : ν) (f : Inode β → Inode β) :
    (vol.change name f).pending = vol.pending := by
  unfold change
  split <;> rfl

omit [DecidableEq ν] in
theorem Stable.push {name : ν} (h : vol.Stable name) {op : NameOp ν} (hop : ¬op.Touches name) :
    (vol.push op).Stable name :=
  List.forall_mem_append.mpr ⟨h, fun op' hop' => by rw [List.mem_singleton.mp hop']; exact hop⟩

theorem Stable.apply {name : ν} (h : vol.Stable name) (op : Op ν β) (hop : ¬op.Renames name) :
    (vol.apply op).Stable name := by
  have hchange : ∀ name' f, (vol.change name' f).Stable name := by
    intro name' f op hop
    rw [pending_change] at hop
    exact h op hop
  cases op with
  | openFile name' =>
      rw [Volume.apply, Volume.openFile]
      split
      · exact h
      · exact Stable.push h hop
  | write name' data => exact hchange name' _
  | sync name' => exact hchange name' _
  | cut name' n => exact hchange name' _
  | move src dst =>
      rw [Volume.apply]
      split
      · exact h
      · exact Stable.push h hop
  | unlink name' => exact Stable.push h hop
  | syncDir => exact fun op hop => absurd hop List.not_mem_nil

/-- A run of operations on one name leaves every other name as it was. -/
theorem run_on {name name' : ν} (hne : name' ≠ name) {ops : List (Op ν β)}
    (hops : ∀ op ∈ ops, op.On name) :
    ∀ {vol : Volume ν β}, vol.WellFormed →
      (vol.run ops).WellFormed ∧ (vol.run ops).view name' = vol.view name' ∧
        (vol.Stable name' → (vol.run ops).Stable name') := by
  induction ops with
  | nil => exact fun h => ⟨h, rfl, id⟩
  | cons op ops ih =>
      intro vol h
      rw [List.forall_mem_cons] at hops
      obtain ⟨hwf, hview, hstable⟩ := ih hops.2 (h.apply op)
      exact ⟨hwf, hview.trans (view_on h hops.1 hne),
        fun hs => hstable (hs.apply op (hops.1.not_renames hne))⟩

theorem stable_syncDir (name : ν) : (vol.apply .syncDir).Stable name :=
  fun _ hop => absurd hop List.not_mem_nil

/-- A stable name is found where it points. -/
theorem Survives.stable {found : ν → Option (List β)} (h : vol.Survives found) {name : ν}
    (hname : vol.Stable name) : Leaves (vol.view name) (found name) := by
  obtain ⟨ops, hsub, hfound⟩ := h
  have hleft := hfound name
  rw [NameOp.foldl_of_not_touches fun op hop => hname op (hsub.subset hop)] at hleft
  rw [view, names, NameOp.foldl_of_not_touches hname]
  exact hleft

/-- A file that was just moved is found under its new name, or what was there
before is. -/
theorem Survives.moved {found : ν → Option (List β)} {src dst : ν} {x : Inode β}
    (h : (vol.apply (.move src dst)).Survives found) (hdst : vol.Stable dst)
    (hsrc : vol.view src = some x) :
    Leaves (vol.view dst) (found dst) ∨ Leaves (some x) (found dst) := by
  obtain ⟨i, hi, rfl⟩ := Option.map_eq_some_iff.mp hsrc
  rw [Volume.apply, hi] at h
  obtain ⟨ops, hsub, hfound⟩ := h
  obtain ⟨earlier, last, rfl, hearlier, hlast⟩ := List.sublist_append_iff.mp hsub
  have hleft := hfound dst
  rcases List.sublist_singleton.mp hlast with rfl | rfl
  · left
    rw [List.append_nil, NameOp.foldl_of_not_touches fun op hop =>
      hdst op (hearlier.subset hop)] at hleft
    rw [view, names, NameOp.foldl_of_not_touches hdst]
    exact hleft
  · right
    rw [List.foldl_append, List.foldl_cons, List.foldl_nil, NameOp.apply,
      Function.update_self] at hleft
    exact hleft

/-! ## Names that are on their way -/

/-- A new name: it points to a file that was moved there, and the directory has
not been synced since. -/
structure Arriving (vol : Volume ν β) (name : ν) : Prop where
  synced : vol.synced name = none
  moved : ∃ i, vol.names name = some i ∧
    ∀ op ∈ vol.pending, op.Touches name → ∃ src, op = .move src name i

/-- A file that is moved to a name nobody had is on its way there. -/
theorem Stable.arriving {src dst : ν} {x : Inode β} (h : vol.Stable dst)
    (hdst : vol.view dst = none) (hsrc : vol.view src = some x) :
    (vol.apply (.move src dst)).Arriving dst := by
  obtain ⟨i, hi, -⟩ := Option.map_eq_some_iff.mp hsrc
  have hnone : vol.names dst = none := Option.map_eq_none_iff.mp hdst
  rw [Volume.apply, hi]
  refine ⟨?_, i, ?_, fun op hop htouches => ?_⟩
  · rwa [names, NameOp.foldl_of_not_touches h] at hnone
  · rw [names_push, NameOp.apply, Function.update_self]
  · rcases List.mem_append.mp hop with hop | hop
    · exact absurd htouches (h op hop)
    · exact ⟨src, List.mem_singleton.mp hop⟩

/-- It is on its way until the directory is synced. -/
theorem Arriving.apply {name : ν} (h : vol.Arriving name) (op : Op ν β)
    (hop : ¬op.Renames name) (hdir : op ≠ .syncDir) : (vol.apply op).Arriving name := by
  obtain ⟨i, hi, hmoved⟩ := h.moved
  have hchange : ∀ name' f, (vol.change name' f).Arriving name := by
    intro name' f
    refine ⟨?_, i, by rw [names_change]; exact hi, by rw [pending_change]; exact hmoved⟩
    unfold change
    split <;> exact h.synced
  have hpush : ∀ {w : Volume ν β} {op : NameOp ν}, w.synced = vol.synced →
      w.pending = vol.pending → ¬op.Touches name → (w.push op).Arriving name := by
    intro w op hsynced hpending htouches
    have hnames : w.names = vol.names := by rw [names, names, hsynced, hpending]
    refine ⟨(congrFun hsynced name).trans h.synced, i, ?_, fun op' hop' htouches' => ?_⟩
    · rw [names_push, NameOp.apply_of_not_touches htouches, hnames]
      exact hi
    · rcases List.mem_append.mp hop' with hop' | hop'
      · exact hmoved op' (hpending ▸ hop') htouches'
      · rw [List.mem_singleton.mp hop'] at htouches'
        exact absurd htouches' htouches
  cases op with
  | openFile name' =>
      rw [Volume.apply, Volume.openFile]
      split
      · exact h
      · exact hpush rfl rfl hop
  | write name' data => exact hchange name' (·.write data)
  | sync name' => exact hchange name' Inode.sync
  | cut name' n => exact hchange name' (·.cut n)
  | move src dst =>
      rw [Volume.apply]
      split
      · exact h
      · exact hpush rfl rfl hop
  | unlink name' => exact hpush rfl rfl hop
  | syncDir => exact absurd rfl hdir

/-- A run of operations on one name leaves the others on their way. -/
theorem Arriving.run_on {name name' : ν} (hne : name' ≠ name) {ops : List (Op ν β)}
    (hops : ∀ op ∈ ops, op.On name) :
    ∀ {vol : Volume ν β}, vol.Arriving name' → (vol.run ops).Arriving name' := by
  induction ops with
  | nil => exact fun h => h
  | cons op ops ih =>
      intro vol h
      rw [List.forall_mem_cons] at hops
      refine ih hops.2 (h.apply op (hops.1.not_renames hne) ?_)
      rintro rfl
      exact hops.1

/-- A name on its way is found, or it is not. -/
theorem Survives.arriving {found : ν → Option (List β)} (h : vol.Survives found) {name : ν}
    (hname : vol.Arriving name) : found name = none ∨ Leaves (vol.view name) (found name) := by
  obtain ⟨ops, hsub, hfound⟩ := h
  obtain ⟨i, hi, hmoved⟩ := hname.moved
  have hfold : ∀ (ops : List (NameOp ν)) (names : ν → Option Nat),
      (∀ op ∈ ops, op.Touches name → ∃ src, op = .move src name i) →
      names name = none ∨ names name = some i →
      ops.foldl NameOp.apply names name = none ∨ ops.foldl NameOp.apply names name = some i := by
    intro ops
    induction ops with
    | nil => exact fun _ _ h => h
    | cons op ops ih =>
        intro names hops hnames
        rw [List.forall_mem_cons] at hops
        refine ih _ hops.2 ?_
        by_cases htouches : op.Touches name
        · obtain ⟨src, rfl⟩ := hops.1 htouches
          exact Or.inr (Function.update_self ..)
        · rwa [NameOp.apply_of_not_touches htouches]
  have hleft := hfound name
  rcases hfold ops vol.synced (fun op hop => hmoved op (hsub.subset hop)) (.inl hname.synced)
    with hnone | hsome
  · rw [hnone] at hleft
    exact Or.inl hleft
  · rw [hsome] at hleft
    rw [view, hi]
    exact Or.inr hleft

end Volume
