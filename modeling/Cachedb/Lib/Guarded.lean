import Cachedb.Lib.Volume

/-!
# Files that are finished before they get their name

A program writes a file under a working name, syncs it, and only then moves it
to its final name. Under a final name there is then never anything unfinished,
whatever a loss of power takes away, and whether or not the directory was ever
synced.

`Volume.Guards` is the invariant: every file that a final name points to, or
may point to after a loss of power, is finished and at rest, and no working
name points to it, so nothing the program does under its working names can
touch it. `Op.Keeps` is what a program may do, and `Guards.apply` that it keeps
the invariant.
-/

universe u v

variable {ν : Type u} {β : Type v}

/-- A change of names gives the inode a final name. -/
def NameOp.Gives (final : ν → Prop) (i : Nat) : NameOp ν → Prop
  | .link name j => final name ∧ j = i
  | .move _ dst j => final dst ∧ j = i
  | .unlink _ => False

/-- A final name that points somewhere after some changes did so before, or was
given by one of them. -/
theorem NameOp.foldl_gives [DecidableEq ν] {final : ν → Prop} {name : ν} (hname : final name)
    {i : Nat} (ops : List (NameOp ν)) :
    ∀ {names : ν → Option Nat}, ops.foldl NameOp.apply names name = some i →
      names name = some i ∨ ∃ op ∈ ops, op.Gives final i := by
  induction ops with
  | nil => exact fun h => Or.inl h
  | cons op ops ih =>
      intro names h
      rcases ih h with h | ⟨op', hop', hgives⟩
      · by_cases hgives : op.Gives final i
        · exact Or.inr ⟨op, List.mem_cons_self, hgives⟩
        · left
          cases op with
          | link name' j =>
              by_cases heq : name = name'
              · subst heq
                rw [NameOp.apply, Function.update_self, Option.some.injEq] at h
                exact absurd ⟨hname, h⟩ hgives
              · rwa [NameOp.apply, Function.update_of_ne heq] at h
          | move src dst j =>
              by_cases hdst : name = dst
              · subst hdst
                rw [NameOp.apply, Function.update_self, Option.some.injEq] at h
                exact absurd ⟨hname, h⟩ hgives
              · rw [NameOp.apply, Function.update_of_ne hdst] at h
                by_cases hsrc : name = src
                · rw [hsrc, Function.update_self] at h
                  cases h
                · rwa [Function.update_of_ne hsrc] at h
          | unlink name' =>
              by_cases heq : name = name'
              · rw [heq, NameOp.apply, Function.update_self] at h
                cases h
              · rwa [NameOp.apply, Function.update_of_ne heq] at h
      · exact Or.inr ⟨op', List.mem_cons_of_mem _ hop', hgives⟩

namespace Volume

/-- A final name points to the inode, or may after a loss of power. -/
def MayBeFinal (final : ν → Prop) (vol : Volume ν β) (i : Nat) : Prop :=
  (∃ name, final name ∧ vol.synced name = some i) ∨ ∃ op ∈ vol.pending, op.Gives final i

variable [DecidableEq ν]

structure Guards (final : ν → Prop) (good : List β → Prop) (vol : Volume ν β) : Prop where
  wf : vol.WellFormed
  bounded : ∀ i, vol.MayBeFinal final i → i < vol.next
  finished : ∀ i, vol.MayBeFinal final i → ∃ data, good data ∧ vol.inodes i = Inode.rest data
  apart : ∀ i name, vol.MayBeFinal final i → vol.names name = some i → final name

/-- What a program may do: under working names anything, and a final name is
given to a finished file that is at rest. Names may be removed. -/
def Op.Keeps (final : ν → Prop) (good : List β → Prop) (vol : Volume ν β) : Op ν β → Prop
  | .openFile name => ¬final name
  | .write name _ => ¬final name
  | .sync name => ¬final name
  | .cut name _ => ¬final name
  | .move src dst => final dst ∧ ∃ data, good data ∧ vol.view src = some (Inode.rest data)
  | .unlink _ => True
  | .syncDir => True

section Guards

variable {final : ν → Prop} {good : List β → Prop} {vol : Volume ν β}

/-- Under a final name nothing unfinished is found. -/
theorem Guards.survives (h : vol.Guards final good) {found : ν → Option (List β)}
    (hs : vol.Survives found) {name : ν} (hname : final name) {data : List β}
    (hdata : found name = some data) : good data := by
  obtain ⟨ops, hsub, hfound⟩ := hs
  have hleft := hfound name
  cases hi : ops.foldl NameOp.apply vol.synced name with
  | none =>
      rw [hi] at hleft
      exact absurd (hdata.symm.trans hleft) nofun
  | some i =>
      rw [hi] at hleft
      have hfinal : vol.MayBeFinal final i := by
        rcases NameOp.foldl_gives hname ops hi with hsynced | ⟨op, hop, hgives⟩
        · exact Or.inl ⟨name, hname, hsynced⟩
        · exact Or.inr ⟨op, hsub.subset hop, hgives⟩
      obtain ⟨data', hgood, hrest⟩ := h.finished i hfinal
      obtain ⟨left, hmaybe, hsome⟩ := hleft
      rw [hrest] at hmaybe
      rw [hdata, Option.some.injEq] at hsome
      rw [hsome, List.mem_singleton.mp hmaybe]
      exact hgood

omit [DecidableEq ν] in
/-- One more change of names that gives no final name. -/
theorem MayBeFinal.push {op : NameOp ν} (hop : ∀ i, ¬op.Gives final i) {i : Nat}
    (h : (vol.push op).MayBeFinal final i) : vol.MayBeFinal final i := by
  rcases h with h | ⟨op', hop', hgives⟩
  · exact Or.inl h
  · rcases List.mem_append.mp hop' with hop' | hop'
    · exact Or.inr ⟨op', hop', hgives⟩
    · rw [List.mem_singleton.mp hop'] at hgives
      exact absurd hgives (hop i)

/-- What a working name points to is not finished for good. -/
theorem Guards.not_final (h : vol.Guards final good) {name : ν} (hname : ¬final name) {i : Nat}
    (hi : vol.names name = some i) : ¬vol.MayBeFinal final i :=
  fun hfinal => hname (h.apart i name hfinal hi)

theorem Guards.change (h : vol.Guards final good) {name : ν} (hname : ¬final name)
    (f : Inode β → Inode β) : (vol.change name f).Guards final good := by
  unfold Volume.change
  cases hi : vol.names name with
  | none => exact h
  | some i =>
      have hwf := h.wf.change name f
      unfold Volume.change at hwf
      rw [hi] at hwf
      refine ⟨hwf, h.bounded, fun j hj => ?_, h.apart⟩
      have hne : j ≠ i := fun heq => h.not_final hname hi (heq ▸ hj)
      obtain ⟨data, hgood, hrest⟩ := h.finished j hj
      exact ⟨data, hgood, (Function.update_of_ne hne _ _).trans hrest⟩

theorem Guards.openFile (h : vol.Guards final good) {name : ν} (hname : ¬final name) :
    (vol.openFile name).Guards final good := by
  have hwf := h.wf.openFile name
  unfold Volume.openFile at hwf ⊢
  cases hi : vol.names name with
  | some i => exact h
  | none =>
      rw [hi] at hwf
      have hlink : ∀ i, ¬(NameOp.link name vol.next).Gives final i := fun _ hgives => hname hgives.1
      refine ⟨hwf, fun j hj => ?_, fun j hj => ?_, fun j name' hj hnames => ?_⟩
      · exact Nat.lt_succ_of_lt (h.bounded j (MayBeFinal.push hlink hj))
      · have hold := MayBeFinal.push hlink hj
        obtain ⟨data, hgood, hrest⟩ := h.finished j hold
        exact ⟨data, hgood,
          (Function.update_of_ne (Nat.ne_of_lt (h.bounded j hold)) _ _).trans hrest⟩
      · have hold := MayBeFinal.push hlink hj
        rw [names_push, NameOp.apply] at hnames
        by_cases heq : name' = name
        · rw [heq, Function.update_self, Option.some.injEq] at hnames
          exact absurd (h.bounded j hold) (by omega)
        · rw [Function.update_of_ne heq] at hnames
          exact h.apart j name' hold hnames

theorem Guards.unlink (h : vol.Guards final good) (name : ν) :
    (vol.push (.unlink name)).Guards final good := by
  have hgives : ∀ i, ¬(NameOp.unlink name).Gives final i := fun _ => id
  refine ⟨h.wf.push_unlink name, fun j hj => h.bounded j (MayBeFinal.push hgives hj),
    fun j hj => h.finished j (MayBeFinal.push hgives hj), fun j name' hj hnames => ?_⟩
  rw [names_push, NameOp.apply] at hnames
  by_cases heq : name' = name
  · rw [heq, Function.update_self] at hnames
    cases hnames
  · rw [Function.update_of_ne heq] at hnames
    exact h.apart j name' (MayBeFinal.push hgives hj) hnames

theorem Guards.syncDir (h : vol.Guards final good) : (vol.apply .syncDir).Guards final good := by
  have hold : ∀ i, (vol.apply .syncDir).MayBeFinal final i → vol.MayBeFinal final i := by
    rintro i (⟨name, hname, hi⟩ | ⟨op, hop, _⟩)
    · rcases NameOp.foldl_gives hname vol.pending hi with hsynced | hgives
      · exact Or.inl ⟨name, hname, hsynced⟩
      · exact Or.inr hgives
    · exact absurd hop List.not_mem_nil
  exact ⟨h.wf.apply .syncDir, fun i hi => h.bounded i (hold i hi),
    fun i hi => h.finished i (hold i hi), fun i name hi => h.apart i name (hold i hi)⟩

theorem Guards.move (h : vol.Guards final good) {src dst : ν} (hdst : final dst)
    {data : List β} (hgood : good data) {i : Nat} (hi : vol.names src = some i)
    (hrest : vol.inodes i = Inode.rest data) :
    (vol.push (.move src dst i)).Guards final good := by
  have hcases : ∀ j, (vol.push (.move src dst i)).MayBeFinal final j →
      j = i ∨ vol.MayBeFinal final j := by
    intro j hj
    by_cases heq : j = i
    · exact Or.inl heq
    · rcases hj with hj | ⟨op, hop, hgives⟩
      · exact Or.inr (Or.inl hj)
      · rcases List.mem_append.mp hop with hop | hop
        · exact Or.inr (Or.inr ⟨op, hop, hgives⟩)
        · rw [List.mem_singleton.mp hop] at hgives
          exact absurd hgives.2.symm heq
  refine ⟨h.wf.push_move hi, fun j hj => ?_, fun j hj => ?_, fun j name hj hnames => ?_⟩
  · rcases hcases j hj with rfl | hold
    · exact h.wf.bounded src j hi
    · exact h.bounded j hold
  · rcases hcases j hj with rfl | hold
    · exact ⟨data, hgood, hrest⟩
    · exact h.finished j hold
  · rw [names_push, NameOp.apply] at hnames
    by_cases hname : name = dst
    · exact hname ▸ hdst
    · rw [Function.update_of_ne hname] at hnames
      by_cases hworking : name = src
      · rw [hworking, Function.update_self] at hnames
        cases hnames
      · rw [Function.update_of_ne hworking] at hnames
        rcases hcases j hj with rfl | hold
        · exact absurd (h.wf.injective name src j hnames hi) hworking
        · exact h.apart j name hold hnames

theorem Guards.apply (h : vol.Guards final good) {op : Op ν β} (hop : op.Keeps final good vol) :
    (vol.apply op).Guards final good := by
  cases op with
  | openFile name => exact h.openFile hop
  | write name data => exact h.change hop fun x => x.write data
  | sync name => exact h.change hop Inode.sync
  | cut name n => exact h.change hop fun x => x.cut n
  | move src dst =>
      obtain ⟨hdst, data, hgood, hview⟩ := hop
      obtain ⟨i, hi, hrest⟩ := Option.map_eq_some_iff.mp hview
      rw [Volume.apply, hi]
      exact h.move hdst hgood hi hrest
  | unlink name => exact h.unlink name
  | syncDir => exact h.syncDir

/-- Operations that keep the invariant wherever they are made. -/
theorem Guards.run {ops : List (Op ν β)}
    (hops : ∀ op ∈ ops, ∀ vol : Volume ν β, op.Keeps final good vol) :
    ∀ {vol : Volume ν β}, vol.Guards final good → (vol.run ops).Guards final good := by
  induction ops with
  | nil => exact fun h => h
  | cons op ops ih =>
      intro vol h
      rw [List.forall_mem_cons] at hops
      exact ih hops.2 (h.apply (hops.1 vol))

end Guards

end Volume
