import Cachedb.Lib.Merge
import Cachedb.Model.Compaction
import Cachedb.Proofs.TableRead

/-!
# What a merge writes

The loop of `compact` is the merge of `KMerge` over the entries its inputs
hold: each cursor shows the front of one list, the heap holds the fronts in
the order they come out, and the previous key tells the version that counts
from the ones it supersedes. `compact_eq` puts the result in closed form: the
entries of the output in key order, under every key the newest version in the
inputs, with obsolete versions left out where that was asked for.
-/

namespace Cachedb

open KMerge

/-- A version that exists only to hide something older. -/
def Entry.obsolete (now : Int64) (e : Entry) : Bool := e.tombstone || expired e.expiresAtMs now

/-- What a merge makes of the newest version of a key. -/
def keepEntry (dropObsolete : Bool) (now : Int64) (e : Entry) : Option Entry :=
  if dropObsolete && e.obsolete now then none else some e.stored

theorem Entry.view_settled (t : Int64) (e : Entry) : e.settled.view t = e.view t := by
  unfold Entry.view Entry.settled Entry.stored
  cases e.tombstone <;> rfl

theorem Entry.settled_stored (e : Entry) : e.stored.settled = e.settled := by
  unfold Entry.settled Entry.stored
  cases e.tombstone <;> rfl

theorem Entry.obsolete_iff {now : Int64} {e : Entry} :
    e.obsolete now = true ↔ e.view now = none := by
  rw [Entry.view_eq_none_iff, Entry.obsolete, Bool.or_eq_true]

/-- What is obsolete stays so. -/
theorem Entry.obsolete_mono {now t : Int64} {e : Entry} (h : e.obsolete now = true)
    (ht : now ≤ t) : e.obsolete t = true := by
  rw [Entry.obsolete, Bool.or_eq_true] at h ⊢
  exact h.imp_right fun hexp => expired_mono hexp ht

theorem Cursor.Shows.obsolete {c : Cursor} {p : Bytes × Entry} {es : List (Bytes × Entry)}
    (h : c.Shows (p :: es)) (now : Int64) : c.obsolete now = p.2.obsolete now := by
  obtain ⟨_, _, _, htomb, hstamp, _⟩ := h
  rw [Cursor.obsolete, Entry.obsolete, htomb, hstamp, Entry.stored]
  cases p.2.tombstone <;> rfl

/-! ## The heap -/

theorem Head.before_iff {a b : Head} :
    a.before b = true ↔ a.key < b.key ∨ a.key = b.key ∧ a.input < b.input := by
  unfold Head.before
  split
  · next h => simp [h]
  · next h =>
      have heq : a.key = b.key := not_not.mp h
      simp [heq]

theorem Head.before_trans {a b c : Head} (h : a.before b = true) (h' : b.before c = true) :
    a.before c = true := by
  rw [Head.before_iff] at h h' ⊢
  rcases h with h | ⟨h, hi⟩
  · rcases h' with h' | ⟨h', _⟩
    · exact Or.inl (lt_trans h h')
    · exact Or.inl (h' ▸ h)
  · rcases h' with h' | ⟨h', hi'⟩
    · exact Or.inl (h ▸ h')
    · exact Or.inr ⟨h.trans h', by omega⟩

theorem Head.before_total {a b : Head} (h : ¬a.before b = true) (hne : a.input ≠ b.input) :
    b.before a = true := by
  rw [Head.before_iff] at h ⊢
  rcases lt_trichotomy a.key b.key with hlt | heq | hgt
  · exact absurd (Or.inl hlt) h
  · refine Or.inr ⟨heq.symm, ?_⟩
    have : ¬a.input < b.input := fun hi => h (Or.inr ⟨heq, hi⟩)
    omega
  · exact Or.inl hgt

/-- The heap hands its heads out in order. -/
def HeapSorted (heap : List Head) : Prop := heap.Pairwise fun a b => a.before b = true

theorem mem_heapPush {h x : Head} {heap : List Head} :
    x ∈ heapPush h heap ↔ x = h ∨ x ∈ heap := by
  induction heap with
  | nil => simp [heapPush]
  | cons top rest ih =>
      rw [heapPush]
      split
      · simp
      · rw [List.mem_cons, ih, List.mem_cons]
        tauto

theorem HeapSorted.push {h : Head} {heap : List Head} (hs : HeapSorted heap)
    (hnew : ∀ x ∈ heap, x.input ≠ h.input) : HeapSorted (heapPush h heap) := by
  induction heap with
  | nil => exact List.pairwise_singleton _ _
  | cons top rest ih =>
      obtain ⟨htop, hrest⟩ := List.pairwise_cons.mp hs
      rw [heapPush]
      split
      · next hb =>
          refine List.pairwise_cons.mpr ⟨fun x hx => ?_, hs⟩
          rcases List.mem_cons.mp hx with rfl | hx
          · exact hb
          · exact Head.before_trans hb (htop x hx)
      · next hb =>
          refine List.pairwise_cons.mpr ⟨fun x hx => ?_,
            ih hrest fun x hx => hnew x (List.mem_cons_of_mem _ hx)⟩
          rcases mem_heapPush.mp hx with rfl | hx
          · exact Head.before_total hb (Ne.symm (hnew top List.mem_cons_self))
          · exact htop x hx

/-- The heap holds the front of every list that has one. -/
structure HeadsOf (rs : List (List (Bytes × Entry))) (heap : List Head) : Prop where
  sorted : HeapSorted heap
  mem : ∀ h, h ∈ heap ↔ ∃ e r, rs[h.input]? = some ((h.key, e) :: r)

/-- The head on top is the next entry of the merge. -/
theorem HeadsOf.least {rs : List (List (Bytes × Entry))} {head : Head} {heap : List Head}
    (h : HeadsOf rs (head :: heap)) :
    ∃ e r, Least rs head.input head.key e r := by
  obtain ⟨e, r, hr⟩ := (h.mem head).mp List.mem_cons_self
  refine ⟨e, r, hr, fun j k' e' r' hj => ?_⟩
  have hmem : (⟨j, k'⟩ : Head) ∈ head :: heap := (h.mem _).mpr ⟨e', r', hj⟩
  rcases List.mem_cons.mp hmem with heq | hmem
  · rw [← heq]
    exact Or.inr ⟨rfl, Nat.le_refl _⟩
  · have hb := (List.pairwise_cons.mp h.sorted).1 _ hmem
    exact (Head.before_iff.mp hb).imp_right fun ⟨hk, hi⟩ => ⟨hk, Nat.le_of_lt hi⟩

/-- After the top is taken and its list moves on, the rest of the heap holds
the fronts of the other lists. -/
theorem HeadsOf.tail_mem {rs : List (List (Bytes × Entry))} {head : Head} {heap : List Head}
    (h : HeadsOf rs (head :: heap)) (x : Head) :
    x ∈ heap ↔ x.input ≠ head.input ∧ ∃ e r, rs[x.input]? = some ((x.key, e) :: r) := by
  constructor
  · intro hx
    obtain ⟨e, r, hr⟩ := (h.mem x).mp (List.mem_cons_of_mem _ hx)
    refine ⟨fun hi => ?_, e, r, hr⟩
    -- Two heads of one list would be the same head.
    obtain ⟨e', r', hr'⟩ := (h.mem head).mp List.mem_cons_self
    rw [hi, hr'] at hr
    have hk : head.key = x.key := by
      simp only [Option.some.injEq, List.cons.injEq, Prod.mk.injEq] at hr
      exact hr.1.1
    have hb := Head.before_iff.mp ((List.pairwise_cons.mp h.sorted).1 x hx)
    rcases hb with hlt | ⟨_, hlt⟩
    · exact absurd hk (ne_of_lt hlt)
    · omega
  · rintro ⟨hi, e, r, hr⟩
    rcases List.mem_cons.mp ((h.mem x).mpr ⟨e, r, hr⟩) with rfl | hx
    · exact absurd rfl hi
    · exact hx

theorem HeadsOf.advance {rs : List (List (Bytes × Entry))} {head : Head} {heap : List Head}
    (h : HeadsOf rs (head :: heap)) {e : Entry} {r : List (Bytes × Entry)}
    (hr : rs[head.input]? = some ((head.key, e) :: r)) {c : Cursor} (hc : c.Shows r) :
    HeadsOf (rs.set head.input r)
      (if c.valid then heapPush ⟨head.input, c.key⟩ heap else heap) := by
  have hlt : head.input < rs.length := (List.getElem?_eq_some_iff.mp hr).1
  have hself : (rs.set head.input r)[head.input]? = some r := by simp [hlt]
  have hother : ∀ x : Head, x.input ≠ head.input →
      (rs.set head.input r)[x.input]? = rs[x.input]? :=
    fun x hx => List.getElem?_set_ne (Ne.symm hx)
  have hsorted : HeapSorted heap := (List.pairwise_cons.mp h.sorted).2
  cases r with
  | nil =>
      rw [if_neg (by rw [hc.1]; exact Bool.false_ne_true)]
      refine ⟨hsorted, fun x => ?_⟩
      rw [h.tail_mem x]
      constructor
      · rintro ⟨hi, e', r', hx⟩
        exact ⟨e', r', by rw [hother x hi]; exact hx⟩
      · rintro ⟨e', r', hx⟩
        by_cases hi : x.input = head.input
        · rw [hi, hself] at hx; cases hx
        · exact ⟨hi, e', r', by rw [← hother x hi]; exact hx⟩
  | cons p r =>
      rw [if_pos hc.1]
      refine ⟨hsorted.push fun x hx => ((h.tail_mem x).mp hx).1, fun x => ?_⟩
      rw [mem_heapPush, h.tail_mem x]
      constructor
      · rintro (rfl | ⟨hi, e', r', hx⟩)
        · exact ⟨p.2, r, by rw [hself, hc.2.1]⟩
        · exact ⟨e', r', by rw [hother x hi]; exact hx⟩
      · rintro ⟨e', r', hx⟩
        by_cases hi : x.input = head.input
        · left
          rw [hi, hself] at hx
          obtain ⟨xi, xk⟩ := x
          simp only [Option.some.injEq, List.cons.injEq] at hx
          rw [Head.mk.injEq]
          exact ⟨hi, by rw [hc.2.1, hx.1]⟩
        · exact Or.inr ⟨hi, e', r', by rw [← hother x hi]; exact hx⟩

/-- One round of the loop that fills the heap, and so all of them: cursors
`n`, `n + 1`, … put the fronts they show on top of what is there. -/
theorem firstHeads_from {cs : List Cursor} {rs : List (List (Bytes × Entry))}
    (hc : List.Forall₂ Cursor.Shows cs rs) :
    ∀ (n : Nat) (heap : List Head), HeapSorted heap → (∀ x ∈ heap, x.input < n) →
      HeapSorted ((cs.zipIdx n).foldl
        (fun heap p => if p.1.valid then heapPush ⟨p.2, p.1.key⟩ heap else heap) heap) ∧
      ∀ x, x ∈ (cs.zipIdx n).foldl
        (fun heap p => if p.1.valid then heapPush ⟨p.2, p.1.key⟩ heap else heap) heap ↔
        x ∈ heap ∨ n ≤ x.input ∧ ∃ e r, rs[x.input - n]? = some ((x.key, e) :: r) := by
  induction hc with
  | nil => intro n heap hs _; simp [hs]
  | @cons c r cs rs hcr _ ih =>
      intro n heap hs hlt
      rw [List.zipIdx_cons, List.foldl_cons]
      cases r with
      | nil =>
          rw [if_neg (by rw [hcr.1]; exact Bool.false_ne_true)]
          obtain ⟨hs', hmem⟩ := ih (n + 1) heap hs fun x hx => by have := hlt x hx; omega
          refine ⟨hs', fun x => ?_⟩
          rw [hmem x]
          refine or_congr_right ⟨?_, ?_⟩
          · rintro ⟨hle, e, r, hr⟩
            refine ⟨by omega, e, r, ?_⟩
            rwa [show x.input - n = x.input - (n + 1) + 1 by omega, List.getElem?_cons_succ]
          · rintro ⟨hle, e, r, hr⟩
            rcases Nat.eq_or_lt_of_le hle with heq | hgt
            · rw [heq, Nat.sub_self] at hr
              simp at hr
            · refine ⟨hgt, e, r, ?_⟩
              rwa [show x.input - n = x.input - (n + 1) + 1 by omega,
                List.getElem?_cons_succ] at hr
      | cons p r =>
          rw [if_pos hcr.1]
          obtain ⟨hs', hmem⟩ := ih (n + 1) (heapPush ⟨n, c.key⟩ heap)
            (hs.push fun x hx => Nat.ne_of_lt (hlt x hx)) (by
              intro x hx
              rcases mem_heapPush.mp hx with rfl | hx
              · exact Nat.lt_succ_self n
              · have := hlt x hx; omega)
          refine ⟨hs', fun x => ?_⟩
          rw [hmem x, mem_heapPush]
          constructor
          · rintro ((rfl | hx) | ⟨hle, e, r', hr⟩)
            · exact Or.inr ⟨Nat.le_refl _, p.2, r, by simp [hcr.2.1]⟩
            · exact Or.inl hx
            · refine Or.inr ⟨by omega, e, r', ?_⟩
              rwa [show x.input - n = x.input - (n + 1) + 1 by omega, List.getElem?_cons_succ]
          · rintro (hx | ⟨hle, e, r', hr⟩)
            · exact Or.inl (Or.inr hx)
            · rcases Nat.eq_or_lt_of_le hle with heq | hgt
              · left; left
                obtain ⟨xi, xk⟩ := x
                have heq : n = xi := heq
                rw [heq, Nat.sub_self] at hr
                simp only [List.getElem?_cons_zero, Option.some.injEq, List.cons.injEq] at hr
                rw [Head.mk.injEq]
                exact ⟨heq.symm, by rw [hcr.2.1, hr.1]⟩
              · refine Or.inr ⟨hgt, e, r', ?_⟩
                rwa [show x.input - n = x.input - (n + 1) + 1 by omega,
                  List.getElem?_cons_succ] at hr

theorem headsOf_firstHeads {cs : List Cursor} {rs : List (List (Bytes × Entry))}
    (hc : List.Forall₂ Cursor.Shows cs rs) : HeadsOf rs (firstHeads cs) := by
  obtain ⟨hs, hmem⟩ := firstHeads_from hc 0 [] List.Pairwise.nil (by simp)
  refine ⟨hs, fun x => ?_⟩
  rw [firstHeads, hmem x]
  simp

/-! ## The loop -/

/-- A merge part way through: `rs` is left of the entries `ess`, `out` was
handed to the writer. -/
structure Merge.Inv (bits : Int) (dropObsolete : Bool) (now : Int64)
    (ess : List (List (Bytes × Entry))) (m : Merge) (rs : List (List (Bytes × Entry)))
    (out : List (Bytes × Entry)) : Prop where
  cursors : List.Forall₂ Cursor.Shows m.cursors rs
  fits : ∀ r ∈ rs, ∀ p ∈ r, EntryFits p
  heap : HeadsOf rs m.heap
  writer : m.writer = SstableWriter.addAll { bitsPerKey := bits } out
  progress : Progress (keepEntry dropObsolete now) ess rs m.previous out
  written : m.written = out.length
  total : m.written + m.dropped + (rs.map List.length).sum = (ess.map List.length).sum

theorem addAll_snoc (w : SstableWriter) (out : List (Bytes × Entry)) (p : Bytes × Entry) :
    w.addAll (out ++ [p]) = (w.addAll out).add p.1 p.2 := by
  simp [SstableWriter.addAll]

/-- Parsing the next entry of a cursor shows the rest of its list. -/
theorem Cursor.Shows.next {c : Cursor} {p : Bytes × Entry} {es : List (Bytes × Entry)}
    (h : c.Shows (p :: es)) (hfit : ∀ q ∈ es, EntryFits q) : c.next.Shows es :=
  h.2.2.2.2.2.load hfit

/-- What `emit` does to the previous key, the output and the counts. -/
theorem Merge.emit_spec {bits : Int} {drop : Bool} {now : Int64}
    {ess rs : List (List (Bytes × Entry))} {m : Merge} {out : List (Bytes × Entry)}
    {head : Head} (heap : List Head) {e : Entry} {r : List (Bytes × Entry)} {c : Cursor}
    (h : Merge.Inv bits drop now ess m rs out)
    (hl : Least rs head.input head.key e r) (hc : c.Shows ((head.key, e) :: r)) :
    ∃ out', ({ m with heap }.emit c head.key drop now).writer =
        SstableWriter.addAll { bitsPerKey := bits } out' ∧
      Progress (keepEntry drop now) ess (rs.set head.input r)
        ({ m with heap }.emit c head.key drop now).previous out' ∧
      ({ m with heap }.emit c head.key drop now).written = out'.length ∧
      ({ m with heap }.emit c head.key drop now).written +
        ({ m with heap }.emit c head.key drop now).dropped = m.written + m.dropped + 1 ∧
      ({ m with heap }.emit c head.key drop now).cursors = m.cursors ∧
      ({ m with heap }.emit c head.key drop now).heap = heap := by
  have hobs : c.obsolete now = e.obsolete now := hc.obsolete now
  rw [Merge.emit]
  split
  · next hprev =>
      have hprev : m.previous = some head.key := hprev
      have hp := h.progress
      rw [hprev] at hp
      refine ⟨out, h.writer, ?_, h.written, by simp only []; omega, rfl, rfl⟩
      show Progress _ _ _ m.previous _
      rw [hprev]
      exact hp.skip hl
  · next hprev =>
      have hprev : m.previous ≠ some head.key := hprev
      have hp := h.progress.take hl hprev
      split
      · next hdrop =>
          rw [hobs] at hdrop
          have hkeep : keepEntry drop now e = none := by rw [keepEntry, if_pos hdrop]
          rw [hkeep] at hp
          simp only [Option.map_none, Option.toList_none, List.append_nil] at hp
          exact ⟨out, h.writer, hp, h.written, by simp only []; omega, rfl, rfl⟩
      · next hdrop =>
          rw [hobs] at hdrop
          have hkeep : keepEntry drop now e = some e.stored := by rw [keepEntry, if_neg hdrop]
          rw [hkeep] at hp
          simp only [Option.map_some, Option.toList_some] at hp
          refine ⟨_, ?_, hp, ?_, by simp only []; omega, rfl, rfl⟩
          · obtain ⟨_, hkey, hval, htomb, hstamp, _⟩ := hc
            show SstableWriter.add m.writer c.key _ = _
            rw [addAll_snoc, ← h.writer, hkey, hval, htomb, hstamp]
            rfl
          · show m.written + 1 = _
            rw [List.length_append, List.length_singleton, h.written]

/-- From a merge part way through, the loop takes every entry that is left. -/
theorem mergeLoop_spec (bits : Int) (drop : Bool) (now : Int64)
    (ess : List (List (Bytes × Entry))) :
    ∀ (fuel : Nat) (m : Merge) (rs : List (List (Bytes × Entry))) (out : List (Bytes × Entry)),
      Merge.Inv bits drop now ess m rs out → (rs.map List.length).sum < fuel →
      ∃ m' rs' out', mergeLoop drop now fuel m = some m' ∧
        Merge.Inv bits drop now ess m' rs' out' ∧ ∀ r ∈ rs', r = [] := by
  intro fuel
  induction fuel with
  | zero => intro m rs out _ hfuel; omega
  | succ fuel ih =>
      intro m rs out h hfuel
      rw [mergeLoop]
      cases hheap : m.heap with
      | nil =>
          refine ⟨m, rs, out, rfl, h, fun r hr => ?_⟩
          cases r with
          | nil => rfl
          | cons p r =>
              obtain ⟨i, hi⟩ := List.mem_iff_getElem?.mp hr
              have := (h.heap.mem ⟨i, p.1⟩).mpr ⟨p.2, r, hi⟩
              rw [hheap] at this
              cases this
      | cons head heap =>
          have hheads := h.heap
          rw [hheap] at hheads
          obtain ⟨e, r, hl⟩ := hheads.least
          obtain ⟨c, hcur, hc⟩ := forall₂_getElem? h.cursors hl.here
          have hfit := h.fits _ hl.mem
          have hnext : c.next.Shows r := hc.next fun q hq => hfit q (List.mem_cons_of_mem _ hq)
          obtain ⟨out', hw, hp, hwr, hcount, hcurs, hhp⟩ := Merge.emit_spec heap h hl hc
          simp only [hcur]
          rw [if_neg (by rw [hnext.live]; exact Bool.false_ne_true)]
          have hsum := length_sum_set hl.here
          have htotal := h.total
          refine ih _ (rs.set head.input r) out' ⟨?_, ?_, ?_, hw, hp, hwr, ?_⟩ (by omega)
          · simp only [hcurs]
            exact forall₂_set h.cursors hnext
          · intro r' hr' q hq
            rcases List.mem_or_eq_of_mem_set hr' with hr' | rfl
            · exact h.fits r' hr' q hq
            · exact hfit q (List.mem_cons_of_mem _ hq)
          · simp only [hhp]
            exact hheads.advance hl.here hnext
          · simp only []
            omega

/-! ## The whole merge -/

/-- What a merge of tables that hold `ess`, newest first, writes. -/
structure Merged (dropObsolete : Bool) (now : Int64) (ess : List (List (Bytes × Entry)))
    (out : List (Bytes × Entry)) : Prop where
  sorted : SortedMap.KeysSorted out
  fits : ∀ p ∈ out, EntryFits p
  find : ∀ key, SortedMap.findIn key out =
    (firstIn key ess).bind (keepEntry dropObsolete now)
  length : out.length ≤ (ess.map List.length).sum

theorem fits_keepEntry {drop : Bool} {now : Int64} {k : Bytes} {e e' : Entry}
    (h : EntryFits (k, e)) (hk : keepEntry drop now e = some e') : EntryFits (k, e') := by
  rw [keepEntry] at hk
  split at hk
  · cases hk
  · rw [← Option.some.inj hk]
    exact h

/-- There is only one list a merge can write. -/
theorem Merged.eq_merge {drop : Bool} {now : Int64} {ess : List (List (Bytes × Entry))}
    {out : List (Bytes × Entry)} (h : Merged drop now ess out) :
    out = merge (keepEntry drop now) ess := by
  obtain ⟨hsorted, hfind⟩ := merge_spec (keepEntry drop now) ess
  exact SortedMap.eq_of_findIn_eq h.sorted hsorted fun k => (h.find k).trans (hfind k).symm

/-- `compact` in closed form. -/
theorem compact_eq {inputs : List Sstable} {ess : List (List (Bytes × Entry))}
    (h : List.Forall₂ Sstable.Holds inputs ess) (bits : Int) (drop : Bool) (now : Int64) :
    ∃ out, Merged drop now ess out ∧
      compact inputs bits drop now =
        { ok := true
          written := out.length
          dropped := (ess.map List.length).sum - out.length
          file := writeTable bits out } := by
  have hcur : List.Forall₂ Cursor.Shows (inputs.map Sstable.cursor) ess := by
    rw [List.forall₂_map_left_iff]
    exact h.imp fun t es ht => ht.cursor
  have hsorted : ∀ r ∈ ess, SortedMap.KeysSorted r := by
    intro r hr
    obtain ⟨t, _, ht⟩ := forall₂_mem_right h hr
    exact ht.sorted
  have hfits : ∀ r ∈ ess, ∀ p ∈ r, EntryFits p := by
    intro r hr
    obtain ⟨t, _, ht⟩ := forall₂_mem_right h hr
    exact ht.fits
  have hlive : (inputs.map Sstable.cursor).any (·.failed) = false := by
    rw [List.any_eq_false]
    intro c hc
    obtain ⟨r, _, hr⟩ := forall₂_mem_left hcur hc
    rw [hr.live]
    exact Bool.false_ne_true
  have hfuel : (ess.map List.length).sum < (inputs.map (·.dataEnd)).sum + 1 := by
    have : (ess.map List.length).sum ≤ (inputs.map (·.dataEnd)).sum := by
      clear hcur hsorted hfits hlive
      induction h with
      | nil => exact Nat.le_refl _
      | @cons t es ts ess ht _ ih =>
          have := length_dataBlock_ge es
          have := ht.dataEnd
          simp only [List.map_cons, List.sum_cons]
          omega
    omega
  have hstart : Merge.Inv bits drop now ess
      { cursors := inputs.map Sstable.cursor, heap := firstHeads (inputs.map Sstable.cursor)
        writer := { bitsPerKey := bits } } ess [] :=
    ⟨hcur, hfits, headsOf_firstHeads hcur, rfl, Progress.start hsorted, rfl, by simp⟩
  obtain ⟨m, rs, out, hloop, hinv, hdone⟩ :=
    mergeLoop_spec bits drop now ess _ _ ess [] hstart hfuel
  have hzero : (rs.map List.length).sum = 0 := by
    rw [← List.length_flatten, List.flatten_eq_nil_iff.mpr hdone, List.length_nil]
  have htotal := hinv.total
  have hwritten := hinv.written
  have hfind := hinv.progress.finish hdone
  refine ⟨out, ⟨hinv.progress.outSorted, ?_, hfind, by omega⟩, ?_⟩
  · intro p hp
    have hsome := SortedMap.findIn_of_mem hinv.progress.outSorted (show (p.1, p.2) ∈ out from hp)
    rw [hfind, Option.bind_eq_some_iff] at hsome
    obtain ⟨e, he, hkeep⟩ := hsome
    obtain ⟨r, hr, hmem⟩ := mem_of_firstIn he
    exact fits_keepEntry (hfits r hr _ hmem) hkeep
  · have hfinish : m.writer.finish = writeTable bits out := by rw [hinv.writer, writeTable]
    rw [compact]
    simp only []
    rw [if_neg (by rw [hlive]; exact Bool.false_ne_true), hloop]
    simp only [hfinish, CompactionResult.mk.injEq, true_and, and_true]
    omega

end Cachedb
