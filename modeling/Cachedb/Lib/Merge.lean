import Cachedb.Lib.SortedMap
import Mathlib.Algebra.Order.Ring.Nat
import Mathlib.Data.List.Forall2

/-!
# Merging sorted lists, earlier lists first

Several lists of entries in key order are merged by taking, again and again,
the least key at the front of any of them, and among equal keys the one of the
earliest list. The first entry taken for a key is then the version that the
earliest list knowing the key holds, and every later one is superseded.

`Progress` is the invariant of such a merge part way through, for any rule
`keep` that says what becomes of the version that counts. Taking an entry
whose key was the previous one (`Progress.skip`) and taking one with a new key
(`Progress.take`) both preserve it, and when nothing is left to take it says
what the output knows about every key (`Progress.finish`).
-/

universe u v w

namespace KMerge

open SortedMap

variable {κ : Type u} {α : Type v} {β : Type w} [LinearOrder κ]

/-- The version of `k` that counts: the one of the first list that has it. -/
def firstIn (k : κ) (rs : List (List (κ × α))) : Option α := rs.findSome? (findIn k)

theorem firstIn_cons (k : κ) (r : List (κ × α)) (rs : List (List (κ × α))) :
    firstIn k (r :: rs) = (findIn k r).or (firstIn k rs) := by
  rw [firstIn, List.findSome?_cons, firstIn]
  cases findIn k r <;> rfl

theorem firstIn_append (k : κ) (xs ys : List (List (κ × α))) :
    firstIn k (xs ++ ys) = (firstIn k xs).or (firstIn k ys) := by
  rw [firstIn, List.findSome?_append]
  rfl

theorem mem_of_firstIn {k : κ} {a : α} {rs : List (List (κ × α))}
    (h : firstIn k rs = some a) : ∃ r ∈ rs, (k, a) ∈ r := by
  obtain ⟨r, hr, ha⟩ := List.exists_of_findSome?_eq_some h
  exact ⟨r, hr, mem_of_findIn ha⟩

theorem firstIn_eq_none {k : κ} {rs : List (List (κ × α))}
    (h : ∀ r ∈ rs, ∀ e ∈ r, e.1 ≠ k) : firstIn k rs = none :=
  List.findSome?_eq_none_iff.mpr fun r hr => findIn_eq_none_iff.mpr (h r hr)

/-- Taking the front of a list changes the version of no other key. -/
theorem firstIn_set {k k' : κ} {a : α} {rest : List (κ × α)} :
    ∀ {rs : List (List (κ × α))} {i : Nat}, rs[i]? = some ((k, a) :: rest) → k' ≠ k →
      firstIn k' (rs.set i rest) = firstIn k' rs := by
  intro rs
  induction rs with
  | nil => intro i h; simp at h
  | cons r rs ih =>
      intro i h hne
      cases i with
      | zero =>
          obtain rfl : r = (k, a) :: rest := by simpa using h
          rw [List.set_cons_zero, firstIn_cons, firstIn_cons, findIn_cons, if_neg hne]
      | succ i =>
          rw [List.set_cons_succ, firstIn_cons, firstIn_cons, ih (by simpa using h) hne]

/-- `(k, a)` is the next entry to take, from list `i`. -/
structure Least (rs : List (List (κ × α))) (i : Nat) (k : κ) (a : α)
    (rest : List (κ × α)) : Prop where
  here : rs[i]? = some ((k, a) :: rest)
  least : ∀ j k' a' r, rs[j]? = some ((k', a') :: r) → k < k' ∨ k = k' ∧ i ≤ j

theorem Least.mem {rs : List (List (κ × α))} {i : Nat} {k : κ} {a : α}
    {rest : List (κ × α)} (h : Least rs i k a rest) : (k, a) :: rest ∈ rs :=
  List.mem_of_getElem? h.here

theorem Least.le {rs : List (List (κ × α))} {i : Nat} {k : κ} {a : α}
    {rest : List (κ × α)} (h : Least rs i k a rest) (hs : ∀ r ∈ rs, KeysSorted r)
    {r : List (κ × α)} (hr : r ∈ rs) {e : κ × α} (he : e ∈ r) : k ≤ e.1 := by
  obtain ⟨j, hj⟩ := List.mem_iff_getElem?.mp hr
  cases r with
  | nil => cases he
  | cons p r =>
      have hfront : k ≤ p.1 := by
        rcases h.least j p.1 p.2 r hj with hlt | ⟨heq, _⟩
        · exact le_of_lt hlt
        · exact le_of_eq heq
      rcases List.mem_cons.mp he with rfl | he
      · exact hfront
      · exact le_trans hfront (le_of_lt ((keysSorted_cons.mp (hs _ hr)).1 e he))

/-- The next entry is the version of its key that counts. -/
theorem Least.firstIn_eq {k : κ} {a : α} {rest : List (κ × α)} :
    ∀ {rs : List (List (κ × α))} {i : Nat}, Least rs i k a rest →
      (∀ r ∈ rs, KeysSorted r) → firstIn k rs = some a := by
  intro rs
  induction rs with
  | nil => intro i h _; exact absurd h.here (by simp)
  | cons r rs ih =>
      intro i h hs
      cases i with
      | zero =>
          obtain rfl : r = (k, a) :: rest := by simpa using h.here
          rw [firstIn_cons, findIn_cons, if_pos rfl, Option.some_or]
      | succ i =>
          have hnone : findIn k r = none := by
            cases r with
            | nil => rfl
            | cons p r =>
                -- An equal key in an earlier list would have come first.
                have hlt : k < p.1 := by
                  rcases h.least 0 p.1 p.2 r (by simp) with hlt | ⟨_, hle⟩
                  · exact hlt
                  · omega
                refine findIn_eq_none_of_lt fun e he => ?_
                rcases List.mem_cons.mp he with rfl | he
                · exact hlt
                · exact lt_trans hlt ((keysSorted_cons.mp (hs _ List.mem_cons_self)).1 e he)
          rw [firstIn_cons, hnone, Option.none_or]
          refine ih ⟨by simpa using h.here, fun j k' a' r' hj => ?_⟩
            fun r' hr' => hs r' (List.mem_cons_of_mem _ hr')
          rcases h.least (j + 1) k' a' r' (by simpa using hj) with hlt | ⟨heq, hle⟩
          · exact Or.inl hlt
          · exact Or.inr ⟨heq, by omega⟩

/-- A merge part way through: `rs` is left of the lists `ess`, `previous` is
the last key taken and `out` what was written. -/
structure Progress (keep : α → Option β) (ess rs : List (List (κ × α)))
    (previous : Option κ) (out : List (κ × β)) : Prop where
  sorted : ∀ r ∈ rs, KeysSorted r
  outSorted : KeysSorted out
  behind : ∀ e ∈ out, ∃ p, previous = some p ∧ e.1 ≤ p
  ahead : ∀ p, previous = some p → ∀ r ∈ rs, ∀ e ∈ r, p ≤ e.1
  /-- Nothing of a key that was not reached yet is gone. -/
  pending : ∀ k, (∀ p, previous = some p → p < k) → firstIn k rs = firstIn k ess
  settled : ∀ k p, previous = some p → k ≤ p → findIn k out = (firstIn k ess).bind keep

variable {keep : α → Option β} {ess rs : List (List (κ × α))} {previous : Option κ}
  {out : List (κ × β)} {i : Nat} {k : κ} {a : α} {rest : List (κ × α)}

theorem Progress.start (hs : ∀ r ∈ ess, KeysSorted r) : Progress keep ess ess none [] :=
  ⟨hs, keysSorted_nil, by simp, by simp, fun _ _ => rfl, by simp⟩

/-- What is left keeps its order when a front is taken. -/
theorem Progress.sorted_set (h : Progress keep ess rs previous out)
    (hl : Least rs i k a rest) : ∀ r ∈ rs.set i rest, KeysSorted r := by
  intro r hr
  rcases List.mem_or_eq_of_mem_set hr with hr | rfl
  · exact h.sorted r hr
  · exact (keysSorted_cons.mp (h.sorted _ hl.mem)).2

/-- What is left after taking `k` lies at `k` or beyond. -/
theorem Progress.ahead_set (h : Progress keep ess rs previous out)
    (hl : Least rs i k a rest) : ∀ r ∈ rs.set i rest, ∀ e ∈ r, k ≤ e.1 := by
  intro r hr e he
  rcases List.mem_or_eq_of_mem_set hr with hr | rfl
  · exact hl.le h.sorted hr he
  · exact hl.le h.sorted hl.mem (List.mem_cons_of_mem _ he)

/-- An older version of the key just taken is passed over. -/
theorem Progress.skip (h : Progress keep ess rs (some k) out) (hl : Least rs i k a rest) :
    Progress keep ess (rs.set i rest) (some k) out where
  sorted := h.sorted_set hl
  outSorted := h.outSorted
  behind := h.behind
  ahead p hp := by
    cases hp
    exact h.ahead_set hl
  pending k' hk' := by
    rw [firstIn_set hl.here (ne_of_gt (hk' k rfl))]
    exact h.pending k' hk'
  settled := h.settled

/-- Keys between the previous one and the next are in no list. -/
theorem Progress.firstIn_between (h : Progress keep ess rs previous out)
    (hl : Least rs i k a rest) {k' : κ} (hp : ∀ p, previous = some p → p < k')
    (hlt : k' < k) : firstIn k' ess = none := by
  rw [← h.pending k' hp]
  refine firstIn_eq_none fun r hr e he heq => ?_
  exact absurd (hl.le h.sorted hr he) (by rw [heq]; exact not_le_of_gt hlt)

/-- The next key lies beyond the previous one, unless it is the same. -/
theorem Progress.beyond (h : Progress keep ess rs previous out) (hl : Least rs i k a rest)
    (hne : previous ≠ some k) : ∀ p, previous = some p → p < k := by
  intro p hp
  refine lt_of_le_of_ne (h.ahead p hp _ hl.mem _ List.mem_cons_self) ?_
  rintro rfl
  exact hne hp

/-- The version of a new key that counts is written, or left out, as `keep`
says. -/
theorem Progress.take (h : Progress keep ess rs previous out) (hl : Least rs i k a rest)
    (hne : previous ≠ some k) :
    Progress keep ess (rs.set i rest) (some k)
      (out ++ ((keep a).map fun b => (k, b)).toList) := by
  have hbeyond := h.beyond hl hne
  have hfirst : firstIn k ess = some a := by
    rw [← h.pending k hbeyond]; exact hl.firstIn_eq h.sorted
  have hlow : ∀ e ∈ out, e.1 < k := by
    intro e he
    obtain ⟨p, hp, hle⟩ := h.behind e he
    exact lt_of_le_of_lt hle (hbeyond p hp)
  have hnew : ∀ e ∈ ((keep a).map fun b => (k, b)).toList, e.1 = k := by
    intro e he
    cases hk : keep a with
    | none => simp [hk] at he
    | some b =>
        simp only [hk, Option.map_some, Option.toList_some, List.mem_singleton] at he
        rw [he]
  refine ⟨h.sorted_set hl, ?_, ?_, ?_, ?_, ?_⟩
  · refine keysSorted_append.mpr ⟨h.outSorted, ?_, fun x hx y hy => ?_⟩
    · cases keep a with
      | none => exact keysSorted_nil
      | some b => exact keysSorted_cons.mpr ⟨by simp, keysSorted_nil⟩
    · rw [hnew y hy]; exact hlow x hx
  · intro e he
    rcases List.mem_append.mp he with he | he
    · exact ⟨k, rfl, le_of_lt (hlow e he)⟩
    · exact ⟨k, rfl, le_of_eq (hnew e he)⟩
  · intro p hp
    cases hp
    exact h.ahead_set hl
  · intro k' hk'
    have hlt := hk' k rfl
    rw [firstIn_set hl.here (ne_of_gt hlt)]
    exact h.pending k' fun p hp => lt_trans (hbeyond p hp) hlt
  · intro k' p hp hle
    cases hp
    rw [findIn_append]
    rcases lt_or_eq_of_le hle with hlt | rfl
    · -- Below the new key only what was settled before counts.
      have hnone : findIn k' ((keep a).map fun b => (k, b)).toList = none :=
        findIn_eq_none_iff.mpr fun e he => by rw [hnew e he]; exact ne_of_gt hlt
      rw [hnone, Option.or_none]
      by_cases hold : ∃ p, previous = some p ∧ k' ≤ p
      · obtain ⟨p, hp, hle'⟩ := hold
        exact h.settled k' p hp hle'
      · have hgap : ∀ p, previous = some p → p < k' :=
          fun p hp => not_le.mp fun hle' => hold ⟨p, hp, hle'⟩
        rw [h.firstIn_between hl hgap hlt, Option.bind_none]
        refine findIn_eq_none_iff.mpr fun e he heq => ?_
        obtain ⟨p, hp, hle'⟩ := h.behind e he
        exact hold ⟨p, hp, by rw [← heq]; exact hle'⟩
    · have hnone : findIn k' out = none :=
        findIn_eq_none_iff.mpr fun e he => ne_of_lt (hlow e he)
      rw [hnone, Option.none_or, hfirst, Option.bind_some]
      cases keep a with
      | none => rfl
      | some b =>
          rw [Option.map_some, Option.toList_some, findIn_cons, if_pos rfl]

/-- When nothing is left, the output knows about every key what `keep` made of
the version that counts. -/
theorem Progress.finish (h : Progress keep ess rs previous out) (hdone : ∀ r ∈ rs, r = [])
    (k : κ) : findIn k out = (firstIn k ess).bind keep := by
  by_cases hold : ∃ p, previous = some p ∧ k ≤ p
  · obtain ⟨p, hp, hle⟩ := hold
    exact h.settled k p hp hle
  · have hgap : ∀ p, previous = some p → p < k :=
      fun p hp => not_le.mp fun hle => hold ⟨p, hp, hle⟩
    have hnone : firstIn k ess = none := by
      rw [← h.pending k hgap]
      refine firstIn_eq_none fun r hr e he => ?_
      rw [hdone r hr] at he
      cases he
    rw [hnone, Option.bind_none]
    refine findIn_eq_none_iff.mpr fun e he heq => ?_
    obtain ⟨p, hp, hle⟩ := h.behind e he
    exact hold ⟨p, hp, by rw [← heq]; exact hle⟩

/-! ## The result in one line -/

/-- Every key with what `keep` makes of the version that counts: the lists are
put into one, the first of them last. -/
def merge (keep : α → Option β) (ess : List (List (κ × α))) : List (κ × β) :=
  (ess.flatten.foldr (fun p es => insertIn p.1 p.2 es) []).filterMap fun p =>
    (keep p.2).map fun b => (p.1, b)

theorem foldr_insertIn (es : List (κ × α)) :
    KeysSorted (es.foldr (fun p es => insertIn p.1 p.2 es) []) ∧
      ∀ k, findIn k (es.foldr (fun p es => insertIn p.1 p.2 es) []) = findIn k es := by
  induction es with
  | nil => exact ⟨keysSorted_nil, fun _ => rfl⟩
  | cons p es ih =>
      rw [List.foldr_cons]
      refine ⟨keysSorted_insertIn ih.1, fun k => ?_⟩
      rw [findIn_insertIn ih.1, ih.2 k, findIn_cons]

theorem findIn_flatten (k : κ) (ess : List (List (κ × α))) :
    findIn k ess.flatten = firstIn k ess := by
  induction ess with
  | nil => rfl
  | cons es ess ih => rw [List.flatten_cons, findIn_append, ih, firstIn_cons]

theorem filterMap_keep {es : List (κ × α)} (h : KeysSorted es) (keep : α → Option β) :
    KeysSorted (es.filterMap fun p => (keep p.2).map fun b => (p.1, b)) ∧
      ∀ k, findIn k (es.filterMap fun p => (keep p.2).map fun b => (p.1, b)) =
        (findIn k es).bind keep := by
  induction es with
  | nil => exact ⟨keysSorted_nil, fun _ => rfl⟩
  | cons p es ih =>
      obtain ⟨k₀, a⟩ := p
      obtain ⟨hlt, hs⟩ := keysSorted_cons.mp h
      obtain ⟨hsorted, hfind⟩ := ih hs
      have hnone : findIn k₀ es = none := findIn_eq_none_of_lt hlt
      cases hkeep : keep a with
      | none =>
          rw [List.filterMap_cons_none (by rw [hkeep]; rfl)]
          refine ⟨hsorted, fun k => ?_⟩
          rw [hfind, findIn_cons]
          split
          · next heq => rw [heq, hnone, Option.bind_some, hkeep]; rfl
          · rfl
      | some b =>
          rw [List.filterMap_cons_some (b := (k₀, b)) (by rw [hkeep]; rfl)]
          refine ⟨keysSorted_cons.mpr ⟨fun e he => ?_, hsorted⟩, fun k => ?_⟩
          · obtain ⟨p, hp, hpe⟩ := List.mem_filterMap.mp he
            obtain ⟨b', _, rfl⟩ := Option.map_eq_some_iff.mp hpe
            exact hlt p hp
          · rw [findIn_cons, findIn_cons, hfind]
            split
            · rw [Option.bind_some, hkeep]
            · rfl

theorem merge_spec (keep : α → Option β) (ess : List (List (κ × α))) :
    KeysSorted (merge keep ess) ∧
      ∀ k, findIn k (merge keep ess) = (firstIn k ess).bind keep := by
  obtain ⟨hsorted, hfind⟩ := foldr_insertIn ess.flatten
  obtain ⟨hkept, hfound⟩ := filterMap_keep hsorted keep
  refine ⟨hkept, fun k => ?_⟩
  rw [merge, hfound, hfind, findIn_flatten]

omit [LinearOrder κ] in
/-- Taking a front takes one entry. -/
theorem length_sum_set {rs : List (List (κ × α))} {i : Nat} {p : κ × α}
    {rest : List (κ × α)} (h : rs[i]? = some (p :: rest)) :
    ((rs.set i rest).map List.length).sum + 1 = (rs.map List.length).sum := by
  induction rs generalizing i with
  | nil => simp at h
  | cons r rs ih =>
      cases i with
      | zero =>
          obtain rfl : r = p :: rest := by simpa using h
          simp only [List.set_cons_zero, List.map_cons, List.sum_cons, List.length_cons]
          omega
      | succ i =>
          have := ih (i := i) (by simpa using h)
          simp only [List.set_cons_succ, List.map_cons, List.sum_cons]
          omega

/-! ## Lists kept side by side -/

section Paired

variable {R : α → β → Prop} {xs : List α} {ys : List β}

theorem forall₂_set (h : List.Forall₂ R xs ys) {i : Nat} {x : α} {y : β} (hxy : R x y) :
    List.Forall₂ R (xs.set i x) (ys.set i y) := by
  induction h generalizing i with
  | nil => exact .nil
  | cons hd tl ih =>
      cases i with
      | zero => exact .cons hxy tl
      | succ i => exact .cons hd ih

theorem forall₂_getElem? (h : List.Forall₂ R xs ys) {i : Nat} {y : β} (hy : ys[i]? = some y) :
    ∃ x, xs[i]? = some x ∧ R x y := by
  induction h generalizing i with
  | nil => simp at hy
  | @cons a b _ _ hd _ ih =>
      cases i with
      | zero =>
          obtain rfl : b = y := by simpa using hy
          exact ⟨a, by simp, hd⟩
      | succ i => simpa using ih (by simpa using hy)

theorem forall₂_mem_right (h : List.Forall₂ R xs ys) {y : β} (hy : y ∈ ys) :
    ∃ x ∈ xs, R x y := by
  obtain ⟨i, hi⟩ := List.mem_iff_getElem?.mp hy
  obtain ⟨x, hx, hR⟩ := forall₂_getElem? h hi
  exact ⟨x, List.mem_of_getElem? hx, hR⟩

theorem forall₂_mem_left (h : List.Forall₂ R xs ys) {x : α} (hx : x ∈ xs) :
    ∃ y ∈ ys, R x y :=
  forall₂_mem_right h.flip hx

end Paired

end KMerge
