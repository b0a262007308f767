import Mathlib.Order.Lattice
import Mathlib.Data.List.Basic

/-!
# Finite maps kept in key order

An ordered container is one of two things to its users: a function from keys
to values, which is what a lookup sees, and a list of entries in increasing
key order, which is what a walk over it sees. This file carries the second
and proves the first from it. `SortedMap` is the list with the proof that its
keys strictly increase, so every value of the type is a map, and two maps
that answer every lookup alike are the same map (`SortedMap.ext_find`).

The list-level functions come first, because a walk that stops half way
leaves a list and not a map.
-/

universe u v

namespace SortedMap

variable {κ : Type u} {α : Type v} [LinearOrder κ]

/-- The value stored under `k` in a list of entries, first match. -/
def findIn (k : κ) : List (κ × α) → Option α
  | [] => none
  | (k', v) :: rest => if k = k' then some v else findIn k rest

/-- Puts `v` under `k`, in key order, replacing what was there. -/
def insertIn (k : κ) (v : α) : List (κ × α) → List (κ × α)
  | [] => [(k, v)]
  | (k', v') :: rest =>
      if k < k' then (k, v) :: (k', v') :: rest
      else if k = k' then (k, v) :: rest
      else (k', v') :: insertIn k v rest

/-- Keys strictly increase along the list. -/
def KeysSorted (es : List (κ × α)) : Prop := (es.map Prod.fst).Pairwise (· < ·)

theorem keysSorted_nil : KeysSorted ([] : List (κ × α)) := List.Pairwise.nil

theorem keysSorted_cons {k : κ} {v : α} {rest : List (κ × α)} :
    KeysSorted ((k, v) :: rest) ↔
      (∀ e ∈ rest, k < e.1) ∧ KeysSorted rest := by
  simp [KeysSorted]

theorem keysSorted_append {xs ys : List (κ × α)} :
    KeysSorted (xs ++ ys) ↔ KeysSorted xs ∧ KeysSorted ys ∧
      ∀ x ∈ xs, ∀ y ∈ ys, x.1 < y.1 := by
  simp only [KeysSorted, List.map_append, List.pairwise_append, List.mem_map]
  constructor
  · rintro ⟨hx, hy, hxy⟩
    exact ⟨hx, hy, fun x hxm y hym => hxy _ ⟨x, hxm, rfl⟩ _ ⟨y, hym, rfl⟩⟩
  · rintro ⟨hx, hy, hxy⟩
    refine ⟨hx, hy, ?_⟩
    rintro _ ⟨x, hxm, rfl⟩ _ ⟨y, hym, rfl⟩
    exact hxy x hxm y hym

@[simp] theorem findIn_nil (k : κ) : findIn k ([] : List (κ × α)) = none := rfl

theorem findIn_cons (k k' : κ) (v : α) (rest : List (κ × α)) :
    findIn k ((k', v) :: rest) = if k = k' then some v else findIn k rest := rfl

theorem findIn_append (k : κ) (xs ys : List (κ × α)) :
    findIn k (xs ++ ys) = (findIn k xs).or (findIn k ys) := by
  induction xs with
  | nil => simp
  | cons x xs ih =>
      obtain ⟨k', v⟩ := x
      rw [List.cons_append, findIn_cons, findIn_cons]
      split
      · rfl
      · exact ih

theorem findIn_map {β : Type _} (f : α → β) (k : κ) (es : List (κ × α)) :
    findIn k (es.map fun p => (p.1, f p.2)) = (findIn k es).map f := by
  induction es with
  | nil => rfl
  | cons p es ih =>
      obtain ⟨k', v⟩ := p
      rw [List.map_cons, findIn_cons, findIn_cons, ih]
      split <;> rfl

theorem findIn_eq_none_iff {k : κ} {es : List (κ × α)} :
    findIn k es = none ↔ ∀ e ∈ es, e.1 ≠ k := by
  induction es with
  | nil => simp
  | cons x xs ih =>
      obtain ⟨k', v⟩ := x
      rw [findIn_cons]
      split
      · next h => simp [h]
      · next h => simp [ih, Ne.symm h]

theorem mem_of_findIn {k : κ} {v : α} {es : List (κ × α)}
    (h : findIn k es = some v) : (k, v) ∈ es := by
  induction es with
  | nil => cases h
  | cons x xs ih =>
      obtain ⟨k', v'⟩ := x
      rw [findIn_cons] at h
      split at h
      · next hk =>
          cases h
          rw [hk]
          exact List.mem_cons_self
      · exact List.mem_cons_of_mem _ (ih h)

theorem findIn_of_mem {k : κ} {v : α} {es : List (κ × α)}
    (hs : KeysSorted es) (h : (k, v) ∈ es) : findIn k es = some v := by
  induction es with
  | nil => cases h
  | cons x xs ih =>
      obtain ⟨k', v'⟩ := x
      obtain ⟨hlt, hs'⟩ := keysSorted_cons.mp hs
      rw [findIn_cons]
      rcases List.mem_cons.mp h with heq | hmem
      · cases heq
        rw [if_pos rfl]
      · rw [if_neg (ne_of_gt (hlt _ hmem))]
        exact ih hs' hmem

theorem findIn_filter (keep : κ → Bool) (k : κ) (es : List (κ × α)) :
    findIn k (es.filter fun e => keep e.1) = if keep k then findIn k es else none := by
  induction es with
  | nil => simp
  | cons e es ih =>
      obtain ⟨k', v⟩ := e
      rw [List.filter_cons, findIn_cons]
      by_cases hk : k = k'
      · subst hk
        cases hkeep : keep k with
        | true => simp [findIn_cons]
        | false => simpa [hkeep] using ih
      · cases hkeep : keep k' with
        | true => simpa [findIn_cons, hk] using ih
        | false => simpa [hk] using ih

/-- A key below every key of the list is not in it. -/
theorem findIn_eq_none_of_lt {k : κ} {es : List (κ × α)}
    (h : ∀ e ∈ es, k < e.1) : findIn k es = none :=
  findIn_eq_none_iff.mpr fun e he => ne_of_gt (h e he)

theorem findIn_insertIn {k k' : κ} {v : α} {es : List (κ × α)}
    (hs : KeysSorted es) :
    findIn k' (insertIn k v es) = if k' = k then some v else findIn k' es := by
  induction es with
  | nil => simp [insertIn, findIn_cons]
  | cons x xs ih =>
      obtain ⟨k₀, v₀⟩ := x
      obtain ⟨hlt, hs'⟩ := keysSorted_cons.mp hs
      rw [insertIn]
      split
      · rw [findIn_cons]
      · split
        · next hk =>
            subst hk
            rw [findIn_cons, findIn_cons]
            split <;> rfl
        · next hk =>
            rw [findIn_cons, ih hs', findIn_cons]
            by_cases h0 : k' = k₀
            · rw [if_pos h0, if_pos h0, if_neg (by rw [h0]; exact Ne.symm hk)]
            · rw [if_neg h0, if_neg h0]

theorem mem_insertIn {k : κ} {v : α} {es : List (κ × α)} {e : κ × α}
    (h : e ∈ insertIn k v es) : e = (k, v) ∨ e ∈ es := by
  induction es with
  | nil => exact Or.inl (by simpa [insertIn] using h)
  | cons x xs ih =>
      obtain ⟨k₀, v₀⟩ := x
      rw [insertIn] at h
      split at h
      · rcases List.mem_cons.mp h with h | h
        · exact Or.inl h
        · exact Or.inr h
      · split at h
        · rcases List.mem_cons.mp h with h | h
          · exact Or.inl h
          · exact Or.inr (List.mem_cons_of_mem _ h)
        · rcases List.mem_cons.mp h with h | h
          · exact Or.inr (by rw [h]; exact List.mem_cons_self)
          · exact (ih h).imp id (List.mem_cons_of_mem _)

theorem keysSorted_insertIn {k : κ} {v : α} {es : List (κ × α)}
    (hs : KeysSorted es) : KeysSorted (insertIn k v es) := by
  induction es with
  | nil => simp [insertIn, KeysSorted]
  | cons x xs ih =>
      obtain ⟨k₀, v₀⟩ := x
      obtain ⟨hlt, hs'⟩ := keysSorted_cons.mp hs
      rw [insertIn]
      split
      · next hk =>
          refine keysSorted_cons.mpr ⟨fun e he => ?_, hs⟩
          rcases List.mem_cons.mp he with he | he
          · rw [he]; exact hk
          · exact lt_trans hk (hlt e he)
      · next hk =>
          split
          · next heq =>
              subst heq
              exact keysSorted_cons.mpr ⟨hlt, hs'⟩
          · next hne =>
              refine keysSorted_cons.mpr ⟨fun e he => ?_, ih hs'⟩
              rcases mem_insertIn he with he | he
              · rw [he]
                exact lt_of_le_of_ne (not_lt.mp hk) (Ne.symm hne)
              · exact hlt e he

/-- Insertion walks past smaller keys. -/
theorem insertIn_append {k : κ} {v : α} {es : List (κ × α)} (h : ∀ e ∈ es, e.1 < k)
    (rest : List (κ × α)) : insertIn k v (es ++ rest) = es ++ insertIn k v rest := by
  induction es with
  | nil => rfl
  | cons x es ih =>
      obtain ⟨k', v'⟩ := x
      have hlt : k' < k := h _ List.mem_cons_self
      rw [List.cons_append, insertIn, if_neg (not_lt_of_gt hlt), if_neg (ne_of_gt hlt),
        ih fun e he => h e (List.mem_cons_of_mem _ he)]
      rfl

/-- A key that is there gets the new value. -/
theorem insertIn_self (k : κ) (v v' : α) (rest : List (κ × α)) :
    insertIn k v ((k, v') :: rest) = (k, v) :: rest := by
  rw [insertIn, if_neg (lt_irrefl k), if_pos rfl]

/-- A new key is one more entry. -/
theorem insertIn_perm {k : κ} {v : α} {es : List (κ × α)} (h : findIn k es = none) :
    (insertIn k v es).Perm ((k, v) :: es) := by
  induction es with
  | nil => exact .refl _
  | cons x xs ih =>
      obtain ⟨k₀, v₀⟩ := x
      rw [findIn_cons] at h
      split at h
      · cases h
      · next hne =>
          rw [insertIn]
          split
          · exact .refl _
          · exact ((ih h).cons _).trans (.swap _ _ _)

/-- A key that is there changes its value in its place. -/
theorem insertIn_of_findIn {k : κ} {v old : α} {es : List (κ × α)} (hs : KeysSorted es)
    (h : findIn k es = some old) :
    ∃ xs ys, es = xs ++ (k, old) :: ys ∧ insertIn k v es = xs ++ (k, v) :: ys := by
  obtain ⟨xs, ys, rfl⟩ := List.append_of_mem (mem_of_findIn h)
  refine ⟨xs, ys, rfl, ?_⟩
  have hlt := (keysSorted_append.mp hs).2.2
  rw [insertIn_append fun e he => hlt e he (k, old) List.mem_cons_self, insertIn_self]

/-- Insertion parts a list into what is smaller and what is larger. -/
theorem insertIn_eq_filter {k : κ} {v : α} {es : List (κ × α)} (hs : KeysSorted es) :
    insertIn k v es = es.filter (·.1 < k) ++ (k, v) :: es.filter (k < ·.1) := by
  induction es with
  | nil => rfl
  | cons x xs ih =>
      obtain ⟨k', v'⟩ := x
      obtain ⟨hlt, hs'⟩ := keysSorted_cons.mp hs
      have hall : k ≤ k' → xs.filter (·.1 < k) = [] ∧ xs.filter (k < ·.1) = xs := by
        intro hle
        refine ⟨List.filter_eq_nil_iff.mpr fun e he => ?_, List.filter_eq_self.mpr fun e he => ?_⟩
        · exact fun h => absurd (lt_of_le_of_lt hle (hlt e he)) (not_lt_of_gt (of_decide_eq_true h))
        · exact decide_eq_true (lt_of_le_of_lt hle (hlt e he))
      rcases lt_trichotomy k k' with hk | rfl | hk
      · obtain ⟨hnone, hsame⟩ := hall hk.le
        rw [insertIn, if_pos hk, List.filter_cons_of_neg (by simpa using hk.le),
          List.filter_cons_of_pos (by simpa using hk), hnone, hsame]
        rfl
      · obtain ⟨hnone, hsame⟩ := hall le_rfl
        rw [insertIn_self, List.filter_cons_of_neg (by simp), List.filter_cons_of_neg (by simp),
          hnone, hsame]
        rfl
      · rw [insertIn, if_neg (not_lt_of_gt hk), if_neg (ne_of_gt hk),
          List.filter_cons_of_pos (by simpa using hk),
          List.filter_cons_of_neg (by simpa using hk.le), ih hs']
        rfl

/-- Lists with the same lookups, both sorted, are the same list. -/
theorem eq_of_findIn_eq {xs ys : List (κ × α)} (hx : KeysSorted xs)
    (hy : KeysSorted ys) (h : ∀ k, findIn k xs = findIn k ys) : xs = ys := by
  induction xs generalizing ys with
  | nil =>
      cases ys with
      | nil => rfl
      | cons y ys =>
          have := h y.1
          rw [findIn_cons, if_pos rfl] at this
          cases this
  | cons x xs ih =>
      obtain ⟨k, v⟩ := x
      cases ys with
      | nil =>
          have := h k
          rw [findIn_cons, if_pos rfl] at this
          cases this
      | cons y ys =>
          obtain ⟨k', v'⟩ := y
          obtain ⟨hltx, hsx⟩ := keysSorted_cons.mp hx
          obtain ⟨hlty, hsy⟩ := keysSorted_cons.mp hy
          have hkk : k = k' := by
            -- Each head is found in the other list, so neither is smaller.
            have h1 := h k
            have h2 := h k'
            rw [findIn_cons, if_pos rfl] at h1
            rw [findIn_cons k' k' v' ys, if_pos rfl] at h2
            rcases lt_trichotomy k k' with hlt | heq | hgt
            · rw [findIn_cons, if_neg (ne_of_lt hlt), findIn_eq_none_of_lt
                (fun e he => lt_trans hlt (hlty e he))] at h1
              cases h1
            · exact heq
            · rw [findIn_cons, if_neg (ne_of_lt hgt), findIn_eq_none_of_lt
                (fun e he => lt_trans hgt (hltx e he))] at h2
              cases h2
          subst hkk
          have hv : v = v' := by
            have := h k
            rw [findIn_cons, findIn_cons, if_pos rfl, if_pos rfl] at this
            exact Option.some.inj this
          subst hv
          have htail : ∀ j, findIn j xs = findIn j ys := by
            intro j
            have hj := h j
            rw [findIn_cons, findIn_cons] at hj
            by_cases hjk : j = k
            · subst hjk
              rw [findIn_eq_none_of_lt hltx, findIn_eq_none_of_lt hlty]
            · rwa [if_neg hjk, if_neg hjk] at hj
          rw [ih hsx hsy htail]

end SortedMap

/-- A finite map, kept as the list of its entries in increasing key order. -/
structure SortedMap (κ : Type u) (α : Type v) [LinearOrder κ] where
  entries : List (κ × α)
  sorted : SortedMap.KeysSorted entries

namespace SortedMap

variable {κ : Type u} {α : Type v} [LinearOrder κ]

instance [DecidableEq α] : DecidableEq (SortedMap κ α) := fun a b =>
  decidable_of_iff (a.entries = b.entries) (by cases a; cases b; simp)

def empty : SortedMap κ α := ⟨[], keysSorted_nil⟩

def isEmpty (m : SortedMap κ α) : Bool := m.entries.isEmpty

def find (m : SortedMap κ α) (k : κ) : Option α := findIn k m.entries

def insert (m : SortedMap κ α) (k : κ) (v : α) : SortedMap κ α :=
  ⟨insertIn k v m.entries, keysSorted_insertIn m.sorted⟩

def erase (m : SortedMap κ α) (k : κ) : SortedMap κ α :=
  ⟨m.entries.filter (fun e => e.1 ≠ k),
    List.Pairwise.sublist (List.filter_sublist.map _) m.sorted⟩

def keys (m : SortedMap κ α) : List κ := m.entries.map Prod.fst

theorem find_insert (m : SortedMap κ α) (k k' : κ) (v : α) [Decidable (k' = k)] :
    (m.insert k v).find k' = if k' = k then some v else m.find k' := by
  rw [find, insert, findIn_insertIn m.sorted]
  by_cases h : k' = k
  · rw [if_pos h, if_pos h]
  · rw [if_neg h, if_neg h]
    rfl

theorem find_erase (m : SortedMap κ α) (k k' : κ) [Decidable (k' = k)] :
    (m.erase k).find k' = if k' = k then none else m.find k' := by
  split
  · next h =>
      subst h
      exact findIn_eq_none_iff.mpr fun e he => by
        simpa using (List.mem_filter.mp he).2
  · next h =>
      cases hf : m.find k' with
      | none =>
          exact findIn_eq_none_iff.mpr fun e he =>
            findIn_eq_none_iff.mp hf e (List.mem_filter.mp he).1
      | some v =>
          refine findIn_of_mem (m.erase k).sorted (List.mem_filter.mpr ?_)
          exact ⟨mem_of_findIn hf, by simpa using h⟩

theorem find_eq_some_iff {m : SortedMap κ α} {k : κ} {v : α} :
    m.find k = some v ↔ (k, v) ∈ m.entries :=
  ⟨mem_of_findIn, findIn_of_mem m.sorted⟩

theorem ext_find {m m' : SortedMap κ α} (h : ∀ k, m.find k = m'.find k) :
    m = m' := by
  obtain ⟨xs, hx⟩ := m
  obtain ⟨ys, hy⟩ := m'
  obtain rfl : xs = ys := eq_of_findIn_eq hx hy h
  rfl

theorem mem_keys_iff {m : SortedMap κ α} {k : κ} :
    k ∈ m.keys ↔ ∃ v, m.find k = some v := by
  simp [keys, find_eq_some_iff]

end SortedMap
