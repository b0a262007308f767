import Mathlib.Data.List.Basic
import Mathlib.Logic.Function.Iterate
import Mathlib.Algebra.Group.Nat.Defs

/-!
# Going round a list in stretches

A walk over the `n` places of a list that takes `b` places at a time, resumes
where it stopped, and starts over once it has come to the end. What it does at
a place is a function that does nothing more the second time. Wherever the
walk stands, `2 * ⌈n / b⌉` stretches take it over every place: half of them
bring it to the end, and the other half once round.
-/

namespace Rounds

/-- Where the walk stands after a stretch from `p`. -/
def next (b n p : Nat) : Nat := if p + b < n then p + b else 0

/-- From where it is, the walk has gone on `t` stretches or has started over
on the way. -/
theorem next_iterate (b n p : Nat) : ∀ t,
    (next b n)^[t] p = p + t * b ∨ ∃ s ≤ t, (next b n)^[s] p = 0 := by
  intro t
  induction t with
  | zero => exact Or.inl (by simp)
  | succ t ih =>
      rcases ih with h | ⟨s, hs, h⟩
      · rw [Function.iterate_succ_apply', h, next]
        split
        · exact Or.inl (by rw [Nat.succ_mul]; omega)
        · next hend =>
            refine Or.inr ⟨t + 1, Nat.le_refl _, ?_⟩
            rw [Function.iterate_succ_apply', h, next, if_neg hend]
      · exact Or.inr ⟨s, Nat.le_succ_of_le hs, h⟩

/-- `⌈n / b⌉` stretches cover `n` places. -/
theorem le_ceil_mul (n : Nat) {b : Nat} (hb : 1 ≤ b) : n ≤ (n + b - 1) / b * b := by
  have h := Nat.div_add_mod (n + b - 1) b
  have hmod := Nat.mod_lt (n + b - 1) hb
  rw [Nat.mul_comm] at h
  omega

/-- The walk starts over within `⌈n / b⌉` stretches. -/
theorem exists_start (b n p : Nat) (hb : 1 ≤ b) (hn : 0 < n) :
    ∃ s ≤ (n + b - 1) / b, (next b n)^[s] p = 0 := by
  have hcover := le_ceil_mul n hb
  obtain ⟨q, hq⟩ : ∃ q, (n + b - 1) / b = q + 1 := by
    cases hceil : (n + b - 1) / b with
    | zero => rw [hceil] at hcover; omega
    | succ q => exact ⟨q, rfl⟩
  rw [hq] at hcover ⊢
  rcases next_iterate b n p q with h | ⟨s, hs, h⟩
  · refine ⟨q + 1, Nat.le_refl _, ?_⟩
    rw [Nat.succ_mul] at hcover
    rw [Function.iterate_succ_apply', h, next, if_neg (by omega)]
  · exact ⟨s, Nat.le_succ_of_le hs, h⟩

/-- From the start the walk goes straight on. -/
theorem next_iterate_zero (b n : Nat) : ∀ t, t * b < n → (next b n)^[t] 0 = t * b := by
  intro t
  induction t with
  | zero => intro _; simp
  | succ t ih =>
      intro ht
      rw [Nat.succ_mul] at ht ⊢
      rw [Function.iterate_succ_apply', ih (by omega), next, if_pos ht]

/-- Every place is passed. -/
theorem exists_visit {b n i : Nat} (p : Nat) (hb : 1 ≤ b) (hi : i < n) :
    ∃ t < 2 * ((n + b - 1) / b), (next b n)^[t] p ≤ i ∧ i < (next b n)^[t] p + b := by
  obtain ⟨s, hs, hstart⟩ := exists_start b n p hb (by omega)
  have hcover := le_ceil_mul n hb
  have hround : i / b < (n + b - 1) / b := by
    rw [Nat.div_lt_iff_lt_mul hb]
    omega
  have hdiv := Nat.div_add_mod i b
  have hmod := Nat.mod_lt i hb
  rw [Nat.mul_comm] at hdiv
  have hposition : (next b n)^[i / b + s] p = i / b * b := by
    rw [Function.iterate_add_apply, hstart]
    exact next_iterate_zero b n _ (by omega)
  refine ⟨i / b + s, by omega, ?_⟩
  rw [hposition]
  omega

variable {α : Type _}

/-- What a stretch from `p` does. -/
def stretch (f : α → α) (b p : Nat) (xs : List α) : List α :=
  xs.take p ++ (((xs.drop p).take b).map f ++ (xs.drop p).drop b)

theorem getElem?_stretch (f : α → α) (b p : Nat) (xs : List α) (hp : p ≤ xs.length) (i : Nat) :
    (stretch f b p xs)[i]? = if p ≤ i ∧ i < p + b then xs[i]?.map f else xs[i]? := by
  have htake : (xs.take p).length = p := by rw [List.length_take, Nat.min_eq_left hp]
  have hmap : (((xs.drop p).take b).map f).length = min b (xs.length - p) := by
    rw [List.length_map, List.length_take, List.length_drop]
  rw [stretch]
  by_cases hlt : i < p
  · rw [if_neg (by omega), List.getElem?_append_left (by omega), List.getElem?_take_of_lt hlt]
  · rw [List.getElem?_append_right (by omega), htake]
    by_cases hin : i < p + b
    · rw [if_pos ⟨by omega, hin⟩]
      by_cases hend : i < xs.length
      · rw [List.getElem?_append_left (by omega), List.getElem?_map,
          List.getElem?_take_of_lt (by omega), List.getElem?_drop]
        rw [show p + (i - p) = i from by omega]
      · rw [List.getElem?_eq_none (by rw [List.length_append, hmap]; simp; omega),
          List.getElem?_eq_none (by omega)]
        rfl
    · rw [if_neg (by omega)]
      by_cases hend : i < xs.length
      · rw [List.getElem?_append_right (by omega), hmap, Nat.min_eq_left (by omega),
          List.getElem?_drop, List.getElem?_drop]
        rw [show p + (b + (i - p - b)) = i from by omega]
      · rw [List.getElem?_eq_none (by rw [List.length_append, hmap]; simp; omega),
          List.getElem?_eq_none (by omega)]

theorem length_stretch (f : α → α) (b p : Nat) (xs : List α) :
    (stretch f b p xs).length = xs.length := by
  simp [stretch]
  omega

/-- One stretch of the walk: where it stands, and the list. -/
def step (f : α → α) (b : Nat) (w : Nat × List α) : Nat × List α :=
  (next b w.2.length w.1, stretch f b w.1 w.2)

theorem next_le (b n p : Nat) : next b n p ≤ n := by
  rw [next]
  split <;> omega

theorem length_walk (f : α → α) (b : Nat) : ∀ (t : Nat) (w : Nat × List α),
    ((step f b)^[t] w).2.length = w.2.length := by
  intro t
  induction t with
  | zero => intro w; rfl
  | succ t ih =>
      intro w
      rw [Function.iterate_succ_apply, ih]
      exact length_stretch _ _ _ _

section

variable {f : α → α} (hf : ∀ a, f (f a) = f a)

include hf

theorem map_map_idem (o : Option α) : (o.map f).map f = o.map f := by
  cases o with
  | none => rfl
  | some a => exact congrArg some (hf a)

/-- Along the walk an element is as it was, or has been passed. -/
theorem getElem?_walk (b i : Nat) : ∀ (t : Nat) (w : Nat × List α), w.1 ≤ w.2.length →
    ((step f b)^[t] w).2[i]? = w.2[i]? ∨ ((step f b)^[t] w).2[i]? = w.2[i]?.map f := by
  intro t
  induction t with
  | zero => intro w _; exact Or.inl rfl
  | succ t ih =>
      intro w hw
      have hstep : (step f b w).1 ≤ (step f b w).2.length := by
        rw [step, length_stretch]
        exact next_le _ _ _
      have hone : (step f b w).2[i]? = _ := getElem?_stretch f b w.1 w.2 hw i
      rw [Function.iterate_succ_apply]
      have hrest := ih (step f b w) hstep
      rw [hone] at hrest
      split at hrest
      · rw [map_map_idem hf, or_self_iff] at hrest
        exact Or.inr hrest
      · exact hrest

/-- A place the walk has passed. -/
theorem getElem?_walk_visited (b i : Nat) : ∀ (t : Nat) (w : Nat × List α),
    w.1 ≤ w.2.length →
    (∃ s < t, (next b w.2.length)^[s] w.1 ≤ i ∧ i < (next b w.2.length)^[s] w.1 + b) →
    ((step f b)^[t] w).2[i]? = w.2[i]?.map f := by
  intro t
  induction t with
  | zero =>
      intro w _ hvisit
      obtain ⟨s, hs, _⟩ := hvisit
      omega
  | succ t ih =>
      intro w hw hvisit
      obtain ⟨s, hs, hvisit⟩ := hvisit
      have hstep : (step f b w).1 ≤ (step f b w).2.length := by
        rw [step, length_stretch]
        exact next_le _ _ _
      have hone : (step f b w).2[i]? = _ := getElem?_stretch f b w.1 w.2 hw i
      rw [Function.iterate_succ_apply]
      cases s with
      | zero =>
          rw [Function.iterate_zero_apply] at hvisit
          rw [if_pos hvisit] at hone
          have hrest := getElem?_walk hf b i t (step f b w) hstep
          rw [hone, map_map_idem hf, or_self_iff] at hrest
          exact hrest
      | succ s =>
          rw [Function.iterate_succ_apply] at hvisit
          rw [ih (step f b w) hstep, hone]
          · split
            · exact map_map_idem hf _
            · rfl
          · have hlen : (step f b w).2.length = w.2.length := length_stretch _ _ _ _
            refine ⟨s, by omega, ?_⟩
            rw [hlen]
            exact hvisit

/-- Wherever the walk stands, it has passed everything after twice as many
stretches as the list is long. -/
theorem walk_all {b p : Nat} {xs : List α} (hb : 1 ≤ b) (hp : p ≤ xs.length) :
    ((step f b)^[2 * ((xs.length + b - 1) / b)] (p, xs)).2 = xs.map f := by
  refine List.ext_getElem? fun i => ?_
  rw [List.getElem?_map]
  by_cases hi : i < xs.length
  · exact getElem?_walk_visited hf b i _ (p, xs) hp (exists_visit p hb hi)
  · have hlen := length_walk f b (2 * ((xs.length + b - 1) / b)) (p, xs)
    rw [List.getElem?_eq_none (Nat.not_lt.mp hi), List.getElem?_eq_none]
    · rfl
    · rw [hlen]
      exact Nat.not_lt.mp hi

end

end Rounds
