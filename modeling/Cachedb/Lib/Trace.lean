import Mathlib.Data.List.Basic

/-!
# What comes before and after in a trace

Two ways to say something about every event of a trace: in terms of what came
later (`Followed`) and in terms of what came earlier (`Preceded`). Both are
recursive, so that a proof about a longer trace goes through the part that was
there and the part that was added; `followed_iff` and `preceded_iff` turn them
into statements about every way to split the trace at an event.
-/

universe u

namespace Trace

variable {ε : Type u}

/-- `q e later` for every event, `later` being what follows it. -/
def Followed (q : ε → List ε → Prop) : List ε → Prop
  | [] => True
  | e :: later => q e later ∧ Followed q later

/-- `q earlier e` for every event, `earlier` being what precedes it, with
`before` in front of the trace. -/
def Preceded (q : List ε → ε → Prop) (before : List ε) : List ε → Prop
  | [] => True
  | e :: later => q before e ∧ Preceded q (before ++ [e]) later

variable {q q' : ε → List ε → Prop} {r r' : List ε → ε → Prop} {xs ys before : List ε}

theorem followed_iff :
    Followed q xs ↔ ∀ earlier e later, xs = earlier ++ e :: later → q e later := by
  induction xs with
  | nil => simp [Followed]
  | cons x xs ih =>
      rw [Followed, ih]
      constructor
      · rintro ⟨hx, hxs⟩ earlier e later h
        cases earlier with
        | nil =>
            rw [List.nil_append, List.cons.injEq] at h
            rw [← h.1, ← h.2]
            exact hx
        | cons y earlier =>
            rw [List.cons_append, List.cons.injEq] at h
            exact hxs earlier e later h.2
      · intro h
        exact ⟨h [] x xs rfl,
          fun earlier e later heq => h (x :: earlier) e later (by rw [heq]; rfl)⟩

theorem preceded_iff :
    Preceded r before xs ↔
      ∀ earlier e later, xs = earlier ++ e :: later → r (before ++ earlier) e := by
  induction xs generalizing before with
  | nil => simp [Preceded]
  | cons x xs ih =>
      rw [Preceded, ih]
      constructor
      · rintro ⟨hx, hxs⟩ earlier e later h
        cases earlier with
        | nil =>
            rw [List.nil_append, List.cons.injEq] at h
            rw [List.append_nil, ← h.1]
            exact hx
        | cons y earlier =>
            rw [List.cons_append, List.cons.injEq] at h
            have := hxs earlier e later h.2
            rwa [List.append_assoc, List.singleton_append, h.1] at this
      · intro h
        refine ⟨by simpa using h [] x xs rfl, fun earlier e later heq => ?_⟩
        have := h (x :: earlier) e later (by rw [heq]; rfl)
        rwa [List.append_assoc, List.singleton_append]

theorem Followed.mono (h : Followed q xs) (hq : ∀ e later, q e later → q' e later) :
    Followed q' xs := by
  induction xs with
  | nil => trivial
  | cons x xs ih => exact ⟨hq _ _ h.1, ih h.2⟩

theorem followed_append :
    Followed q (xs ++ ys) ↔ Followed (fun e later => q e (later ++ ys)) xs ∧ Followed q ys := by
  induction xs with
  | nil => simp [Followed]
  | cons x xs ih => rw [List.cons_append, Followed, ih, Followed, and_assoc]

theorem preceded_append :
    Preceded r before (xs ++ ys) ↔ Preceded r before xs ∧ Preceded r (before ++ xs) ys := by
  induction xs generalizing before with
  | nil => simp [Preceded]
  | cons x xs ih =>
      rw [List.cons_append, Preceded, ih, Preceded, List.append_assoc, List.singleton_append,
        and_assoc]

/-- Only some events matter, and there are none of those. -/
theorem Followed.of_forall (h : ∀ e ∈ xs, ∀ later, q e later) : Followed q xs := by
  induction xs with
  | nil => trivial
  | cons x xs ih =>
      exact ⟨h x List.mem_cons_self xs, ih fun e he => h e (List.mem_cons_of_mem _ he)⟩

theorem Preceded.of_forall (h : ∀ e ∈ xs, ∀ earlier, r earlier e) : Preceded r before xs := by
  induction xs generalizing before with
  | nil => trivial
  | cons x xs ih =>
      exact ⟨h x List.mem_cons_self before, ih fun e he => h e (List.mem_cons_of_mem _ he)⟩

end Trace
