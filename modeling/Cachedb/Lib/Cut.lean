import Mathlib.Data.List.Basic

/-!
# Stopping a sequence of calls part way

A program that dies leaves behind what it had already asked for. The calls it
was going to make are a list, the ones it did make are a beginning of that
list, and the last of them may itself have been performed only in part. `Cut`
says exactly that, for any type of call and any notion `torn` of a call done
in part; what a stopped run leaves is then the fold of the cut list over the
state the run began in.
-/

universe u v

/-- `Cut torn es done`: a run that was going to perform `es` was stopped
having performed `done`, whose last call may be a `torn` one. -/
inductive Cut {ε : Type u} (torn : ε → ε → Prop) : List ε → List ε → Prop where
  | stop (es : List ε) : Cut torn es []
  | inside {e e' : ε} (es : List ε) (h : torn e e') : Cut torn (e :: es) [e']
  | next (e : ε) {es done : List ε} (h : Cut torn es done) : Cut torn (e :: es) (e :: done)

namespace Cut

variable {ε : Type u} {torn : ε → ε → Prop}

theorem full (es : List ε) : Cut torn es es := by
  induction es with
  | nil => exact .stop []
  | cons e es ih => exact .next e ih

theorem nil_inv {done : List ε} (h : Cut torn [] done) : done = [] := by
  cases h; rfl

/-- A run in two halves is stopped in the first or in the second. -/
theorem append_inv {xs ys done : List ε} (h : Cut torn (xs ++ ys) done) :
    Cut torn xs done ∨ ∃ d, done = xs ++ d ∧ Cut torn ys d := by
  induction xs generalizing done with
  | nil => exact Or.inr ⟨done, rfl, h⟩
  | cons x xs ih =>
      cases h with
      | stop => exact Or.inl (.stop _)
      | inside _ ht => exact Or.inl (.inside _ ht)
      | next _ h =>
          rcases ih h with hl | ⟨d, rfl, hd⟩
          · exact Or.inl (.next x hl)
          · exact Or.inr ⟨d, rfl, hd⟩

theorem cons_inv {e : ε} {es done : List ε} (h : Cut torn (e :: es) done) :
    done = [] ∨ (∃ e', torn e e' ∧ done = [e']) ∨ ∃ d, done = e :: d ∧ Cut torn es d := by
  cases h with
  | stop => exact Or.inl rfl
  | inside _ ht => exact Or.inr (Or.inl ⟨_, ht, rfl⟩)
  | next _ h => exact Or.inr (Or.inr ⟨_, rfl, h⟩)

theorem take (es : List ε) (n : Nat) : Cut torn es (es.take n) := by
  induction es generalizing n with
  | nil => rw [List.take_nil]; exact .stop []
  | cons e es ih =>
      cases n with
      | zero => exact .stop _
      | succ n => exact .next e (ih n)

/-- What was performed was asked for, or is part of something that was. -/
theorem mem {es done : List ε} (h : Cut torn es done) {e : ε} (he : e ∈ done) :
    e ∈ es ∨ ∃ e₀ ∈ es, torn e₀ e := by
  induction h with
  | stop => cases he
  | inside es ht =>
      rw [List.mem_singleton.mp he]
      exact Or.inr ⟨_, List.mem_cons_self, ht⟩
  | next e₁ _ ih =>
      rcases List.mem_cons.mp he with rfl | he
      · exact Or.inl List.mem_cons_self
      · rcases ih he with h | ⟨e₀, h₀, ht⟩
        · exact Or.inl (List.mem_cons_of_mem _ h)
        · exact Or.inr ⟨e₀, List.mem_cons_of_mem _ h₀, ht⟩

end Cut
