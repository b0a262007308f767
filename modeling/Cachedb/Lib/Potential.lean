import Mathlib.Algebra.Order.Ring.Nat

/-!
# What a run costs

The steps of a run are not alike. Most cost nothing and a few cost a lot, and a
bound for one step, as often as there are steps, says little about the run. A
potential is a number kept beside the state. A step that costs more than it is
granted has to lower the potential by as much, so over a run the cost is what
was granted and what the potential was at first (`amortized`).
-/

universe u v

namespace Potential

variable {σ : Type u} {ι : Type v} (step : σ → ι → σ)

/-- What `f` adds up to along a run. -/
def total (f : σ → ι → Nat) (s : σ) : List ι → Nat
  | [] => 0
  | i :: is => f s i + total f (step s i) is

/-- Every input of a run is one its state allows. -/
def Along (ok : σ → ι → Prop) (s : σ) : List ι → Prop
  | [] => True
  | i :: is => ok s i ∧ Along ok (step s i) is

variable {step}

/-- An invariant that every step keeps can be used to pay with at every step. -/
theorem amortized {inv : σ → Prop} {ok : σ → ι → Prop} (cost grant : σ → ι → Nat) (Φ : σ → Nat)
    (hinv : ∀ s i, inv s → ok s i → inv (step s i))
    (hpaid : ∀ s i, inv s → ok s i → cost s i + Φ (step s i) ≤ Φ s + grant s i) (is : List ι) :
    ∀ {s : σ}, inv s → Along step ok s is → inv (is.foldl step s) ∧
      total step cost s is + Φ (is.foldl step s) ≤ Φ s + total step grant s is := by
  induction is with
  | nil => exact fun hs _ => ⟨hs, Nat.le_of_eq (Nat.zero_add _)⟩
  | cons i is ih =>
      intro s hs hok
      have hone := hpaid s i hs hok.1
      obtain ⟨hlast, hrest⟩ := ih (hinv s i hs hok.1) hok.2
      refine ⟨hlast, ?_⟩
      rw [total, total, List.foldl_cons]
      omega

end Potential
