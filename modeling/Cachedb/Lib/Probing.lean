import Mathlib.Data.Set.Lattice

/-!
# Filters that go by positions

Every key has positions. A filter is a set of marked positions: to add a key is
to mark all of its positions, and a key is admitted if all of its positions are
marked. So no key that was added is turned away, whatever the positions are,
and a filter to which nothing was added turns away every key that has a
position at all.

`Represents` ties this to a filter that is kept as something else and filled
key by key.
-/

universe u v w

namespace Probing

variable {κ : Type u} {π : Type v} {β : Type w} (positions : κ → Set π)

/-- What is marked once the keys are added. -/
def covered (keys : List κ) : Set π := {p | ∃ key ∈ keys, p ∈ positions key}

def Admits (marked : Set π) (key : κ) : Prop := positions key ⊆ marked

/-- The values that are `Ok` stand for the sets `marks`, and `add` adds a key. -/
structure Represents (Ok : β → Prop) (marks : β → Set π) (add : β → κ → β) : Prop where
  keeps : ∀ {b : β}, Ok b → ∀ key, Ok (add b key)
  adds : ∀ {b : β}, Ok b → ∀ key, marks (add b key) = marks b ∪ positions key

variable {positions}

theorem covered_nil : covered positions [] = ∅ := by
  ext p
  simp [covered]

theorem covered_cons (key : κ) (keys : List κ) :
    covered positions (key :: keys) = positions key ∪ covered positions keys := by
  ext p
  simp [covered]

theorem admits_covered {keys : List κ} {key : κ} (h : key ∈ keys) :
    Admits positions (covered positions keys) key := fun _ hp => ⟨key, h, hp⟩

theorem not_admits_empty {key : κ} (h : (positions key).Nonempty) : ¬Admits positions ∅ key := by
  intro hall
  obtain ⟨p, hp⟩ := h
  exact hall hp

variable {Ok : β → Prop} {marks : β → Set π} {add : β → κ → β}

theorem Represents.foldl (h : Represents positions Ok marks add) (keys : List κ) : ∀ {b : β},
    Ok b → Ok (keys.foldl add b) ∧
      marks (keys.foldl add b) = marks b ∪ covered positions keys := by
  induction keys with
  | nil =>
      intro b hb
      rw [covered_nil, Set.union_empty]
      exact ⟨hb, rfl⟩
  | cons key keys ih =>
      intro b hb
      obtain ⟨hok, hmarks⟩ := ih (h.keeps hb key)
      refine ⟨hok, hmarks.trans ?_⟩
      rw [h.adds hb, covered_cons, Set.union_assoc]

end Probing
