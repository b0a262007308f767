import Mathlib.Order.Lattice
import Mathlib.Data.List.Basic

/-!
# Layered lookups whose entries lapse

A layered store answers from the first layer that knows the key. What a layer
knows may be a marker that shows nothing, and it may show something now and
nothing later, so two different entries can be impossible to tell apart from
some moment on. `SameFrom` is that relation on answers. It is enough at the
bottom of a stack of layers, but not above another layer: there it also
matters whether the search ends, which is what `AlikeFrom` adds. A layer
replaced by one that is alike leaves every answer of the stack the same.
-/

universe u v w

namespace Layers

variable {β : Type u} {γ : Type v} {τ : Type w} [Preorder τ] (view : τ → β → Option γ)

/-- From `now` on the two answers show the same. -/
def SameFrom (now : τ) (a b : Option β) : Prop :=
  ∀ t, now ≤ t → a.bind (view t) = b.bind (view t)

/-- From `now` on the two answers show the same, and both end a search or
neither does. -/
def AlikeFrom (now : τ) (a b : Option β) : Prop :=
  (a.isSome = b.isSome) ∧ SameFrom view now a b

variable {view} {now now' : τ} {a b c d : Option β}

theorem SameFrom.refl (a : Option β) : SameFrom view now a a := fun _ _ => rfl

theorem SameFrom.symm (h : SameFrom view now a b) : SameFrom view now b a :=
  fun t ht => (h t ht).symm

theorem SameFrom.trans (h : SameFrom view now a b) (h' : SameFrom view now b c) :
    SameFrom view now a c := fun t ht => (h t ht).trans (h' t ht)

theorem SameFrom.mono (h : SameFrom view now a b) (hle : now ≤ now') :
    SameFrom view now' a b := fun t ht => h t (le_trans hle ht)

theorem AlikeFrom.refl (a : Option β) : AlikeFrom view now a a := ⟨rfl, .refl a⟩

theorem AlikeFrom.symm (h : AlikeFrom view now a b) : AlikeFrom view now b a :=
  ⟨h.1.symm, h.2.symm⟩

theorem AlikeFrom.trans (h : AlikeFrom view now a b) (h' : AlikeFrom view now b c) :
    AlikeFrom view now a c := ⟨h.1.trans h'.1, h.2.trans h'.2⟩

theorem AlikeFrom.mono (h : AlikeFrom view now a b) (hle : now ≤ now') :
    AlikeFrom view now' a b := ⟨h.1, h.2.mono hle⟩

/-- An answer above the rest of the stack may be replaced by one alike. -/
theorem SameFrom.or (h : AlikeFrom view now a b) (h' : SameFrom view now c d) :
    SameFrom view now (a.or c) (b.or d) := by
  obtain ⟨hs, hv⟩ := h
  cases a with
  | none =>
      cases b with
      | none => exact h'
      | some y => cases hs
  | some x =>
      cases b with
      | none => cases hs
      | some y => exact hv

theorem AlikeFrom.or (h : AlikeFrom view now a b) (h' : AlikeFrom view now c d) :
    AlikeFrom view now (a.or c) (b.or d) := by
  refine ⟨?_, SameFrom.or h h'.2⟩
  rw [Option.isSome_or, Option.isSome_or, h.1, h'.1]

end Layers
