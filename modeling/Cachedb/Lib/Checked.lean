import Mathlib.Data.List.Basic
import Mathlib.Algebra.Group.Nat.Defs
import Mathlib.Algebra.Group.Int.Defs

/-!
# Code with its checks

Code over buffers and machine words, in a monad that stops where the language
would not: at an access outside of a buffer, at a result that does not fit its
64-bit word, at a loop that is still running. A program that returns has done
none of these, so "it always returns" is memory safety, absence of wrapping and
termination in one.
-/

namespace Checked

/-- What a run may stop at. -/
inductive Fault where
  /-- An access outside of the buffer or file. -/
  | outside
  /-- A result that leaves the 64-bit words. -/
  | wrapped
  /-- A loop that has not come to its end. -/
  | running
  deriving DecidableEq, Repr

abbrev Run (α : Type _) := Except Fault α

def add (a b : Nat) : Run Nat := if a + b < 2 ^ 64 then .ok (a + b) else .error .wrapped

def sub (a b : Nat) : Run Nat := if b ≤ a then .ok (a - b) else .error .wrapped

section Buffers

variable {α : Type _}

/-- The element at `i`. -/
def item (buf : List α) (i : Nat) : Run α :=
  match buf[i]? with
  | some a => .ok a
  | none => .error .outside

/-- `len` elements from `pos` on. -/
def slice (buf : List α) (pos len : Nat) : Run (List α) :=
  if pos + len ≤ buf.length then .ok ((buf.drop pos).take len) else .error .outside

end Buffers

variable {α β : Type _}

@[simp] theorem ok_bind (a : α) (f : α → Run β) : ((Except.ok a : Run α) >>= f) = f a := rfl

@[simp] theorem pure_eq_ok (a : α) : (pure a : Run α) = Except.ok a := rfl

theorem add_ok {a b : Nat} (h : a + b < 2 ^ 64) : add a b = .ok (a + b) := if_pos h

theorem sub_ok {a b : Nat} (h : b ≤ a) : sub a b = .ok (a - b) := if_pos h

theorem item_ok {buf : List α} {i : Nat} (h : i < buf.length) (d : α) :
    item buf i = .ok (buf.getD i d) := by
  rw [item, List.getElem?_eq_getElem h, List.getD_eq_getElem?_getD, List.getElem?_eq_getElem h]
  rfl

/-- At a place that is not the end there is an element. -/
theorem item_drop {buf : List α} {i : Nat} (h : i < buf.length) :
    ∃ a, item buf i = .ok a ∧ buf.drop i = a :: buf.drop (i + 1) := by
  refine ⟨buf[i], ?_, List.drop_eq_getElem_cons h⟩
  rw [item, List.getElem?_eq_getElem h]

theorem slice_ok {buf : List α} {pos len : Nat} (h : pos + len ≤ buf.length) :
    slice buf pos len = .ok ((buf.drop pos).take len) := if_pos h

/-! ## Signed words -/

/-- A number a signed 64-bit word can hold. -/
def Fits (n : Int) : Prop := -2 ^ 63 ≤ n ∧ n < 2 ^ 63

instance (n : Int) : Decidable (Fits n) := by unfold Fits; infer_instance

/-- The result of an operation on signed words, which is to be `n`. -/
def word (n : Int) (result : Int64) : Run Int64 :=
  if Fits n then .ok result else .error .wrapped

def addWords (a b : Int64) : Run Int64 := word (a.toInt + b.toInt) (a + b)

def subWords (a b : Int64) : Run Int64 := word (a.toInt - b.toInt) (a - b)

def mulWords (a b : Int64) : Run Int64 := word (a.toInt * b.toInt) (a * b)

def negWord (a : Int64) : Run Int64 := word (-a.toInt) (-a)

/-- Division that truncates, by a word that is not zero. -/
def divWords (a b : Int64) : Run Int64 :=
  if b = 0 then .error .wrapped else word (a.toInt.tdiv b.toInt) (a / b)

theorem bmod_of_fits {n : Int} (h : Fits n) : n.bmod (2 ^ 64) = n := by
  obtain ⟨hlo, hhi⟩ := h
  exact Int.bmod_eq_of_le (by omega) (by omega)

theorem addWords_ok {a b : Int64} (h : Fits (a.toInt + b.toInt)) :
    addWords a b = .ok (a + b) ∧ (a + b).toInt = a.toInt + b.toInt :=
  ⟨if_pos h, by rw [Int64.toInt_add, bmod_of_fits h]⟩

theorem subWords_ok {a b : Int64} (h : Fits (a.toInt - b.toInt)) :
    subWords a b = .ok (a - b) ∧ (a - b).toInt = a.toInt - b.toInt :=
  ⟨if_pos h, by rw [Int64.toInt_sub, bmod_of_fits h]⟩

theorem mulWords_ok {a b : Int64} (h : Fits (a.toInt * b.toInt)) :
    mulWords a b = .ok (a * b) ∧ (a * b).toInt = a.toInt * b.toInt :=
  ⟨if_pos h, by rw [Int64.toInt_mul, bmod_of_fits h]⟩

theorem negWord_ok {a : Int64} (h : Fits (-a.toInt)) :
    negWord a = .ok (-a) ∧ (-a).toInt = -a.toInt :=
  ⟨if_pos h, by rw [Int64.toInt_neg, bmod_of_fits h]⟩

theorem divWords_ok {a b : Int64} (hb : b ≠ 0) (h : Fits (a.toInt.tdiv b.toInt)) :
    divWords a b = .ok (a / b) ∧ (a / b).toInt = a.toInt.tdiv b.toInt :=
  ⟨by rw [divWords, if_neg hb]; exact if_pos h, by rw [Int64.toInt_div, bmod_of_fits h]⟩

end Checked
