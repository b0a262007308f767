import Mathlib.Data.List.Basic

/-!
# Readers that are shown their input in pieces

A reader looks at the input it has not absorbed yet and makes a `Move`: it
absorbs some of it and goes on, delivers something, fails, or waits until
there is more. `Reads` is everything it makes of one input, `Feeds` what it
makes of several pieces, each put behind what is left of those before.

`Resumable` says that more input does not make a reader change its mind: a
move it made stays the move it makes, and where it waited it can go on as if
it had not. Such a reader delivers the same and fails alike however its input
is cut (`Feeds.unique`). The condition may be limited to inputs with a
property, which then has to hold wherever the reader gets to.
-/

universe u v w x

namespace Resume

/-- What a reader makes of the input it is shown. It absorbs the first `n`
symbols. -/
inductive Move (σ : Type u) (β : Type v) (ε : Type w) where
  | wait (s : σ) (n : Nat)
  | skip (s : σ) (n : Nat)
  | emit (s : σ) (n : Nat) (out : β)
  | fail (error : ε)

variable {σ : Type u} {α : Type x} {β : Type v} {ε : Type w}

/-- The same move, with `k` symbols in front of the input. -/
def Move.shift (k : Nat) : Move σ β ε → Move σ β ε
  | .wait s n => .wait s (k + n)
  | .skip s n => .skip s (k + n)
  | .emit s n out => .emit s (k + n) out
  | .fail error => .fail error

theorem Move.shift_zero (m : Move σ β ε) : m.shift 0 = m := by
  cases m <;> simp [Move.shift]

theorem Move.shift_shift (m : Move σ β ε) (j k : Nat) : (m.shift k).shift j = m.shift (j + k) := by
  cases m <;> simp [Move.shift, Nat.add_assoc]

/-- How a reader stands at the end of its input. -/
inductive End (σ : Type u) (α : Type x) (ε : Type w) where
  | waits (s : σ) (rest : List α)
  | failed (error : ε)

def End.error : End σ α ε → Option ε
  | .waits _ _ => none
  | .failed error => some error

variable (move : σ → List α → Move σ β ε)

/-- What a reader delivers from an input, and where it ends. -/
inductive Reads : σ → List α → List β → End σ α ε → Prop
  | wait {s t : σ} {xs : List α} {n : Nat} (h : move s xs = .wait t n) :
      Reads s xs [] (.waits t (xs.drop n))
  | fail {s : σ} {xs : List α} {error : ε} (h : move s xs = .fail error) :
      Reads s xs [] (.failed error)
  | skip {s t : σ} {xs : List α} {n : Nat} {outs : List β} {fin : End σ α ε}
      (h : move s xs = .skip t n) (rest : Reads t (xs.drop n) outs fin) : Reads s xs outs fin
  | emit {s t : σ} {xs : List α} {n : Nat} {out : β} {outs : List β} {fin : End σ α ε}
      (h : move s xs = .emit t n out) (rest : Reads t (xs.drop n) outs fin) :
      Reads s xs (out :: outs) fin

/-- The first move that absorbs and goes on no more, counted from where the
reader began. -/
inductive First : σ → List α → Move σ β ε → Prop
  | wait {s t : σ} {xs : List α} {n : Nat} (h : move s xs = .wait t n) : First s xs (.wait t n)
  | fail {s : σ} {xs : List α} {error : ε} (h : move s xs = .fail error) :
      First s xs (.fail error)
  | emit {s t : σ} {xs : List α} {n : Nat} {out : β} (h : move s xs = .emit t n out) :
      First s xs (.emit t n out)
  | skip {s t : σ} {xs : List α} {n : Nat} {m : Move σ β ε} (h : move s xs = .skip t n)
      (rest : First t (xs.drop n) m) : First s xs (m.shift n)

/-- The states and the inputs left that a reader gets to. -/
inductive Reaches : σ → List α → σ → List α → Prop
  | refl (s : σ) (xs : List α) : Reaches s xs s xs
  | skip {s t u : σ} {xs ys : List α} {n : Nat} (h : move s xs = .skip t n)
      (rest : Reaches t (xs.drop n) u ys) : Reaches s xs u ys
  | emit {s t u : σ} {xs ys : List α} {n : Nat} {out : β} (h : move s xs = .emit t n out)
      (rest : Reaches t (xs.drop n) u ys) : Reaches s xs u ys

/-- `P` holds wherever the reader gets to. -/
def Always (P : σ → List α → Prop) (s : σ) (xs : List α) : Prop :=
  ∀ t rest, Reaches move s xs t rest → P t rest

/-- The move on `xs` stands when `ys` comes behind it. -/
def Stands (P : σ → List α → Prop) (s : σ) (xs ys : List α) : Prop :=
  match move s xs with
  | .wait t n => n ≤ xs.length ∧ P t (xs.drop n ++ ys) ∧
      move s (xs ++ ys) = (move t (xs.drop n ++ ys)).shift n
  | .skip t n => n ≤ xs.length ∧ move s (xs ++ ys) = .skip t n
  | .emit t n out => n ≤ xs.length ∧ move s (xs ++ ys) = .emit t n out
  | .fail error => move s (xs ++ ys) = .fail error

/-- More input does not make the reader change its mind, where `P` holds, and
once it waits it waits until there is more. -/
structure Resumable (P : σ → List α → Prop) : Prop where
  settles : ∀ {s xs t n}, move s xs = .wait t n → move t (xs.drop n) = .wait t 0
  stands : ∀ s xs ys, P s (xs ++ ys) → Stands move P s xs ys

/-- What a reader delivers from pieces, `buf` being what is left of earlier
ones. Once it failed it reads no more. -/
inductive Feeds : σ → List α → List (List α) → List β → Option ε → Prop
  | done (s : σ) (buf : List α) : Feeds s buf [] [] none
  | failed {s : σ} {buf xs : List α} {outs : List β} {error : ε}
      (h : Reads move s (buf ++ xs) outs (.failed error)) (xss : List (List α)) :
      Feeds s buf (xs :: xss) outs (some error)
  | more {s t : σ} {buf xs rest : List α} {xss : List (List α)} {outs outs' : List β}
      {error : Option ε} (h : Reads move s (buf ++ xs) outs (.waits t rest))
      (later : Feeds t rest xss outs' error) : Feeds s buf (xs :: xss) (outs ++ outs') error

variable {move} {P : σ → List α → Prop} {s t : σ} {xs ys rest : List α} {outs outs' : List β}
  {fin fin' : End σ α ε} {n : Nat}

/-! ## One input -/

theorem Reads.unique (h : Reads move s xs outs fin) (h' : Reads move s xs outs' fin') :
    outs = outs' ∧ fin = fin' := by
  induction h generalizing outs' fin' with
  | wait h =>
      cases h' with
      | wait h₁ => cases h.symm.trans h₁; exact ⟨rfl, rfl⟩
      | fail h₁ => cases h.symm.trans h₁
      | skip h₁ _ => cases h.symm.trans h₁
      | emit h₁ _ => cases h.symm.trans h₁
  | fail h =>
      cases h' with
      | wait h₁ => cases h.symm.trans h₁
      | fail h₁ => cases h.symm.trans h₁; exact ⟨rfl, rfl⟩
      | skip h₁ _ => cases h.symm.trans h₁
      | emit h₁ _ => cases h.symm.trans h₁
  | skip h _ ih =>
      cases h' with
      | wait h₁ => cases h.symm.trans h₁
      | fail h₁ => cases h.symm.trans h₁
      | skip h₁ rest₁ => cases h.symm.trans h₁; exact ih rest₁
      | emit h₁ _ => cases h.symm.trans h₁
  | emit h _ ih =>
      cases h' with
      | wait h₁ => cases h.symm.trans h₁
      | fail h₁ => cases h.symm.trans h₁
      | skip h₁ _ => cases h.symm.trans h₁
      | emit h₁ rest₁ =>
          cases h.symm.trans h₁
          obtain ⟨houts, hfin⟩ := ih rest₁
          exact ⟨by rw [houts], hfin⟩

theorem First.unique {m m' : Move σ β ε} (h : First move s xs m) (h' : First move s xs m') :
    m = m' := by
  induction h generalizing m' with
  | wait h =>
      cases h' with
      | wait h₁ => exact h.symm.trans h₁
      | fail h₁ => cases h.symm.trans h₁
      | emit h₁ => cases h.symm.trans h₁
      | skip h₁ _ => cases h.symm.trans h₁
  | fail h =>
      cases h' with
      | wait h₁ => cases h.symm.trans h₁
      | fail h₁ => exact h.symm.trans h₁
      | emit h₁ => cases h.symm.trans h₁
      | skip h₁ _ => cases h.symm.trans h₁
  | emit h =>
      cases h' with
      | wait h₁ => cases h.symm.trans h₁
      | fail h₁ => cases h.symm.trans h₁
      | emit h₁ => exact h.symm.trans h₁
      | skip h₁ _ => cases h.symm.trans h₁
  | skip h _ ih =>
      cases h' with
      | wait h₁ => cases h.symm.trans h₁
      | fail h₁ => cases h.symm.trans h₁
      | emit h₁ => cases h.symm.trans h₁
      | skip h₁ rest₁ => cases h.symm.trans h₁; rw [ih rest₁]

/-- What is left is part of the input. -/
theorem Reads.rest_le (h : Reads move s xs outs (.waits t rest)) : rest.length ≤ xs.length := by
  generalize hend : End.waits t rest = fin at h
  induction h with
  | wait h => cases hend; rw [List.length_drop]; exact Nat.sub_le _ _
  | fail h => cases hend
  | skip h _ ih => exact Nat.le_trans (ih hend) (by rw [List.length_drop]; exact Nat.sub_le _ _)
  | emit h _ ih => exact Nat.le_trans (ih hend) (by rw [List.length_drop]; exact Nat.sub_le _ _)

/-- The first move that counts, and what comes after it. -/
theorem First.reads_emit {out : β} (h : First move s xs (.emit t n out))
    (rest : Reads move t (xs.drop n) outs fin) : Reads move s xs (out :: outs) fin := by
  generalize hm : Move.emit t n out = m at h
  induction h generalizing n with
  | wait h => cases hm
  | fail h => cases hm
  | emit h => cases hm; exact .emit h rest
  | @skip _ _ xs k m h _ ih =>
      cases m with
      | emit t' n' out' =>
          cases hm
          rw [← List.drop_drop] at rest
          exact .skip h (ih rest rfl)
      | wait _ _ => cases hm
      | skip _ _ => cases hm
      | fail _ => cases hm

theorem First.reads_wait (h : First move s xs (.wait t n)) :
    Reads move s xs [] (.waits t (xs.drop n)) := by
  generalize hm : Move.wait t n = m at h
  induction h generalizing n with
  | wait h => cases hm; exact .wait h
  | fail h => cases hm
  | emit h => cases hm
  | @skip _ _ xs k m h _ ih =>
      cases m with
      | wait t' n' =>
          cases hm
          rw [← List.drop_drop]
          exact .skip h (ih rfl)
      | emit _ _ _ => cases hm
      | skip _ _ => cases hm
      | fail _ => cases hm

theorem First.reads_fail {error : ε} (h : First move s xs (.fail error)) :
    Reads move s xs [] (.failed error) := by
  generalize hm : Move.fail error = m at h
  induction h with
  | wait h => cases hm
  | fail h => cases hm; exact .fail h
  | emit h => cases hm
  | @skip _ _ xs k m h _ ih =>
      cases m with
      | fail e' =>
          cases hm
          exact .skip h (ih rfl)
      | emit _ _ _ => cases hm
      | skip _ _ => cases hm
      | wait _ _ => cases hm

theorem Reaches.rest_le (h : Reaches move s xs t rest) : rest.length ≤ xs.length := by
  induction h with
  | refl s xs => exact Nat.le_refl _
  | skip h _ ih => exact Nat.le_trans ih (by rw [List.length_drop]; exact Nat.sub_le _ _)
  | emit h _ ih => exact Nat.le_trans ih (by rw [List.length_drop]; exact Nat.sub_le _ _)

/-! ## More input -/

theorem Always.here (h : Always move P s xs) : P s xs := h s xs (.refl s xs)

theorem Always.skip (h : Always move P s xs) (hm : move s xs = .skip t n) :
    Always move P t (xs.drop n) := fun u ys hu => h u ys (.skip hm hu)

theorem Always.emit {out : β} (h : Always move P s xs) (hm : move s xs = .emit t n out) :
    Always move P t (xs.drop n) := fun u ys hu => h u ys (.emit hm hu)

theorem Always.of_skip (hs : P s xs) (hm : move s xs = .skip t n)
    (h : Always move P t (xs.drop n)) : Always move P s xs := by
  rintro u zs (⟨⟩ | ⟨h₁, rest⟩ | ⟨h₁, rest⟩)
  · exact hs
  · cases hm.symm.trans h₁
    exact h u zs rest
  · cases hm.symm.trans h₁

theorem Always.of_emit {out : β} (hs : P s xs) (hm : move s xs = .emit t n out)
    (h : Always move P t (xs.drop n)) : Always move P s xs := by
  rintro u zs (⟨⟩ | ⟨h₁, rest⟩ | ⟨h₁, rest⟩)
  · exact hs
  · cases hm.symm.trans h₁
  · cases hm.symm.trans h₁
    exact h u zs rest

theorem Always.of_wait (hs : P s xs) (hm : move s xs = .wait t n) : Always move P s xs := by
  rintro u zs (⟨⟩ | ⟨h₁, rest⟩ | ⟨h₁, rest⟩)
  · exact hs
  · cases hm.symm.trans h₁
  · cases hm.symm.trans h₁

/-- What holds everywhere holds behind the first thing delivered. -/
theorem Always.first {out : β} (hP : Always move P s xs) (h : First move s xs (.emit t n out)) :
    Always move P t (xs.drop n) := by
  generalize hm : Move.emit t n out = m at h
  induction h generalizing n with
  | wait h => cases hm
  | fail h => cases hm
  | emit h => cases hm; exact hP.emit h
  | @skip _ _ xs k m h _ ih =>
      cases m with
      | emit t' n' out' =>
          cases hm
          rw [← List.drop_drop]
          exact ih (hP.skip h) rfl
      | wait _ _ => cases hm
      | skip _ _ => cases hm
      | fail _ => cases hm

/-- Where a reader waited it goes on as if it had not. -/
theorem Always.wait (h : Always move P s (xs ++ ys)) (hP : P t (xs.drop n ++ ys))
    (hn : n ≤ xs.length)
    (hm : move s (xs ++ ys) = (move t (xs.drop n ++ ys)).shift n) :
    Always move P t (xs.drop n ++ ys) := by
  have hdrop : ∀ k, (xs.drop n ++ ys).drop k = (xs ++ ys).drop (n + k) := by
    intro k
    rw [← List.drop_drop, List.drop_append_of_le_length hn]
  rintro u zs (⟨⟩ | ⟨h₁, rest⟩ | ⟨h₁, rest⟩)
  · exact hP
  · rw [h₁] at hm
    rw [hdrop] at rest
    exact h u zs (.skip hm rest)
  · rw [h₁] at hm
    rw [hdrop] at rest
    exact h u zs (.emit hm rest)

/-- What a reader makes of an input whose first part it waited on. -/
theorem Reads.shift (hn : n ≤ xs.length)
    (hm : move s (xs ++ ys) = (move t (xs.drop n ++ ys)).shift n)
    (h : Reads move t (xs.drop n ++ ys) outs fin) : Reads move s (xs ++ ys) outs fin := by
  have hdrop : ∀ k, (xs.drop n ++ ys).drop k = (xs ++ ys).drop (n + k) := by
    intro k
    rw [← List.drop_drop, List.drop_append_of_le_length hn]
  cases h with
  | wait h₁ =>
      rw [h₁] at hm
      rw [hdrop]
      exact .wait hm
  | fail h₁ =>
      rw [h₁] at hm
      exact .fail hm
  | skip h₁ rest =>
      rw [h₁] at hm
      rw [hdrop] at rest
      exact .skip hm rest
  | emit h₁ rest =>
      rw [h₁] at hm
      rw [hdrop] at rest
      exact .emit hm rest

/-- More input continues where the reader waited. -/
theorem Reads.append (hmove : Resumable move P) (h : Reads move s xs outs (.waits t rest))
    (hP : Always move P s (xs ++ ys)) :
    Always move P t (rest ++ ys) ∧
      ∀ {outs' fin}, Reads move t (rest ++ ys) outs' fin →
        Reads move s (xs ++ ys) (outs ++ outs') fin := by
  generalize hend : End.waits t rest = fin at h
  induction h with
  | @wait s t' xs n h =>
      cases hend
      have hs := hmove.stands s xs ys hP.here
      rw [Stands, h] at hs
      obtain ⟨hn, ht, hm⟩ := hs
      exact ⟨hP.wait ht hn hm, fun h' => h'.shift hn hm⟩
  | fail h => cases hend
  | @skip s t' xs n outs fin h _ ih =>
      have hs := hmove.stands s xs ys hP.here
      rw [Stands, h] at hs
      have hnext := hP.skip hs.2
      rw [List.drop_append_of_le_length hs.1] at hnext
      obtain ⟨hP', hrest⟩ := ih hnext hend
      refine ⟨hP', fun h' => .skip hs.2 ?_⟩
      rw [List.drop_append_of_le_length hs.1]
      exact hrest h'
  | @emit s t' xs n out outs fin h _ ih =>
      have hs := hmove.stands s xs ys hP.here
      rw [Stands, h] at hs
      have hnext := hP.emit hs.2
      rw [List.drop_append_of_le_length hs.1] at hnext
      obtain ⟨hP', hrest⟩ := ih hnext hend
      refine ⟨hP', fun h' => .emit hs.2 ?_⟩
      rw [List.drop_append_of_le_length hs.1]
      exact hrest h'

/-- A reader that failed fails whatever comes behind. -/
theorem Reads.append_failed {error : ε} (hmove : Resumable move P)
    (h : Reads move s xs outs (.failed error)) (hP : Always move P s (xs ++ ys)) :
    Reads move s (xs ++ ys) outs (.failed error) := by
  generalize hend : End.failed error = fin at h
  induction h with
  | wait h => cases hend
  | @fail s xs e h =>
      cases hend
      have hs := hmove.stands s xs ys hP.here
      rw [Stands, h] at hs
      exact .fail hs
  | @skip s t' xs n outs fin h _ ih =>
      have hs := hmove.stands s xs ys hP.here
      rw [Stands, h] at hs
      have hnext := hP.skip hs.2
      rw [List.drop_append_of_le_length hs.1] at hnext
      refine .skip hs.2 ?_
      rw [List.drop_append_of_le_length hs.1]
      exact ih hnext hend
  | @emit s t' xs n out outs fin h _ ih =>
      have hs := hmove.stands s xs ys hP.here
      rw [Stands, h] at hs
      have hnext := hP.emit hs.2
      rw [List.drop_append_of_le_length hs.1] at hnext
      refine .emit hs.2 ?_
      rw [List.drop_append_of_le_length hs.1]
      exact ih hnext hend

/-- The first move that counts does, unless it is to wait, whatever comes
behind. -/
theorem First.append {m : Move σ β ε} (hmove : Resumable move P) (h : First move s xs m)
    (hm : ∀ t n, m ≠ .wait t n) (hP : Always move P s (xs ++ ys)) : First move s (xs ++ ys) m := by
  induction h with
  | wait h => exact absurd rfl (hm _ _)
  | @fail s xs e h =>
      have hs := hmove.stands s xs ys hP.here
      rw [Stands, h] at hs
      exact .fail hs
  | @emit s t' xs n out h =>
      have hs := hmove.stands s xs ys hP.here
      rw [Stands, h] at hs
      exact .emit hs.2
  | @skip s t' xs n m h _ ih =>
      have hs := hmove.stands s xs ys hP.here
      rw [Stands, h] at hs
      have hnext := hP.skip hs.2
      rw [List.drop_append_of_le_length hs.1] at hnext
      refine .skip hs.2 ?_
      rw [List.drop_append_of_le_length hs.1]
      refine ih (fun t k hwait => ?_) hnext
      rw [hwait] at hm
      exact hm _ _ rfl

/-! ## Pieces -/

/-- Waiting leaves nothing that could be read at once. -/
theorem Reads.settled (hmove : Resumable move P) (h : Reads move s xs outs (.waits t rest)) :
    move t rest = .wait t 0 := by
  generalize hend : End.waits t rest = fin at h
  induction h with
  | wait h => cases hend; exact hmove.settles h
  | fail h => cases hend
  | skip h _ ih => exact ih hend
  | emit h _ ih => exact ih hend

/-- Pieces are read as the whole of them is. -/
theorem Feeds.reads {buf : List α} {xss : List (List α)} {error : Option ε}
    (hmove : Resumable move P) (h : Feeds move s buf xss outs error)
    (hs : move s buf = .wait s 0) (hP : Always move P s (buf ++ xss.flatten)) :
    ∃ fin, Reads move s (buf ++ xss.flatten) outs fin ∧ fin.error = error := by
  induction h with
  | done s buf =>
      refine ⟨.waits s buf, ?_, rfl⟩
      rw [List.flatten_nil, List.append_nil]
      exact .wait hs
  | failed h xss =>
      rw [List.flatten_cons, ← List.append_assoc] at hP ⊢
      exact ⟨_, h.append_failed hmove hP, rfl⟩
  | @more s t buf xs rest xss outs outs' error h _ ih =>
      rw [List.flatten_cons, ← List.append_assoc] at hP ⊢
      obtain ⟨hnext, hreads⟩ := h.append hmove hP
      obtain ⟨fin, hrest, herror⟩ := ih (h.settled hmove) hnext
      exact ⟨fin, hreads hrest, herror⟩

/-- However an input is cut, a reader delivers the same and fails alike. -/
theorem Feeds.unique {xss yss : List (List α)} {error error' : Option ε}
    (hmove : Resumable move P) (h : Feeds move s [] xss outs error)
    (h' : Feeds move s [] yss outs' error') (hsame : xss.flatten = yss.flatten)
    (hs : move s [] = .wait s 0) (hP : Always move P s xss.flatten) :
    outs = outs' ∧ error = error' := by
  obtain ⟨fin, hreads, rfl⟩ := h.reads hmove hs hP
  obtain ⟨fin', hreads', rfl⟩ := h'.reads hmove hs (by rw [← hsame]; exact hP)
  rw [← hsame] at hreads'
  obtain ⟨houts, hfin⟩ := hreads.unique hreads'
  exact ⟨houts, by rw [hfin]⟩

end Resume
