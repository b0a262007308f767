import Cachedb.Model.Resp

/-!
# Numbers as text

`append_i64` writes a number and `parse_i64` reads one, in different
functions. What is written is read back as it was, and consists of digits and
a minus sign, so that a line it stands in ends where it was ended.
-/

namespace Cachedb

theorem digitValue_digit {n : Nat} (h : n < 10) : digitValue (digit n) = n :=
  (by decide : ∀ n : Fin 10, digitValue (digit n) = n) ⟨n, h⟩

theorem isDigit_digit {n : Nat} (h : n < 10) : isDigit (digit n) = true :=
  (by decide : ∀ n : Fin 10, isDigit (digit n) = true) ⟨n, h⟩

theorem digitsValue_concat (s : Bytes) (c : UInt8) :
    digitsValue (s ++ [c]) = digitsValue s * 10 + digitValue c := by
  unfold digitsValue
  rw [List.foldl_append]
  rfl

theorem decimalDigits_spec (fuel : Nat) :
    ∀ n, n < fuel → digitsValue (decimalDigits fuel n) = n ∧ decimalDigits fuel n ≠ [] ∧
      ∀ c ∈ decimalDigits fuel n, isDigit c = true := by
  induction fuel with
  | zero => intro n h; omega
  | succ fuel ih =>
      intro n h
      rw [decimalDigits]
      by_cases hn : n < 10
      · rw [if_pos hn]
        refine ⟨?_, List.cons_ne_nil _ _, fun c hc => ?_⟩
        · show 0 * 10 + digitValue (digit n) = n
          rw [digitValue_digit hn]
          omega
        · rw [List.mem_singleton.mp hc]
          exact isDigit_digit hn
      · rw [if_neg hn]
        obtain ⟨hvalue, _, hdigits⟩ := ih (n / 10) (by omega)
        have hlast : n % 10 < 10 := Nat.mod_lt _ (by omega)
        refine ⟨?_, by simp, fun c hc => ?_⟩
        · rw [digitsValue_concat, hvalue, digitValue_digit hlast]
          omega
        · rcases List.mem_append.mp hc with hc | hc
          · exact hdigits c hc
          · rw [List.mem_singleton.mp hc]
            exact isDigit_digit hlast

theorem decimal_spec (n : Nat) :
    digitsValue (decimal n) = n ∧ decimal n ≠ [] ∧ ∀ c ∈ decimal n, isDigit c = true :=
  decimalDigits_spec (n + 1) n (Nat.lt_succ_self n)

theorem decimalDigits_length_le :
    ∀ (fuel n k : Nat), n < 10 ^ (k + 1) → (decimalDigits fuel n).length ≤ k + 1 := by
  intro fuel
  induction fuel with
  | zero => intro n k _; exact Nat.zero_le _
  | succ fuel ih =>
      intro n k hn
      rw [decimalDigits]
      split
      · exact Nat.le_add_left 1 k
      · next hbig =>
          cases k with
          | zero => exact absurd (by simpa using hn) hbig
          | succ k =>
              have hdiv : n / 10 < 10 ^ (k + 1) := by
                rw [Nat.div_lt_iff_lt_mul (by decide), ← Nat.pow_succ]
                exact hn
              have := ih (n / 10) k hdiv
              rw [List.length_append, List.length_singleton]
              omega

/-- The text of a 64-bit number is short. -/
theorem decimalInt_length_le (n : Int64) : (decimalInt n.toInt).length ≤ 20 := by
  have hlo := n.le_toInt
  have hhi := n.toInt_lt
  have habs : n.toInt.natAbs < 10 ^ (18 + 1) := by omega
  have hlen := decimalDigits_length_le (n.toInt.natAbs + 1) n.toInt.natAbs 18 habs
  rw [decimalInt]
  split
  · rw [List.length_append, decimal]
    have hsign : (text "-").length = 1 := by decide
    omega
  · rw [decimal]
    omega

/-- The number a text spells, whatever its size. -/
def readInt (s : Bytes) : Option Int :=
  let negative := s.head? = some 45
  let digits := if negative then s.tail else s
  if digits = [] ∨ !digits.all isDigit then none
  else some (if negative then -(digitsValue digits : Int) else digitsValue digits)

theorem readInt_decimalInt (n : Int) : readInt (decimalInt n) = some n := by
  obtain ⟨hvalue, hne, hdigits⟩ := decimal_spec n.natAbs
  have hall : ¬(decimal n.natAbs = [] ∨ (!(decimal n.natAbs).all isDigit) = true) := by
    rw [List.all_eq_true.mpr hdigits]
    simpa using hne
  unfold decimalInt readInt
  by_cases hn : n < 0
  · rw [if_pos hn]
    show (if decimal n.natAbs = [] ∨ (!(decimal n.natAbs).all isDigit) = true then none
      else some (-(digitsValue (decimal n.natAbs) : Int))) = some n
    rw [if_neg hall, hvalue]
    congr 1
    omega
  · rw [if_neg hn]
    have hhead : ¬(decimal n.natAbs).head? = some 45 := by
      intro h
      have := hdigits 45 (List.mem_of_mem_head? h)
      exact absurd this (by decide)
    simp only [if_neg hhead]
    rw [if_neg hall, hvalue]
    congr 1
    omega

/-- The source reads only what fits 64 bits. -/
theorem parseI64_eq (s : Bytes) :
    parseI64 s = (readInt s).bind fun n =>
      if -2 ^ 63 ≤ n ∧ n < 2 ^ 63 then some n else none := by
  unfold parseI64 readInt
  simp only []
  by_cases hdigits : (if s.head? = some 45 then s.tail else s) = [] ∨
      (!(if s.head? = some 45 then s.tail else s).all isDigit) = true
  · rw [if_pos hdigits, if_pos hdigits]
    rfl
  · rw [if_neg hdigits, if_neg hdigits]
    rfl

/-- What is written is read back. -/
theorem parseI64_decimalInt {n : Int} (h : -2 ^ 63 ≤ n ∧ n < 2 ^ 63) :
    parseI64 (decimalInt n) = some n := by
  rw [parseI64_eq, readInt_decimalInt]
  exact if_pos h

/-- No text of a number ends a line. -/
theorem decimalInt_line (n : Int) : ∀ c ∈ decimalInt n, c ≠ cr ∧ c ≠ lf := by
  have hdigit : ∀ c, isDigit c = true → c ≠ cr ∧ c ≠ lf := by
    rintro c hc
    constructor
    · rintro rfl; exact absurd hc (by decide)
    · rintro rfl; exact absurd hc (by decide)
  intro c hc
  unfold decimalInt at hc
  split at hc
  · rcases List.mem_append.mp hc with hc | hc
    · rw [show text "-" = [45] from rfl, List.mem_singleton] at hc
      rw [hc]
      decide
    · exact hdigit c ((decimal_spec n.natAbs).2.2 c hc)
  · exact hdigit c ((decimal_spec n.natAbs).2.2 c hc)

/-- A line without CR in it ends at the first end there is. -/
theorem RespParser.findCrlf_line {line : Bytes} (h : ∀ c ∈ line, c ≠ cr) (rest : Bytes) :
    findCrlf (line ++ (crlf ++ rest)) = some line.length := by
  induction line with
  | nil => rfl
  | cons c line ih =>
      rw [List.cons_append, findCrlf, if_neg fun hc => h c List.mem_cons_self hc.1,
        ih fun d hd => h d (List.mem_cons_of_mem _ hd)]
      rfl

end Cachedb
