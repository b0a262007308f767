import Cachedb.Model.Arithmetic
import Cachedb.Proofs.Decimal
import Mathlib.Data.List.Induction

/-!
# Integers from clients

`parse_int64` is to take a number in exactly the bytes the program itself would
write it in, and nothing else. The digits are added up as a positive number
and the sign comes last, so the one number whose magnitude is not an `int64_t`
is not taken: the smallest.

A string of digits without a leading zero is the text of its value
(`decimal_digitsValue`); the rest is the guard in front of the multiplication,
which refuses exactly what would not fit (`parseDigits_spec`).
-/

namespace Cachedb

open Checked (Fits Run addWords subWords mulWords negWord divWords)

/-! ## Canonical text -/

/-- The fuel of the printer does not matter once there is enough. -/
theorem decimalDigits_fuel : ∀ (fuel fuel' n : Nat), n < fuel → n < fuel' →
    decimalDigits fuel n = decimalDigits fuel' n := by
  intro fuel
  induction fuel with
  | zero => intro fuel' n h _; omega
  | succ fuel ih =>
      intro fuel' n h h'
      cases fuel' with
      | zero => omega
      | succ fuel' =>
          rw [decimalDigits, decimalDigits]
          split
          · rfl
          · rw [ih fuel' (n / 10) (by omega) (by omega)]

theorem decimal_eq (n : Nat) :
    decimal n = if n < 10 then [digit n] else decimal (n / 10) ++ [digit (n % 10)] := by
  rw [decimal, decimalDigits]
  split
  · rfl
  · rw [decimal, decimalDigits_fuel n (n / 10 + 1) (n / 10) (by omega) (by omega)]

theorem isDigit_iff (c : UInt8) : isDigit c = true ↔ 48 ≤ c.toNat ∧ c.toNat ≤ 57 := by
  rw [isDigit, Bool.and_eq_true, decide_eq_true_eq, decide_eq_true_eq, UInt8.le_iff_toNat_le,
    UInt8.le_iff_toNat_le]
  rfl

theorem digitValue_lt {c : UInt8} (h : isDigit c = true) : digitValue c < 10 := by
  rw [isDigit_iff] at h
  rw [digitValue]
  omega

theorem digit_digitValue {c : UInt8} (h : isDigit c = true) : digit (digitValue c) = c := by
  rw [isDigit_iff] at h
  rw [digit, digitValue, Nat.add_sub_of_le h.1, UInt8.ofNat_toNat]

/-- A number that is not zero does not start with a zero. -/
theorem decimal_head_ne {n : Nat} (h : n ≠ 0) : (decimal n).head? ≠ some 48 := by
  induction n using Nat.strongRecOn with
  | ind n ih =>
      rw [decimal_eq]
      split
      · next hsmall =>
          have hall : ∀ d : Fin 10, d.val ≠ 0 → some (digit d.val) ≠ some 48 := by decide
          exact hall ⟨n, hsmall⟩ h
      · have hne := (decimal_spec (n / 10)).2.1
        rw [List.head?_append_of_ne_nil _ hne]
        exact ih (n / 10) (by omega) (by omega)

/-- Digits without a leading zero are the text of their value. By induction on
the last digit: what stands before it has no leading zero either. -/
theorem decimal_digitsValue {s : Bytes} (hne : s ≠ []) (hdigits : ∀ c ∈ s, isDigit c = true)
    (hzero : s.head? = some 48 → s.length = 1) : decimal (digitsValue s) = s := by
  induction s using List.reverseRecOn with
  | nil => exact absurd rfl hne
  | append_singleton s c ih =>
      have hc := hdigits c (List.mem_append_right _ List.mem_cons_self)
      have hlt := digitValue_lt hc
      rw [digitsValue_concat, decimal_eq]
      by_cases hs : s = []
      · subst hs
        rw [if_pos (by show 0 * 10 + digitValue c < 10; omega)]
        show [digit (0 * 10 + digitValue c)] = [c]
        rw [Nat.zero_mul, Nat.zero_add, digit_digitValue hc]
      · rw [List.head?_append_of_ne_nil _ hs] at hzero
        have hlen : 0 < s.length := List.length_pos_iff.mpr hs
        have hfirst : s.head? ≠ some 48 := by
          intro h
          have := hzero h
          rw [List.length_append, List.length_singleton] at this
          omega
        have hrest := ih hs (fun d hd => hdigits d (List.mem_append_left _ hd))
          fun h => absurd h hfirst
        have hpos : digitsValue s ≠ 0 := by
          intro h
          rw [h] at hrest
          rw [← hrest] at hfirst
          exact hfirst rfl
        rw [if_neg (by omega)]
        have hdiv : (digitsValue s * 10 + digitValue c) / 10 = digitsValue s := by omega
        have hmod : (digitsValue s * 10 + digitValue c) % 10 = digitValue c := by omega
        rw [hdiv, hmod, hrest, digit_digitValue hc]

/-! ## The loop -/

/-- The value of a string of digits behind a value already read. -/
def digitsFrom (n : Nat) (s : Bytes) : Nat := s.foldl (fun v c => v * 10 + digitValue c) n

theorem le_digitsFrom (s : Bytes) : ∀ n, n ≤ digitsFrom n s := by
  induction s with
  | nil => intro n; exact Nat.le_refl n
  | cons c s ih =>
      intro n
      have h := ih (n * 10 + digitValue c)
      show n ≤ digitsFrom (n * 10 + digitValue c) s
      omega

theorem kMax_toInt : kMax.toInt = 2 ^ 63 - 1 := by decide

theorem ten_toInt : (10 : Int64).toInt = 10 := rfl

/-- One round of the loop: nothing overflows, and the guard refuses exactly the
digits that would take the value out of range. -/
theorem parseDigits_round {value : Int64} {n d : Nat} (hvalue : value.toInt = n) (hd : d < 10) :
    (∃ room, subWords kMax (Int64.ofNat d) = .ok (kMax - Int64.ofNat d) ∧
      divWords (kMax - Int64.ofNat d) 10 = .ok room ∧ room = (kMax - Int64.ofNat d) / 10 ∧
      (room < value ↔ 2 ^ 63 ≤ n * 10 + d)) ∧
    (n * 10 + d < 2 ^ 63 →
      mulWords value 10 = .ok (value * 10) ∧
        addWords (value * 10) (Int64.ofNat d) = .ok (value * 10 + Int64.ofNat d) ∧
        (value * 10 + Int64.ofNat d).toInt = (n * 10 + d : Nat)) := by
  have hdigit : (Int64.ofNat d).toInt = d := Int64.toInt_ofNat_of_lt (by omega)
  refine ⟨?_, fun hlt => ?_⟩
  · obtain ⟨hsub, hsubInt⟩ := Checked.subWords_ok (a := kMax) (b := Int64.ofNat d)
      (by rw [kMax_toInt, hdigit]; exact ⟨by omega, by omega⟩)
    rw [kMax_toInt, hdigit] at hsubInt
    have hquot : (kMax - Int64.ofNat d).toInt.tdiv (10 : Int64).toInt =
        ((2 ^ 63 - 1 - d : Int) / 10) := by
      rw [hsubInt, ten_toInt, Int.tdiv_eq_ediv_of_nonneg (by omega)]
    obtain ⟨hdiv, hdivInt⟩ := Checked.divWords_ok (a := kMax - Int64.ofNat d) (b := 10)
      (by decide) (by rw [hquot]; exact ⟨by omega, by omega⟩)
    refine ⟨_, hsub, hdiv, rfl, ?_⟩
    rw [Int64.lt_iff_toInt_lt, hdivInt, hquot, hvalue]
    omega
  · obtain ⟨hmul, hmulInt⟩ := Checked.mulWords_ok (a := value) (b := 10)
      (by rw [hvalue, ten_toInt]; exact ⟨by omega, by omega⟩)
    rw [hvalue, ten_toInt] at hmulInt
    obtain ⟨hadd, haddInt⟩ := Checked.addWords_ok (a := value * 10) (b := Int64.ofNat d)
      (by rw [hmulInt, hdigit]; exact ⟨by omega, by omega⟩)
    refine ⟨hmul, hadd, ?_⟩
    rw [haddInt, hmulInt, hdigit]
    omega

/-- The loop never overflows, and takes the digits whose value fits. -/
theorem parseDigits_spec (s : Bytes) : ∀ (value : Int64) (n : Nat), value.toInt = n →
    parseDigitsChecked value s = .ok (parseDigits value s) ∧
      ((∀ c ∈ s, isDigit c = true) ∧ digitsFrom n s < 2 ^ 63 →
        ∃ v, parseDigits value s = some v ∧ v.toInt = digitsFrom n s) ∧
      ∀ v, parseDigits value s = some v →
        (∀ c ∈ s, isDigit c = true) ∧ v.toInt = digitsFrom n s := by
  induction s with
  | nil =>
      intro value n hvalue
      refine ⟨rfl, fun _ => ⟨value, rfl, hvalue⟩, fun v hv => ?_⟩
      cases hv
      exact ⟨List.forall_mem_nil _, hvalue⟩
  | cons c s ih =>
      intro value n hvalue
      rw [parseDigitsChecked, parseDigits]
      cases hdigit : isDigit c with
      | false =>
          simp only [Bool.not_false, if_true]
          refine ⟨rfl, fun h => ?_, fun v hv => by cases hv⟩
          have := h.1 c List.mem_cons_self
          rw [hdigit] at this
          cases this
      | true =>
          obtain ⟨⟨room, hsub, hdiv, hroom, hguard⟩, hnext⟩ :=
            parseDigits_round hvalue (digitValue_lt hdigit)
          have hgrow := le_digitsFrom s (n * 10 + digitValue c)
          have hfrom : digitsFrom n (c :: s) = digitsFrom (n * 10 + digitValue c) s := rfl
          simp only [Bool.not_true, Bool.false_eq_true, if_false]
          rw [hsub, Checked.ok_bind, hdiv, Checked.ok_bind, ← hroom]
          by_cases hlt : room < value
          · rw [if_pos hlt, if_pos hlt]
            refine ⟨rfl, fun h => ?_, fun v hv => by cases hv⟩
            have := hguard.mp hlt
            omega
          · rw [if_neg hlt, if_neg hlt]
            obtain ⟨hmul, hadd, hint⟩ := hnext (by
              by_contra hbig
              exact hlt (hguard.mpr (by omega)))
            obtain ⟨hchecked, hsome, honly⟩ := ih _ _ hint
            rw [hmul, Checked.ok_bind, hadd, Checked.ok_bind]
            refine ⟨hchecked, fun h => ?_, fun v hv => ?_⟩
            · rw [hfrom] at h ⊢
              exact hsome ⟨fun c' hc' => h.1 c' (List.mem_cons_of_mem _ hc'), h.2⟩
            · obtain ⟨hall, hv⟩ := honly v hv
              refine ⟨fun c' hc' => ?_, hv⟩
              rcases List.mem_cons.mp hc' with rfl | hc'
              · exact hdigit
              · exact hall c' hc'

/-! ## The whole string -/

/-- The digits of a number, behind its sign. -/
def unsigned (s : Bytes) : Bytes := if s.head? = some 45 then s.tail else s

/-- The checks in front of the loop let a string through. -/
structure Admitted (s : Bytes) : Prop where
  length : ¬(s = [] ∨ 20 < s.length)
  digits : ¬unsigned s = []
  zero : ¬((unsigned s).head? = some 48 ∧ (1 < (unsigned s).length ∨ s.head? = some 45))

theorem parseInt64_refused {s : Bytes} (h : ¬Admitted s) :
    parseInt64 s = none ∧ parseInt64Checked s = .ok none := by
  rw [parseInt64, parseInt64Checked]
  by_cases hlength : s = [] ∨ 20 < s.length
  · rw [if_pos hlength, if_pos hlength]
    exact ⟨rfl, rfl⟩
  · rw [if_neg hlength, if_neg hlength]
    dsimp only
    rw [← unsigned]
    by_cases hdigits : unsigned s = []
    · rw [if_pos hdigits, if_pos hdigits]
      exact ⟨rfl, rfl⟩
    · rw [if_neg hdigits, if_neg hdigits]
      by_cases hzero : (unsigned s).head? = some 48 ∧
          (1 < (unsigned s).length ∨ s.head? = some 45)
      · rw [if_pos hzero, if_pos hzero]
        exact ⟨rfl, rfl⟩
      · exact absurd ⟨hlength, hdigits, hzero⟩ h

theorem parseInt64_admitted {s : Bytes} (h : Admitted s) :
    parseInt64 s = (parseDigits 0 (unsigned s)).map
        (fun value => if s.head? = some 45 then -value else value) ∧
      parseInt64Checked s = (do
        match ← parseDigitsChecked 0 (unsigned s) with
        | none => return none
        | some value =>
            if s.head? = some 45 then return some (← negWord value) else return some value) := by
  rw [parseInt64, parseInt64Checked, if_neg h.length, if_neg h.length]
  dsimp only
  rw [← unsigned, if_neg h.digits, if_neg h.digits, if_neg h.zero, if_neg h.zero]
  exact ⟨rfl, rfl⟩

/-- The sign behind the loop. -/
theorem signed_toInt {s : Bytes} {value : Int64} {n : Nat} (hvalue : value.toInt = n)
    (hneg : (-value).toInt = -(n : Int)) (v : Int64) :
    (if s.head? = some 45 then -value else value) = v ↔
      v.toInt = if s.head? = some 45 then -(n : Int) else n := by
  rw [← Int64.toInt_inj]
  split
  · rw [hneg]
    exact eq_comm
  · rw [hvalue]
    exact eq_comm

/-- What `parse_int64` takes, and that nothing overflows on the way. -/
theorem parseInt64_spec (s : Bytes) :
    parseInt64Checked s = .ok (parseInt64 s) ∧
      ∀ v, parseInt64 s = some v ↔
        Admitted s ∧ (∀ c ∈ unsigned s, isDigit c = true) ∧ digitsValue (unsigned s) < 2 ^ 63 ∧
          v.toInt = if s.head? = some 45 then -(digitsValue (unsigned s) : Int)
            else digitsValue (unsigned s) := by
  by_cases h : Admitted s
  · obtain ⟨heq, hchecked⟩ := parseInt64_admitted h
    obtain ⟨hloop, hsome, honly⟩ := parseDigits_spec (unsigned s) 0 0 rfl
    rw [heq, hchecked, hloop, Checked.ok_bind]
    cases hparse : parseDigits 0 (unsigned s) with
    | none =>
        refine ⟨rfl, fun v => ?_⟩
        constructor
        · intro hv; cases hv
        · intro hv
          obtain ⟨w, hw, _⟩ := hsome ⟨hv.2.1, hv.2.2.1⟩
          rw [hparse] at hw
          cases hw
    | some value =>
        obtain ⟨hall, hvalue⟩ := honly value hparse
        have hfits : digitsFrom 0 (unsigned s) < 2 ^ 63 := by
          have := value.toInt_lt
          omega
        obtain ⟨hneg, hnegInt⟩ := Checked.negWord_ok (a := value)
          (by rw [hvalue]; exact ⟨by omega, by omega⟩)
        rw [hvalue] at hnegInt
        refine ⟨?_, fun v => ?_⟩
        · rw [Option.map_some]
          by_cases hsign : s.head? = some 45
          · simp only [if_pos hsign]
            rw [hneg]
            rfl
          · simp only [if_neg hsign]
            rfl
        · rw [Option.map_some, Option.some.injEq, signed_toInt hvalue hnegInt]
          exact ⟨fun hv => ⟨h, hall, hfits, hv⟩, fun hv => hv.2.2.2⟩
  · obtain ⟨heq, hchecked⟩ := parseInt64_refused h
    rw [heq, hchecked]
    refine ⟨rfl, fun v => ?_⟩
    constructor
    · intro hv; cases hv
    · intro hv; exact absurd hv.1 h

theorem decimal_zero : decimal 0 = [48] := rfl

theorem digitsValue_ne_zero {s : Bytes} (hne : s ≠ []) (hdigits : ∀ c ∈ s, isDigit c = true)
    (hzero : s.head? ≠ some 48) : digitsValue s ≠ 0 := by
  intro h
  have htext := decimal_digitsValue hne hdigits fun h48 => absurd h48 hzero
  rw [h, decimal_zero] at htext
  rw [← htext] at hzero
  exact hzero rfl

/-- What is taken is the text of the number it is taken for. -/
theorem canonical_of_parse {s : Bytes} {v : Int64} (h : parseInt64 s = some v) :
    s = decimalInt v.toInt ∧ v ≠ Int64.minValue := by
  obtain ⟨hadmitted, hdigits, hfits, hv⟩ := ((parseInt64_spec s).2 v).mp h
  have hmin : v ≠ Int64.minValue := by
    intro hmin
    rw [hmin, show Int64.minValue.toInt = -2 ^ 63 by decide] at hv
    split at hv <;> omega
  refine ⟨?_, hmin⟩
  have hne := hadmitted.digits
  have hzero := hadmitted.zero
  by_cases hsign : s.head? = some 45
  · obtain ⟨rest, rfl⟩ : ∃ rest, s = 45 :: rest := by
      cases s with
      | nil => cases hsign
      | cons c rest =>
          rw [List.head?_cons, Option.some.injEq] at hsign
          exact ⟨rest, by rw [hsign]⟩
    have hrest : unsigned (45 :: rest) = rest := if_pos rfl
    rw [hrest] at hne hzero hdigits hv
    rw [if_pos hsign] at hv
    have hhead : rest.head? ≠ some 48 := fun h48 => hzero ⟨h48, Or.inr rfl⟩
    have hpos := digitsValue_ne_zero hne hdigits hhead
    have habs : (-(digitsValue rest : Int)).natAbs = digitsValue rest := by omega
    rw [hv, decimalInt, if_pos (by omega), habs,
      decimal_digitsValue hne hdigits fun h48 => absurd h48 hhead]
    rfl
  · have hself : unsigned s = s := if_neg hsign
    rw [hself] at hne hzero hdigits hv
    rw [if_neg hsign] at hv
    have hlen : s.head? = some 48 → s.length = 1 := by
      intro h48
      have hshort : ¬1 < s.length := fun hlong => hzero ⟨h48, Or.inl hlong⟩
      have := List.length_pos_iff.mpr hne
      omega
    rw [hv, decimalInt, if_neg (by omega), Int.natAbs_natCast,
      decimal_digitsValue hne hdigits hlen]

theorem admitted_negative {n : Nat} (hn : n ≠ 0) (hlen : (45 :: decimal n).length ≤ 20) :
    Admitted (45 :: decimal n) := by
  have hrest : unsigned (45 :: decimal n) = decimal n := if_pos rfl
  refine ⟨?_, ?_, ?_⟩
  · rintro (hnil | hlong)
    · cases hnil
    · omega
  · rw [hrest]
    exact (decimal_spec n).2.1
  · rw [hrest]
    exact fun hzero => decimal_head_ne hn hzero.1

theorem decimal_unsigned (n : Nat) : ¬(decimal n).head? = some 45 := by
  intro h45
  have hdigit := (decimal_spec n).2.2 45 (List.mem_of_mem_head? h45)
  exact absurd hdigit (by decide)

theorem admitted_natural {n : Nat} (hlen : (decimal n).length ≤ 20) : Admitted (decimal n) := by
  have hself : unsigned (decimal n) = decimal n := if_neg (decimal_unsigned n)
  have hne := (decimal_spec n).2.1
  refine ⟨?_, ?_, ?_⟩
  · rintro (hnil | hlong)
    · exact hne hnil
    · omega
  · rw [hself]
    exact hne
  · rw [hself]
    rintro ⟨hzero, hlong | h45⟩
    · have hn : n = 0 := by
        by_contra hpos
        exact decimal_head_ne hpos hzero
      rw [hn, decimal_zero] at hlong
      exact absurd hlong (by decide)
    · exact decimal_unsigned n h45

/-- Every number but the smallest is taken from its text. -/
theorem parse_of_canonical {v : Int64} (h : v ≠ Int64.minValue) :
    parseInt64 (decimalInt v.toInt) = some v := by
  have hlo := v.le_toInt
  have hhi := v.toInt_lt
  have hmin : v.toInt ≠ -2 ^ 63 := by
    intro hv
    refine h (Int64.toInt_inj.mp ?_)
    rw [hv]
    decide
  have hlen := decimalInt_length_le v
  obtain ⟨hvalue, _, hdigits⟩ := decimal_spec v.toInt.natAbs
  refine ((parseInt64_spec _).2 v).mpr ?_
  by_cases hneg : v.toInt < 0
  · have htext : decimalInt v.toInt = 45 :: decimal v.toInt.natAbs := by
      rw [decimalInt, if_pos hneg]
      rfl
    have hrest : unsigned (45 :: decimal v.toInt.natAbs) = decimal v.toInt.natAbs := if_pos rfl
    rw [htext] at hlen ⊢
    rw [hrest, hvalue, if_pos List.head?_cons]
    exact ⟨admitted_negative (by omega) hlen, hdigits, by omega, by omega⟩
  · have htext : decimalInt v.toInt = decimal v.toInt.natAbs := by rw [decimalInt, if_neg hneg]
    have hsign := decimal_unsigned v.toInt.natAbs
    have hself : unsigned (decimal v.toInt.natAbs) = decimal v.toInt.natAbs := if_neg hsign
    rw [htext] at hlen ⊢
    rw [hself, hvalue, if_neg hsign]
    exact ⟨admitted_natural hlen, hdigits, by omega, by omega⟩

/-- Integer text is taken exactly in canonical form, with no overflow on the
way, except that the smallest number is not taken from its own text. -/
theorem parse_int64_canonical_iff (s : Bytes) (v : Int64) :
    ((parseInt64 s = some v ↔ s = decimalInt v.toInt) ∧
        parseInt64Checked s = .ok (parseInt64 s)) ↔
      ¬(v = Int64.minValue ∧ s = decimalInt v.toInt) := by
  constructor
  · rintro ⟨hiff, _⟩ ⟨hmin, htext⟩
    exact (canonical_of_parse (hiff.mpr htext)).2 hmin
  · intro h
    refine ⟨⟨fun hs => (canonical_of_parse hs).1, fun htext => ?_⟩, (parseInt64_spec s).1⟩
    rw [htext]
    exact parse_of_canonical fun hmin => h ⟨hmin, htext⟩

/-- The text of the smallest number is refused. -/
theorem parse_int64_smallest :
    text "-9223372036854775808" = decimalInt Int64.minValue.toInt ∧
      parseInt64 (text "-9223372036854775808") ≠ some Int64.minValue := by
  decide

end Cachedb
