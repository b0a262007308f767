import Cachedb.Lib.Resume
import Cachedb.Model.Resp

/-!
# The parser as a reader that can be interrupted

`RespParser.Step` has a case for every branch of the parser's loop, with what
the branch goes by. A turn is one of the cases (`move_step`), and the case
decides it: it depends on the bytes at its place and not on the place
(`Step.round_eq`). So a turn is a move of a resumable reader
(`RespParser.move`), and `parse` makes the moves up to the first that is no
mere progress (`parse_cases`).

More bytes do not change a turn, with one exception: a line whose end is not
in sight is refused once it is too long, and the same bytes with the end in
sight would not be. Where no line is that long (`ShortLine`) the parser is
resumable (`resumable`). A payload is the one thing it takes in pieces.
-/

namespace Cachedb

open Resume

namespace RespParser

/-- A turn of the loop as a move on the bytes at its place. -/
def Round.move : Round → Move RespParser Command Bytes
  | .again p n => .skip p n
  | .done p result (some cmd) => .emit p result.consumed cmd
  | .done p result none =>
      if result.status = .protocolError then .fail result.error else .wait p result.consumed

def move (p : RespParser) (rest : Bytes) : Move RespParser Command Bytes := (p.round 0 rest).move

/-- The rounds that are the given move. -/
inductive Round.Shows : Round → Move RespParser Command Bytes → Prop
  | again (p : RespParser) (n : Nat) : Shows (.again p n) (.skip p n)
  | needMore (p : RespParser) (n : Nat) :
      Shows (.done p { status := .needMoreData, consumed := n } none) (.wait p n)
  | fail (p : RespParser) (n : Nat) (error : Bytes) :
      Shows (.done p { status := .protocolError, consumed := n, error } none) (.fail error)
  | complete (p : RespParser) (n : Nat) (cmd : Command) :
      Shows (.done p { status := .complete, consumed := n } (some cmd)) (.emit p n cmd)

/-! ## Where a line ends -/

theorem findCrlf_le {inp : Bytes} {i : Nat} (h : findCrlf inp = some i) : i + 2 ≤ inp.length := by
  induction inp generalizing i with
  | nil => cases h
  | cons c rest ih =>
      rw [findCrlf] at h
      rw [List.length_cons]
      split at h
      · next hc =>
          cases rest with
          | nil => cases hc.2
          | cons d rest =>
              rw [List.length_cons, ← Option.some.inj h]
              omega
      · obtain ⟨j, hj, rfl⟩ := Option.map_eq_some_iff.mp h
        have := ih hj
        omega

theorem findCrlf_append {xs : Bytes} {i : Nat} (h : findCrlf xs = some i) (ys : Bytes) :
    findCrlf (xs ++ ys) = some i := by
  induction xs generalizing i with
  | nil => cases h
  | cons c rest ih =>
      cases rest with
      | nil =>
          have := findCrlf_le h
          simp at this
      | cons d rest =>
          rw [findCrlf] at h
          show findCrlf (c :: (d :: rest ++ ys)) = some i
          rw [findCrlf]
          by_cases hc : c = cr ∧ (d :: rest).head? = some lf
          · rw [if_pos hc] at h
            rw [if_pos (show c = cr ∧ (d :: rest ++ ys).head? = some lf from hc), h]
          · rw [if_neg hc] at h
            obtain ⟨j, hj, rfl⟩ := Option.map_eq_some_iff.mp h
            rw [if_neg (show ¬(c = cr ∧ (d :: rest ++ ys).head? = some lf) from hc), ih hj]
            rfl

/-- The end of a line that is not in sight yet is not behind the last byte. -/
theorem le_findCrlf {xs ys : Bytes} {i : Nat} (h : findCrlf xs = none)
    (hi : findCrlf (xs ++ ys) = some i) : xs.length ≤ i + 1 := by
  induction xs generalizing i with
  | nil => exact Nat.zero_le _
  | cons c rest ih =>
      rw [findCrlf] at h
      split at h
      · cases h
      · next hc =>
          have hrest := Option.map_eq_none_iff.mp h
          rw [List.cons_append, findCrlf] at hi
          rw [List.length_cons]
          split at hi
          · next hc' =>
              cases rest with
              | nil => simp
              | cons d rest => exact absurd hc' hc
          · obtain ⟨j, hj, rfl⟩ := Option.map_eq_some_iff.mp hi
            have := ih hrest hj
            omega

/-- The line the parser stands at: how many of its bytes are in front of its
end, and how many the end has, none while it is out of sight. The `*` of a
multibulk header is read already, and without its `$` the length of an argument
is no line. -/
def lineParts (p : RespParser) (rest : Bytes) : Nat × Nat :=
  match p.state with
  | .readingMultibulkLen =>
      match findCrlf rest with
      | none => (1 + rest.length, 0)
      | some i => (1 + i, 2)
  | .readingBulkLen =>
      if rest.head? = some 36 then
        match findCrlf rest.tail with
        | none => (1 + rest.tail.length, 0)
        | some i => (1 + i, 2)
      else (0, 0)
  | .readingInline =>
      match rest.findIdx? (· = lf) with
      | none => (rest.length, 0)
      | some nl => (nl, 1)
  | _ => (0, 0)

/-- The bytes in front of the end. -/
def lineSpan (p : RespParser) (rest : Bytes) : Nat := (p.lineParts rest).1

/-- The bytes of the line without its LF. -/
def lineLength (p : RespParser) (rest : Bytes) : Nat :=
  (p.lineParts rest).1 + ((p.lineParts rest).2 - 1)

def ShortLine (p : RespParser) (rest : Bytes) : Prop := p.lineLength rest ≤ kMaxLineLen

/-- No line of a request stream is too long. -/
def ShortLines (stream : Bytes) : Prop := Always move ShortLine {} stream

theorem lineLength_le (p : RespParser) (rest : Bytes) : p.lineLength rest ≤ 1 + rest.length := by
  unfold lineLength lineParts
  split
  · split
    · exact Nat.le_refl _
    · next hi => have := findCrlf_le hi; omega
  · split
    · split
      · rw [List.length_tail]
        omega
      · next hi =>
          have := findCrlf_le hi
          rw [List.length_tail] at this
          omega
    · exact Nat.zero_le _
  · split
    · omega
    · next hi =>
        have := (List.findIdx?_eq_some_iff_findIdx_eq.mp hi).1
        omega
  · exact Nat.zero_le _

/-- A stream that is short has no long line. -/
theorem shortLines_of_length {stream : Bytes} (h : stream.length < kMaxLineLen) :
    ShortLines stream := by
  intro p rest hreached
  have := hreached.rest_le
  have := p.lineLength_le rest
  unfold ShortLine
  omega

/-! ## Moves -/

/-- The payload under way, with `data` behind it. -/
def absorb (p : RespParser) (data : Bytes) : RespParser :=
  { p with pending := appendBack p.pending data, bulkRemaining := p.bulkRemaining - data.length }

/-- The arguments on an inline line, which is given without its LF. -/
def inlineArgs (line : Bytes) : Command :=
  splitInline [] (if line.getLast? = some cr then line.dropLast else line)

/-- The parser stands at a line whose end is not in sight. -/
inductive Unended (p : RespParser) (rest : Bytes) : Prop
  | count (hs : p.state = .readingMultibulkLen) (hend : findCrlf rest = none)
  | length (hs : p.state = .readingBulkLen) (line : Bytes) (hrest : rest = 36 :: line)
      (hend : findCrlf line = none)
  | inline (hs : p.state = .readingInline) (hend : rest.findIdx? (· = lf) = none)

/-- A turn of the loop by what it finds, with a case for every branch. What is
said of turns below goes by these cases. -/
inductive Step (p : RespParser) (rest : Bytes) : Move RespParser Command Bytes → Prop
  | framingLost (hs : p.state = .failed) : Step p rest (.fail kErrAlreadyFailed)
  | nothing (hs : p.state = .readingType ∨ p.state = .readingBulkLen) (hrest : rest = []) :
      Step p rest (.wait p 0)
  | star {line : Bytes} (hs : p.state = .readingType) (hrest : rest = 42 :: line) :
      Step p rest (.skip { p with state := .readingMultibulkLen } 1)
  | plain {c : UInt8} {line : Bytes} (hs : p.state = .readingType) (hrest : rest = c :: line)
      (hc : c ≠ 42) : Step p rest (.skip { p with state := .readingInline } 0)
  | unended (hline : p.Unended rest) (hlen : rest.length ≤ kMaxLineLen) :
      Step p rest (.wait p 0)
  | tooLong (hline : p.Unended rest) (hlen : kMaxLineLen < rest.length) :
      Step p rest (.fail kErrLineTooLong)
  | badCount {i : Nat} (hs : p.state = .readingMultibulkLen) (hi : findCrlf rest = some i)
      (hbad : ∀ n, parseI64 (rest.take i) = some n → kMaxMultibulkLen < n) :
      Step p rest (.fail kErrMultibulkLen)
  | noArgs {i : Nat} {n : Int} (hs : p.state = .readingMultibulkLen)
      (hi : findCrlf rest = some i) (hn : parseI64 (rest.take i) = some n) (hneg : n ≤ 0) :
      Step p rest (.skip p.reset (i + 2))
  | count {i : Nat} {n : Int} (hs : p.state = .readingMultibulkLen)
      (hi : findCrlf rest = some i) (hn : parseI64 (rest.take i) = some n) (hpos : 0 < n)
      (hmax : n ≤ kMaxMultibulkLen) :
      Step p rest
        (.skip { p with multibulkRemaining := n.toNat, state := .readingBulkLen } (i + 2))
  | noDollar {c : UInt8} {line : Bytes} (hs : p.state = .readingBulkLen)
      (hrest : rest = c :: line) (hc : c ≠ 36) : Step p rest (.fail kErrExpectedDollar)
  | badLength {line : Bytes} {i : Nat} (hs : p.state = .readingBulkLen)
      (hrest : rest = 36 :: line) (hi : findCrlf line = some i)
      (hbad : ∀ n, parseI64 (line.take i) = some n → n < 0 ∨ kMaxBulkLen < n) :
      Step p rest (.fail kErrBulkLen)
  | length {line : Bytes} {i : Nat} {n : Int} (hs : p.state = .readingBulkLen)
      (hrest : rest = 36 :: line) (hi : findCrlf line = some i)
      (hn : parseI64 (line.take i) = some n) (hpos : 0 ≤ n) (hmax : n ≤ kMaxBulkLen) :
      Step p rest
        (.skip { p with
          bulkRemaining := n.toNat, pending := p.pending ++ [[]], state := .readingBulkBody }
          (1 + i + 2))
  | piece (hs : p.state = .readingBulkBody) (hlt : rest.length < p.bulkRemaining) :
      Step p rest (.wait (p.absorb rest) rest.length)
  | payload (hs : p.state = .readingBulkBody) (hle : p.bulkRemaining ≤ rest.length) :
      Step p rest
        (.skip { p.absorb (rest.take p.bulkRemaining) with state := .readingBulkCrlf }
          p.bulkRemaining)
  | endAwaited (hs : p.state = .readingBulkCrlf) (hlt : rest.length < 2) :
      Step p rest (.wait p 0)
  | noEnd (hs : p.state = .readingBulkCrlf) (hlen : 2 ≤ rest.length)
      (hne : rest.take 2 ≠ crlf) : Step p rest (.fail kErrUnterminatedBulk)
  | lastArg (hs : p.state = .readingBulkCrlf) (hlen : 2 ≤ rest.length)
      (hend : rest.take 2 = crlf) (hlast : p.multibulkRemaining - 1 = 0) :
      Step p rest
        (.emit { p with multibulkRemaining := p.multibulkRemaining - 1 }.reset 2 p.pending)
  | nextArg (hs : p.state = .readingBulkCrlf) (hlen : 2 ≤ rest.length)
      (hend : rest.take 2 = crlf) (hmore : p.multibulkRemaining - 1 ≠ 0) :
      Step p rest
        (.skip { p with
          multibulkRemaining := p.multibulkRemaining - 1, state := .readingBulkLen } 2)
  | blank {nl : Nat} (hs : p.state = .readingInline) (hnl : rest.findIdx? (· = lf) = some nl)
      (hargs : inlineArgs (rest.take nl) = []) :
      Step p rest (.skip { p with pending := inlineArgs (rest.take nl) }.reset (nl + 1))
  | inline {nl : Nat} (hs : p.state = .readingInline) (hnl : rest.findIdx? (· = lf) = some nl)
      (hargs : inlineArgs (rest.take nl) ≠ []) :
      Step p rest
        (.emit { p with pending := inlineArgs (rest.take nl) }.reset (nl + 1)
          (inlineArgs (rest.take nl)))

theorem Unended.step {p : RespParser} {rest : Bytes} (h : p.Unended rest) :
    p.Step rest (unterminated p 0 rest).move := by
  unfold unterminated
  split
  · next hlen => exact .tooLong h hlen
  · next hlen => exact .unended h (Nat.le_of_not_lt hlen)

/-! The turn of every state, with the fields of the parser taken apart. -/

section States

variable {args : Command} {left more : Nat} (rest : Bytes)

theorem step_readingType :
    Step ⟨.readingType, args, left, more⟩ rest (move ⟨.readingType, args, left, more⟩ rest) := by
  simp only [move, round]
  split
  · exact .nothing (.inl rfl) rfl
  · split
    · next hc => exact .star rfl (by rw [hc])
    · next hc => exact .plain rfl rfl hc

theorem step_readingMultibulkLen :
    Step ⟨.readingMultibulkLen, args, left, more⟩ rest
      (move ⟨.readingMultibulkLen, args, left, more⟩ rest) := by
  simp only [move, round, Nat.zero_add]
  split
  · next hi => exact Unended.step (.count rfl hi)
  · next i hi =>
      split
      · next hn => exact .badCount rfl hi fun n h => (by rw [hn] at h; cases h)
      · next n hn =>
          split
          · next hmax =>
              refine .badCount rfl hi fun n' h => ?_
              rw [hn] at h
              rwa [← Option.some.inj h]
          · next hmax =>
              split
              · next hneg => exact .noArgs rfl hi hn hneg
              · next hpos => exact .count rfl hi hn (Int.not_le.mp hpos) (Int.not_lt.mp hmax)

theorem step_readingBulkLen :
    Step ⟨.readingBulkLen, args, left, more⟩ rest
      (move ⟨.readingBulkLen, args, left, more⟩ rest) := by
  simp only [move, round, Nat.zero_add]
  split
  · exact .nothing (.inr rfl) rfl
  · next c line =>
      split
      · next hc => exact .noDollar rfl rfl hc
      · next hc =>
          rw [not_not] at hc
          subst hc
          split
          · next hi => exact Unended.step (.length rfl line rfl hi)
          · next i hi =>
              split
              · next hn => exact .badLength rfl rfl hi fun n h => (by rw [hn] at h; cases h)
              · next n hn =>
                  split
                  · next hbad =>
                      refine .badLength rfl rfl hi fun n' h => ?_
                      rw [hn] at h
                      rwa [← Option.some.inj h]
                  · next hgood =>
                      rw [not_or, Int.not_lt, Int.not_lt] at hgood
                      exact .length rfl rfl hi hn hgood.1 hgood.2

theorem step_readingBulkBody :
    Step ⟨.readingBulkBody, args, left, more⟩ rest
      (move ⟨.readingBulkBody, args, left, more⟩ rest) := by
  simp only [move, round, Nat.zero_add]
  by_cases hlt : rest.length < more
  · rw [Nat.min_eq_left (Nat.le_of_lt hlt), if_pos (Nat.sub_pos_of_lt hlt), List.take_length]
    exact .piece rfl hlt
  · have hle := Nat.le_of_not_lt hlt
    have hstep := Step.payload (p := ⟨.readingBulkBody, args, left, more⟩) rfl hle
    simp only [absorb, List.length_take_of_le hle] at hstep
    rw [Nat.min_eq_right hle, if_neg (by omega)]
    exact hstep

theorem step_readingBulkCrlf :
    Step ⟨.readingBulkCrlf, args, left, more⟩ rest
      (move ⟨.readingBulkCrlf, args, left, more⟩ rest) := by
  simp only [move, round]
  split
  · next hlt => exact .endAwaited rfl hlt
  · next hlen =>
      have hlen := Nat.le_of_not_lt hlen
      split
      · next hne => exact .noEnd rfl hlen hne
      · next hend =>
          split
          · next hlast => exact .lastArg rfl hlen (not_not.mp hend) hlast
          · next hmore => exact .nextArg rfl hlen (not_not.mp hend) hmore

theorem step_readingInline :
    Step ⟨.readingInline, args, left, more⟩ rest
      (move ⟨.readingInline, args, left, more⟩ rest) := by
  simp only [move, round, Nat.zero_add]
  cases hnl : rest.findIdx? (· = lf) with
  | none => exact Unended.step (.inline rfl hnl)
  | some nl =>
      by_cases hargs : inlineArgs (rest.take nl) = []
      · have hstep := Step.blank (p := ⟨.readingInline, args, left, more⟩) rfl hnl hargs
        unfold inlineArgs at hargs hstep
        simp only [if_pos hargs]
        exact hstep
      · have hstep := Step.inline (p := ⟨.readingInline, args, left, more⟩) rfl hnl hargs
        unfold inlineArgs at hargs hstep
        simp only [if_neg hargs]
        exact hstep

end States

theorem move_step (p : RespParser) (rest : Bytes) : p.Step rest (p.move rest) := by
  obtain ⟨state, args, left, more⟩ := p
  cases state with
  | failed => exact .framingLost rfl
  | readingType => exact step_readingType rest
  | readingMultibulkLen => exact step_readingMultibulkLen rest
  | readingBulkLen => exact step_readingBulkLen rest
  | readingBulkBody => exact step_readingBulkBody rest
  | readingBulkCrlf => exact step_readingBulkCrlf rest
  | readingInline => exact step_readingInline rest

/-- The round a move makes at a place. -/
def roundOf (p : RespParser) (pos : Nat) : Move RespParser Command Bytes → Round
  | .wait q n => .needMore q (pos + n)
  | .skip q n => .again q (pos + n)
  | .emit q n cmd => .done q { status := .complete, consumed := pos + n } (some cmd)
  | .fail error => .fail p pos error

theorem Unended.round_eq {p : RespParser} {rest : Bytes} (h : p.Unended rest) (pos : Nat) :
    p.round pos rest = unterminated p pos rest := by
  cases h with
  | count hs hend => simp only [round, hs, hend]
  | length hs line hrest hend =>
      subst hrest
      simp only [round, hs, hend, ne_eq, not_true_eq_false, if_false]
  | inline hs hend => simp only [round, hs, hend]

/-- The cases leave nothing open: a turn depends on the bytes at its place and
not on the place. -/
theorem Step.round_eq {p : RespParser} {rest : Bytes} {m : Move RespParser Command Bytes}
    (h : p.Step rest m) (pos : Nat) : p.round pos rest = p.roundOf pos m := by
  cases h with
  | framingLost hs =>
      obtain ⟨state, pending, multibulkRemaining, bulkRemaining⟩ := p
      cases hs
      rfl
  | nothing hs hrest =>
      subst hrest
      rcases hs with hs | hs
      · simp only [round, hs, roundOf, Nat.add_zero]
      · simp only [round, hs, roundOf, Nat.add_zero]
  | star hs hrest =>
      subst hrest
      simp only [round, hs, roundOf, if_true]
  | plain hs hrest hc =>
      subst hrest
      simp only [round, hs, roundOf, if_neg hc, Nat.add_zero]
  | unended hline hlen =>
      rw [hline.round_eq, unterminated, if_neg (Nat.not_lt.mpr hlen)]
      rfl
  | tooLong hline hlen =>
      rw [hline.round_eq, unterminated, if_pos hlen]
      rfl
  | badCount hs hi hbad =>
      simp only [round, hs, hi, roundOf]
      cases hn : parseI64 (rest.take _) with
      | none => rfl
      | some n => simp only [if_pos (hbad n hn)]
  | noArgs hs hi hn hneg =>
      have hmax : ¬kMaxMultibulkLen < _ := fun h => absurd (Int.lt_of_lt_of_le h hneg) (by decide)
      simp only [round, hs, hi, hn, roundOf, if_neg hmax, if_pos hneg, Nat.add_assoc]
  | count hs hi hn hpos hmax =>
      simp only [round, hs, hi, hn, roundOf, if_neg (Int.not_lt.mpr hmax),
        if_neg (Int.not_le.mpr hpos), Nat.add_assoc]
  | noDollar hs hrest hc =>
      subst hrest
      simp only [round, hs, roundOf, if_pos hc]
  | badLength hs hrest hi hbad =>
      subst hrest
      simp only [round, hs, hi, roundOf, ne_eq, not_true_eq_false, if_false]
      cases hn : parseI64 (List.take _ _) with
      | none => rfl
      | some n => simp only [if_pos (hbad n hn)]
  | length hs hrest hi hn hpos hmax =>
      subst hrest
      have hgood := not_or.mpr ⟨Int.not_lt.mpr hpos, Int.not_lt.mpr hmax⟩
      simp only [round, hs, hi, hn, roundOf, ne_eq, not_true_eq_false, if_false, if_neg hgood,
        Nat.add_assoc]
  | piece hs hlt =>
      simp only [round, hs, roundOf, Nat.min_eq_left (Nat.le_of_lt hlt), List.take_length,
        if_pos (Nat.sub_pos_of_lt hlt), absorb]
  | payload hs hle =>
      have hlen : (rest.take p.bulkRemaining).length = p.bulkRemaining :=
        List.length_take_of_le hle
      simp only [round, hs, roundOf, Nat.min_eq_right hle, Nat.sub_self, Nat.lt_irrefl, if_false,
        absorb, hlen]
  | endAwaited hs hlt => simp only [round, hs, roundOf, if_pos hlt, Nat.add_zero]
  | noEnd hs hlen hne => simp only [round, hs, roundOf, if_neg (Nat.not_lt.mpr hlen), if_pos hne]
  | lastArg hs hlen hend hlast =>
      simp only [round, hs, roundOf, if_neg (Nat.not_lt.mpr hlen), hend, ne_eq, not_true_eq_false,
        if_false, hlast, if_true, Round.complete]
  | nextArg hs hlen hend hmore =>
      simp only [round, hs, roundOf, if_neg (Nat.not_lt.mpr hlen), hend, ne_eq, not_true_eq_false,
        if_false, if_neg hmore]
  | blank hs hnl hargs =>
      unfold inlineArgs at hargs ⊢
      simp only [round, hs, hnl, roundOf, if_pos hargs, Nat.add_assoc]
  | inline hs hnl hargs =>
      unfold inlineArgs at hargs ⊢
      simp only [round, hs, hnl, roundOf, if_neg hargs, Nat.add_assoc, Round.complete]

theorem Step.move_eq {p : RespParser} {rest : Bytes} {m : Move RespParser Command Bytes}
    (h : p.Step rest m) : p.move rest = m := by
  rw [move, h.round_eq 0]
  cases m <;> simp only [roundOf, Nat.zero_add] <;> rfl

theorem round_eq (p : RespParser) (pos : Nat) (rest : Bytes) :
    p.round pos rest = p.roundOf pos (p.move rest) :=
  (p.move_step rest).round_eq pos

theorem round_shows (p : RespParser) (pos : Nat) (rest : Bytes) :
    (p.round pos rest).Shows ((p.move rest).shift pos) := by
  rw [round_eq]
  cases p.move rest with
  | wait q n => exact .needMore q _
  | skip q n => exact .again q _
  | emit q n cmd => exact .complete q _ cmd
  | fail error => exact .fail _ _ error

/-- What a protocol error can say. -/
def errors : List Bytes :=
  [kErrMultibulkLen, kErrBulkLen, kErrExpectedDollar, kErrUnterminatedBulk, kErrLineTooLong,
    kErrAlreadyFailed]

/-- Two turns that absorb nothing never follow each other: this is what makes
the number of turns finite. -/
def weight (p : RespParser) : Nat :=
  if p.state = .readingType ∨ p.state = .readingBulkBody then 1 else 0

/-- The ways a turn can go: only a payload waits for the rest of itself, and
what absorbs and goes on gets nearer to the end. -/
inductive Turn (p : RespParser) (rest : Bytes) : Move RespParser Command Bytes → Prop
  | wait (hs : p.state ≠ .readingBulkBody) : Turn p rest (.wait p 0)
  | body (hs : p.state = .readingBulkBody) (hlt : rest.length < p.bulkRemaining) :
      Turn p rest (.wait (p.absorb rest) rest.length)
  | fail (error : Bytes) (he : error ∈ errors) : Turn p rest (.fail error)
  | skip (q : RespParser) (n : Nat) (hn : n ≤ rest.length)
      (hless : 2 * (rest.length - n) + q.weight < 2 * rest.length + p.weight) :
      Turn p rest (.skip q n)
  | emit (q : RespParser) (n : Nat) (cmd : Command) (hpos : 0 < n) (hn : n ≤ rest.length) :
      Turn p rest (.emit q n cmd)

theorem weight_le (p : RespParser) : p.weight ≤ 1 := by
  unfold weight
  split <;> omega

/-- Whatever comes after a byte is nearer to the end. -/
theorem Turn.past {p q : RespParser} {rest : Bytes} {n : Nat} (hpos : 0 < n)
    (hn : n ≤ rest.length) : p.Turn rest (.skip q n) := by
  refine .skip q n hn ?_
  have := q.weight_le
  omega

/-- A turn that absorbs nothing has to lead to a state of less weight. -/
theorem Turn.lighter {p q : RespParser} {rest : Bytes} {n : Nat} (hp : p.weight = 1)
    (hq : q.weight = 0) (hn : n ≤ rest.length) : p.Turn rest (.skip q n) := by
  refine .skip q n hn ?_
  omega

theorem Unended.not_body {p : RespParser} {rest : Bytes} (h : p.Unended rest) :
    p.state ≠ .readingBulkBody := by
  cases h with
  | count hs _ => rw [hs]; decide
  | length hs _ _ _ => rw [hs]; decide
  | inline hs _ => rw [hs]; decide

theorem move_turn (p : RespParser) (rest : Bytes) : p.Turn rest (p.move rest) := by
  have hstep := p.move_step rest
  generalize p.move rest = m at hstep
  cases hstep with
  | framingLost | tooLong | badCount | noDollar | badLength | noEnd =>
      exact .fail _ (by simp [errors])
  | nothing hs _ => exact .wait (by rcases hs with hs | hs <;> rw [hs] <;> decide)
  | unended hline _ => exact .wait hline.not_body
  | endAwaited hs _ => exact .wait (by rw [hs]; decide)
  | piece hs hlt => exact .body hs hlt
  | star hs hrest => exact .past (by omega) (by rw [hrest, List.length_cons]; omega)
  | plain hs _ _ => exact .lighter (if_pos (.inl hs)) rfl (Nat.zero_le _)
  | noArgs _ hi _ _ => exact .past (by omega) (findCrlf_le hi)
  | count _ hi _ _ _ => exact .past (by omega) (findCrlf_le hi)
  | length _ hrest hi _ _ _ =>
      have := findCrlf_le hi
      exact .past (by omega) (by rw [hrest, List.length_cons]; omega)
  | payload hs hle => exact .lighter (if_pos (.inr hs)) rfl hle
  | nextArg _ hlen _ _ => exact .past (by omega) hlen
  | lastArg _ hlen _ _ => exact .emit _ _ _ (by omega) hlen
  | blank _ hnl _ => exact .past (by omega) (List.findIdx?_eq_some_iff_findIdx_eq.mp hnl).1
  | inline _ hnl _ =>
      exact .emit _ _ _ (by omega) (List.findIdx?_eq_some_iff_findIdx_eq.mp hnl).1

/-! ## Whole calls -/

/-- A turn that is not the last gets nearer to the end. -/
theorem round_again {p q : RespParser} {inp : Bytes} {pos pos' : Nat}
    (h : p.round pos (inp.drop pos) = .again q pos') :
    2 * (inp.drop pos').length + q.weight < 2 * (inp.drop pos).length + p.weight := by
  have hturn := p.move_turn (inp.drop pos)
  rw [round_eq] at h
  cases hm : p.move (inp.drop pos) with
  | wait | emit | fail =>
      rw [hm] at h
      cases h
  | skip t n =>
      rw [hm] at h hturn
      cases h
      cases hturn with
      | skip _ _ hn hless =>
          rw [← List.length_drop, List.drop_drop] at hless
          exact hless

/-- `I` holds where the loop goes on, and `Q` of what it returns. -/
def Round.Leads (I : RespParser → Nat → Prop)
    (Q : RespParser × ParseResult × Option Command → Prop) : Round → Prop
  | .again p pos => I p pos
  | .done p result command => Q (p, result, command)

/-- What every turn keeps holds at the last turn, and there is one. -/
theorem parse_rule {I : RespParser → Nat → Prop}
    {Q : RespParser × ParseResult × Option Command → Prop} {inp : Bytes}
    (hround : ∀ p pos, I p pos → (p.round pos (inp.drop pos)).Leads I Q) {p : RespParser}
    (h : I p 0) : Q (p.parse inp) := by
  have hloop : ∀ fuel p pos, 2 * (inp.drop pos).length + p.weight < fuel → I p pos →
      Q (parseLoop inp fuel p pos) := by
    intro fuel
    induction fuel with
    | zero => intro p pos hfuel _; omega
    | succ fuel ih =>
        intro p pos hfuel hI
        have hleads := hround p pos hI
        rw [parseLoop]
        cases hr : p.round pos (inp.drop pos) with
        | again q pos' =>
            rw [hr] at hleads
            have hless := round_again hr
            exact ih q pos' (by omega) hleads
        | done q result command =>
            rw [hr] at hleads
            exact hleads
  have := p.weight_le
  exact hloop _ p 0 (by rw [List.drop_zero]; omega) h

/-- What `parse` returns, by the first move that is no mere progress. -/
inductive Parsed (p : RespParser) (inp : Bytes) :
    RespParser × ParseResult × Option Command → Prop
  | complete {q : RespParser} {n : Nat} {cmd : Command} (h : First move p inp (.emit q n cmd)) :
      Parsed p inp (q, { status := .complete, consumed := n }, some cmd)
  | needMore {q : RespParser} {n : Nat} (h : First move p inp (.wait q n)) :
      Parsed p inp (q, { status := .needMoreData, consumed := n }, none)
  | fail {error : Bytes} (h : First move p inp (.fail error)) (q : RespParser) (n : Nat) :
      Parsed p inp (q, { status := .protocolError, consumed := n, error }, none)

/-- The result of a call as a round. -/
theorem parseLoop_shows (inp : Bytes) :
    ∀ (fuel : Nat) (p : RespParser) (pos : Nat),
      2 * (inp.drop pos).length + p.weight < fuel →
      ∃ m, First move p (inp.drop pos) m ∧
        (Round.done (parseLoop inp fuel p pos).1 (parseLoop inp fuel p pos).2.1
          (parseLoop inp fuel p pos).2.2).Shows (m.shift pos) := by
  intro fuel
  induction fuel with
  | zero => intro p pos h; omega
  | succ fuel ih =>
      intro p pos hfuel
      have hround := p.round_shows pos (inp.drop pos)
      have hturn := p.move_turn (inp.drop pos)
      rw [parseLoop]
      generalize p.round pos (inp.drop pos) = r at hround
      cases hm : p.move (inp.drop pos) with
      | wait q n =>
          rw [hm] at hround
          refine ⟨_, .wait hm, ?_⟩
          cases hround
          exact .needMore _ _
      | fail error =>
          rw [hm] at hround
          refine ⟨_, .fail hm, ?_⟩
          cases hround
          exact .fail _ _ _
      | emit q n cmd =>
          rw [hm] at hround
          refine ⟨_, .emit hm, ?_⟩
          cases hround
          exact .complete _ _ _
      | skip q n =>
          rw [hm] at hround hturn
          cases hround
          cases hturn with
          | skip _ _ hn hless =>
              rw [← List.length_drop, List.drop_drop] at hless
              obtain ⟨m, hfirst, hshows⟩ := ih q (pos + n) (by omega)
              rw [← List.drop_drop] at hfirst
              refine ⟨_, .skip hm hfirst, ?_⟩
              rw [Move.shift_shift]
              exact hshows

theorem parse_cases (p : RespParser) (inp : Bytes) : Parsed p inp (p.parse inp) := by
  have := p.weight_le
  obtain ⟨m, hfirst, hshows⟩ := parseLoop_shows inp (2 * inp.length + 2) p 0
    (by rw [List.drop_zero]; omega)
  rw [List.drop_zero] at hfirst
  rw [Move.shift_zero] at hshows
  show Parsed p inp (parseLoop inp (2 * inp.length + 2) p 0)
  generalize parseLoop inp (2 * inp.length + 2) p 0 = o at hshows
  obtain ⟨q, result, command⟩ := o
  cases hshows with
  | needMore => exact .needMore hfirst
  | fail => exact .fail hfirst _ _
  | complete => exact .complete hfirst

/-- A command takes a byte at least and no more than there are, and an error
says one of the things it can say. -/
def Sized (inp : Bytes) : Move RespParser Command Bytes → Prop
  | .emit _ n _ => 0 < n ∧ n ≤ inp.length
  | .fail error => error ∈ errors
  | .wait _ _ | .skip _ _ => True

theorem Sized.shift {inp : Bytes} {n : Nat} (hn : n ≤ inp.length)
    {m : Move RespParser Command Bytes} (h : Sized (inp.drop n) m) : Sized inp (m.shift n) := by
  cases m with
  | wait q k => trivial
  | skip q k => trivial
  | emit q k cmd =>
      simp only [Sized, List.length_drop] at h
      show 0 < n + k ∧ n + k ≤ inp.length
      omega
  | fail error => exact h

theorem first_sized {p : RespParser} {inp : Bytes} {m : Move RespParser Command Bytes}
    (h : First move p inp m) : Sized inp m := by
  induction h with
  | wait h => trivial
  | @fail p inp error h =>
      have hturn := p.move_turn inp
      rw [h] at hturn
      cases hturn with
      | fail _ he => exact he
  | @emit p t inp n out h =>
      have hturn := p.move_turn inp
      rw [h] at hturn
      cases hturn with
      | emit _ _ _ hpos hn => exact ⟨hpos, hn⟩
  | @skip p t inp n m h _ ih =>
      have hturn := p.move_turn inp
      rw [h] at hturn
      cases hturn with
      | skip _ _ hn _ => exact ih.shift hn

/-! ## More bytes -/

theorem appendBack_append (args : Command) (arg data : Bytes) :
    appendBack (args ++ [arg]) data = args ++ [arg ++ data] := by
  induction args with
  | nil => rfl
  | cons a args ih =>
      cases args with
      | nil => rfl
      | cons b args =>
          show a :: appendBack (b :: args ++ [arg]) data = _
          rw [ih]
          rfl

theorem appendBack_nil (args : Command) : appendBack args [] = args := by
  rcases List.eq_nil_or_concat args with rfl | ⟨init, arg, rfl⟩
  · rfl
  · rw [List.concat_eq_append, appendBack_append, List.append_nil]

theorem appendBack_appendBack (args : Command) (a b : Bytes) :
    appendBack (appendBack args a) b = appendBack args (a ++ b) := by
  rcases List.eq_nil_or_concat args with rfl | ⟨init, arg, rfl⟩
  · rfl
  · rw [List.concat_eq_append, appendBack_append, appendBack_append, appendBack_append,
      List.append_assoc]

theorem absorb_absorb (p : RespParser) (a b : Bytes) :
    (p.absorb a).absorb b = p.absorb (a ++ b) := by
  unfold absorb
  simp only [appendBack_appendBack, List.length_append, Nat.sub_sub]

theorem absorb_nil (p : RespParser) : p.absorb [] = p := by
  unfold absorb
  rw [appendBack_nil, List.length_nil, Nat.sub_zero]

theorem move_wait {p q : RespParser} {rest : Bytes} {n : Nat} (h : p.move rest = .wait q n) :
    (p.state ≠ .readingBulkBody ∧ q = p ∧ n = 0) ∨
      (p.state = .readingBulkBody ∧ q = p.absorb rest ∧ n = rest.length ∧
        rest.length < p.bulkRemaining) := by
  have hturn := p.move_turn rest
  rw [h] at hturn
  cases hturn with
  | wait hs => exact .inl ⟨hs, rfl, rfl⟩
  | body hs hlt => exact .inr ⟨hs, rfl, rfl, hlt⟩

theorem move_body {p : RespParser} (hs : p.state = .readingBulkBody) (rest : Bytes) :
    p.move rest =
      if rest.length < p.bulkRemaining then .wait (p.absorb rest) rest.length
      else .skip { p.absorb (rest.take p.bulkRemaining) with state := .readingBulkCrlf }
        p.bulkRemaining := by
  split
  · next hlt => exact (Step.piece hs hlt).move_eq
  · next hlt => exact (Step.payload hs (Nat.le_of_not_lt hlt)).move_eq

/-- A line that will be short is not long yet. -/
theorem Unended.length_le {p : RespParser} {xs ys : Bytes} (h : p.Unended xs)
    (hline : p.ShortLine (xs ++ ys)) : xs.length ≤ kMaxLineLen := by
  unfold ShortLine lineLength lineParts at hline
  cases h with
  | count hs hend =>
      rw [hs] at hline
      cases hj : findCrlf (xs ++ ys) with
      | none => simp only [hj, List.length_append] at hline; omega
      | some j =>
          have := le_findCrlf hend hj
          simp only [hj] at hline
          omega
  | length hs line hrest hend =>
      subst hrest
      rw [hs] at hline
      rw [List.length_cons]
      cases hj : findCrlf (line ++ ys) with
      | none =>
          simp only [List.cons_append, List.head?_cons, List.tail_cons, hj, List.length_append,
            if_true] at hline
          omega
      | some j =>
          have := le_findCrlf hend hj
          simp only [List.cons_append, List.head?_cons, List.tail_cons, hj, if_true] at hline
          omega
  | inline hs hend =>
      rw [hs] at hline
      simp only [List.findIdx?_append, hend, Option.none_or] at hline
      cases hj : ys.findIdx? (· = lf) with
      | none => simp only [hj, Option.map_none, List.length_append] at hline; omega
      | some j => simp only [hj, Option.map_some] at hline; omega

/-- Outside a payload the parser either waits for more, and has absorbed
nothing, or does not look at what comes behind. -/
theorem move_append {p : RespParser} {xs ys : Bytes} (hbody : p.state ≠ .readingBulkBody)
    (hline : p.ShortLine (xs ++ ys)) :
    p.move xs = .wait p 0 ∨ p.move (xs ++ ys) = p.move xs := by
  have hcons : ∀ {c : UInt8} {line : Bytes}, xs = c :: line → xs ++ ys = c :: (line ++ ys) := by
    rintro c line rfl
    rfl
  have htwo : 2 ≤ xs.length → 2 ≤ (xs ++ ys).length := by rw [List.length_append]; omega
  have htake : ∀ {i : Nat}, i ≤ xs.length → xs.take i = (xs ++ ys).take i :=
    fun hi => (List.take_append_of_le_length hi).symm
  have hstep := p.move_step xs
  generalize p.move xs = m at hstep
  -- each case is the same case with the bytes behind it
  cases hstep with
  | nothing | unended | endAwaited => exact .inl rfl
  | piece hs _ => exact absurd hs hbody
  | payload hs _ => exact absurd hs hbody
  | tooLong h hlen => exact absurd (h.length_le hline) (Nat.not_le.mpr hlen)
  | framingLost hs => exact .inr (Step.framingLost hs).move_eq
  | star hs hrest => exact .inr (Step.star hs (hcons hrest)).move_eq
  | plain hs hrest hc => exact .inr (Step.plain hs (hcons hrest) hc).move_eq
  | badCount hs hi hbad =>
      rw [htake (Nat.le_of_add_right_le (findCrlf_le hi))] at hbad
      exact .inr (Step.badCount hs (findCrlf_append hi ys) hbad).move_eq
  | noArgs hs hi hn hneg =>
      rw [htake (Nat.le_of_add_right_le (findCrlf_le hi))] at hn
      exact .inr (Step.noArgs hs (findCrlf_append hi ys) hn hneg).move_eq
  | count hs hi hn hpos hmax =>
      rw [htake (Nat.le_of_add_right_le (findCrlf_le hi))] at hn
      exact .inr (Step.count hs (findCrlf_append hi ys) hn hpos hmax).move_eq
  | noDollar hs hrest hc => exact .inr (Step.noDollar hs (hcons hrest) hc).move_eq
  | @badLength line i hs hrest hi hbad =>
      rw [← List.take_append_of_le_length (Nat.le_of_add_right_le (findCrlf_le hi))] at hbad
      exact .inr (Step.badLength hs (hcons hrest) (findCrlf_append hi ys) hbad).move_eq
  | length hs hrest hi hn hpos hmax =>
      rw [← List.take_append_of_le_length (Nat.le_of_add_right_le (findCrlf_le hi))] at hn
      exact .inr (Step.length hs (hcons hrest) (findCrlf_append hi ys) hn hpos hmax).move_eq
  | noEnd hs hlen hne =>
      rw [htake hlen] at hne
      exact .inr (Step.noEnd hs (htwo hlen) hne).move_eq
  | lastArg hs hlen hend hlast =>
      rw [htake hlen] at hend
      exact .inr (Step.lastArg hs (htwo hlen) hend hlast).move_eq
  | nextArg hs hlen hend hmore =>
      rw [htake hlen] at hend
      exact .inr (Step.nextArg hs (htwo hlen) hend hmore).move_eq
  | @blank nl hs hnl hargs =>
      have hlen : nl < xs.length := (List.findIdx?_eq_some_iff_findIdx_eq.mp hnl).1
      have hnl' : (xs ++ ys).findIdx? (· = lf) = some nl := by
        rw [List.findIdx?_append, hnl, Option.some_or]
      rw [htake (Nat.le_of_lt hlen)] at hargs ⊢
      exact .inr (Step.blank hs hnl' hargs).move_eq
  | @inline nl hs hnl hargs =>
      have hlen : nl < xs.length := (List.findIdx?_eq_some_iff_findIdx_eq.mp hnl).1
      have hnl' : (xs ++ ys).findIdx? (· = lf) = some nl := by
        rw [List.findIdx?_append, hnl, Option.some_or]
      rw [htake (Nat.le_of_lt hlen)] at hargs ⊢
      exact .inr (Step.inline hs hnl' hargs).move_eq

/-- A payload in two pieces is the payload. -/
theorem stands_body {p : RespParser} (hs : p.state = .readingBulkBody) (xs ys : Bytes) :
    Stands move ShortLine p xs ys := by
  unfold Stands
  rw [move_body hs, move_body hs]
  by_cases hlt : xs.length < p.bulkRemaining
  · rw [if_pos hlt]
    simp only [List.drop_length, List.nil_append]
    refine ⟨Nat.le_refl _, ?_, ?_⟩
    · unfold ShortLine lineLength lineParts
      rw [show (p.absorb xs).state = .readingBulkBody from hs]
      exact Nat.zero_le _
    · rw [move_body (show (p.absorb xs).state = .readingBulkBody from hs), List.length_append]
      have hleft : (p.absorb xs).bulkRemaining = p.bulkRemaining - xs.length := rfl
      by_cases hall : xs.length + ys.length < p.bulkRemaining
      · rw [if_pos hall, if_pos (by rw [hleft]; omega), absorb_absorb]
        rfl
      · rw [if_neg hall, if_neg (by rw [hleft]; omega), absorb_absorb, hleft, List.take_append,
          List.take_of_length_le (Nat.le_of_lt hlt)]
        simp only [Move.shift]
        rw [Nat.add_sub_cancel' (Nat.le_of_lt hlt)]
  · rw [if_neg hlt]
    refine ⟨Nat.le_of_not_lt hlt, ?_⟩
    rw [if_neg (by rw [List.length_append]; omega),
      List.take_append_of_le_length (Nat.le_of_not_lt hlt)]

theorem resumable : Resumable move ShortLine where
  settles := by
    intro p rest q n h
    rcases move_wait h with ⟨_, rfl, rfl⟩ | ⟨hs, rfl, rfl, hlt⟩
    · rw [List.drop_zero]
      exact h
    · have hmore : ([] : Bytes).length < (p.absorb rest).bulkRemaining := Nat.sub_pos_of_lt hlt
      rw [List.drop_length, move_body (show (p.absorb rest).state = .readingBulkBody from hs),
        if_pos hmore, absorb_nil]
      rfl
  stands := by
    intro p xs ys hline
    by_cases hs : p.state = .readingBulkBody
    · exact stands_body hs xs ys
    · have hturn := p.move_turn xs
      have happend := move_append hs hline
      unfold Stands
      cases hm : p.move xs with
      | wait q n =>
          rcases move_wait hm with ⟨_, rfl, rfl⟩ | ⟨hs', _⟩
          · simp only [List.drop_zero, Move.shift_zero]
            exact ⟨Nat.zero_le _, hline, trivial⟩
          · exact absurd hs' hs
      | skip q n =>
          rw [hm] at hturn happend
          cases hturn with
          | skip _ _ hn _ => exact ⟨hn, happend.resolve_left (fun h => (by cases h))⟩
      | emit q n cmd =>
          rw [hm] at hturn happend
          cases hturn with
          | emit _ _ _ _ hn => exact ⟨hn, happend.resolve_left (fun h => (by cases h))⟩
      | fail error =>
          rw [hm] at happend
          exact happend.resolve_left (fun h => (by cases h))

end RespParser

end Cachedb
