import Cachedb.Model.CheckedParser
import Cachedb.Proofs.Grammar

/-!
# The parser always makes progress

The checked parser of `Model/CheckedParser.lean` returns on every input, and it
returns what `parse` returns. Two of its accesses depend on what earlier turns
have left: a payload is appended to an argument that has to be there, and the
countdown of arguments is decremented. `Consistent` says what is needed of the
state, one turn keeps it (`Consistent.move`), and so do whole calls; every
state that calls can lead to has it (`Reachable.consistent`).

A turn that ends the call has consumed no more than there is, at least a byte
with a command, and all but a line at most when it waits (`Settled`). With a
byte for every command the loop of `on_bytes` ends, too.
-/

namespace Cachedb

open Resume Checked

namespace RespParser

/-! ## What the accesses need -/

/-- Inside a request there are arguments left to read, and inside a payload
there is an argument to append to. -/
structure Consistent (p : RespParser) : Prop where
  left : p.state = .readingBulkLen ∨ p.state = .readingBulkBody ∨ p.state = .readingBulkCrlf →
    0 < p.multibulkRemaining
  under : p.state = .readingBulkBody → p.pending ≠ []

/-- Outside of a request nothing is needed. -/
theorem Consistent.outside {p : RespParser}
    (h : p.state ≠ .readingBulkLen ∧ p.state ≠ .readingBulkBody ∧ p.state ≠ .readingBulkCrlf) :
    p.Consistent where
  left hs := by simp [h] at hs
  under hs := absurd hs h.2.1

theorem Consistent.start : Consistent {} := .outside (by decide)

theorem Consistent.reset {p : RespParser} (h : p.Consistent) : p.reset.Consistent := by
  unfold RespParser.reset
  split
  · exact h
  · exact .start

theorem Consistent.anew {p : RespParser} (hs : p.state ≠ .failed) : p.reset.Consistent := by
  rw [RespParser.reset, if_neg hs]
  exact .start

theorem appendBack_ne_nil {args : Command} (h : args ≠ []) (data : Bytes) :
    appendBack args data ≠ [] := by
  rcases List.eq_nil_or_concat args with rfl | ⟨init, arg, rfl⟩
  · exact absurd rfl h
  · rw [List.concat_eq_append, appendBack_append]
    simp

/-- The state a move leads to. -/
def LeadsTo (P : RespParser → Prop) : Move RespParser Command Bytes → Prop
  | .wait q _ => P q
  | .skip q _ => P q
  | .emit q _ _ => P q
  | .fail _ => True

theorem Consistent.move {p : RespParser} (h : p.Consistent) (rest : Bytes) :
    LeadsTo Consistent (p.move rest) := by
  have hstep := p.move_step rest
  generalize p.move rest = m at hstep
  cases hstep with
  | framingLost | tooLong | badCount | noDollar | badLength | noEnd => trivial
  | nothing | unended | endAwaited => exact h
  | star | plain => exact .outside (by simp)
  | noArgs hs => exact h.reset
  | count hs hi hn hpos =>
      refine ⟨fun _ => ?_, fun h => ?_⟩
      · show 0 < Int.toNat _
        omega
      · cases h
  | length hs => exact ⟨fun _ => h.left (.inl hs), fun _ => by simp⟩
  | piece hs => exact ⟨fun _ => h.left (.inr (.inl hs)), fun _ => appendBack_ne_nil (h.under hs) _⟩
  | payload hs => exact ⟨fun _ => h.left (.inr (.inl hs)), fun h => by cases h⟩
  | nextArg hs hlen hend hmore => exact ⟨fun _ => Nat.pos_of_ne_zero hmore, fun h => by cases h⟩
  | lastArg hs | blank hs | inline hs => exact .anew (by rw [hs]; decide)

/-! ## One turn -/

section Turn

variable {p : RespParser} {pos : Nat} {inp : Bytes}

theorem unterminatedChecked_ok (hpos : pos ≤ inp.length) :
    p.unterminatedChecked pos inp = .ok (unterminated p pos (inp.drop pos)) := by
  rw [unterminatedChecked, sub_ok hpos, ok_bind, unterminated, List.length_drop]
  split <;> rfl

theorem readTypeChecked_ok (hs : p.state = .readingType) (hpos : pos ≤ inp.length) :
    p.readTypeChecked pos inp = .ok (p.round pos (inp.drop pos)) := by
  simp only [readTypeChecked, round, hs]
  by_cases hend : pos = inp.length
  · rw [if_pos hend, hend, List.drop_length]
    rfl
  · obtain ⟨c, hitem, hrest⟩ := item_drop (Nat.lt_of_le_of_ne hpos hend)
    rw [if_neg hend, hitem, ok_bind, hrest]
    simp only []
    split <;> rfl

theorem readMultibulkLenChecked_ok (hs : p.state = .readingMultibulkLen)
    (hpos : pos ≤ inp.length) :
    p.readMultibulkLenChecked pos inp = .ok (p.round pos (inp.drop pos)) := by
  simp only [readMultibulkLenChecked, findCrlfFrom, round, hs]
  cases hi : findCrlf (inp.drop pos) with
  | none => exact unterminatedChecked_ok hpos
  | some i =>
      have hle := findCrlf_le hi
      rw [List.length_drop] at hle
      simp only [Option.map_some]
      rw [sub_ok (by omega), ok_bind, Nat.add_sub_cancel_left, slice_ok (by omega), ok_bind]
      cases parseI64 ((inp.drop pos).take i) with
      | none => rfl
      | some n =>
          simp only []
          split
          · rfl
          · split <;> rfl

theorem readBulkLenChecked_ok (hs : p.state = .readingBulkLen) (hpos : pos ≤ inp.length) :
    p.readBulkLenChecked pos inp = .ok (p.round pos (inp.drop pos)) := by
  have hunended := unterminatedChecked_ok (p := p) hpos
  simp only [readBulkLenChecked, findCrlfFrom, round, hs]
  by_cases hend : pos = inp.length
  · rw [if_pos hend, hend, List.drop_length]
    rfl
  · obtain ⟨c, hitem, hrest⟩ := item_drop (Nat.lt_of_le_of_ne hpos hend)
    rw [hrest] at hunended
    rw [if_neg hend, hitem, ok_bind, hrest]
    simp only []
    split
    · rfl
    · cases hi : findCrlf (inp.drop (pos + 1)) with
      | none => exact hunended
      | some i =>
          have hle := findCrlf_le hi
          rw [List.length_drop] at hle
          simp only [Option.map_some]
          rw [sub_ok (by omega), ok_bind, sub_ok (by omega), ok_bind,
            show pos + 1 + i - pos - 1 = i by omega, slice_ok (by omega), ok_bind]
          cases parseI64 ((inp.drop (pos + 1)).take i) with
          | none => rfl
          | some n =>
              simp only []
              split <;> rfl

theorem readBulkBodyChecked_ok (hs : p.state = .readingBulkBody) (hp : p.Consistent)
    (hpos : pos ≤ inp.length) :
    p.readBulkBodyChecked pos inp = .ok (p.round pos (inp.drop pos)) := by
  have htake : pos + min (inp.length - pos) p.bulkRemaining ≤ inp.length := by omega
  simp only [readBulkBodyChecked, round, hs]
  rw [sub_ok hpos, ok_bind, slice_ok htake, ok_bind, appendBackChecked, if_neg (hp.under hs),
    pure_eq_ok, ok_bind, sub_ok (Nat.min_le_right _ _), ok_bind, List.length_drop]
  split <;> rfl

theorem readBulkCrlfChecked_ok (hs : p.state = .readingBulkCrlf) (hp : p.Consistent)
    (hpos : pos ≤ inp.length) :
    p.readBulkCrlfChecked pos inp = .ok (p.round pos (inp.drop pos)) := by
  simp only [readBulkCrlfChecked, round, hs]
  rw [sub_ok hpos, ok_bind, List.length_drop]
  split
  · rfl
  · next hlen =>
      obtain ⟨c, hfirst, hrest⟩ := item_drop (show pos < inp.length by omega)
      obtain ⟨d, hsecond, hrest'⟩ := item_drop (show pos + 1 < inp.length by omega)
      have hend : (inp.drop pos).take 2 ≠ crlf ↔ c ≠ cr ∨ d ≠ lf := by
        rw [hrest, hrest', crlf]
        simp [imp_iff_not_or]
      have hleft : 1 ≤ p.multibulkRemaining := hp.left (.inr (.inr hs))
      rw [hfirst, ok_bind, hsecond, ok_bind]
      by_cases hbad : c ≠ cr ∨ d ≠ lf
      · rw [if_pos hbad, if_pos (hend.mpr hbad)]
        rfl
      · rw [if_neg hbad, if_neg fun h => hbad (hend.mp h), sub_ok hleft, ok_bind]
        split <;> rfl

/-! ### The line of words -/

/-- The bytes from `i` up to `stop` are of one kind, and the next is not. -/
structure Passed (line : Bytes) (space : Bool) (i stop : Nat) : Prop where
  le : i ≤ stop
  inside : stop ≤ line.length
  taken : (line.drop i).take (stop - i) = (line.drop i).takeWhile fun c => isInlineSpace c = space
  left : line.drop stop = (line.drop i).dropWhile fun c => isInlineSpace c = space

theorem passChecked_ok (line : Bytes) (space : Bool) (fuel : Nat) : ∀ i, i ≤ line.length →
    line.length < i + fuel →
      ∃ stop, passChecked line space fuel i = .ok stop ∧ Passed line space i stop := by
  induction fuel with
  | zero => intro i hi h; omega
  | succ fuel ih =>
      intro i hi hfuel
      rw [passChecked]
      by_cases hlt : i < line.length
      · obtain ⟨c, hitem, hrest⟩ := item_drop hlt
        rw [if_pos hlt, hitem, ok_bind]
        by_cases hc : isInlineSpace c = space
        · obtain ⟨stop, hpass, hpassed⟩ := ih (i + 1) hlt (by omega)
          have hle := hpassed.le
          rw [if_pos hc]
          refine ⟨stop, hpass, by omega, hpassed.inside, ?_, ?_⟩
          · rw [hrest, List.takeWhile_cons_of_pos (by simpa using hc), ← hpassed.taken,
              show stop - i = stop - (i + 1) + 1 by omega, List.take_succ_cons]
          · rw [hrest, List.dropWhile_cons_of_pos (by simpa using hc), hpassed.left]
        · rw [if_neg hc]
          refine ⟨i, rfl, Nat.le_refl _, hi, ?_, ?_⟩
          · rw [hrest, List.takeWhile_cons_of_neg (by simpa using hc), Nat.sub_self, List.take_zero]
          · rw [hrest, List.dropWhile_cons_of_neg (by simpa using hc)]
      · rw [if_neg hlt]
        have hnil := List.drop_of_length_le (Nat.le_of_not_lt hlt)
        exact ⟨i, rfl, Nat.le_refl _, hi, by simp [hnil], by simp [hnil]⟩

theorem splitInline_spaces (line : Bytes) :
    splitInline [] line = splitInline [] (line.dropWhile fun c => isInlineSpace c = true) := by
  induction line with
  | nil => rfl
  | cons c rest ih =>
      by_cases hc : isInlineSpace c = true
      · rw [List.dropWhile_cons_of_pos (by simpa using hc), ← ih, splitInline, if_pos hc,
          if_pos rfl]
      · rw [List.dropWhile_cons_of_neg (by simpa using hc)]

theorem splitInline_letters (line : Bytes) : ∀ word,
    splitInline word line =
      splitInline (word ++ line.takeWhile fun c => isInlineSpace c = false)
        (line.dropWhile fun c => isInlineSpace c = false) := by
  induction line with
  | nil => intro word; simp
  | cons c rest ih =>
      intro word
      by_cases hc : isInlineSpace c = false
      · have hnot : ¬isInlineSpace c = true := by simp [hc]
        rw [List.dropWhile_cons_of_pos (by simpa using hc),
          List.takeWhile_cons_of_pos (by simpa using hc), splitInline, if_neg hnot, ih,
          List.append_assoc]
        rfl
      · rw [List.dropWhile_cons_of_neg (by simpa using hc),
          List.takeWhile_cons_of_neg (by simpa using hc), List.append_nil]

/-- What a loop stops at is of the other kind. -/
theorem dropWhile_head {f : UInt8 → Bool} {l rest : Bytes} {c : UInt8}
    (h : l.dropWhile f = c :: rest) : f c = false := by
  have hne : l.dropWhile f ≠ [] := by simp [h]
  have hhead := List.head_dropWhile_not f hne
  simpa [h] using hhead

/-- Behind the letters of a word there is a space, or nothing. -/
theorem splitInline_word {line : Bytes} {c : UInt8} {rest : Bytes} (hline : line = c :: rest)
    (hc : isInlineSpace c = false) :
    splitInline [] line =
      (line.takeWhile fun c => isInlineSpace c = false) ::
        splitInline [] (line.dropWhile fun c => isInlineSpace c = false) := by
  have hword : (line.takeWhile fun c => isInlineSpace c = false) ≠ [] := by
    rw [hline, List.takeWhile_cons_of_pos (by simpa using hc)]
    exact List.cons_ne_nil _ _
  rw [splitInline_letters line [], List.nil_append]
  generalize hafter : (line.dropWhile fun c => isInlineSpace c = false) = after
  cases after with
  | nil => rw [splitInline, splitInline, if_neg hword, if_pos rfl]
  | cons d after =>
      have hd : isInlineSpace d = true := by simpa using dropWhile_head hafter
      rw [splitInline, splitInline, if_pos hd, if_pos hd, if_neg hword, if_pos rfl]

theorem splitChecked_ok (line : Bytes) (fuel : Nat) : ∀ i args, i ≤ line.length →
    line.length < i + fuel →
      splitChecked line fuel i args = .ok (args ++ splitInline [] (line.drop i)) := by
  induction fuel with
  | zero => intro i args hi h; omega
  | succ fuel ih =>
      intro i args hi hfuel
      rw [splitChecked]
      by_cases hlt : i < line.length
      · -- the spaces in front of the next word
        obtain ⟨start, hpass, hspaces⟩ := passChecked_ok line true _ i hi
          (show line.length < i + (line.length + 1) by omega)
        have hfrom := hspaces.le
        have hinside := hspaces.inside
        rw [if_pos hlt, hpass, ok_bind, splitInline_spaces, ← hspaces.left]
        by_cases hend : start = line.length
        · rw [if_pos hend, hend, List.drop_length, splitInline, if_pos rfl, List.append_nil]
          rfl
        · obtain ⟨c, _, hrest⟩ := item_drop (show start < line.length by omega)
          have hc : isInlineSpace c = false := by
            simpa using dropWhile_head (hspaces.left.symm.trans hrest)
          -- the word
          obtain ⟨stop, hpass, hword⟩ := passChecked_ok line false _ start hinside
            (show line.length < start + (line.length + 1) by omega)
          have hto := hword.le
          have hstop := hword.inside
          have hlonger : start < stop := by
            by_contra hnot
            have htaken := hword.taken
            rw [show stop - start = 0 by omega, hrest,
              List.takeWhile_cons_of_pos (by simpa using hc)] at htaken
            cases htaken
          rw [if_neg hend, hpass, ok_bind, sub_ok hto, ok_bind, slice_ok (by omega), ok_bind,
            ih stop _ hstop (by omega), splitInline_word hrest hc, hword.taken, hword.left,
            List.append_assoc]
          rfl
      · rw [if_neg hlt, List.drop_of_length_le (Nat.le_of_not_lt hlt), splitInline, if_pos rfl,
          List.append_nil]
        rfl

theorem lineEndChecked_ok {nl : Nat} (hnl : pos + nl ≤ inp.length) :
    ∃ stop, lineEndChecked inp pos (pos + nl) = .ok stop ∧ pos ≤ stop ∧ stop ≤ inp.length ∧
      (inp.drop pos).take (stop - pos) =
        if ((inp.drop pos).take nl).getLast? = some cr then ((inp.drop pos).take nl).dropLast
        else (inp.drop pos).take nl := by
  rw [lineEndChecked]
  cases nl with
  | zero => exact ⟨pos, by simp, Nat.le_refl _, hnl, by simp⟩
  | succ k =>
      obtain ⟨c, hitem, hrest⟩ := item_drop (show pos + k < inp.length by omega)
      have hline : (inp.drop pos).take (k + 1) = (inp.drop pos).take k ++ [c] := by
        rw [List.take_add, List.drop_drop, hrest]
        rfl
      rw [if_pos (by omega), show pos + (k + 1) - 1 = pos + k by omega, hitem, ok_bind, hline,
        List.getLast?_concat, List.dropLast_concat]
      by_cases hc : c = cr
      · rw [if_pos hc, if_pos (by rw [hc]), sub_ok (by omega)]
        refine ⟨_, rfl, by omega, by omega, ?_⟩
        rw [show pos + (k + 1) - 1 - pos = k by omega]
      · rw [if_neg hc, if_neg fun h => hc (Option.some.inj h)]
        refine ⟨_, rfl, by omega, hnl, ?_⟩
        rw [Nat.add_sub_cancel_left, hline]

theorem readInlineChecked_ok (hs : p.state = .readingInline) (hpos : pos ≤ inp.length) :
    p.readInlineChecked pos inp = .ok (p.round pos (inp.drop pos)) := by
  simp only [readInlineChecked, findLfFrom, round, hs]
  cases hnl : (inp.drop pos).findIdx? (· = lf) with
  | none => exact unterminatedChecked_ok hpos
  | some nl =>
      have hlt := (List.findIdx?_eq_some_iff_findIdx_eq.mp hnl).1
      rw [List.length_drop] at hlt
      obtain ⟨stop, hstop, hle, hinside, hline⟩ :=
        lineEndChecked_ok (show pos + nl ≤ inp.length by omega)
      simp only [Option.map_some]
      rw [← hline, hstop, ok_bind, sub_ok hle, ok_bind, slice_ok (by omega), ok_bind,
        splitChecked_ok _ _ 0 [] (Nat.zero_le _) (by omega), ok_bind, List.drop_zero,
        List.nil_append]
      split <;> rfl

/-- Every turn of a consistent parser returns. -/
theorem roundChecked_ok (hp : p.Consistent) (hpos : pos ≤ inp.length) :
    p.roundChecked pos inp = .ok (p.round pos (inp.drop pos)) := by
  cases hs : p.state with
  | failed => simp only [roundChecked, round, hs, pure_eq_ok]
  | readingType => simp only [roundChecked, hs, readTypeChecked_ok hs hpos]
  | readingMultibulkLen => simp only [roundChecked, hs, readMultibulkLenChecked_ok hs hpos]
  | readingBulkLen => simp only [roundChecked, hs, readBulkLenChecked_ok hs hpos]
  | readingBulkBody => simp only [roundChecked, hs, readBulkBodyChecked_ok hs hp hpos]
  | readingBulkCrlf => simp only [roundChecked, hs, readBulkCrlfChecked_ok hs hp hpos]
  | readingInline => simp only [roundChecked, hs, readInlineChecked_ok hs hpos]

end Turn

/-! ## Whole calls -/

/-- Where it waits, a turn leaves a line at most. -/
theorem move_wait_left {p q : RespParser} {rest : Bytes} {n : Nat} (h : p.move rest = .wait q n) :
    rest.length ≤ n + kMaxLineLen := by
  have hstep := p.move_step rest
  rw [h] at hstep
  cases hstep with
  | nothing _ hrest => simp [hrest]
  | unended _ hlen => rwa [Nat.zero_add]
  | piece => exact Nat.le_add_right _ _
  | endAwaited _ hlt => exact Nat.le_trans (Nat.le_of_lt hlt) (by decide)

/-- What a call leaves and says, given all of its input. -/
structure Settled (inp : Bytes) (o : RespParser × ParseResult × Option Command) : Prop where
  consistent : o.1.Consistent
  within : o.2.1.consumed ≤ inp.length
  further : o.2.1.status = .complete → 0 < o.2.1.consumed
  left : o.2.1.status = .needMoreData → inp.length ≤ o.2.1.consumed + kMaxLineLen

theorem Consistent.round {p : RespParser} {pos : Nat} {inp : Bytes} (hp : p.Consistent)
    (hpos : pos ≤ inp.length) :
    (p.round pos (inp.drop pos)).Leads (fun q pos' => q.Consistent ∧ pos' ≤ inp.length)
      (Settled inp) := by
  have hturn := p.move_turn (inp.drop pos)
  have hleads := hp.move (inp.drop pos)
  have hlen := List.length_drop (i := pos) (l := inp)
  rw [round_eq]
  cases hm : p.move (inp.drop pos) with
  | wait q n =>
      rw [hm] at hturn hleads
      have hn : n ≤ (inp.drop pos).length := by cases hturn <;> omega
      have hleft := move_wait_left hm
      refine ⟨hleads, ?_, fun h => (by cases h), fun _ => ?_⟩
      · show pos + n ≤ inp.length
        omega
      · show inp.length ≤ pos + n + kMaxLineLen
        omega
  | emit q n cmd =>
      rw [hm] at hturn hleads
      cases hturn with
      | emit _ _ _ hn hle =>
          refine ⟨hleads, ?_, fun _ => ?_, fun h => (by cases h)⟩
          · show pos + n ≤ inp.length
            omega
          · show 0 < pos + n
            omega
  | fail error =>
      have hfailed : Consistent { p with state := .failed } := .outside (by simp)
      exact ⟨hfailed, hpos, fun h => (by cases h), fun h => (by cases h)⟩
  | skip q n =>
      rw [hm] at hturn hleads
      cases hturn with
      | skip _ _ hn _ =>
          refine ⟨hleads, ?_⟩
          omega

theorem Consistent.settled {p : RespParser} (hp : p.Consistent) (inp : Bytes) :
    Settled inp (p.parse inp) :=
  parse_rule (I := fun q pos => q.Consistent ∧ pos ≤ inp.length)
    (fun _ _ h => h.1.round h.2) ⟨hp, Nat.zero_le _⟩

theorem parseLoopChecked_ok (inp : Bytes) (fuel : Nat) : ∀ (p : RespParser) (pos : Nat),
    p.Consistent → pos ≤ inp.length → 2 * (inp.drop pos).length + p.weight < fuel →
      parseLoopChecked inp fuel p pos = .ok (parseLoop inp fuel p pos) := by
  induction fuel with
  | zero => intro p pos _ _ h; omega
  | succ fuel ih =>
      intro p pos hp hpos hfuel
      have hleads := hp.round hpos
      rw [parseLoopChecked, parseLoop, roundChecked_ok hp hpos, ok_bind]
      cases hr : p.round pos (inp.drop pos) with
      | done q result command => rfl
      | again q pos' =>
          rw [hr] at hleads
          have hless := round_again hr
          exact ih q pos' hleads.1 hleads.2 (by omega)

theorem parseChecked_ok {p : RespParser} (hp : p.Consistent) (inp : Bytes) :
    p.parseChecked inp = .ok (p.parse inp) := by
  have := p.weight_le
  exact parseLoopChecked_ok inp _ p 0 hp (Nat.zero_le _) (by rw [List.drop_zero]; omega)

/-- The states that calls lead a fresh parser to. -/
inductive Reachable : RespParser → Prop
  | start : Reachable {}
  | parse {p : RespParser} (h : Reachable p) (inp : Bytes) : Reachable (p.parse inp).1
  | reset {p : RespParser} (h : Reachable p) : Reachable p.reset

theorem Reachable.consistent {p : RespParser} (h : p.Reachable) : p.Consistent := by
  induction h with
  | start => exact .start
  | parse _ inp ih => exact (ih.settled inp).consistent
  | reset _ ih => exact ih.reset

end RespParser

/-! ## The loop over the commands -/

namespace Connection

open RespParser (Settled)

theorem drainChecked_ok (fuel : Nat) : ∀ (envs : Nat → Env) (c : Connection) (consumed : Nat)
    (s : Store), c.parser.Consistent → consumed ≤ c.inBuf.length →
      c.inBuf.length < consumed + fuel →
        drainChecked envs fuel c consumed s =
          .ok (drain envs fuel { c with inBuf := c.inBuf.drop consumed } s) := by
  induction fuel with
  | zero => intro envs c consumed s _ hle h; omega
  | succ fuel ih =>
      intro envs c consumed s hp hle hfuel
      have hall : (c.inBuf.drop consumed).take (c.inBuf.length - consumed) =
          c.inBuf.drop consumed := List.take_of_length_le (by rw [List.length_drop])
      have hsettled := hp.settled (c.inBuf.drop consumed)
      have hparsed := c.parser.parse_cases (c.inBuf.drop consumed)
      rw [drainChecked, drain, sub_ok hle, ok_bind, slice_ok (by omega), ok_bind, hall,
        RespParser.parseChecked_ok hp, ok_bind]
      simp only []
      generalize c.parser.parse (c.inBuf.drop consumed) = o at hparsed hsettled
      have hwithin := hsettled.within
      rw [List.length_drop] at hwithin
      cases hparsed with
      | @complete q n cmd _ =>
          have hn : 0 < n := hsettled.further rfl
          have hwithin : n ≤ c.inBuf.length - consumed := hwithin
          simp only [List.drop_drop]
          rw [ih _ _ _ _ hsettled.consistent _ _]
          · rfl
          · show consumed + n ≤ c.inBuf.length
            omega
          · show c.inBuf.length < consumed + n + fuel
            omega
      | needMore => simp only [List.drop_drop, pure_eq_ok]
      | fail => simp only [List.drop_drop, pure_eq_ok]

/-- The loop of `on_bytes` ends. -/
theorem onBytesChecked_ok {c : Connection} (hp : c.parser.Consistent) (bytes : Bytes) (s : Store)
    (envs : Nat → Env) : c.onBytesChecked bytes s envs = .ok (c.onBytes bytes s envs) := by
  rw [onBytesChecked, onBytes]
  split
  · rfl
  · split
    · rfl
    · exact drainChecked_ok _ envs _ 0 s hp (Nat.zero_le _) (by omega)

end Connection

/-- From every state that calls lead to and for every input: the call returns,
with all of its accesses inside and no countdown below zero. It consumes no
more than there is, a byte at least with a command, and all but a line at most
if it waits for more. So the loop over the commands of a read ends, too. -/
theorem parser_progress {p : RespParser} (h : p.Reachable) (inp : Bytes) :
    p.parseChecked inp = .ok (p.parse inp) ∧
      (p.parse inp).2.1.consumed ≤ inp.length ∧
      ((p.parse inp).2.1.status = .complete → 0 < (p.parse inp).2.1.consumed) ∧
      ((p.parse inp).2.1.status = .needMoreData →
        inp.length - (p.parse inp).2.1.consumed ≤ RespParser.kMaxLineLen) ∧
      ∀ (c : Connection) (bytes : Bytes) (s : Store) (envs : Nat → Env), c.parser = p →
        c.onBytesChecked bytes s envs = .ok (c.onBytes bytes s envs) := by
  have hsettled := h.consistent.settled inp
  refine ⟨RespParser.parseChecked_ok h.consistent inp, hsettled.within, hsettled.further,
    fun hwait => ?_, ?_⟩
  · have := hsettled.left hwait
    omega
  · intro c bytes s envs hc
    exact Connection.onBytesChecked_ok (hc ▸ h.consistent) bytes s envs

/-- In the middle of a payload. -/
theorem parser_progress_payload :
    (RespParser.parse {} (text "*1\r\n$4\r\nPI")).1.parseChecked (text "NG\r\nGET") =
      .ok ({}, { status := .complete, consumed := 4 }, some [text "PING"]) := by
  rw [(parser_progress (.parse .start (text "*1\r\n$4\r\nPI")) (text "NG\r\nGET")).1]
  decide +kernel

/-- The checks are not idle: from states that no call leads to, the run stops. -/
example :
    RespParser.parseChecked { state := .readingBulkBody, bulkRemaining := 1 } [97] =
        .error .outside ∧
      RespParser.parseChecked { state := .readingBulkCrlf } crlf = .error .wrapped :=
  ⟨rfl, rfl⟩

end Cachedb
