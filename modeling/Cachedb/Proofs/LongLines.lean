import Cachedb.Proofs.Grammar

/-!
# The cap on the length of a line

The parser refuses a line that is too long where it has not found its end. A
line whose end is in sight is taken whatever its length. So a long line is
refused if a call is made while it is cut, more than `kMaxLineLen` bytes of it
being there and its end not, and otherwise only if it is a header with a bad
number (`long_line_refused_iff`). How the bytes arrive decides, and a client
whose line comes in one read gets past the cap (`long_line_taken`).

What is said of a run is said at the place where the parser comes to the line,
which may be in the middle of a call. A call can be cut at any turn
(`parse_skip`): the rest of it is a call from there.
-/

namespace Cachedb

open Resume Grammar

namespace RespParser

/-! ## A call, turn by turn -/

/-- The result of a call that was made `n` bytes further on. -/
def advance (n : Nat) (o : RespParser × ParseResult × Option Command) :
    RespParser × ParseResult × Option Command :=
  (o.1, { o.2.1 with consumed := n + o.2.1.consumed }, o.2.2)

theorem parseLoop_drop (inp : Bytes) (n fuel : Nat) : ∀ (p : RespParser) (pos : Nat),
    parseLoop inp fuel p (n + pos) = advance n (parseLoop (inp.drop n) fuel p pos) := by
  induction fuel with
  | zero => intro p pos; rfl
  | succ fuel ih =>
      intro p pos
      rw [parseLoop, parseLoop, round_eq, round_eq, List.drop_drop]
      cases p.move (inp.drop (n + pos)) with
      | wait q k => simp [roundOf, Round.needMore, advance, Nat.add_assoc]
      | skip q k =>
          rw [roundOf, roundOf, Nat.add_assoc]
          exact ih q (pos + k)
      | emit q k cmd => simp [roundOf, advance, Nat.add_assoc]
      | fail error => simp [roundOf, Round.fail, advance]

/-- Any fuel above the number of turns gives the same. -/
theorem parseLoop_fuel (inp : Bytes) (fuel : Nat) : ∀ (fuel' : Nat) (p : RespParser) (pos : Nat),
    2 * (inp.drop pos).length + p.weight < fuel → 2 * (inp.drop pos).length + p.weight < fuel' →
      parseLoop inp fuel p pos = parseLoop inp fuel' p pos := by
  induction fuel with
  | zero => intro fuel' p pos h; omega
  | succ fuel ih =>
      intro fuel' p pos h h'
      obtain ⟨fuel', rfl⟩ : ∃ k, fuel' = k + 1 := ⟨fuel' - 1, by omega⟩
      rw [parseLoop, parseLoop]
      cases hr : p.round pos (inp.drop pos) with
      | done q result command => rfl
      | again q pos' =>
          have hless := round_again hr
          exact ih fuel' q pos' (by omega) (by omega)

theorem parse_skip {p q : RespParser} {inp : Bytes} {n : Nat} (hm : p.move inp = .skip q n) :
    p.parse inp = advance n (q.parse (inp.drop n)) := by
  have hturn := p.move_turn inp
  rw [hm] at hturn
  cases hturn with
  | skip _ _ hn hless =>
      have := p.weight_le
      have := q.weight_le
      have hround : p.parse inp = parseLoop inp (2 * inp.length + 1) q (n + 0) := by
        rw [parse, parseLoop, round_eq, List.drop_zero, hm]
        simp only [roundOf, Nat.zero_add, Nat.add_zero]
      rw [hround, parseLoop_drop, parse]
      rw [parseLoop_fuel (inp.drop n) _ (2 * (inp.drop n).length + 2) q 0]
      · rw [List.drop_zero, List.length_drop]
        omega
      · rw [List.drop_zero]
        omega

theorem parse_wait {p q : RespParser} {inp : Bytes} {n : Nat} (hm : p.move inp = .wait q n) :
    p.parse inp = (q, { status := .needMoreData, consumed := n }, none) := by
  rw [parse, parseLoop, round_eq, List.drop_zero, hm]
  simp only [roundOf, Round.needMore, Nat.zero_add]

theorem parse_emit {p q : RespParser} {inp : Bytes} {n : Nat} {cmd : Command}
    (hm : p.move inp = .emit q n cmd) :
    p.parse inp = (q, { status := .complete, consumed := n }, some cmd) := by
  rw [parse, parseLoop, round_eq, List.drop_zero, hm]
  simp only [roundOf, Nat.zero_add]

theorem parse_fail {p : RespParser} {inp error : Bytes} (hm : p.move inp = .fail error) :
    p.parse inp =
      ({ p with state := .failed }, { status := .protocolError, consumed := 0, error }, none) := by
  rw [parse, parseLoop, round_eq, List.drop_zero, hm]
  rfl

/-! ## The line the parser stands at -/

def LongLine (p : RespParser) (stream : Bytes) : Prop := kMaxLineLen + 1 < p.lineSpan stream

inductive AtLine (p : RespParser) (stream : Bytes) : Prop
  | count (hs : p.state = .readingMultibulkLen)
  | length (hs : p.state = .readingBulkLen) (hmark : stream.head? = some 36)
  | inline (hs : p.state = .readingInline)

theorem LongLine.atLine {p : RespParser} {stream : Bytes} (h : p.LongLine stream) :
    p.AtLine stream := by
  unfold LongLine lineSpan lineParts at h
  split at h
  · next hs => exact .count hs
  · next hs =>
      split at h
      · next hmark => exact .length hs hmark
      · cases h
  · next hs => exact .inline hs
  · cases h

/-- The line is a header, it has its end, and the number on it is none or out
of range. -/
inductive BadHeader (p : RespParser) (seen : Bytes) : Prop
  | count {i : Nat} (hs : p.state = .readingMultibulkLen) (hi : findCrlf seen = some i)
      (hbad : ∀ n, parseI64 (seen.take i) = some n → kMaxMultibulkLen < n)
  | length {line : Bytes} {i : Nat} (hs : p.state = .readingBulkLen) (hseen : seen = 36 :: line)
      (hi : findCrlf line = some i)
      (hbad : ∀ n, parseI64 (line.take i) = some n → n < 0 ∨ kMaxBulkLen < n)

/-- More of the line is there than may be, but not its end, or it is a bad
header. -/
def Caught (p : RespParser) (seen : Bytes) : Prop :=
  p.Unended seen ∧ kMaxLineLen < seen.length ∨ p.BadHeader seen

/-- What a call makes of the line, by the bytes it sees. Once the line is taken
there is no more to be seen of it. -/
inductive Verdict (p : RespParser) (seen : Bytes) : Move RespParser Command Bytes → Prop
  | refused (h : p.Caught seen) (error : Bytes) : Verdict p seen (.fail error)
  | awaited (h : ¬p.Caught seen) : Verdict p seen (.wait p 0)
  | skipped (h : ∀ more, ¬p.Caught (seen ++ more)) (q : RespParser) {n : Nat} (hn : 0 < n) :
      Verdict p seen (.skip q n)
  | taken (h : ∀ more, ¬p.Caught (seen ++ more)) (q : RespParser) {n : Nat} (hn : 0 < n)
      (cmd : Command) : Verdict p seen (.emit q n cmd)

theorem not_caught_count {p : RespParser} {seen : Bytes} {i : Nat} {n : Int}
    (hs : p.state = .readingMultibulkLen) (hi : findCrlf seen = some i)
    (hn : parseI64 (seen.take i) = some n) (hmax : n ≤ kMaxMultibulkLen) (more : Bytes) :
    ¬p.Caught (seen ++ more) := by
  have hend := findCrlf_append hi more
  rintro (⟨hline, _⟩ | hbad)
  · cases hline with
    | count _ h => cases hend.symm.trans h
    | length h => cases hs.symm.trans h
    | inline h => cases hs.symm.trans h
  · cases hbad with
    | count _ hj hbad =>
        cases Option.some.inj (hend.symm.trans hj)
        rw [List.take_append_of_le_length (Nat.le_of_add_right_le (findCrlf_le hi))] at hbad
        exact absurd (hbad n hn) (Int.not_lt.mpr hmax)
    | length h => cases hs.symm.trans h

theorem not_caught_length {p : RespParser} {line : Bytes} {i : Nat} {n : Int}
    (hs : p.state = .readingBulkLen) (hi : findCrlf line = some i)
    (hn : parseI64 (line.take i) = some n) (hpos : 0 ≤ n) (hmax : n ≤ kMaxBulkLen)
    (more : Bytes) : ¬p.Caught (36 :: line ++ more) := by
  have hend := findCrlf_append hi more
  rintro (⟨hline, _⟩ | hbad)
  · cases hline with
    | count h => cases hs.symm.trans h
    | length _ line' hrest h =>
        cases hrest
        cases hend.symm.trans h
    | inline h => cases hs.symm.trans h
  · cases hbad with
    | count h => cases hs.symm.trans h
    | length _ hseen hj hbad =>
        obtain rfl : line ++ more = _ := (List.cons.inj hseen).2
        cases Option.some.inj (hend.symm.trans hj)
        rw [List.take_append_of_le_length (Nat.le_of_add_right_le (findCrlf_le hi))] at hbad
        rcases hbad n hn with h | h <;> omega

theorem not_caught_inline {p : RespParser} {seen : Bytes} {nl : Nat}
    (hs : p.state = .readingInline) (hnl : seen.findIdx? (· = lf) = some nl) (more : Bytes) :
    ¬p.Caught (seen ++ more) := by
  rintro (⟨hline, _⟩ | hbad)
  · cases hline with
    | count h => cases hs.symm.trans h
    | length h => cases hs.symm.trans h
    | inline _ h => simp [List.findIdx?_append, hnl] at h
  · cases hbad with
    | count h => cases hs.symm.trans h
    | length h => cases hs.symm.trans h

theorem Unended.not_badHeader {p : RespParser} {seen : Bytes} (h : p.Unended seen) :
    ¬p.BadHeader seen := by
  intro hbad
  cases h with
  | count hs hend =>
      cases hbad with
      | count _ hi => cases hend.symm.trans hi
      | length h => cases hs.symm.trans h
  | length hs line hrest hend =>
      cases hbad with
      | count h => cases hs.symm.trans h
      | length _ hseen hi =>
          cases hrest.symm.trans hseen
          cases hend.symm.trans hi
  | inline hs _ =>
      cases hbad with
      | count h => cases hs.symm.trans h
      | length h => cases hs.symm.trans h

theorem not_caught_nil (p : RespParser) (hs : p.state = .readingBulkLen) : ¬p.Caught [] := by
  rintro (⟨_, hlen⟩ | hbad)
  · cases hlen
  · cases hbad with
    | count h => cases hs.symm.trans h
    | length _ hseen => cases hseen

theorem AtLine.verdict {p : RespParser} {seen more : Bytes} (h : p.AtLine (seen ++ more)) :
    p.Verdict seen (p.move seen) := by
  have hstate : p.state = .readingMultibulkLen ∨ p.state = .readingBulkLen ∨
      p.state = .readingInline := by
    cases h with
    | count hs => exact .inl hs
    | length hs => exact .inr (.inl hs)
    | inline hs => exact .inr (.inr hs)
  have hother : ∀ {s : ParserState}, p.state = s → s ≠ .readingMultibulkLen →
      s ≠ .readingBulkLen → s ≠ .readingInline → False := by
    rintro s rfl h1 h2 h3
    exact hstate.elim h1 fun h => h.elim h2 h3
  have hstep := p.move_step seen
  generalize p.move seen = m at hstep
  cases hstep with
  | framingLost hs | star hs | plain hs | piece hs | payload hs | endAwaited hs | noEnd hs
    | lastArg hs | nextArg hs => exact (hother hs (by decide) (by decide) (by decide)).elim
  | nothing hs hrest =>
      subst hrest
      rcases hs with hs | hs
      · exact (hother hs (by decide) (by decide) (by decide)).elim
      · exact .awaited (p.not_caught_nil hs)
  | unended hline hlen =>
      refine .awaited ?_
      rintro (⟨_, hlong⟩ | hbad)
      · omega
      · exact hline.not_badHeader hbad
  | tooLong hline hlen => exact .refused (.inl ⟨hline, hlen⟩) _
  | badCount hs hi hbad => exact .refused (.inr (.count hs hi hbad)) _
  | badLength hs hrest hi hbad => exact .refused (.inr (.length hs hrest hi hbad)) _
  | noDollar hs hrest hc =>
      cases h with
      | count h => cases hs.symm.trans h
      | inline h => cases hs.symm.trans h
      | length _ hmark =>
          subst hrest
          exact absurd (Option.some.inj hmark) hc
  | noArgs hs hi hn hneg =>
      refine .skipped (not_caught_count hs hi hn ?_) _ (by omega)
      exact Int.le_trans hneg (by decide)
  | count hs hi hn _ hmax => exact .skipped (not_caught_count hs hi hn hmax) _ (by omega)
  | length hs hrest hi hn hpos hmax =>
      subst hrest
      exact .skipped (not_caught_length hs hi hn hpos hmax) _ (by omega)
  | blank hs hnl _ => exact .skipped (not_caught_inline hs hnl) _ (by omega)
  | inline hs hnl _ => exact .taken (not_caught_inline hs hnl) _ (by omega) _

end RespParser

/-! ## Runs -/

namespace ParserCall

/-- A call of `parse` is made, and `P` holds of the calls before it. -/
def Meets (calls : List ParserCall) (P : List ParserCall → Prop) : Prop :=
  ∃ begun later, calls = begun ++ .parse :: later ∧ P begun

variable {calls : List ParserCall} {P : List ParserCall → Prop}

theorem not_meets_nil : ¬Meets [] P := by
  rintro ⟨begun, later, h, _⟩
  cases begun <;> cases h

theorem meets_cons {call : ParserCall} :
    Meets (call :: calls) P ↔
      call = .parse ∧ P [] ∨ Meets calls fun begun => P (call :: begun) := by
  constructor
  · rintro ⟨begun, later, h, hP⟩
    cases begun with
    | nil => exact .inl ⟨(List.cons.inj h).1, hP⟩
    | cons first begun =>
        obtain ⟨rfl, rfl⟩ := List.cons.inj h
        exact .inr ⟨begun, later, rfl, hP⟩
  · rintro (⟨rfl, hP⟩ | ⟨begun, later, rfl, hP⟩)
    · exact ⟨[], calls, rfl, hP⟩
    · exact ⟨call :: begun, later, rfl, hP⟩

theorem stream_cons (call : ParserCall) (calls : List ParserCall) :
    stream (call :: calls) = call.given ++ stream calls :=
  List.flatMap_cons

end ParserCall

namespace Feeding

open ParserCall (Meets meets_cons not_meets_nil)

/-- The places the next call passes by turns that only absorb. -/
inductive Passes (f : Feeding) : Feeding → Prop
  | here : Passes f f
  | turn {g : Feeding} {q : RespParser} {n : Nat} (h : Passes f g)
      (hm : g.parser.move g.buf = .skip q n) :
      Passes f { g with parser := q, buf := g.buf.drop n, since := g.since ++ g.buf.take n }

theorem Passes.step_parse {f g : Feeding} (h : f.Passes g) : f.step .parse = g.step .parse := by
  induction h with
  | here => rfl
  | @turn g q n _ hm ih =>
      rw [ih]
      simp only [step, RespParser.parse_skip hm, RespParser.advance, List.take_add,
        List.append_assoc, List.drop_drop]

/-- The call after `begun` reports a protocol error, and up to then no command
is returned and nothing is consumed behind `since`. -/
def RefusedAfter (f : Feeding) (since : Bytes) (begun : List ParserCall) : Prop :=
  ∃ waits : List Returned,
    (∀ r ∈ waits, r = { status := .needMoreData, taken := since, command := none }) ∧
      (f.run (begun ++ [.parse])).log =
        f.log ++ (waits ++ [{ status := .protocolError, taken := since, command := none }])

/-- From the place where it comes to a line a call goes on as a call. -/
theorem Passes.refused_iff {f g : Feeding} (h : f.Passes g) (since : Bytes)
    (after : List ParserCall) :
    Meets (.parse :: after) (f.RefusedAfter since) ↔
      Meets (.parse :: after) (g.RefusedAfter since) := by
  have hlog : f.log = g.log := by
    induction h with
    | here => rfl
    | turn _ _ ih => exact ih
  have hrun : ∀ calls, f.run (.parse :: calls) = g.run (.parse :: calls) := fun calls =>
    congrArg (fun f => Feeding.run f calls) h.step_parse
  have hfirst : f.RefusedAfter since [] ↔ g.RefusedAfter since [] := by
    unfold RefusedAfter
    rw [List.nil_append, hrun, hlog]
  have hlater : ∀ begun,
      f.RefusedAfter since (.parse :: begun) ↔ g.RefusedAfter since (.parse :: begun) := by
    intro begun
    unfold RefusedAfter
    rw [List.cons_append, hrun, hlog]
  rw [meets_cons, meets_cons]
  simp only [hfirst, hlater]

theorem run_log (calls : List ParserCall) :
    ∀ f : Feeding, ∃ more, (f.run calls).log = f.log ++ more := by
  induction calls with
  | nil => exact fun f => ⟨[], (List.append_nil _).symm⟩
  | cons call calls ih =>
      intro f
      obtain ⟨more, hmore⟩ := ih (f.step call)
      cases call with
      | bytes chunk => exact ⟨more, hmore⟩
      | parse => exact ⟨_, hmore.trans (List.append_assoc _ _ _)⟩

variable {g : Feeding}

theorem step_wait (hm : g.parser.move g.buf = .wait g.parser 0) :
    g.step .parse = { g with
      log := g.log ++ [{ status := .needMoreData, taken := g.since, command := none }] } := by
  simp only [step, RespParser.parse_wait hm, List.take_zero, List.append_nil, List.drop_zero,
    reduceCtorEq, if_false]

theorem step_fail {error : Bytes} (hm : g.parser.move g.buf = .fail error) :
    (g.step .parse).log =
      g.log ++ [{ status := .protocolError, taken := g.since, command := none }] := by
  simp only [step, RespParser.parse_fail hm, List.take_zero, List.append_nil]

theorem refusedAfter_fail {error : Bytes} (hm : g.parser.move g.buf = .fail error) :
    g.RefusedAfter g.since [] := ⟨[], List.forall_mem_nil _, step_fail hm⟩

/-- While the parser waits it stays where it is. -/
theorem refusedAfter_wait (hm : g.parser.move g.buf = .wait g.parser 0)
    (begun : List ParserCall) :
    g.RefusedAfter g.since (.parse :: begun) ↔ (g.step .parse).RefusedAfter g.since begun := by
  obtain ⟨more, hmore⟩ := run_log (begun ++ [.parse]) (g.step .parse)
  have hstep := step_wait hm
  constructor
  · rintro ⟨waits, hwaits, hlog⟩
    have hlog : ((g.step .parse).run (begun ++ [.parse])).log = _ := hlog
    rw [hmore, hstep, List.append_assoc, List.append_cancel_left_eq] at hlog
    cases waits with
    | nil => cases (List.cons.inj hlog).1
    | cons r waits =>
        refine ⟨waits, fun r hr => hwaits r (List.mem_cons_of_mem _ hr), ?_⟩
        rw [hmore, show more = _ from (List.cons.inj hlog).2]
        rfl
  · rintro ⟨waits, hwaits, hlog⟩
    refine ⟨_ :: waits, List.forall_mem_cons.mpr ⟨rfl, hwaits⟩, ?_⟩
    show ((g.step .parse).run (begun ++ [.parse])).log = _
    rw [hlog, hstep, List.append_assoc]
    rfl

/-- Where the first call has consumed a byte, or has not failed, it was not
that call. -/
theorem not_refusedAfter_nil {r : Returned} (hlog : (g.step .parse).log = g.log ++ [r])
    (hr : r.status = .protocolError → r.taken ≠ g.since) : ¬g.RefusedAfter g.since [] := by
  rintro ⟨waits, _, h⟩
  have h := (hlog.symm.trans h).symm
  rw [List.append_cancel_left_eq] at h
  have hlast : [{ status := .protocolError, taken := g.since, command := none }] = [r] := by
    cases waits with
    | nil => exact h
    | cons _ waits => cases waits <;> cases (List.cons.inj h).2
  obtain rfl := (List.cons.inj hlast).1
  exact hr rfl rfl

/-- Once a byte of the line is consumed the line is not refused any more. -/
theorem not_refusedAfter_cons {r : Returned} (hlog : (g.step .parse).log = g.log ++ [r])
    (hr : r.taken ≠ g.since) (begun : List ParserCall) :
    ¬g.RefusedAfter g.since (.parse :: begun) := by
  rintro ⟨waits, hwaits, h⟩
  obtain ⟨more, hmore⟩ := run_log (begun ++ [.parse]) (g.step .parse)
  have h : ((g.step .parse).run (begun ++ [.parse])).log = _ := h
  rw [hmore, hlog, List.append_assoc, List.append_cancel_left_eq] at h
  cases waits with
  | nil => exact hr (congrArg Returned.taken (List.cons.inj h).1)
  | cons w waits =>
      have hw := hwaits w List.mem_cons_self
      rw [← (List.cons.inj h).1] at hw
      exact hr (congrArg Returned.taken hw)

theorem taken_ne {n : Nat} (hpos : 0 < n) (hbuf : g.buf ≠ []) :
    g.since ++ g.buf.take n ≠ g.since := by
  intro h
  have := List.append_right_eq_self.mp h
  rcases List.take_eq_nil_iff.mp this with hn | hnil
  · omega
  · exact hbuf hnil

/-- A call that gets past the line has consumed bytes of it. -/
theorem past_line (hbuf : g.buf ≠ []) (hpast : 0 < (g.parser.parse g.buf).2.1.consumed) :
    ¬g.RefusedAfter g.since [] ∧ ∀ begun, ¬g.RefusedAfter g.since (.parse :: begun) :=
  ⟨not_refusedAfter_nil rfl fun _ => taken_ne hpast hbuf,
    not_refusedAfter_cons rfl (taken_ne hpast hbuf)⟩

/-- Neither does any call refuse it, nor does any call see it cut. -/
theorem past_line_iff (hbuf : g.buf ≠ []) (hpast : 0 < (g.parser.parse g.buf).2.1.consumed)
    (hnot : ∀ more, ¬g.parser.Caught (g.buf ++ more)) (calls : List ParserCall) :
    (g.RefusedAfter g.since [] ∨
        Meets calls (fun begun => g.RefusedAfter g.since (.parse :: begun))) ↔
      (g.parser.Caught g.buf ∨
        Meets calls fun begun => g.parser.Caught (g.buf ++ ParserCall.stream begun)) := by
  obtain ⟨hfirst, hlater⟩ := past_line hbuf hpast
  refine iff_of_false ?_ ?_
  · rintro (h | ⟨begun, later, _, h⟩)
    · exact hfirst h
    · exact hlater begun h
  · rintro (h | ⟨begun, later, _, h⟩)
    · rw [← List.append_nil g.buf] at h
      exact hnot [] h
    · exact hnot _ h

/-- The line at which the parser stands is refused just if a call sees too much
of it without its end, or it is a bad header. -/
theorem refused_iff_caught (calls : List ParserCall) : ∀ g : Feeding,
    g.parser.AtLine (g.buf ++ ParserCall.stream calls) →
      (Meets calls (g.RefusedAfter g.since) ↔
        Meets calls fun begun => g.parser.Caught (g.buf ++ ParserCall.stream begun)) := by
  induction calls with
  | nil => exact fun g _ => ⟨fun h => (not_meets_nil h).elim, fun h => (not_meets_nil h).elim⟩
  | cons call calls ih =>
      intro g hline
      rw [ParserCall.stream_cons] at hline
      rw [meets_cons, meets_cons]
      simp only [ParserCall.stream_cons]
      cases call with
      | bytes chunk =>
          have := ih (g.step (.bytes chunk)) (by rwa [← List.append_assoc] at hline)
          simp only [reduceCtorEq, false_and, false_or, ParserCall.given, ← List.append_assoc]
          exact this
      | parse =>
          have hnil : g.buf ++ ParserCall.stream [] = g.buf := List.append_nil _
          have hgiven : ∀ data, ParserCall.parse.given ++ data = data := List.nil_append
          simp only [hgiven, true_and, hnil] at hline ⊢
          have hturn := g.parser.move_turn g.buf
          have hverdict := hline.verdict
          generalize hm : g.parser.move g.buf = m at hturn hverdict
          cases hverdict with
          | refused hcaught error =>
              exact iff_of_true (.inl (refusedAfter_fail hm)) (.inl hcaught)
          | awaited hnot =>
              have hfirst : ¬g.RefusedAfter g.since [] :=
                not_refusedAfter_nil (congrArg log (step_wait hm)) fun h => (by cases h)
              have := ih (g.step .parse) (by rwa [step_wait hm])
              simp only [hfirst, hnot, false_or, refusedAfter_wait hm]
              rwa [step_wait hm] at this ⊢
          | skipped hnot q hn =>
              cases hturn with
              | skip _ _ hle _ =>
                  refine past_line_iff (List.ne_nil_of_length_pos (by omega)) ?_ hnot calls
                  rw [RespParser.parse_skip hm]
                  exact Nat.lt_of_lt_of_le hn (Nat.le_add_right _ _)
          | taken hnot q hn cmd =>
              cases hturn with
              | emit _ _ _ _ hle =>
                  refine past_line_iff (List.ne_nil_of_length_pos (by omega)) ?_ hnot calls
                  rw [RespParser.parse_emit hm]
                  exact hn

end Feeding

open ParserCall (Meets)

/-! ## One line in one read, and in two -/

/-- A word of `n` bytes. -/
def letters (n : Nat) : Bytes := List.replicate n 97

theorem findLf_letters (n : Nat) : (letters n).findIdx? (· = lf) = none := by
  rw [List.findIdx?_eq_none_iff]
  intro c hc
  rw [(List.mem_replicate.mp hc).2]
  rfl

theorem findLf_line (n : Nat) : (letters n ++ [lf]).findIdx? (· = lf) = some n := by
  rw [List.findIdx?_append, findLf_letters]
  simp [letters, lf]

theorem words_letters (n : Nat) : words (letters (n + 1)) = [letters (n + 1)] := by
  have hcr : chomp (letters (n + 1)) = letters (n + 1) := by
    refine if_neg fun h => ?_
    have hmem := List.mem_of_getLast? h
    exact absurd (List.mem_replicate.mp hmem).2 (by decide)
  have hspace : ∀ c ∈ letters (n + 1), RespParser.isInlineSpace c = false := by
    intro c hc
    rw [(List.mem_replicate.mp hc).2]
    rfl
  rw [words, hcr, List.splitOnP_eq_singleton hspace]
  rfl

/-- A fresh parser takes the first letter for that of a line of words. -/
theorem move_letters (n : Nat) (rest : Bytes) :
    RespParser.move {} (letters (n + 1) ++ rest) = .skip { state := .readingInline } 0 :=
  (show RespParser.Step {} (97 :: (letters n ++ rest)) _ from
    .plain rfl rfl (by decide)).move_eq

theorem parse_letters (n : Nat) :
    RespParser.parse {} (letters (n + 1) ++ [lf]) =
      ({}, { status := .complete, consumed := n + 1 + 1 }, some [letters (n + 1)]) := by
  have hline : (letters (n + 1) ++ [lf]).take (n + 1) = letters (n + 1) :=
    List.take_left' List.length_replicate
  have hargs : RespParser.inlineArgs ((letters (n + 1) ++ [lf]).take (n + 1)) =
      [letters (n + 1)] := by
    rw [hline, RespParser.inlineArgs_eq, words_letters]
  have hm := (RespParser.Step.inline (p := { state := .readingInline }) rfl (findLf_line (n + 1))
    (by rw [hargs]; exact List.cons_ne_nil _ _)).move_eq
  rw [hargs] at hm
  rw [RespParser.parse_skip (move_letters n [lf]), List.drop_zero, RespParser.parse_emit hm]
  simp only [RespParser.advance, Nat.zero_add]
  rfl

theorem parse_letters_cut {n : Nat} (h : RespParser.kMaxLineLen < n + 1) :
    RespParser.parse {} (letters (n + 1)) =
      ({ state := .failed },
        { status := .protocolError, consumed := 0, error := RespParser.kErrLineTooLong },
        none) := by
  have hskip := move_letters n []
  rw [List.append_nil] at hskip
  have hlen : (letters (n + 1)).length = n + 1 := List.length_replicate
  have hm := (RespParser.Step.tooLong (p := { state := .readingInline })
    (.inline rfl (findLf_letters (n + 1))) (by rwa [hlen])).move_eq
  rw [RespParser.parse_skip hskip, List.drop_zero, RespParser.parse_fail hm]
  rfl

theorem line_in_one_read (n : Nat) :
    (Feeding.run {} [.bytes (letters (n + 1) ++ [lf]), .parse]).log =
      [{ status := .complete
         taken := letters (n + 1) ++ [lf]
         command := some [letters (n + 1)] }] := by
  have hlen : (letters (n + 1) ++ [lf]).length = n + 1 + 1 := by simp [letters]
  simp only [Feeding.run, List.foldl_cons, List.foldl_nil, Feeding.step, List.nil_append,
    parse_letters]
  rw [← hlen, List.take_length]

theorem line_in_two_reads {n : Nat} (h : RespParser.kMaxLineLen < n + 1) :
    (Feeding.run {} [.bytes (letters (n + 1)), .parse, .bytes [lf], .parse]).log.map (·.status) =
      [.protocolError, .protocolError] := by
  have hfailed := (RespParser.parse_failed { state := .failed } (letters (n + 1) ++ [lf]) rfl).1
  simp only [Feeding.run, List.foldl_cons, List.foldl_nil, Feeding.step, List.nil_append,
    parse_letters_cut h, List.drop_zero, List.map_cons, List.map_nil, List.cons_append, hfailed]

theorem longLine_letters {n : Nat} (h : RespParser.kMaxLineLen + 1 < n) :
    RespParser.LongLine { state := .readingInline } (letters n ++ [lf]) := by
  unfold RespParser.LongLine RespParser.lineSpan RespParser.lineParts
  simp only [findLf_line]
  exact h

/-- The next call comes to the line of words. -/
theorem passes_letters (n : Nat) (rest : Bytes) :
    (Feeding.run {} [.bytes (letters (n + 1) ++ rest)]).Passes
      { parser := { state := .readingInline }, buf := letters (n + 1) ++ rest } := by
  have h := Feeding.Passes.here (f := Feeding.run {} [.bytes (letters (n + 1) ++ rest)])
  exact h.turn (move_letters n rest)

/-! ## Long lines -/

/-- Wherever a run comes to a line of more than `kMaxLineLen + 1` bytes: the
line is refused just if a call sees it cut, or it is a header that would be
refused at any length. -/
theorem long_line_refused_iff (before after : List ParserCall) (g : Feeding)
    (hg : (Feeding.run {} before).Passes g)
    (hlong : g.parser.LongLine (g.buf ++ ParserCall.stream after)) :
    Meets (.parse :: after) ((Feeding.run {} before).RefusedAfter g.since) ↔
      Meets (.parse :: after) fun begun => g.parser.Caught (g.buf ++ ParserCall.stream begun) := by
  rw [hg.refused_iff]
  exact Feeding.refused_iff_caught (.parse :: after) g hlong.atLine

theorem long_line_refused_cut :
    Meets [.parse, .bytes [lf], .parse]
      ((Feeding.run {} [.bytes (letters (RespParser.kMaxLineLen + 2))]).RefusedAfter []) := by
  have hpasses := passes_letters (RespParser.kMaxLineLen + 1) []
  rw [List.append_nil] at hpasses
  refine (long_line_refused_iff _ [.bytes [lf], .parse] _ hpasses ?_).mpr
    ⟨[], _, rfl, .inl ⟨?_, ?_⟩⟩
  · exact longLine_letters (by omega)
  · rw [ParserCall.stream, List.flatMap_nil, List.append_nil]
    exact .inline rfl (findLf_letters _)
  · rw [ParserCall.stream, List.flatMap_nil, List.append_nil, letters, List.length_replicate]
    omega

/-- A line of `kMaxLineLen + 2` bytes is refused if it comes without its end
first, and it is a command if it comes with its end. -/
theorem long_line_taken :
    RespParser.LongLine { state := .readingInline }
        (letters (RespParser.kMaxLineLen + 2) ++ [lf]) ∧
      (Feeding.run {} [.bytes (letters (RespParser.kMaxLineLen + 2)), .parse,
        .bytes [lf], .parse]).log.map (·.status) = [.protocolError, .protocolError] ∧
      (Feeding.run {} [.bytes (letters (RespParser.kMaxLineLen + 2) ++ [lf]), .parse]).log =
        [{ status := .complete
           taken := letters (RespParser.kMaxLineLen + 2) ++ [lf]
           command := some [letters (RespParser.kMaxLineLen + 2)] }] :=
  ⟨longLine_letters (by omega), line_in_two_reads (by omega), line_in_one_read _⟩

end Cachedb
