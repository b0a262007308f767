import Cachedb.Proofs.Parsing
import Cachedb.Spec.RequestGrammar

/-!
# The parser takes requests and nothing else

`Feeding` is a parser in use: bytes are put behind those it has not consumed,
in any pieces, and it is called at any time. The ghost field `since` keeps
what was consumed since the last complete command.

The state a parser is in says how far into a unit it is, so it tells what
the last of the consumed bytes look like: `Partly` has a case for every state.
A turn of the loop keeps this (`Consumed.move`), hence a call does
(`Consumed.first`) and a whole run. At the turn that completes a command the
consumed bytes are a request.

A line of words is not consumed before its end is there. What makes it a line
of words is that it does not start with `*`, and this is known of the bytes
not consumed yet; `Partly` is about them, too.
-/

namespace Cachedb

open Resume Grammar

/-! ## Words -/

namespace RespParser

/-- The loop over a line cuts it at the separators and leaves out the pieces
with nothing in them. -/
theorem splitInline_eq (line : Bytes) : ∀ word : Bytes,
    splitInline word line =
      (line.splitOnPPrepend isInlineSpace word.reverse).filter (· ≠ []) := by
  induction line with
  | nil =>
      intro word
      rw [splitInline, List.splitOnPPrepend_nil, List.reverse_reverse]
      by_cases hword : word = []
      · simp [hword]
      · simp [hword]
  | cons c rest ih =>
      intro word
      rw [splitInline, List.splitOnPPrepend_cons_eq_if, List.reverse_reverse]
      by_cases hc : isInlineSpace c
      · have hnext : splitInline [] rest =
            (rest.splitOnP isInlineSpace).filter (· ≠ []) := ih []
        rw [if_pos hc, if_pos hc, hnext]
        by_cases hword : word = []
        · simp [hword]
        · simp [hword]
      · rw [if_neg hc, if_neg hc, ih (word ++ [c]), List.reverse_append]
        rfl

theorem inlineArgs_eq (line : Bytes) : inlineArgs line = words line := splitInline_eq _ []

/-! ## Lines -/

theorem take_findCrlf {inp : Bytes} {i : Nat} (h : findCrlf inp = some i) :
    inp.take (i + 2) = inp.take i ++ crlf := by
  induction inp generalizing i with
  | nil => cases h
  | cons c rest ih =>
      rw [findCrlf] at h
      split at h
      · next hc =>
          obtain ⟨rest, rfl⟩ := List.head?_eq_some_iff.mp hc.2
          rw [← Option.some.inj h, hc.1]
          rfl
      · obtain ⟨j, hj, rfl⟩ := Option.map_eq_some_iff.mp h
        rw [Nat.add_right_comm, List.take_succ_cons, ih hj, List.take_succ_cons]
        rfl

theorem take_findLf {inp : Bytes} {nl : Nat} (h : inp.findIdx? (· = lf) = some nl) :
    inp.take (nl + 1) = inp.take nl ++ [lf] ∧ lf ∉ inp.take nl := by
  obtain ⟨hlt, hlf, hbefore⟩ := List.findIdx?_eq_some_iff_getElem.mp h
  refine ⟨?_, ?_⟩
  · rw [List.take_succ_eq_append_getElem hlt, of_decide_eq_true hlf]
  · intro hmem
    obtain ⟨j, hj, heq⟩ := List.mem_take_iff_getElem.mp hmem
    exact hbefore j (by omega) (decide_eq_true heq)

/-! ## A failed parser -/

/-- A protocol error leaves the parser failed. -/
theorem parse_protocolError (p : RespParser) (inp : Bytes)
    (h : (p.parse inp).2.1.status = .protocolError) : (p.parse inp).1.state = .failed := by
  refine parse_rule (I := fun _ _ => True)
    (Q := fun o => o.2.1.status = .protocolError → o.1.state = .failed) ?_ trivial h
  intro p pos _
  rw [round_eq]
  cases p.move (inp.drop pos) with
  | wait q n => intro h; cases h
  | skip q n => trivial
  | emit q n cmd => intro h; cases h
  | fail error => intro _; rfl

/-- Nothing comes out of a failed parser but errors. -/
theorem parse_failed (p : RespParser) (inp : Bytes) (hs : p.state = .failed) :
    (p.parse inp).2.1.status = .protocolError ∧ (p.parse inp).2.2 = none := by
  have hfail := First.fail (show p.Step inp _ from .framingLost hs).move_eq
  have hparsed := p.parse_cases inp
  generalize p.parse inp = o at hparsed
  cases hparsed with
  | complete h => cases h.unique hfail
  | needMore h => cases h.unique hfail
  | fail h q n => exact ⟨rfl, rfl⟩

/-! ## How far into a unit -/

/-- The part of a unit that is consumed, by the state of the parser, and what
is known of the bytes behind. -/
inductive Partly : RespParser → Bytes → Bytes → Prop
  | nothing (buf : Bytes) : Partly {} [] buf
  | star (buf : Bytes) : Partly { state := .readingMultibulkLen } [42] buf
  | line {c : UInt8} (hc : c ≠ 42) (buf : Bytes) : Partly { state := .readingInline } [] (c :: buf)
  | args {number bytes : Bytes} {args : Command} {left : Nat}
      (hnumber : parseI64 number = some ((args.length + left : Nat) : Int))
      (hmax : ((args.length + left : Nat) : Int) ≤ kMaxMultibulkLen) (hleft : 0 < left)
      (hargs : Bulks args bytes) (buf : Bytes) :
      Partly { state := .readingBulkLen, pending := args, multibulkRemaining := left }
        (header 42 number ++ bytes) buf
  | payload {number length bytes arg : Bytes} {args : Command} {left more : Nat}
      (hnumber : parseI64 number = some ((args.length + left : Nat) : Int))
      (hmax : ((args.length + left : Nat) : Int) ≤ kMaxMultibulkLen) (hleft : 0 < left)
      (hargs : Bulks args bytes)
      (hlength : parseI64 length = some ((arg.length + more : Nat) : Int))
      (hbulk : ((arg.length + more : Nat) : Int) ≤ kMaxBulkLen) (buf : Bytes) :
      Partly { state := .readingBulkBody, pending := args ++ [arg], multibulkRemaining := left,
               bulkRemaining := more }
        (header 42 number ++ bytes ++ (header 36 length ++ arg)) buf
  | ending {number length bytes arg : Bytes} {args : Command} {left : Nat}
      (hnumber : parseI64 number = some ((args.length + left : Nat) : Int))
      (hmax : ((args.length + left : Nat) : Int) ≤ kMaxMultibulkLen) (hleft : 0 < left)
      (hargs : Bulks args bytes) (hlength : parseI64 length = some arg.length)
      (hbulk : arg.length ≤ kMaxBulkLen) (buf : Bytes) :
      Partly { state := .readingBulkCrlf, pending := args ++ [arg], multibulkRemaining := left }
        (header 42 number ++ bytes ++ (header 36 length ++ arg)) buf

/-- What was consumed since the last command: units that ask for nothing and a
part of one more. -/
inductive Consumed (p : RespParser) (since buf : Bytes) : Prop
  | intro (gone part : Bytes) (hsince : since = gone ++ part) (hgone : Skips gone)
      (hpart : Partly p part buf)

theorem Consumed.start (buf : Bytes) : Consumed {} [] buf :=
  .intro [] [] rfl .nil (.nothing buf)

theorem Partly.more {p : RespParser} {part buf : Bytes} (h : Partly p part buf) (data : Bytes) :
    Partly p part (buf ++ data) := by
  cases h with
  | nothing => exact .nothing _
  | star => exact .star _
  | line hc => exact .line hc _
  | args hnumber hmax hleft hargs => exact .args hnumber hmax hleft hargs _
  | payload hnumber hmax hleft hargs hlength hbulk =>
      exact .payload hnumber hmax hleft hargs hlength hbulk _
  | ending hnumber hmax hleft hargs hlength hbulk =>
      exact .ending hnumber hmax hleft hargs hlength hbulk _

theorem Consumed.more {p : RespParser} {since buf : Bytes} (h : Consumed p since buf)
    (data : Bytes) : Consumed p since (buf ++ data) := by
  obtain ⟨gone, part, hsince, hgone, hpart⟩ := h
  exact .intro gone part hsince hgone (hpart.more data)

/-- What a move makes of the consumed bytes. -/
def Follows (since buf : Bytes) : Move RespParser Command Bytes → Prop
  | .wait q n => Consumed q (since ++ buf.take n) (buf.drop n)
  | .skip q n => Consumed q (since ++ buf.take n) (buf.drop n)
  | .emit q n cmd => Accepted (since ++ buf.take n) cmd ∧ q = {}
  | .fail _ => True

theorem Follows.wait {p : RespParser} {since buf : Bytes} (h : Consumed p since buf) :
    Follows since buf (.wait p 0) := by
  show Consumed p (since ++ buf.take 0) (buf.drop 0)
  rwa [List.take_zero, List.append_nil, List.drop_zero]

/-- The line at the front of the bytes not consumed is a line of words. -/
theorem inline_take {buf : Bytes} {c : UInt8} {nl : Nat} (hc : c ≠ 42)
    (hnl : (c :: buf).findIdx? (· = lf) = some nl) : Inline ((c :: buf).take nl) := by
  refine ⟨(take_findLf hnl).2, ?_⟩
  cases nl with
  | zero => simp
  | succ nl => simpa using hc

/-! ### Turns inside a request -/

section Request

variable {p : RespParser} {part buf : Bytes}

/-- A payload grows by the bytes that are absorbed. -/
theorem Partly.absorb (h : Partly p part buf) (hs : p.state = .readingBulkBody) {data : Bytes}
    (hdata : data.length ≤ p.bulkRemaining) (buf' : Bytes) :
    Partly (p.absorb data) (part ++ data) buf' := by
  cases h with
  | @payload number length bytes arg args left more hnumber hcount hleft hargs hlength hbulk =>
      have hlen : arg.length + more = (arg ++ data).length + (more - data.length) := by
        rw [List.length_append]
        have : data.length ≤ more := hdata
        omega
      have := Partly.payload hnumber hcount hleft hargs (hlen ▸ hlength) (hlen ▸ hbulk) buf'
      unfold RespParser.absorb
      simpa only [appendBack_append, List.append_assoc] using this
  | _ => cases hs

/-- A payload is there once no byte of it is missing. -/
theorem Partly.full (h : Partly p part buf) (hs : p.state = .readingBulkBody)
    (hzero : p.bulkRemaining = 0) : Partly { p with state := .readingBulkCrlf } part buf := by
  cases h with
  | payload hnumber hcount hleft hargs hlength hbulk =>
      cases hzero
      exact .ending hnumber hcount hleft hargs hlength hbulk buf
  | _ => cases hs

/-- Behind the last argument the request is there. -/
theorem Partly.request (h : Partly p part buf) (hs : p.state = .readingBulkCrlf)
    (hlast : p.multibulkRemaining - 1 = 0) : Request (part ++ crlf) p.pending := by
  cases h with
  | @ending number length bytes arg args left hnumber hcount hleft hargs hlength hbulk =>
      have hlast : left - 1 = 0 := hlast
      have hlen : args.length + left = (args ++ [arg]).length := by
        rw [List.length_append, List.length_singleton]
        omega
      have := Request.multibulk (hlen ▸ hnumber) (by simp) (hlen ▸ hcount)
        (hargs.snoc (.intro hlength hbulk))
      simpa only [List.append_assoc] using this
  | _ => cases hs

/-- Behind any other argument the next one is awaited. -/
theorem Partly.next (h : Partly p part buf) (hs : p.state = .readingBulkCrlf)
    (hmore : p.multibulkRemaining - 1 ≠ 0) (buf' : Bytes) :
    Partly { p with
      multibulkRemaining := p.multibulkRemaining - 1, state := .readingBulkLen }
      (part ++ crlf) buf' := by
  cases h with
  | @ending number length bytes arg args left hnumber hcount hleft hargs hlength hbulk =>
      have hmore : left - 1 ≠ 0 := hmore
      have hlen : args.length + left = (args ++ [arg]).length + (left - 1) := by
        rw [List.length_append, List.length_singleton]
        omega
      have := Partly.args (hlen ▸ hnumber) (hlen ▸ hcount) (by omega)
        (hargs.snoc (.intro hlength hbulk)) buf'
      simpa only [List.append_assoc] using this
  | _ => cases hs

end Request

section Turn

variable {p q : RespParser} {gone part buf : Bytes} {n : Nat}

/-- A turn that gets further into the unit. -/
theorem Consumed.further (hgone : Skips gone) (h : Partly q (part ++ buf.take n) (buf.drop n)) :
    Consumed q (gone ++ part ++ buf.take n) (buf.drop n) :=
  .intro gone _ (List.append_assoc _ _ _) hgone h

/-- A turn that ends a unit that asks for nothing. -/
theorem Consumed.skipped (hgone : Skips gone) (h : Skipped (part ++ buf.take n)) :
    Consumed {} (gone ++ part ++ buf.take n) (buf.drop n) := by
  refine .intro _ [] ?_ (hgone.snoc h) (.nothing _)
  rw [List.append_nil, List.append_assoc]

/-- A turn that ends a request. -/
theorem accepted_append {cmd : Command} (hgone : Skips gone)
    (h : Request (part ++ buf.take n) cmd) : Accepted (gone ++ part ++ buf.take n) cmd := by
  rw [List.append_assoc]
  exact .intro hgone h

end Turn

theorem Consumed.move {p : RespParser} {since buf : Bytes} (h : Consumed p since buf) :
    Follows since buf (p.move buf) := by
  have hwait := Follows.wait h
  obtain ⟨gone, part, rfl, hgone, hpart⟩ := h
  have hstep := p.move_step buf
  generalize p.move buf = m at hstep
  -- the state a case of `Step` names leaves one case of `Partly`
  cases hstep with
  | framingLost | tooLong | badCount | noDollar | badLength | noEnd => trivial
  | nothing | unended | endAwaited => exact hwait
  | star hs hrest =>
      subst hrest
      cases hpart with
      | nothing => exact .further hgone (.star _)
      | _ => cases hs
  | plain hs hrest hc =>
      subst hrest
      cases hpart with
      | nothing => exact .further hgone (.line hc _)
      | _ => cases hs
  | noArgs hs hi hn hneg =>
      cases hpart with
      | star =>
          refine .skipped hgone ?_
          rw [take_findCrlf hi]
          exact .noArgs hn hneg
      | _ => cases hs
  | @count i n hs hi hn hpos hmax =>
      cases hpart with
      | star =>
          have hcount : n = ((([] : Command).length + n.toNat : Nat) : Int) := by simp; omega
          have := Partly.args (hcount ▸ hn) (hcount ▸ hmax) (by omega) .nil (buf.drop (i + 2))
          refine .further hgone ?_
          rw [take_findCrlf hi]
          rwa [List.append_nil] at this
      | _ => cases hs
  | @length line i n hs hrest hi hn hpos hmax =>
      subst hrest
      cases hpart with
      | args hnumber hcount hleft hargs =>
          have hlen : n = ((([] : Bytes).length + n.toNat : Nat) : Int) := by simp; omega
          have := Partly.payload hnumber hcount hleft hargs (hlen ▸ hn) (hlen ▸ hmax)
            (line.drop (i + 2))
          refine .further hgone ?_
          rw [show 1 + i + 2 = i + 2 + 1 by omega, List.take_succ_cons, take_findCrlf hi]
          rwa [List.append_nil] at this
      | _ => cases hs
  | piece hs hlt =>
      refine .further hgone ?_
      rw [List.take_length]
      exact hpart.absorb hs (Nat.le_of_lt hlt) _
  | payload hs hle =>
      have htake : (buf.take p.bulkRemaining).length = p.bulkRemaining := List.length_take_of_le hle
      have hfull := hpart.absorb hs (Nat.le_of_eq htake) (buf.drop p.bulkRemaining)
      refine .further hgone (hfull.full hs ?_)
      show p.bulkRemaining - (buf.take p.bulkRemaining).length = 0
      rw [htake, Nat.sub_self]
  | lastArg hs hlen hend hlast =>
      refine ⟨accepted_append hgone ?_, ?_⟩
      · rw [hend]
        exact hpart.request hs hlast
      · exact if_neg (by rw [hs]; decide)
  | nextArg hs hlen hend hmore =>
      refine .further hgone ?_
      rw [hend]
      exact hpart.next hs hmore _
  | blank hs hnl hargs =>
      cases hpart with
      | line hc =>
          rw [inlineArgs_eq] at hargs
          refine .skipped hgone ?_
          rw [(take_findLf hnl).1]
          exact .blank (inline_take hc hnl) hargs
      | _ => cases hs
  | inline hs hnl hargs =>
      cases hpart with
      | line hc =>
          rw [inlineArgs_eq] at hargs ⊢
          refine ⟨accepted_append hgone ?_, rfl⟩
          rw [(take_findLf hnl).1]
          exact .inline (inline_take hc hnl) hargs
      | _ => cases hs

theorem Follows.shift {since buf : Bytes} {n : Nat} {m : Move RespParser Command Bytes}
    (h : Follows (since ++ buf.take n) (buf.drop n) m) : Follows since buf (m.shift n) := by
  have htake : ∀ k, since ++ buf.take n ++ (buf.drop n).take k = since ++ buf.take (n + k) := by
    intro k
    rw [List.append_assoc, List.take_add]
  cases m with
  | wait q k =>
      show Consumed q (since ++ buf.take (n + k)) (buf.drop (n + k))
      rw [← htake, ← List.drop_drop]
      exact h
  | skip q k =>
      show Consumed q (since ++ buf.take (n + k)) (buf.drop (n + k))
      rw [← htake, ← List.drop_drop]
      exact h
  | emit q k cmd =>
      show Accepted (since ++ buf.take (n + k)) cmd ∧ q = {}
      rw [← htake]
      exact h
  | fail error => trivial

/-- A call is moves up to the first that is no mere progress. -/
theorem Consumed.first {p : RespParser} {since buf : Bytes} {m : Move RespParser Command Bytes}
    (h : Consumed p since buf) (hfirst : First RespParser.move p buf m) : Follows since buf m := by
  induction hfirst generalizing since with
  | wait hm => exact hm ▸ h.move
  | fail hm => trivial
  | emit hm => exact hm ▸ h.move
  | skip hm _ ih =>
      have hnext := h.move
      rw [hm] at hnext
      exact (ih hnext).shift

end RespParser

/-! ## A parser in use -/

/-- What one call of `parse` returned. `taken` is everything consumed since the
last complete command, this call included. -/
structure Returned where
  status : ParseStatus
  taken : Bytes
  command : Option Command
  deriving DecidableEq, Repr

inductive ParserCall where
  | bytes (chunk : Bytes)
  | parse
  deriving DecidableEq, Repr

structure Feeding where
  parser : RespParser := {}
  /-- The bytes not consumed yet. -/
  buf : Bytes := []
  since : Bytes := []
  log : List Returned := []
  deriving DecidableEq, Repr

namespace Feeding

def step (f : Feeding) : ParserCall → Feeding
  | .bytes chunk => { f with buf := f.buf ++ chunk }
  | .parse =>
      let (parser, result, command) := f.parser.parse f.buf
      let taken := f.since ++ f.buf.take result.consumed
      { parser
        buf := f.buf.drop result.consumed
        since := if result.status = .complete then [] else taken
        log := f.log ++ [{ status := result.status, taken, command }] }

def run (f : Feeding) (calls : List ParserCall) : Feeding := calls.foldl step f

end Feeding

namespace ParserCall

def given : ParserCall → Bytes
  | .bytes chunk => chunk
  | .parse => []

/-- All bytes that are given to the parser. -/
def stream (calls : List ParserCall) : Bytes := calls.flatMap given

end ParserCall

namespace Returned

/-- With a complete command a call has taken the request for it, and otherwise
it returns no command. -/
structure Right (r : Returned) : Prop where
  complete : r.status = .complete → ∃ cmd, r.command = some cmd ∧ cmd ≠ [] ∧ Accepted r.taken cmd
  other : r.status ≠ .complete → r.command = none

/-- The bytes of the complete commands. -/
def requests (log : List Returned) : Bytes :=
  (log.filter fun r => r.status = .complete).flatMap taken

end Returned

namespace Feeding

/-- The bytes so far are accounted for, and the calls so far were right. -/
structure Sound (f : Feeding) (stream : Bytes) : Prop where
  place : f.parser.state = .failed ∨ f.parser.Consumed f.since f.buf
  right : ∀ r ∈ f.log, r.Right
  failed : ∀ r ∈ f.log, r.status = .protocolError → f.parser.state = .failed
  silent : f.log.Pairwise fun r later => r.status = .protocolError → later.command = none
  whole : Returned.requests f.log ++ (f.since ++ f.buf) = stream

theorem sound_start : Sound {} [] where
  place := .inr (.start [])
  right := List.forall_mem_nil _
  failed := List.forall_mem_nil _
  silent := .nil
  whole := rfl

variable {f : Feeding} {stream : Bytes}

theorem Sound.bytes (h : f.Sound stream) (chunk : Bytes) :
    (f.step (.bytes chunk)).Sound (stream ++ chunk) where
  place := h.place.imp_right fun hplace => hplace.more chunk
  right := h.right
  failed := h.failed
  silent := h.silent
  whole := by
    rw [← h.whole, List.append_assoc, List.append_assoc]
    rfl

/-- What a call returns is right, and it leaves the parser at a place that is
accounted for. -/
theorem parse_spec (hplace : f.parser.state = .failed ∨ f.parser.Consumed f.since f.buf)
    {q : RespParser} {result : ParseResult} {command : Option Command}
    (ho : f.parser.parse f.buf = (q, result, command)) :
    Returned.Right ⟨result.status, f.since ++ f.buf.take result.consumed, command⟩ ∧
      (q.state = .failed ∨ q.Consumed
        (if result.status = .complete then [] else f.since ++ f.buf.take result.consumed)
        (f.buf.drop result.consumed)) := by
  rcases hplace with hfailed | hplace
  · have hparse := f.parser.parse_failed f.buf hfailed
    have hq := f.parser.parse_protocolError f.buf hparse.1
    rw [ho] at hparse hq
    refine ⟨⟨fun h => ?_, fun _ => hparse.2⟩, .inl hq⟩
    cases hparse.1.symm.trans h
  · have hparsed := f.parser.parse_cases f.buf
    rw [ho] at hparsed
    cases hparsed with
    | complete h =>
        obtain ⟨haccepted, rfl⟩ := hplace.first h
        refine ⟨⟨fun _ => ⟨_, rfl, haccepted.ne_nil, haccepted⟩, fun h => absurd rfl h⟩, .inr ?_⟩
        exact .start _
    | needMore h => exact ⟨⟨fun h => (by cases h), fun _ => rfl⟩, .inr (hplace.first h)⟩
    | fail h q n =>
        refine ⟨⟨fun h => (by cases h), fun _ => rfl⟩, .inl ?_⟩
        have := f.parser.parse_protocolError f.buf (by rw [ho])
        rwa [ho] at this

theorem requests_append (log : List Returned) (r : Returned) :
    Returned.requests (log ++ [r]) =
      Returned.requests log ++ if r.status = .complete then r.taken else [] := by
  unfold Returned.requests
  rw [List.filter_append, List.flatMap_append]
  by_cases hr : r.status = .complete
  · simp [hr]
  · simp [hr]

theorem Sound.parse (h : f.Sound stream) : (f.step .parse).Sound stream := by
  rcases ho : f.parser.parse f.buf with ⟨q, result, command⟩
  obtain ⟨hright, hplace⟩ := parse_spec h.place ho
  have herror : result.status = .protocolError → q.state = .failed := by
    have := f.parser.parse_protocolError f.buf
    rwa [ho] at this
  have hfailed : f.parser.state = .failed → result.status = .protocolError ∧ command = none := by
    have := f.parser.parse_failed f.buf
    rwa [ho] at this
  have hstep : f.step .parse =
      { parser := q
        buf := f.buf.drop result.consumed
        since := if result.status = .complete then [] else f.since ++ f.buf.take result.consumed
        log := f.log ++ [⟨result.status, f.since ++ f.buf.take result.consumed, command⟩] } := by
    simp only [step, ho]
  rw [hstep]
  constructor
  · exact hplace
  · intro r hr
    rcases List.mem_append.mp hr with hr | hr
    · exact h.right r hr
    · rwa [List.mem_singleton.mp hr]
  · intro r hr hstatus
    rcases List.mem_append.mp hr with hr | hr
    · exact herror (hfailed (h.failed r hr hstatus)).1
    · rw [List.mem_singleton.mp hr] at hstatus
      exact herror hstatus
  · refine List.pairwise_append.mpr ⟨h.silent, List.pairwise_singleton _ _, ?_⟩
    intro r hr later hlater hstatus
    rw [List.mem_singleton.mp hlater]
    exact (hfailed (h.failed r hr hstatus)).2
  · have hsplit := List.take_append_drop result.consumed f.buf
    rw [requests_append, ← h.whole]
    conv_rhs => rw [← hsplit]
    by_cases hcomplete : result.status = .complete
    · simp only [hcomplete, if_true, List.nil_append, List.append_assoc]
    · simp only [hcomplete, if_false, List.append_nil, List.append_assoc]

theorem Sound.run (calls : List ParserCall) : ∀ {f : Feeding} {stream : Bytes}, f.Sound stream →
    (f.run calls).Sound (stream ++ ParserCall.stream calls) := by
  induction calls with
  | nil =>
      intro f stream h
      rwa [ParserCall.stream, List.flatMap_nil, List.append_nil]
  | cons call calls ih =>
      intro f stream h
      have hstep : (f.step call).Sound (stream ++ call.given) := by
        cases call with
        | bytes chunk => exact h.bytes chunk
        | parse =>
            rw [ParserCall.given, List.append_nil]
            exact h.parse
      have := ih hstep
      rwa [List.append_assoc] at this

end Feeding

/-- However bytes are given to a fresh parser and whenever it is called: each
complete command is that of the request that was taken since the one before,
the requests and what is left are the bytes in their order, and after a
protocol error there is no command any more. -/
theorem requests_only (calls : List ParserCall) :
    (∀ r ∈ (Feeding.run {} calls).log, r.Right) ∧
      (Feeding.run {} calls).log.Pairwise
        (fun r later => r.status = .protocolError → later.command = none) ∧
      Returned.requests (Feeding.run {} calls).log ++
        ((Feeding.run {} calls).since ++ (Feeding.run {} calls).buf) = ParserCall.stream calls := by
  have h := Feeding.sound_start.run calls
  exact ⟨h.right, h.silent, h.whole⟩

example :
    (Feeding.run {} [.bytes (text "\r\n*0\r"), .parse, .bytes (text "\n*1\r\n$04\r\nPI"), .parse,
      .bytes (text "NG\r\n"), .parse]).log.map (·.command) = [none, none, some [text "PING"]] := by
  decide +kernel

end Cachedb
