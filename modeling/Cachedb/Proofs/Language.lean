import Cachedb.Proofs.Clients
import Cachedb.Proofs.Grammar
import Cachedb.Proofs.RequestCodec

/-!
# The parser takes every request

The other direction of the grammar: what it derives, the parser takes. A
derivation drives the parser, whatever is behind the bytes derived: a unit that
asks for nothing leaves it as it was (`reads_skipped`), an argument takes it to
the next one (`reads_bulk`), and a request comes out as its command
(`reads_request`). With what is known of the bytes consumed the parser reads a
stream to the end exactly where the grammar derives it (`reads_stream_iff`).

How the stream is cut does not matter as long as its lines are short. What the
parser still has to deliver is what it would read from the bytes at hand and
all those to come, and a call takes from the front of it (`Awaits.parse`).
-/

namespace Cachedb

open Resume Grammar

/-- What a number is read from does not end a line. -/
theorem parseI64_line {number : Bytes} {n : Int} (h : parseI64 number = some n) :
    ∀ c ∈ number, c ≠ cr := by
  have hdigit : ∀ c, isDigit c = true → c ≠ cr := by
    rintro c hc rfl
    exact absurd hc (by decide)
  rw [parseI64_eq] at h
  obtain ⟨m, hm, -⟩ := Option.bind_eq_some_iff.mp h
  unfold readInt at hm
  by_cases hneg : number.head? = some 45
  · obtain ⟨digits, rfl⟩ := List.head?_eq_some_iff.mp hneg
    simp only [List.head?_cons, List.tail_cons, if_true] at hm
    split at hm
    · cases hm
    · next hall =>
        simp only [not_or, Bool.not_eq_true', Bool.not_eq_false, List.all_eq_true] at hall
        intro c hc
        rcases List.mem_cons.mp hc with rfl | hc
        · decide
        · exact hdigit c (hall.2 c hc)
  · simp only [if_neg hneg] at hm
    split at hm
    · cases hm
    · next hall =>
        simp only [not_or, Bool.not_eq_true', Bool.not_eq_false, List.all_eq_true] at hall
        exact fun c hc => hdigit c (hall.2 c hc)

namespace RespParser

section Derivation

variable {rest : Bytes} {outs : List Command} {fin : End RespParser UInt8 Bytes}

/-! ## Headers -/

theorem header_append (mark : UInt8) (number rest : Bytes) :
    header mark number ++ rest = mark :: (number ++ (crlf ++ rest)) := by
  simp only [header, List.cons_append, List.append_assoc]

/-- The number of a header is what is in front of its end. -/
theorem header_number {number : Bytes} {n : Int} (h : parseI64 number = some n) (rest : Bytes) :
    findCrlf (number ++ (crlf ++ rest)) = some number.length ∧
      parseI64 ((number ++ (crlf ++ rest)).take number.length) = some n := by
  refine ⟨findCrlf_line (parseI64_line h) rest, ?_⟩
  rw [List.take_left, h]

theorem reads_noArgs {number : Bytes} {n : Int} (hnumber : parseI64 number = some n) (hn : n ≤ 0)
    (hrest : Reads move {} rest outs fin) : Reads move {} (header 42 number ++ rest) outs fin := by
  obtain ⟨hend, hparsed⟩ := header_number hnumber rest
  rw [header_append]
  refine .skip (move_star _) (.skip (Step.noArgs rfl hend hparsed hn).move_eq ?_)
  rw [List.drop_succ_cons, List.drop_zero, drop_line]
  exact hrest

theorem reads_count {number : Bytes} {n : Nat} (hnumber : parseI64 number = some (n : Int))
    (hpos : 0 < n) (hmax : (n : Int) ≤ kMaxMultibulkLen)
    (hrest : Reads move (between [] n) rest outs fin) :
    Reads move {} (header 42 number ++ rest) outs fin := by
  obtain ⟨hend, hparsed⟩ := header_number hnumber rest
  rw [header_append]
  refine .skip (move_star _) (.skip (Step.count rfl hend hparsed (by omega) hmax).move_eq ?_)
  rw [List.drop_succ_cons, List.drop_zero, drop_line]
  exact hrest

/-! ## Arguments -/

/-- A string takes the parser to its end. -/
theorem reads_bulk {args : Command} {arg unit : Bytes} {count : Nat} (h : Bulk arg unit)
    (hend : Reads move (ending (args ++ [arg]) count) (crlf ++ rest) outs fin) :
    Reads move (between args count) (unit ++ rest) outs fin := by
  cases h with
  | @intro number hnumber hmax =>
      obtain ⟨hline, hparsed⟩ := header_number hnumber (arg ++ (crlf ++ rest))
      rw [List.append_assoc, List.append_assoc, header_append]
      refine .skip (Step.length rfl rfl hline hparsed (by omega) hmax).move_eq ?_
      rw [Nat.add_assoc, Nat.add_comm, List.drop_succ_cons, drop_line]
      refine .skip (move_payload args count arg (crlf ++ rest)) ?_
      rw [List.drop_left]
      exact hend

/-- Strings that are not the last ones take the parser behind them. -/
theorem reads_bulks {args : Command} {bytes : Bytes} (h : Bulks args bytes) :
    ∀ {rest : Bytes} {left : Nat}, 0 < left → Reads move (between args left) rest outs fin →
      Reads move (between [] (args.length + left)) (bytes ++ rest) outs fin := by
  induction h with
  | nil =>
      intro rest left _ hrest
      rw [List.length_nil, Nat.zero_add]
      exact hrest
  | @snoc args arg bytes unit _ last ih =>
      intro rest left hleft hrest
      have hnext := move_next (args ++ [arg]) left rest
      rw [if_neg (Nat.pos_iff_ne_zero.mp hleft)] at hnext
      have hone : Reads move (between args (left + 1)) (unit ++ rest) outs fin :=
        reads_bulk last (.skip hnext hrest)
      have hall := ih (Nat.succ_pos left) hone
      rw [List.append_assoc, List.length_append, List.length_singleton, Nat.add_assoc,
        Nat.add_comm 1 left]
      exact hall

theorem reads_multibulk {args : Command} {bytes : Bytes} (h : Bulks args bytes)
    (hpos : 1 ≤ args.length) (hrest : Reads move {} rest outs fin) :
    Reads move (between [] args.length) (bytes ++ rest) (args :: outs) fin := by
  cases h with
  | nil => exact absurd hpos (Nat.not_succ_le_zero 0)
  | @snoc args arg bytes unit front last =>
      have hnext := move_next (args ++ [arg]) 0 rest
      rw [if_pos rfl] at hnext
      have hone : Reads move (between args 1) (unit ++ rest) ((args ++ [arg]) :: outs) fin :=
        reads_bulk last (.emit hnext hrest)
      rw [List.append_assoc, List.length_append, List.length_singleton]
      exact reads_bulks front Nat.one_pos hone

/-! ## Lines of words -/

/-- A line of words up to the turn that takes it. -/
theorem reads_line {line : Bytes} (hline : Inline line)
    (h : Reads move { state := .readingInline } (line ++ [lf] ++ rest) outs fin) :
    Reads move {} (line ++ [lf] ++ rest) outs fin := by
  rw [List.append_assoc] at h ⊢
  cases line with
  | nil => exact .skip (Step.plain rfl rfl (by decide)).move_eq h
  | cons c line =>
      have hc : c ≠ 42 := fun hc => hline.noStar (by rw [hc]; rfl)
      exact .skip (Step.plain rfl rfl hc).move_eq h

theorem findLf_line {line : Bytes} (hline : lf ∉ line) (rest : Bytes) :
    (line ++ [lf] ++ rest).findIdx? (· = lf) = some line.length := by
  induction line with
  | nil => rfl
  | cons c line ih =>
      have hc : c ≠ lf := fun hc => hline (by rw [hc]; exact List.mem_cons_self)
      rw [List.cons_append, List.cons_append, List.findIdx?_cons,
        ih fun hmem => hline (List.mem_cons_of_mem _ hmem)]
      simp [hc]

theorem line_args (line rest : Bytes) :
    inlineArgs ((line ++ [lf] ++ rest).take line.length) = words line := by
  rw [List.append_assoc, List.take_left, inlineArgs_eq]

theorem drop_inline (line rest : Bytes) : (line ++ [lf] ++ rest).drop (line.length + 1) = rest := by
  have hlength : line.length + 1 = (line ++ [lf]).length := by
    rw [List.length_append, List.length_singleton]
  rw [hlength, List.drop_left]

/-! ## Units and streams -/

theorem reads_skipped {unit : Bytes} (h : Skipped unit) (hrest : Reads move {} rest outs fin) :
    Reads move {} (unit ++ rest) outs fin := by
  cases h with
  | noArgs hnumber hn => exact reads_noArgs hnumber hn hrest
  | @blank line hline hwords =>
      have hargs := (line_args line rest).trans hwords
      have hmove := Step.move_eq (p := { state := .readingInline })
        (.blank rfl (findLf_line hline.noEnd rest) hargs)
      refine reads_line hline (.skip hmove ?_)
      rw [drop_inline]
      exact hrest

theorem reads_request {unit : Bytes} {cmd : Command} (h : Request unit cmd)
    (hrest : Reads move {} rest outs fin) : Reads move {} (unit ++ rest) (cmd :: outs) fin := by
  cases h with
  | multibulk hnumber hpos hmax hargs =>
      rw [List.append_assoc]
      exact reads_count hnumber hpos hmax (reads_multibulk hargs hpos hrest)
  | @inline line hline hwords =>
      have hargs := line_args line rest
      have hmove := Step.move_eq (p := { state := .readingInline })
        (.inline rfl (findLf_line hline.noEnd rest) (hargs ▸ hwords))
      rw [← hargs]
      refine reads_line hline (.emit hmove ?_)
      rw [drop_inline]
      exact hrest

end Derivation

/-- What the grammar derives is read to the end. -/
theorem reads_stream {bytes : Bytes} {cmds : List Command} (h : Stream bytes cmds) :
    Reads move {} bytes cmds (.waits {} []) := by
  induction h with
  | nil => exact .wait (Step.nothing (.inl rfl) rfl).move_eq
  | skipped h _ ih => exact reads_skipped h ih
  | request h _ ih => exact reads_request h ih

/-! ## What is read is derived -/

theorem stream_of_skips {gone bytes : Bytes} {cmds : List Command} (h : Skips gone) :
    Stream bytes cmds → Stream (gone ++ bytes) cmds := by
  induction h generalizing bytes with
  | nil => exact id
  | snoc _ last ih =>
      intro hrest
      rw [List.append_assoc]
      exact ih (.skipped last hrest)

theorem stream_of_accepted {unit bytes : Bytes} {cmd : Command} {cmds : List Command}
    (h : Accepted unit cmd) (rest : Stream bytes cmds) : Stream (unit ++ bytes) (cmd :: cmds) := by
  cases h with
  | intro hgone h =>
      rw [List.append_assoc]
      exact stream_of_skips hgone (.request h rest)

/-- Where nothing is left the bytes consumed are units that ask for nothing. -/
theorem Consumed.stream {since : Bytes} (h : Consumed {} since []) : Stream since [] := by
  obtain ⟨gone, part, rfl, hgone, hpart⟩ := h
  cases hpart with
  | nothing => exact stream_of_skips hgone .nil

theorem stream_of_reads {p : RespParser} {xs : Bytes} {cmds : List Command}
    {fin : End RespParser UInt8 Bytes} (h : Reads move p xs cmds fin) :
    ∀ {since : Bytes}, Consumed p since xs → fin = .waits {} [] → Stream (since ++ xs) cmds := by
  induction h with
  | @wait p q xs n hmove =>
      intro since hp hfin
      have hnext := hp.move
      rw [hmove] at hnext
      obtain ⟨rfl, hnone⟩ := End.waits.inj hfin
      have hall : Consumed {} (since ++ xs.take n) (xs.drop n) := hnext
      rw [hnone] at hall
      replace hall := hall.stream
      rwa [List.take_of_length_le (List.drop_eq_nil_iff.mp hnone)] at hall
  | fail => exact fun _ hfin => by cases hfin
  | @skip p q xs n cmds fin hmove _ ih =>
      intro since hp hfin
      have hnext := hp.move
      rw [hmove] at hnext
      have hall := ih hnext hfin
      rwa [List.append_assoc, List.take_append_drop] at hall
  | @emit p q xs n cmd cmds fin hmove _ ih =>
      intro since hp hfin
      have hnext := hp.move
      rw [hmove] at hnext
      obtain ⟨haccepted, rfl⟩ := hnext
      have hall := stream_of_accepted haccepted (ih (.start _) hfin)
      rwa [List.nil_append, List.append_assoc, List.take_append_drop] at hall

/-- The parser reads a stream to the end exactly where the grammar derives it. -/
theorem reads_stream_iff {bytes : Bytes} {cmds : List Command} :
    Reads move {} bytes cmds (.waits {} []) ↔ Stream bytes cmds :=
  ⟨fun h => stream_of_reads h (.start bytes) rfl, reads_stream⟩

/-! ## Streams in pieces -/

theorem exists_reads (p : RespParser) (inp : Bytes) : ∃ cmds fin, Reads move p inp cmds fin :=
  ⟨_, _, readAll_reads _ p inp (Nat.lt_succ_self _)⟩

/-- What a parser has to deliver from the bytes at hand and those to come. -/
structure Awaits (p : RespParser) (buf future : Bytes) (cmds : List Command) : Prop where
  reads : Reads move p (buf ++ future) cmds (.waits {} [])
  short : Always move ShortLine p (buf ++ future)

section Awaits

variable {p q : RespParser} {buf future : Bytes} {cmds : List Command} {n : Nat}

theorem Awaits.emit {cmd : Command} (h : Awaits p buf future cmds)
    (hfirst : First move p buf (.emit q n cmd)) :
    ∃ later, cmds = cmd :: later ∧ Awaits q (buf.drop n) future later := by
  have hwhole := hfirst.append resumable (fun _ _ hm => by cases hm) h.short
  have hdrop : (buf ++ future).drop n = buf.drop n ++ future :=
    List.drop_append_of_le_length (first_sized hfirst).2
  have hshort := h.short.first hwhole
  rw [hdrop] at hshort
  obtain ⟨later, fin, hlater⟩ := exists_reads q (buf.drop n ++ future)
  obtain ⟨hcmds, hfin⟩ := h.reads.unique (hwhole.reads_emit (hdrop ▸ hlater))
  exact ⟨later, hcmds, hfin ▸ hlater, hshort⟩

theorem Awaits.wait (h : Awaits p buf future cmds) (hfirst : First move p buf (.wait q n)) :
    Awaits q (buf.drop n) future cmds := by
  obtain ⟨hshort, hgoes⟩ := hfirst.reads_wait.append resumable h.short
  obtain ⟨later, fin, hlater⟩ := exists_reads q (buf.drop n ++ future)
  obtain ⟨hcmds, hfin⟩ := h.reads.unique (hgoes hlater)
  rw [List.nil_append] at hcmds
  exact ⟨hcmds ▸ hfin ▸ hlater, hshort⟩

theorem Awaits.not_fail {error : Bytes} (h : Awaits p buf future cmds) :
    ¬First move p buf (.fail error) := by
  intro hfirst
  have hwhole := hfirst.append resumable (fun _ _ hm => by cases hm) h.short
  cases (h.reads.unique hwhole.reads_fail).2

/-- With all bytes at hand, a parser that waits has delivered everything. -/
theorem Awaits.done (h : Awaits p buf [] cmds) (hfirst : First move p buf (.wait q n)) :
    cmds = [] := by
  have hreads := h.reads
  rw [List.append_nil] at hreads
  exact (hreads.unique hfirst.reads_wait).1

end Awaits

end RespParser

namespace Feeding

open RespParser (Awaits)

/-- No call has failed, and the commands returned and those awaited are the
given ones. -/
structure Keeps (f : Feeding) (future : Bytes) (cmds : List Command) : Prop where
  accepted : ∀ r ∈ f.log, r.status ≠ .protocolError
  awaits : ∃ later, f.log.filterMap Returned.command ++ later = cmds ∧
    f.parser.Awaits f.buf future later

variable {f : Feeding} {future : Bytes} {cmds : List Command}

theorem Keeps.bytes {chunk : Bytes} (h : f.Keeps (chunk ++ future) cmds) :
    (f.step (.bytes chunk)).Keeps future cmds := by
  obtain ⟨later, hcmds, hreads, hshort⟩ := h.awaits
  rw [← List.append_assoc] at hreads hshort
  exact ⟨h.accepted, later, hcmds, hreads, hshort⟩

theorem Keeps.parse (h : f.Keeps future cmds) : (f.step .parse).Keeps future cmds := by
  obtain ⟨later, hcmds, hawaits⟩ := h.awaits
  have hparsed := f.parser.parse_cases f.buf
  unfold step
  generalize f.parser.parse f.buf = o at hparsed
  cases hparsed with
  | @complete q n cmd hfirst =>
      obtain ⟨rest, rfl, hrest⟩ := hawaits.emit hfirst
      refine ⟨?_, rest, ?_, hrest⟩
      · intro r hr
        rcases List.mem_append.mp hr with hr | hr
        · exact h.accepted r hr
        · rw [List.mem_singleton.mp hr]
          exact fun hs => by cases hs
      · rw [List.filterMap_append, List.append_assoc]
        exact hcmds
  | @needMore q n hfirst =>
      refine ⟨?_, later, ?_, hawaits.wait hfirst⟩
      · intro r hr
        rcases List.mem_append.mp hr with hr | hr
        · exact h.accepted r hr
        · rw [List.mem_singleton.mp hr]
          exact fun hs => by cases hs
      · rw [List.filterMap_append, List.append_assoc]
        exact hcmds
  | fail hfirst => exact absurd hfirst hawaits.not_fail

theorem Keeps.run (calls : List ParserCall) : ∀ {f : Feeding},
    f.Keeps (ParserCall.stream calls ++ future) cmds → (f.run calls).Keeps future cmds := by
  induction calls with
  | nil => exact fun h => h
  | cons call calls ih =>
      intro f h
      refine ih ?_
      cases call with
      | bytes chunk =>
          refine Keeps.bytes ?_
          rw [← List.append_assoc]
          exact h
      | parse => exact Keeps.parse h

end Feeding

/-- The parser reads bytes to the end, as these commands and with nothing left,
exactly where the grammar derives the commands from the bytes. -/
theorem parser_language (bytes : Bytes) (cmds : List Command) :
    RespParser.readAll (bytes.length + 1) {} bytes = (cmds, .waits {} []) ↔
      Stream bytes cmds := by
  have hall := RespParser.readAll_reads (bytes.length + 1) {} bytes (Nat.lt_succ_self _)
  rw [← RespParser.reads_stream_iff]
  constructor
  · intro h
    rwa [h] at hall
  · intro h
    obtain ⟨hcmds, hfin⟩ := hall.unique h
    exact Prod.ext hcmds hfin

/-- A stream of requests with short lines is never refused, however it is cut
and whenever the parser is called. The commands returned are those of the
stream, in its order, and once all bytes were given and a call finds no command
they are all there. -/
theorem requests_taken (calls : List ParserCall) (more : Bytes) (cmds : List Command)
    (h : Stream (ParserCall.stream calls ++ more) cmds)
    (hshort : RespParser.ShortLines (ParserCall.stream calls ++ more)) :
    (∀ r ∈ (Feeding.run {} calls).log, r.status ≠ .protocolError) ∧
      (Feeding.run {} calls).log.filterMap Returned.command <+: cmds ∧
      (more = [] →
        ((Feeding.run {} calls).parser.parse (Feeding.run {} calls).buf).2.2 = none →
        (Feeding.run {} calls).log.filterMap Returned.command = cmds) := by
  have hstart : Feeding.Keeps {} (ParserCall.stream calls ++ more) cmds :=
    ⟨nofun, cmds, rfl, RespParser.reads_stream h, hshort⟩
  obtain ⟨haccepted, later, hcmds, hawaits⟩ := hstart.run calls
  refine ⟨haccepted, ⟨later, hcmds⟩, ?_⟩
  rintro rfl hnone
  have hparsed := RespParser.parse_cases (Feeding.run {} calls).parser (Feeding.run {} calls).buf
  generalize RespParser.parse _ _ = o at hparsed hnone
  cases hparsed with
  | complete => cases hnone
  | needMore hfirst => rw [← hcmds, hawaits.done hfirst, List.append_nil]
  | fail hfirst => exact absurd hfirst hawaits.not_fail

/-- A blank line, an array and a line of words, cut inside the array. -/
def cutCalls : List ParserCall :=
  [.bytes (text "\r\n*1\r\n$4\r\nPI"), .parse, .bytes (text "NG\r\nGET k\n"), .parse, .parse]

theorem cutCalls_stream :
    Stream (ParserCall.stream cutCalls ++ []) [[text "PING"], [text "GET", text "k"]] := by
  have hblank : Skipped (text "\r" ++ [lf]) := .blank ⟨by decide, by decide⟩ (by decide)
  have hbulk : Bulk (text "PING") (header 36 (text "4") ++ (text "PING" ++ crlf)) :=
    .intro (by decide) (by decide)
  have hping : Request (header 42 (text "1") ++ ([] ++ (header 36 (text "4") ++
      (text "PING" ++ crlf)))) [text "PING"] :=
    .multibulk (by decide) (by decide) (by decide) (.snoc .nil hbulk)
  have hget : Request (text "GET k" ++ [lf]) (words (text "GET k")) :=
    .inline ⟨by decide, by decide⟩ (by decide)
  have hall := Stream.skipped hblank (.request hping (.request hget .nil))
  exact hall

theorem requests_taken_cut :
    ((Feeding.run {} cutCalls).log.map Returned.status).all (· ≠ .protocolError) ∧
      (Feeding.run {} cutCalls).log.filterMap Returned.command =
        [[text "PING"], [text "GET", text "k"]] := by
  obtain ⟨haccepted, -, hall⟩ := requests_taken cutCalls [] _ cutCalls_stream
    (RespParser.shortLines_of_length (by decide))
  exact ⟨by simpa using haccepted, hall rfl (by decide +kernel)⟩

end Cachedb
