import Cachedb.Proofs.Decimal
import Cachedb.Proofs.Parsing

/-!
# Requests and their encodings

A client writes a request as an array of bulk strings. The parser reads it in
one call, turn by turn: the header, then for every argument its length, its
bytes and its end. What the bytes are does not matter, they are counted.

That a piece of an encoding is neither a command nor an error needs no look at
the pieces: the parser is resumable, so what it found in a piece it would find
in the whole, and there it finds the command behind the last byte.
-/

namespace Cachedb

open Resume

/-- `append_array_header`, then `append_bulk_string` for every argument. -/
def Command.encode (cmd : Command) : Bytes :=
  arrayHeader cmd.length ++ (cmd.map bulkString).flatten

/-- What the limits of the parser let through. -/
structure Command.Sendable (cmd : Command) : Prop where
  some : cmd ≠ []
  count : (cmd.length : Int) ≤ RespParser.kMaxMultibulkLen
  args : ∀ arg ∈ cmd, (arg.length : Int) ≤ RespParser.kMaxBulkLen

instance instDecidableSendable (cmd : Command) : Decidable cmd.Sendable :=
  decidable_of_iff (cmd ≠ [] ∧ (cmd.length : Int) ≤ RespParser.kMaxMultibulkLen ∧
      ∀ arg ∈ cmd, (arg.length : Int) ≤ RespParser.kMaxBulkLen)
    ⟨fun h => ⟨h.1, h.2.1, h.2.2⟩, fun h => ⟨h.some, h.count, h.args⟩⟩

/-- Both limits have ten digits at most. -/
theorem decimalInt_length {n : Nat} (h : (n : Int) ≤ RespParser.kMaxBulkLen) :
    (decimalInt n).length ≤ 10 := by
  unfold decimalInt
  rw [if_neg (by omega), Int.natAbs_natCast]
  refine decimalDigits_length_le _ n 9 ?_
  unfold RespParser.kMaxBulkLen at h
  omega

namespace RespParser

/-- The parser between two arguments, `count` of them still to come. -/
def between (args : Command) (count : Nat) : RespParser :=
  { state := .readingBulkLen, pending := args, multibulkRemaining := count }

theorem move_star (rest : Bytes) :
    move {} (42 :: rest) = .skip { state := .readingMultibulkLen } 1 := rfl

theorem move_count {n : Nat} (hpos : 0 < n) (hn : (n : Int) ≤ kMaxMultibulkLen) (rest : Bytes) :
    move { state := .readingMultibulkLen } (decimalInt n ++ (crlf ++ rest)) =
      .skip (between [] n) ((decimalInt n).length + 2) := by
  have hline := findCrlf_line (fun c hc => (decimalInt_line n c hc).1) rest
  have hread : parseI64 (decimalInt n) = some (n : Int) := by
    refine parseI64_decimalInt ?_
    unfold kMaxMultibulkLen at hn
    omega
  have hcount : parseI64 ((decimalInt n ++ (crlf ++ rest)).take (decimalInt n).length) =
      some (n : Int) := by rw [List.take_left, hread]
  exact (Step.count rfl hline hcount (by omega) hn).move_eq

theorem move_length (args : Command) (count : Nat) {n : Nat} (hn : (n : Int) ≤ kMaxBulkLen)
    (rest : Bytes) :
    move (between args count) (36 :: (decimalInt n ++ (crlf ++ rest))) =
      .skip { state := .readingBulkBody, pending := args ++ [[]], multibulkRemaining := count,
              bulkRemaining := n } (1 + (decimalInt n).length + 2) := by
  have hline := findCrlf_line (fun c hc => (decimalInt_line n c hc).1) rest
  have hread : parseI64 (decimalInt n) = some (n : Int) := by
    refine parseI64_decimalInt ?_
    unfold kMaxBulkLen at hn
    omega
  have hlength : parseI64 ((decimalInt n ++ (crlf ++ rest)).take (decimalInt n).length) =
      some (n : Int) := by rw [List.take_left, hread]
  exact (Step.length rfl rfl hline hlength (by omega) hn).move_eq

theorem move_payload (args : Command) (count : Nat) (arg rest : Bytes) :
    move { state := .readingBulkBody, pending := args ++ [[]], multibulkRemaining := count,
           bulkRemaining := arg.length } (arg ++ rest) =
      .skip { state := .readingBulkCrlf, pending := args ++ [arg], multibulkRemaining := count }
        arg.length := by
  have hall : ¬(arg ++ rest).length < arg.length := by rw [List.length_append]; omega
  rw [move_body rfl, if_neg hall]
  simp only [absorb, List.take_left, appendBack_append, List.nil_append, Nat.sub_self]

theorem move_next (args : Command) (count : Nat) (rest : Bytes) :
    move { state := .readingBulkCrlf, pending := args, multibulkRemaining := count + 1 }
        (crlf ++ rest) =
      if count = 0 then .emit {} 2 args else .skip (between args count) 2 := by
  have hlen : 2 ≤ (crlf ++ rest).length := Nat.le_add_left 2 rest.length
  split
  · next hlast => exact Step.move_eq (.lastArg rfl hlen rfl hlast)
  · next hmore => exact Step.move_eq (.nextArg rfl hlen rfl hmore)

/-! ## Whole requests -/

theorem drop_line (line rest : Bytes) : (line ++ (crlf ++ rest)).drop (line.length + 2) = rest := by
  rw [← List.drop_drop, List.drop_left]
  rfl

theorem bulkString_append (arg rest : Bytes) :
    bulkString arg ++ rest =
      36 :: (decimalInt arg.length ++ (crlf ++ (arg ++ (crlf ++ rest)))) := by
  simp only [bulkString, List.append_assoc]
  rfl

theorem bulkString_length (arg : Bytes) :
    (bulkString arg).length = 1 + (decimalInt arg.length).length + 2 + (arg.length + 2) := by
  simp only [bulkString, List.length_append]
  show 1 + _ + 2 + _ + 2 = _
  omega

theorem shortLine_length (args : Command) (count : Nat) {n : Nat} (hn : (n : Int) ≤ kMaxBulkLen)
    (rest : Bytes) : (between args count).ShortLine (36 :: (decimalInt n ++ (crlf ++ rest))) := by
  have := decimalInt_length hn
  unfold ShortLine lineLength lineParts between
  simp only [List.head?_cons, List.tail_cons, if_true,
    findCrlf_line (fun c hc => (decimalInt_line n c hc).1) rest]
  unfold kMaxLineLen
  omega

/-- The parser at the end of an argument. -/
def ending (args : Command) (count : Nat) : RespParser :=
  { state := .readingBulkCrlf, pending := args, multibulkRemaining := count }

/-- From the length of an argument to its end. -/
theorem take_arg (args : Command) (count : Nat) {arg : Bytes} (rest : Bytes)
    (harg : (arg.length : Int) ≤ kMaxBulkLen) :
    (∀ m, First move (ending (args ++ [arg]) count) (crlf ++ rest) m →
      First move (between args count) (bulkString arg ++ rest)
        (m.shift (1 + (decimalInt arg.length).length + 2 + arg.length))) ∧
      (Always move ShortLine (ending (args ++ [arg]) count) (crlf ++ rest) →
        Always move ShortLine (between args count) (bulkString arg ++ rest)) := by
  have hlength := move_length args count harg (arg ++ (crlf ++ rest))
  have hpayload := move_payload args count arg (crlf ++ rest)
  have hdrop : (36 :: (decimalInt arg.length ++ (crlf ++ (arg ++ (crlf ++ rest))))).drop
      (1 + (decimalInt arg.length).length + 2) = arg ++ (crlf ++ rest) := by
    rw [Nat.add_assoc, Nat.add_comm, List.drop_succ_cons, drop_line]
  rw [bulkString_append]
  constructor
  · intro m hend
    rw [← Move.shift_shift]
    refine .skip hlength ?_
    rw [hdrop]
    refine .skip hpayload ?_
    rw [List.drop_left]
    exact hend
  · intro hend
    refine .of_skip (shortLine_length args _ harg _) hlength ?_
    rw [hdrop]
    refine .of_skip (Nat.zero_le kMaxLineLen) hpayload ?_
    rw [List.drop_left]
    exact hend

theorem take_args (rest : Bytes) (todo : Command) :
    ∀ args : Command, todo ≠ [] → (∀ arg ∈ todo, (arg.length : Int) ≤ kMaxBulkLen) →
      First move (between args todo.length) ((todo.map bulkString).flatten ++ rest)
          (.emit {} (todo.map bulkString).flatten.length (args ++ todo)) ∧
        (Always move ShortLine {} rest → Always move ShortLine (between args todo.length)
          ((todo.map bulkString).flatten ++ rest)) := by
  induction todo with
  | nil => exact fun _ hne => absurd rfl hne
  | cons arg todo ih =>
      intro args _ hargs
      obtain ⟨harg, htodo⟩ := List.forall_mem_cons.mp hargs
      have hnext : (ending (args ++ [arg]) (todo.length + 1)).move
          (crlf ++ ((todo.map bulkString).flatten ++ rest)) = _ := move_next _ _ _
      obtain ⟨htake, hshort⟩ := take_arg args (todo.length + 1)
        ((todo.map bulkString).flatten ++ rest) harg
      rw [List.map_cons, List.flatten_cons, List.append_assoc, List.length_append,
        bulkString_length, List.length_cons]
      by_cases hlast : todo = []
      · subst hlast
        exact ⟨htake _ (.emit hnext), fun hrest =>
          hshort (.of_emit (Nat.zero_le kMaxLineLen) hnext hrest)⟩
      · rw [if_neg fun h => hlast (List.length_eq_zero_iff.mp h)] at hnext
        obtain ⟨hfirst, halways⟩ := ih (args ++ [arg]) hlast htodo
        have hsize : 1 + (decimalInt arg.length).length + 2 + (arg.length + 2) +
            (todo.map bulkString).flatten.length =
            1 + (decimalInt arg.length).length + 2 + arg.length +
              (2 + (todo.map bulkString).flatten.length) := by omega
        have htaken := htake _ (.skip hnext hfirst)
        rw [List.append_assoc] at htaken
        rw [hsize]
        exact ⟨htaken, fun hrest =>
          hshort (.of_skip (Nat.zero_le kMaxLineLen) hnext (halways hrest))⟩

/-- The parser takes a request and is where it was. -/
theorem take_command {cmd : Command} (h : cmd.Sendable) (rest : Bytes) :
    First move {} (cmd.encode ++ rest) (.emit {} cmd.encode.length cmd) ∧
      (Always move ShortLine {} rest → Always move ShortLine {} (cmd.encode ++ rest)) := by
  obtain ⟨hfirst, halways⟩ := take_args rest cmd [] h.some h.args
  have hpos : 0 < cmd.length := List.length_pos_iff.mpr h.some
  have hcount := move_count hpos h.count ((cmd.map bulkString).flatten ++ rest)
  have hencode : cmd.encode ++ rest =
      42 :: (decimalInt cmd.length ++ (crlf ++ ((cmd.map bulkString).flatten ++ rest))) := by
    simp only [Command.encode, arrayHeader, List.append_assoc]
    rfl
  have hsize : cmd.encode.length =
      1 + ((decimalInt cmd.length).length + 2 + (cmd.map bulkString).flatten.length) := by
    simp only [Command.encode, arrayHeader, List.length_append]
    show 1 + _ + 2 + _ = _
    omega
  have hline : ShortLine { state := .readingMultibulkLen }
      (decimalInt cmd.length ++ (crlf ++ ((cmd.map bulkString).flatten ++ rest))) := by
    have hlen : (decimalInt cmd.length).length ≤ 10 :=
      decimalInt_length (Int.le_trans h.count (by decide))
    unfold ShortLine lineLength lineParts
    simp only [findCrlf_line (fun c hc => (decimalInt_line _ c hc).1) _]
    unfold kMaxLineLen
    omega
  have hdrop := drop_line (decimalInt cmd.length) ((cmd.map bulkString).flatten ++ rest)
  rw [← hdrop] at hfirst halways
  have hheader := First.skip hcount hfirst
  rw [hencode, hsize]
  exact ⟨First.skip (move_star _) hheader, fun hrest => .of_skip (Nat.zero_le kMaxLineLen)
    (move_star _) (.of_skip hline hcount (halways hrest))⟩

theorem shortLines_nil : Always move ShortLine {} [] :=
  .of_wait (Nat.zero_le kMaxLineLen) (rfl : move {} [] = .wait {} 0)

/-- A call on a request and whatever is behind it. -/
theorem parse_encode {cmd : Command} (h : cmd.Sendable) (rest : Bytes) :
    parse {} (cmd.encode ++ rest) =
      ({}, { status := .complete, consumed := cmd.encode.length }, some cmd) := by
  have hparsed := parse_cases {} (cmd.encode ++ rest)
  generalize parse {} (cmd.encode ++ rest) = o at hparsed
  cases hparsed with
  | needMore hfirst => cases hfirst.unique (take_command h rest).1
  | complete hfirst => cases hfirst.unique (take_command h rest).1; rfl
  | fail hfirst _ _ => cases hfirst.unique (take_command h rest).1

/-- A call on a piece of a request. -/
theorem parse_piece {cmd : Command} (h : cmd.Sendable) {piece more : Bytes} (hne : more ≠ [])
    (heq : piece ++ more = cmd.encode) :
    ∃ q n, parse {} piece = (q, { status := .needMoreData, consumed := n }, none) := by
  obtain ⟨hwhole, hshort⟩ := take_command h []
  rw [List.append_nil] at hwhole hshort
  have hfound : ∀ m, First move {} piece m → (∀ t n, m ≠ .wait t n) →
      m = .emit {} cmd.encode.length cmd := by
    intro m hfirst hm
    have hsame := hfirst.append resumable hm (by rw [heq]; exact hshort shortLines_nil)
    rw [heq] at hsame
    exact hsame.unique hwhole
  have hparsed := parse_cases {} piece
  generalize parse {} piece = o at hparsed
  cases hparsed with
  | needMore _ => exact ⟨_, _, rfl⟩
  | @complete q n c hfirst =>
      obtain ⟨_, hn⟩ := first_sized hfirst
      cases hfound _ hfirst (fun _ _ hwait => (by cases hwait))
      have hmore := List.length_pos_iff.mpr hne
      rw [← heq, List.length_append] at hn
      omega
  | fail hfirst _ _ => cases hfound _ hfirst (fun _ _ hwait => (by cases hwait))

/-- A number of calls, each on the bytes the one before left: what they
return, the parser and the bytes after the last. -/
def parseCalls : Nat → RespParser → Bytes →
    List (ParseResult × Option Command) × RespParser × Bytes
  | 0, p, inp => ([], p, inp)
  | n + 1, p, inp =>
      let (p, result, command) := p.parse inp
      let rest := parseCalls n p (inp.drop result.consumed)
      ((result, command) :: rest.1, rest.2)

end RespParser

/-- Requests written one behind the other are read one call each, whatever
follows, and the parser is as new; a piece of one is neither a command nor an
error. -/
theorem requests_round_trip (cmds : List Command) (h : ∀ cmd ∈ cmds, cmd.Sendable)
    (rest : Bytes) :
    RespParser.parseCalls cmds.length {} ((cmds.map Command.encode).flatten ++ rest) =
        (cmds.map fun cmd =>
          ({ status := .complete, consumed := cmd.encode.length }, some cmd), {}, rest) ∧
      ∀ cmd ∈ cmds, ∀ piece more, more ≠ [] → piece ++ more = cmd.encode →
        ∃ q n, RespParser.parse {} piece =
          (q, { status := .needMoreData, consumed := n }, none) := by
  refine ⟨?_, fun cmd hcmd piece more => RespParser.parse_piece (h cmd hcmd)⟩
  induction cmds with
  | nil => rfl
  | cons cmd cmds ih =>
      obtain ⟨hcmd, hcmds⟩ := List.forall_mem_cons.mp h
      rw [List.map_cons, List.flatten_cons, List.append_assoc, List.length_cons,
        RespParser.parseCalls, RespParser.parse_encode hcmd]
      simp only [List.drop_left, ih hcmds]
      rfl

/-- An argument of CR, LF and NUL and an empty one. -/
def binarySet : Command := [text "SET", [13, 10, 0], []]

theorem requests_round_trip_binary :
    RespParser.parseCalls 2 {} (([binarySet, [text "PING"]].map Command.encode).flatten ++ []) =
        ([({ status := .complete, consumed := 28 }, some binarySet),
          ({ status := .complete, consumed := 14 }, some [text "PING"])], {}, []) :=
  (requests_round_trip [binarySet, [text "PING"]] (by decide +kernel) []).1.trans
    (by decide +kernel)

end Cachedb
