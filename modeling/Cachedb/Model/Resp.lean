import Cachedb.Model.Bytes

/-!
# The wire protocol

Requests come in as bytes in any pieces. `RespParser` keeps its place between
two pieces in a state, the arguments read so far and two countdowns;
`RespParser.parse` is given all bytes not consumed yet and says how many it
absorbed. It stops at the first complete command, at the first error, or when
what is there does not settle the next step. One turn of its loop is
`RespParser.round`; the turns that consume nothing lead to one that does, so
the length of the input bounds their number.

The reply half is a function from a reply to its bytes. Whoever replies
appends them to the connection's output, and nothing else is ever done with
it.
-/

namespace Cachedb

/-- The bytes of a literal of the source. -/
def text (s : String) : Bytes := s.toList.map fun c => UInt8.ofNat c.toNat

def cr : UInt8 := 13

def lf : UInt8 := 10

def crlf : Bytes := [cr, lf]

/-! ## Integers as text -/

def digit (n : Nat) : UInt8 := UInt8.ofNat (48 + n)

/-- `'0'` to `'9'`. -/
def isDigit (c : UInt8) : Bool := 48 ≤ c && c ≤ 57

def digitValue (c : UInt8) : Nat := c.toNat - 48

/-- Decimal digits, most significant first. Any fuel above the number of
digits gives the same. -/
def decimalDigits : Nat → Nat → Bytes
  | 0, _ => []
  | fuel + 1, n => if n < 10 then [digit n] else decimalDigits fuel (n / 10) ++ [digit (n % 10)]

/-- `std::to_string` of an unsigned number. -/
def decimal (n : Nat) : Bytes := decimalDigits (n + 1) n

/-- `append_i64`, and `std::to_string` of a signed number. -/
def decimalInt (n : Int) : Bytes :=
  if n < 0 then text "-" ++ decimal n.natAbs else decimal n.natAbs

/-- The number a string of digits spells. -/
def digitsValue (s : Bytes) : Nat := s.foldl (fun v c => v * 10 + digitValue c) 0

/-- `parse_i64`: a `std::from_chars` that reads the whole string. It takes a
minus sign but no plus, and any number of leading zeros. -/
def parseI64 (s : Bytes) : Option Int :=
  let negative := s.head? = some 45
  let digits := if negative then s.tail else s
  if digits = [] ∨ !digits.all isDigit then none
  else
    let value : Int := if negative then -(digitsValue digits : Int) else digitsValue digits
    if -2 ^ 63 ≤ value ∧ value < 2 ^ 63 then some value else none

/-! ## Requests -/

/-- A request: the name of the command, then its arguments. -/
abbrev Command := List Bytes

inductive ParserState where
  | readingType
  | readingMultibulkLen
  | readingBulkLen
  | readingBulkBody
  | readingBulkCrlf
  | readingInline
  | failed
  deriving DecidableEq, Repr

structure RespParser where
  state : ParserState := .readingType
  pending : Command := []
  multibulkRemaining : Nat := 0
  bulkRemaining : Nat := 0
  deriving DecidableEq, Repr

inductive ParseStatus where
  | needMoreData
  | complete
  | protocolError
  deriving DecidableEq, Repr

structure ParseResult where
  status : ParseStatus
  consumed : Nat
  error : Bytes := []
  deriving DecidableEq, Repr

namespace RespParser

def kMaxMultibulkLen : Int := 1024 * 1024

def kMaxBulkLen : Int := 512 * 1024 * 1024

def kMaxLineLen : Nat := 64 * 1024

def kErrMultibulkLen : Bytes := text "Protocol error: invalid multibulk length"

def kErrBulkLen : Bytes := text "Protocol error: invalid bulk length"

def kErrExpectedDollar : Bytes := text "Protocol error: expected '$'"

def kErrUnterminatedBulk : Bytes := text "Protocol error: bulk string not terminated by CRLF"

def kErrLineTooLong : Bytes := text "Protocol error: too big inline request"

def kErrAlreadyFailed : Bytes := text "Protocol error: framing lost"

/-- `find("\r\n")`. -/
def findCrlf : Bytes → Option Nat
  | [] => none
  | c :: rest => if c = cr ∧ rest.head? = some lf then some 0 else (findCrlf rest).map (· + 1)

def isInlineSpace (c : UInt8) : Bool := c = 32 || c = 9

/-- The tokens of an inline line, `word` being the one under way. -/
def splitInline (word : Bytes) : Bytes → Command
  | [] => if word = [] then [] else [word]
  | c :: rest =>
      if isInlineSpace c then
        if word = [] then splitInline [] rest else word :: splitInline [] rest
      else splitInline (word ++ [c]) rest

/-- `pending_.args.back().append(...)`. -/
def appendBack (args : Command) (data : Bytes) : Command :=
  match args with
  | [] => []
  | [arg] => [arg ++ data]
  | arg :: rest => arg :: appendBack rest data

/-- `RespParser::reset`. -/
def reset (p : RespParser) : RespParser := if p.state = .failed then p else {}

/-- What one turn of the loop comes to. -/
inductive Round where
  | again (parser : RespParser) (pos : Nat)
  | done (parser : RespParser) (result : ParseResult) (command : Option Command)
  deriving DecidableEq, Repr

def Round.needMore (p : RespParser) (pos : Nat) : Round :=
  .done p { status := .needMoreData, consumed := pos } none

def Round.fail (p : RespParser) (pos : Nat) (error : Bytes) : Round :=
  .done { p with state := .failed } { status := .protocolError, consumed := pos, error } none

def Round.complete (p : RespParser) (pos : Nat) : Round :=
  .done p.reset { status := .complete, consumed := pos } (some p.pending)

/-- No terminator in `line`: wait for it, up to a length. -/
def unterminated (p : RespParser) (pos : Nat) (line : Bytes) : Round :=
  if kMaxLineLen < line.length then .fail p pos kErrLineTooLong else .needMore p pos

/-- One turn of the loop, at `pos` of the input; `rest` is the input from
there on. -/
def round (p : RespParser) (pos : Nat) (rest : Bytes) : Round :=
  match p.state with
  | .failed =>
      .done p { status := .protocolError, consumed := pos, error := kErrAlreadyFailed } none
  | .readingType =>
      match rest with
      | [] => .needMore p pos
      | c :: _ =>
          if c = 42 then .again { p with state := .readingMultibulkLen } (pos + 1)
          else .again { p with state := .readingInline } pos
  | .readingMultibulkLen =>
      match findCrlf rest with
      | none => unterminated p pos rest
      | some i =>
          match parseI64 (rest.take i) with
          | none => .fail p pos kErrMultibulkLen
          | some n =>
              if kMaxMultibulkLen < n then .fail p pos kErrMultibulkLen
              else if n ≤ 0 then .again p.reset (pos + i + 2)
              else
                .again { p with multibulkRemaining := n.toNat, state := .readingBulkLen }
                  (pos + i + 2)
  | .readingBulkLen =>
      match rest with
      | [] => .needMore p pos
      | c :: line =>
          if c ≠ 36 then .fail p pos kErrExpectedDollar
          else
            match findCrlf line with
            | none => unterminated p pos rest
            | some i =>
                match parseI64 (line.take i) with
                | none => .fail p pos kErrBulkLen
                | some n =>
                    if n < 0 ∨ kMaxBulkLen < n then .fail p pos kErrBulkLen
                    else
                      .again { p with
                        bulkRemaining := n.toNat
                        pending := p.pending ++ [[]]
                        state := .readingBulkBody } (pos + 1 + i + 2)
  | .readingBulkBody =>
      let take := min rest.length p.bulkRemaining
      let p := { p with
        pending := appendBack p.pending (rest.take take)
        bulkRemaining := p.bulkRemaining - take }
      if 0 < p.bulkRemaining then .needMore p (pos + take)
      else .again { p with state := .readingBulkCrlf } (pos + take)
  | .readingBulkCrlf =>
      if rest.length < 2 then .needMore p pos
      else if rest.take 2 ≠ crlf then .fail p pos kErrUnterminatedBulk
      else
        let p := { p with multibulkRemaining := p.multibulkRemaining - 1 }
        if p.multibulkRemaining = 0 then .complete p (pos + 2)
        else .again { p with state := .readingBulkLen } (pos + 2)
  | .readingInline =>
      match rest.findIdx? (· = lf) with
      | none => unterminated p pos rest
      | some nl =>
          let line := rest.take nl
          let line := if line.getLast? = some cr then line.dropLast else line
          let p := { p with pending := splitInline [] line }
          if p.pending = [] then .again p.reset (pos + nl + 1) else .complete p (pos + nl + 1)

/-- The loop of `parse`. -/
def parseLoop (inp : Bytes) : Nat → RespParser → Nat → RespParser × ParseResult × Option Command
  | 0, p, pos => (p, { status := .needMoreData, consumed := pos }, none)
  | fuel + 1, p, pos =>
      match p.round pos (inp.drop pos) with
      | .again p pos => parseLoop inp fuel p pos
      | .done p result command => (p, result, command)

/-- `RespParser::parse`: the parser left, the result, and the command if one is
complete. -/
def parse (p : RespParser) (inp : Bytes) : RespParser × ParseResult × Option Command :=
  parseLoop inp (2 * inp.length + 2) p 0

example : (parse {} (text "*2\r\n$3\r\nGET\r\n$1\r\nk\r\n+")).2 =
    ({ status := .complete, consumed := 20 }, some [text "GET", text "k"]) := by
  decide +kernel

example : (parse {} (text " SET k  v\r\n")).2.2 = some [text "SET", text "k", text "v"] := by
  decide +kernel

end RespParser

/-! ## Replies -/

/-- `append_simple_string`. -/
def simpleString (s : Bytes) : Bytes := text "+" ++ s ++ crlf

/-- `append_error`. -/
def errorReply (msg : Bytes) : Bytes := text "-" ++ msg ++ crlf

/-- `append_integer`. -/
def integerReply (n : Int) : Bytes := text ":" ++ decimalInt n ++ crlf

/-- `append_bulk_string`. -/
def bulkString (s : Bytes) : Bytes := text "$" ++ decimalInt s.length ++ crlf ++ s ++ crlf

/-- `append_null_bulk`. -/
def nullBulk : Bytes := text "$-1" ++ crlf

/-- `append_array_header`. -/
def arrayHeader (n : Int) : Bytes := text "*" ++ decimalInt n ++ crlf

end Cachedb
