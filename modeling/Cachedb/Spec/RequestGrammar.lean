import Cachedb.Model.Resp

/-!
# The requests a client may send

A request is an array of counted strings, or one line of words. Between two
requests there may be units that ask for nothing: a line without a word, or an
array that counts no string. `Grammar.Accepted` says of bytes and a command
that the bytes are such units and then the request for the command.

Numbers are what `std::from_chars` makes a 64-bit number of, read to the end
of the string, so leading zeros are allowed.
-/

namespace Cachedb.Grammar

open RespParser (kMaxMultibulkLen kMaxBulkLen isInlineSpace)

/-! ## Lines of words -/

/-- A line of words, without its LF. A line that starts with `*` is the header
of an array. -/
structure Inline (line : Bytes) : Prop where
  noEnd : lf ∉ line
  noStar : line.head? ≠ some 42

/-- The line without the CR in front of its LF. -/
def chomp (line : Bytes) : Bytes := if line.getLast? = some cr then line.dropLast else line

/-- The longest runs of bytes other than space and tab. -/
def words (line : Bytes) : Command :=
  ((chomp line).splitOnP isInlineSpace).filter (· ≠ [])

/-! ## Arrays of strings -/

/-- A mark, a number and CRLF. -/
def header (mark : UInt8) (number : Bytes) : Bytes := mark :: (number ++ crlf)

/-- `$m` CRLF, the `m` bytes of an argument, CRLF. -/
inductive Bulk (arg : Bytes) : Bytes → Prop
  | intro {number : Bytes} (hnumber : parseI64 number = some arg.length)
      (hmax : arg.length ≤ kMaxBulkLen) : Bulk arg (header 36 number ++ (arg ++ crlf))

/-- One string for every argument. -/
inductive Bulks : Command → Bytes → Prop
  | nil : Bulks [] []
  | snoc {args : Command} {arg bytes unit : Bytes} (front : Bulks args bytes)
      (last : Bulk arg unit) : Bulks (args ++ [arg]) (bytes ++ unit)

/-! ## Requests -/

/-- A unit that asks for nothing. -/
inductive Skipped : Bytes → Prop
  | blank {line : Bytes} (hline : Inline line) (hwords : words line = []) : Skipped (line ++ [lf])
  | noArgs {number : Bytes} {n : Int} (hnumber : parseI64 number = some n) (hn : n ≤ 0) :
      Skipped (header 42 number)

inductive Skips : Bytes → Prop
  | nil : Skips []
  | snoc {bytes unit : Bytes} (front : Skips bytes) (last : Skipped unit) : Skips (bytes ++ unit)

/-- The bytes of a request and its command. -/
inductive Request : Bytes → Command → Prop
  | multibulk {number bytes : Bytes} {args : Command}
      (hnumber : parseI64 number = some args.length) (hpos : 1 ≤ args.length)
      (hmax : args.length ≤ kMaxMultibulkLen) (hargs : Bulks args bytes) :
      Request (header 42 number ++ bytes) args
  | inline {line : Bytes} (hline : Inline line) (hwords : words line ≠ []) :
      Request (line ++ [lf]) (words line)

/-- Units that ask for nothing, then a request. -/
inductive Accepted : Bytes → Command → Prop
  | intro {gone bytes : Bytes} {cmd : Command} (hgone : Skips gone) (h : Request bytes cmd) :
      Accepted (gone ++ bytes) cmd

theorem Request.ne_nil {bytes : Bytes} {cmd : Command} (h : Request bytes cmd) : cmd ≠ [] := by
  cases h with
  | multibulk _ hpos _ _ => exact List.ne_nil_of_length_pos hpos
  | inline _ hwords => exact hwords

theorem Accepted.ne_nil {bytes : Bytes} {cmd : Command} (h : Accepted bytes cmd) : cmd ≠ [] := by
  cases h with
  | intro _ h => exact h.ne_nil

/-! ## Streams -/

/-- What a client sends: units that ask for nothing and requests, one behind
the other, and the commands of the requests. -/
inductive Stream : Bytes → List Command → Prop
  | nil : Stream [] []
  | skipped {unit bytes : Bytes} {cmds : List Command} (h : Skipped unit)
      (rest : Stream bytes cmds) : Stream (unit ++ bytes) cmds
  | request {unit bytes : Bytes} {cmd : Command} {cmds : List Command} (h : Request unit cmd)
      (rest : Stream bytes cmds) : Stream (unit ++ bytes) (cmd :: cmds)

end Cachedb.Grammar
