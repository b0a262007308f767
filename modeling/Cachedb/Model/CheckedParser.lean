import Cachedb.Lib.Checked
import Cachedb.Model.Connection

/-!
# The parser and its caller with their checks

`RespParser::parse` and the loop of `Connection::on_bytes` once more, at the
positions the source has in its buffers, in the monad that stops where the
language would not (`Checked.Run`): at an access outside of the input, at an
argument that is not there, at a countdown below zero, and at a loop that is
still running. Each state of the parser has a function for its turn of the loop.

A position is nowhere behind the end of the input, which has a length that fits
its word, so sums of positions are left as they are.
-/

namespace Cachedb

open Checked (Run sub item slice)

namespace RespParser

/-- `in.find("\r\n", pos)`. -/
def findCrlfFrom (inp : Bytes) (pos : Nat) : Option Nat := (findCrlf (inp.drop pos)).map (pos + ·)

/-- `in.find('\n', pos)`. -/
def findLfFrom (inp : Bytes) (pos : Nat) : Option Nat :=
  ((inp.drop pos).findIdx? (· = lf)).map (pos + ·)

/-- `pending_.args.back().append(...)`. -/
def appendBackChecked (args : Command) (data : Bytes) : Run Command :=
  if args = [] then throw .outside else return appendBack args data

def unterminatedChecked (p : RespParser) (pos : Nat) (inp : Bytes) : Run Round := do
  let left ← sub inp.length pos
  if kMaxLineLen < left then return .fail p pos kErrLineTooLong else return .needMore p pos

def readTypeChecked (p : RespParser) (pos : Nat) (inp : Bytes) : Run Round := do
  if pos = inp.length then return .needMore p pos
  else
    let c ← item inp pos
    if c = 42 then return .again { p with state := .readingMultibulkLen } (pos + 1)
    else return .again { p with state := .readingInline } pos

def readMultibulkLenChecked (p : RespParser) (pos : Nat) (inp : Bytes) : Run Round := do
  match findCrlfFrom inp pos with
  | none => p.unterminatedChecked pos inp
  | some stop =>
      let number ← slice inp pos (← sub stop pos)
      match parseI64 number with
      | none => return .fail p pos kErrMultibulkLen
      | some n =>
          if kMaxMultibulkLen < n then return .fail p pos kErrMultibulkLen
          else if n ≤ 0 then return .again p.reset (stop + 2)
          else
            return .again { p with multibulkRemaining := n.toNat, state := .readingBulkLen }
              (stop + 2)

def readBulkLenChecked (p : RespParser) (pos : Nat) (inp : Bytes) : Run Round := do
  if pos = inp.length then return .needMore p pos
  else
    let c ← item inp pos
    if c ≠ 36 then return .fail p pos kErrExpectedDollar
    else
      match findCrlfFrom inp (pos + 1) with
      | none => p.unterminatedChecked pos inp
      | some stop =>
          let number ← slice inp (pos + 1) (← sub (← sub stop pos) 1)
          match parseI64 number with
          | none => return .fail p pos kErrBulkLen
          | some n =>
              if n < 0 ∨ kMaxBulkLen < n then return .fail p pos kErrBulkLen
              else
                return .again { p with
                  bulkRemaining := n.toNat
                  pending := p.pending ++ [[]]
                  state := .readingBulkBody } (stop + 2)

def readBulkBodyChecked (p : RespParser) (pos : Nat) (inp : Bytes) : Run Round := do
  let take := min (← sub inp.length pos) p.bulkRemaining
  let pending ← appendBackChecked p.pending (← slice inp pos take)
  let bulkRemaining ← sub p.bulkRemaining take
  let p := { p with pending, bulkRemaining }
  if 0 < p.bulkRemaining then return .needMore p (pos + take)
  else return .again { p with state := .readingBulkCrlf } (pos + take)

def readBulkCrlfChecked (p : RespParser) (pos : Nat) (inp : Bytes) : Run Round := do
  if (← sub inp.length pos) < 2 then return .needMore p pos
  else
    let first ← item inp pos
    let second ← item inp (pos + 1)
    if first ≠ cr ∨ second ≠ lf then return .fail p pos kErrUnterminatedBulk
    else
      let p := { p with multibulkRemaining := ← sub p.multibulkRemaining 1 }
      if p.multibulkRemaining = 0 then return .complete p (pos + 2)
      else return .again { p with state := .readingBulkLen } (pos + 2)

/-- `++i` while `line[i]` is a space, or while it is none. -/
def passChecked (line : Bytes) (space : Bool) : Nat → Nat → Run Nat
  | 0, _ => throw .running
  | fuel + 1, i => do
      if i < line.length then
        let c ← item line i
        if isInlineSpace c = space then passChecked line space fuel (i + 1) else return i
      else return i

/-- The split of an inline line. -/
def splitChecked (line : Bytes) : Nat → Nat → Command → Run Command
  | 0, _, _ => throw .running
  | fuel + 1, i, args => do
      if i < line.length then
        let start ← passChecked line true (line.length + 1) i
        if start = line.length then return args
        else
          let stop ← passChecked line false (line.length + 1) start
          let word ← slice line start (← sub stop start)
          splitChecked line fuel stop (args ++ [word])
      else return args

/-- Where a line ends that has its LF at `nl`. -/
def lineEndChecked (inp : Bytes) (pos nl : Nat) : Run Nat := do
  if pos < nl then
    let last ← item inp (nl - 1)
    if last = cr then sub nl 1 else return nl
  else return nl

def readInlineChecked (p : RespParser) (pos : Nat) (inp : Bytes) : Run Round := do
  match findLfFrom inp pos with
  | none => p.unterminatedChecked pos inp
  | some nl =>
      let stop ← lineEndChecked inp pos nl
      let line ← slice inp pos (← sub stop pos)
      let pending ← splitChecked line (line.length + 1) 0 []
      let p := { p with pending }
      if p.pending = [] then return .again p.reset (nl + 1) else return .complete p (nl + 1)

def roundChecked (p : RespParser) (pos : Nat) (inp : Bytes) : Run Round :=
  match p.state with
  | .failed =>
      return .done p { status := .protocolError, consumed := pos, error := kErrAlreadyFailed } none
  | .readingType => p.readTypeChecked pos inp
  | .readingMultibulkLen => p.readMultibulkLenChecked pos inp
  | .readingBulkLen => p.readBulkLenChecked pos inp
  | .readingBulkBody => p.readBulkBodyChecked pos inp
  | .readingBulkCrlf => p.readBulkCrlfChecked pos inp
  | .readingInline => p.readInlineChecked pos inp

def parseLoopChecked (inp : Bytes) :
    Nat → RespParser → Nat → Run (RespParser × ParseResult × Option Command)
  | 0, _, _ => throw .running
  | fuel + 1, p, pos => do
      match ← p.roundChecked pos inp with
      | .again p pos => parseLoopChecked inp fuel p pos
      | .done p result command => return (p, result, command)

/-- `RespParser::parse`. -/
def parseChecked (p : RespParser) (inp : Bytes) :
    Run (RespParser × ParseResult × Option Command) :=
  parseLoopChecked inp (2 * inp.length + 2) p 0

end RespParser

namespace Connection

/-- The loop of `on_bytes`, which leaves the buffer alone up to its end. -/
def drainChecked (envs : Nat → Env) : Nat → Connection → Nat → Store → Run Fed
  | 0, _, _, _ => throw .running
  | fuel + 1, c, consumed, s => do
      let inp ← slice c.inBuf consumed (← sub c.inBuf.length consumed)
      let (parser, result, command) ← c.parser.parseChecked inp
      let consumed := consumed + result.consumed
      match result.status, command with
      | .complete, some cmd =>
          let done := execute cmd s (envs 0)
          let rest ← drainChecked (fun n => envs (n + 1)) fuel
            { c with parser, out := c.out ++ done.ret } consumed done.store
          return { rest with
            events := done.events ++ rest.events, commands := cmd :: rest.commands }
      | .protocolError, _ =>
          return {
            conn := { c with
              parser, inBuf := c.inBuf.drop consumed
              out := c.out ++ errorReply (text "ERR " ++ result.error), closing := true }
            store := s }
      | _, _ => return { conn := { c with parser, inBuf := c.inBuf.drop consumed }, store := s }

/-- `Connection::on_bytes`. -/
def onBytesChecked (c : Connection) (bytes : Bytes) (s : Store) (envs : Nat → Env) : Run Fed :=
  if c.closing then return { conn := c, store := s }
  else if c.maxReadBuffer < c.inBuf.length + bytes.length then
    return {
      conn := { c with
        out := c.out ++ errorReply (text "ERR Protocol error: request too large")
        closing := true }
      store := s }
  else
    let c := { c with inBuf := c.inBuf ++ bytes }
    drainChecked envs (c.inBuf.length + 1) c 0 s

end Connection

end Cachedb
