import Cachedb.Proofs.Parsing
import Cachedb.Proofs.Replies
import Cachedb.Model.Connection

/-!
# One client from its first byte on

The bytes a client sends arrive in pieces, and what it is told leaves in
pieces. A `Session` is a connection with what it has executed and what the
socket has taken, after any calls of `on_bytes` and `consume_output`.

Two things are followed through a session. What was said so far, taken or
not, is the replies of the commands executed and then, once the connection is
closing, one error (`Session.Told`); `consume_output` moves the boundary
between taken and not taken and nothing else. And the commands are those the
parser, as a resumable reader, makes of the pieces (`Session.run_feeds`).
-/

namespace Cachedb

open Resume

inductive ConnCall where
  | onBytes (bytes : Bytes) (envs : Nat → Env)
  | consumeOutput (n : Nat)

/-- A connection and its store, the commands executed, their replies, and the
bytes taken by the socket. -/
structure Session where
  conn : Connection
  store : Store
  commands : List Command := []
  replies : List Bytes := []
  taken : Bytes := []

namespace Session

/-- A client that has just connected. -/
def start (maxReadBuffer : Nat) (store : Store) : Session :=
  { conn := { maxReadBuffer }, store }

def step (t : Session) : ConnCall → Session
  | .onBytes bytes envs =>
      let fed := t.conn.onBytes bytes t.store envs
      { t with
        conn := fed.conn
        store := fed.store
        commands := t.commands ++ fed.commands
        replies := t.replies ++ t.store.answers envs fed.commands }
  | .consumeOutput n =>
      { t with
        conn := t.conn.consumeOutput n
        taken := t.taken ++ t.conn.pendingOutput.take n }

def run (t : Session) (calls : List ConnCall) : Session := calls.foldl step t

/-- Everything the client was told, whether it has left yet or not. -/
def said (t : Session) : Bytes := t.taken ++ t.conn.pendingOutput

/-- No call consumes more than there is. -/
def Valid (t : Session) : List ConnCall → Prop
  | [] => True
  | .onBytes bytes envs :: calls => (t.step (.onBytes bytes envs)).Valid calls
  | .consumeOutput n :: calls =>
      n ≤ t.conn.pendingOutput.length ∧ (t.step (.consumeOutput n)).Valid calls

end Session

/-- The pieces a session is fed. -/
def ConnCall.chunk : ConnCall → Option Bytes
  | .onBytes bytes _ => some bytes
  | .consumeOutput _ => none

def ConnCall.chunks (calls : List ConnCall) : List Bytes := calls.filterMap ConnCall.chunk

namespace Connection

def kErrTooLarge : Bytes := text "Protocol error: request too large"

/-- The last thing a client is told. -/
def lastWord : Option Bytes → Bytes
  | none => []
  | some error => errorReply (text "ERR " ++ error)

/-- What the loop of `on_bytes` leaves. -/
def Became (c c' : Connection) (said : Bytes) : End RespParser UInt8 Bytes → Prop
  | .waits parser inBuf => c' = { c with parser, inBuf, out := c.out ++ said }
  | .failed error =>
      error ∈ RespParser.errors ∧ c'.closing = true ∧ c'.outPos = c.outPos ∧
        c'.out = c.out ++ (said ++ lastWord (some error))

theorem drain_reads (fuel : Nat) :
    ∀ (envs : Nat → Env) (c : Connection) (s : Store), c.inBuf.length < fuel →
      ∃ fin, Reads RespParser.move c.parser c.inBuf (c.drain envs fuel s).commands fin ∧
        c.Became (c.drain envs fuel s).conn
          (s.answers envs (c.drain envs fuel s).commands).flatten fin := by
  induction fuel with
  | zero => intro envs c s h; omega
  | succ fuel ih =>
      intro envs c s hfuel
      have hparsed := c.parser.parse_cases c.inBuf
      rw [drain]
      generalize c.parser.parse c.inBuf = o at hparsed
      cases hparsed with
      | @complete q n cmd h =>
          obtain ⟨hpos, hn⟩ := RespParser.first_sized h
          obtain ⟨fin, hreads, hbecame⟩ := ih (fun n => envs (n + 1))
            { c with
              parser := q, inBuf := c.inBuf.drop n
              out := c.out ++ (execute cmd s (envs 0)).ret }
            (execute cmd s (envs 0)).store
            (by rw [List.length_drop]; omega)
          refine ⟨fin, h.reads_emit hreads, ?_⟩
          cases fin with
          | waits parser inBuf =>
              refine Eq.trans hbecame ?_
              simp only [Store.answers, List.flatten_cons, List.append_assoc]
          | failed error =>
              obtain ⟨hknown, hclosing, hpos, hout⟩ := hbecame
              refine ⟨hknown, hclosing, hpos, hout.trans ?_⟩
              simp only [Store.answers, List.flatten_cons, List.append_assoc]
      | @needMore q n h =>
          refine ⟨_, h.reads_wait, ?_⟩
          simp only [Became, Store.answers, List.flatten_nil, List.append_nil]
      | fail h q n =>
          refine ⟨_, h.reads_fail, RespParser.first_sized h, rfl, rfl, ?_⟩
          rfl

/-! ## The output -/

theorem pendingOutput_append {c c' : Connection} {data : Bytes} (h : c.outPos ≤ c.out.length)
    (hpos : c'.outPos = c.outPos) (hout : c'.out = c.out ++ data) :
    c'.pendingOutput = c.pendingOutput ++ data := by
  unfold pendingOutput
  rw [hpos, hout, List.drop_append_of_le_length h]

/-- Consuming moves the boundary, wherever it is kept. -/
theorem consumeOutput_spec {c : Connection} {n : Nat} (h : c.outPos ≤ c.out.length)
    (hn : n ≤ c.pendingOutput.length) :
    (c.consumeOutput n).pendingOutput = c.pendingOutput.drop n ∧
      (c.consumeOutput n).outPos ≤ (c.consumeOutput n).out.length := by
  unfold pendingOutput at hn ⊢
  rw [List.length_drop] at hn
  rw [List.drop_drop]
  unfold consumeOutput
  simp only []
  split
  · next hall =>
      rw [hall, List.drop_length]
      exact ⟨rfl, Nat.le_refl _⟩
  · split
    · exact ⟨rfl, Nat.zero_le _⟩
    · refine ⟨rfl, ?_⟩
      show c.outPos + n ≤ c.out.length
      omega

/-- Consuming leaves the reading side as it is. -/
theorem consumeOutput_input (c : Connection) (n : Nat) :
    (c.consumeOutput n).parser = c.parser ∧ (c.consumeOutput n).inBuf = c.inBuf ∧
      (c.consumeOutput n).closing = c.closing ∧
      (c.consumeOutput n).maxReadBuffer = c.maxReadBuffer := by
  unfold consumeOutput
  simp only []
  split
  · exact ⟨rfl, rfl, rfl, rfl⟩
  · split
    · exact ⟨rfl, rfl, rfl, rfl⟩
    · exact ⟨rfl, rfl, rfl, rfl⟩

/-- What a protocol error can say to a client. -/
def errors : List Bytes := kErrTooLarge :: RespParser.errors

end Connection

/-! ## What was said -/

namespace Session

open Connection

/-- The client was told the replies and, if the connection is closing, one
error. -/
structure Told (t : Session) (error : Option Bytes) : Prop where
  said : t.said = t.replies.flatten ++ lastWord error
  closing : t.conn.closing = error.isSome
  placed : t.conn.outPos ≤ t.conn.out.length
  known : ∀ e, error = some e → e ∈ Connection.errors

variable {t : Session} {error : Option Bytes} {bytes : Bytes} {envs : Nat → Env}

theorem told_start (cap : Nat) (s : Store) : (start cap s).Told none :=
  ⟨rfl, rfl, Nat.le_refl _, fun _ h => (by cases h)⟩

/-- A closing connection reads nothing. -/
theorem Told.onBytes_closing {e : Bytes} (h : t.Told (some e)) :
    t.step (.onBytes bytes envs) = t := by
  have hclosing : t.conn.closing = true := h.closing
  rw [step]
  unfold Connection.onBytes
  rw [if_pos hclosing]
  simp only [Store.answers, List.append_nil]

/-- The step of a session whose connection said `data` more. -/
theorem Told.more {conn : Connection} {store : Store} {cmds : List Command}
    {replies : List Bytes} (h : t.Told none) (hpos : conn.outPos = t.conn.outPos)
    (hout : conn.out = t.conn.out ++ (replies.flatten ++ lastWord error))
    (hclosing : conn.closing = error.isSome) (hknown : ∀ e, error = some e → e ∈ errors) :
    Told { conn, store, commands := cmds, replies := t.replies ++ replies, taken := t.taken }
      error := by
  refine ⟨?_, hclosing, ?_, hknown⟩
  · have hsaid := h.said
    unfold Session.said at hsaid ⊢
    rw [pendingOutput_append h.placed hpos hout, ← List.append_assoc, hsaid, lastWord,
      List.append_nil, List.flatten_append, List.append_assoc]
  · show conn.outPos ≤ conn.out.length
    have := h.placed
    rw [hpos, hout, List.length_append]
    omega

/-- More than the buffer takes. -/
theorem Told.onBytes_large (h : t.Told none)
    (hlarge : t.conn.maxReadBuffer < t.conn.inBuf.length + bytes.length) :
    (t.step (.onBytes bytes envs)).Told (some kErrTooLarge) := by
  have hopen : ¬t.conn.closing = true := by rw [h.closing]; decide
  rw [step]
  unfold Connection.onBytes
  rw [if_neg hopen, if_pos hlarge]
  refine h.more rfl rfl rfl ?_
  rintro e ⟨⟩
  exact List.mem_cons_self

/-- What is read is what the parser makes of it, and it is answered. -/
theorem Told.onBytes (h : t.Told none) (envs : Nat → Env)
    (hroom : t.conn.inBuf.length + bytes.length ≤ t.conn.maxReadBuffer) :
    ∃ cmds fin, Reads RespParser.move t.conn.parser (t.conn.inBuf ++ bytes) cmds fin ∧
      (t.step (.onBytes bytes envs)).commands = t.commands ++ cmds ∧
      (t.step (.onBytes bytes envs)).Told fin.error ∧
      ∀ q rest, fin = .waits q rest →
        (t.step (.onBytes bytes envs)).conn.parser = q ∧
        (t.step (.onBytes bytes envs)).conn.inBuf = rest ∧
        (t.step (.onBytes bytes envs)).conn.maxReadBuffer = t.conn.maxReadBuffer := by
  have hopen : ¬t.conn.closing = true := by rw [h.closing]; decide
  obtain ⟨fin, hreads, hbecame⟩ := Connection.drain_reads
    ((t.conn.inBuf ++ bytes).length + 1) envs { t.conn with inBuf := t.conn.inBuf ++ bytes }
    t.store (Nat.lt_succ_self _)
  rw [step]
  unfold Connection.onBytes
  rw [if_neg hopen, if_neg (Nat.not_lt.mpr hroom)]
  refine ⟨_, fin, hreads, rfl, ?_, ?_⟩
  · cases fin with
    | waits parser inBuf =>
        refine h.more ?_ ?_ ?_ (fun _ he => (by cases he))
        · rw [hbecame]
        · rw [hbecame]
          exact congrArg _ (List.append_nil _).symm
        · rw [hbecame]
          exact h.closing
    | failed e =>
        obtain ⟨hknown, hclosing, hpos, hout⟩ := hbecame
        refine h.more hpos hout hclosing ?_
        rintro _ ⟨⟩
        exact List.mem_cons_of_mem _ hknown
  · rintro q rest rfl
    exact ⟨by rw [hbecame], by rw [hbecame], by rw [hbecame]⟩

theorem Told.consumeOutput (h : t.Told error) {n : Nat} (hn : n ≤ t.conn.pendingOutput.length) :
    (t.step (.consumeOutput n)).Told error := by
  obtain ⟨hpending, hplaced⟩ := consumeOutput_spec h.placed hn
  obtain ⟨_, _, hclosing, _⟩ := t.conn.consumeOutput_input n
  refine ⟨?_, hclosing.trans h.closing, hplaced, h.known⟩
  have hsaid := h.said
  unfold Session.said at hsaid ⊢
  show t.taken ++ t.conn.pendingOutput.take n ++ (t.conn.consumeOutput n).pendingOutput = _
  rw [hpending, List.append_assoc, List.take_append_drop]
  exact hsaid

/-- One call keeps what was said in order, and adds nothing to the last word. -/
theorem Told.step (h : t.Told error) (call : ConnCall) (hcall : t.Valid [call]) :
    ∃ error', (t.step call).Told error' ∧
      (error.isSome = true → error' = error ∧ (t.step call).commands = t.commands ∧
        (t.step call).replies = t.replies) := by
  cases call with
  | consumeOutput n => exact ⟨error, h.consumeOutput hcall.1, fun _ => ⟨rfl, rfl, rfl⟩⟩
  | onBytes bytes envs =>
      cases error with
      | some e =>
          rw [h.onBytes_closing]
          exact ⟨some e, h, fun _ => ⟨rfl, rfl, rfl⟩⟩
      | none =>
          by_cases hroom : t.conn.inBuf.length + bytes.length ≤ t.conn.maxReadBuffer
          · obtain ⟨_, fin, _, _, htold, _⟩ := h.onBytes envs hroom
            exact ⟨_, htold, fun hsome => (by cases hsome)⟩
          · exact ⟨_, h.onBytes_large (Nat.lt_of_not_le hroom), fun hsome => (by cases hsome)⟩

theorem Valid.cons {call : ConnCall} {calls : List ConnCall} (h : t.Valid (call :: calls)) :
    t.Valid [call] ∧ (t.step call).Valid calls := by
  cases call with
  | onBytes bytes envs => exact ⟨trivial, h⟩
  | consumeOutput n => exact ⟨⟨h.1, trivial⟩, h.2⟩

theorem Told.run (calls : List ConnCall) :
    ∀ {t : Session} {error : Option Bytes}, t.Told error → t.Valid calls →
      ∃ error', (t.run calls).Told error' ∧
        (error.isSome = true → error' = error ∧ (t.run calls).commands = t.commands ∧
          (t.run calls).replies = t.replies) := by
  induction calls with
  | nil => exact fun h _ => ⟨_, h, fun _ => ⟨rfl, rfl, rfl⟩⟩
  | cons call calls ih =>
      intro t error h hvalid
      obtain ⟨hcall, hcalls⟩ := hvalid.cons
      obtain ⟨error₁, h₁, hlast₁⟩ := h.step call hcall
      obtain ⟨error₂, h₂, hlast₂⟩ := ih h₁ hcalls
      refine ⟨error₂, h₂, fun hsome => ?_⟩
      obtain ⟨rfl, hcmds₁, hreplies₁⟩ := hlast₁ hsome
      obtain ⟨rfl, hcmds₂, hreplies₂⟩ := hlast₂ hsome
      exact ⟨rfl, hcmds₂.trans hcmds₁, hreplies₂.trans hreplies₁⟩

/-- Nothing the client is told is lost, said twice or out of order, whatever
the pieces it leaves in, and nothing is said behind the error that closes. -/
structure InOrder (t : Session) : Prop where
  waiting : t.conn.closing = false → t.said = t.replies.flatten
  closed : t.conn.closing = true →
    ∃ msg : LineText, t.said = t.replies.flatten ++ (RespValue.error msg).encode
  final : t.conn.closing = true → ∀ calls, t.Valid calls →
    (t.run calls).commands = t.commands ∧ (t.run calls).said = t.said
  drained : t.conn.shouldClose = true ↔ t.conn.closing = true ∧ t.taken = t.said

theorem oneLine_errors : ∀ e ∈ Connection.errors, OneLine (text "ERR " ++ e) := by decide +kernel

theorem Told.inOrder (h : t.Told error) : t.InOrder := by
  have hdrained : t.conn.shouldClose = true ↔ t.conn.closing = true ∧ t.taken = t.said := by
    unfold Connection.shouldClose Connection.hasPendingOutput Session.said
    rw [Bool.and_eq_true, Bool.not_not, List.isEmpty_iff, List.self_eq_append_right]
  cases error with
  | none =>
      have hopen : t.conn.closing = false := h.closing
      refine ⟨fun _ => h.said.trans (List.append_nil _), fun hc => ?_, fun hc => ?_, hdrained⟩
      · rw [hopen] at hc; cases hc
      · rw [hopen] at hc; cases hc
  | some e =>
      have hclosing : t.conn.closing = true := h.closing
      refine ⟨fun hc => ?_, fun _ => ⟨⟨_, oneLine_errors e (h.known e rfl)⟩, ?_⟩,
        fun _ calls hcalls => ?_, hdrained⟩
      · rw [hclosing] at hc; cases hc
      · rw [h.said, lastWord, RespValue.encode, errorReply, List.append_assoc (text "-")]
        rfl
      · obtain ⟨error', hrun, hlast⟩ := h.run calls hcalls
        obtain ⟨rfl, hcmds, hreplies⟩ := hlast rfl
        exact ⟨hcmds, by rw [hrun.said, h.said, hreplies]⟩

/-! ## What was read -/

/-- A session executes what the parser delivers from the pieces, and ends as
the parser does. -/
theorem run_feeds (calls : List ConnCall) :
    ∀ {t : Session}, t.Told none → t.Valid calls →
      t.conn.inBuf.length + (ConnCall.chunks calls).flatten.length ≤ t.conn.maxReadBuffer →
      ∃ cmds error, Feeds RespParser.move t.conn.parser t.conn.inBuf (ConnCall.chunks calls) cmds
          error ∧
        (t.run calls).commands = t.commands ++ cmds ∧ (t.run calls).Told error := by
  induction calls with
  | nil => exact fun h _ _ => ⟨[], none, .done _ _, (List.append_nil _).symm, h⟩
  | cons call calls ih =>
      intro t h hvalid hroom
      obtain ⟨hcall, hcalls⟩ := hvalid.cons
      cases call with
      | consumeOutput n =>
          obtain ⟨hparser, hbuf, _, hcap⟩ := t.conn.consumeOutput_input n
          have hih := ih (h.consumeOutput hcall.1) hcalls
          simp only [step, hparser, hbuf, hcap] at hih
          exact hih hroom
      | onBytes bytes envs =>
          rw [show ConnCall.chunks (.onBytes bytes envs :: calls) =
            bytes :: ConnCall.chunks calls from rfl] at hroom ⊢
          rw [List.flatten_cons, List.length_append] at hroom
          have hfits : t.conn.inBuf.length + bytes.length ≤ t.conn.maxReadBuffer := by omega
          obtain ⟨cmds, fin, hreads, hcmds, htold, hwaits⟩ := h.onBytes envs hfits
          cases fin with
          | failed e =>
              -- closing: the calls that follow execute nothing
              obtain ⟨error, hrun, hlast⟩ := htold.run calls hcalls
              obtain ⟨rfl, hsame, _⟩ := hlast rfl
              exact ⟨cmds, some e, .failed hreads _, hsame.trans hcmds, hrun⟩
          | waits q rest =>
              obtain ⟨hparser, hbuf, hcap⟩ := hwaits q rest rfl
              have hle := hreads.rest_le
              rw [List.length_append] at hle
              obtain ⟨cmds', error, hfeeds, hrest, hrun⟩ := ih htold hcalls
                (by rw [hbuf, hcap]; omega)
              rw [hparser, hbuf] at hfeeds
              refine ⟨cmds ++ cmds', error, .more hreads hfeeds, ?_, hrun⟩
              rw [← List.append_assoc, ← hcmds]
              exact hrest

end Session

/-- Whatever is read and whatever is taken, in any order: the client is told
the replies of the commands executed and, at the end, one error. -/
theorem replies_in_order (cap : Nat) (s : Store) (calls : List ConnCall)
    (h : (Session.start cap s).Valid calls) : ((Session.start cap s).run calls).InOrder := by
  obtain ⟨_, htold, _⟩ := (Session.told_start cap s).run calls h
  exact htold.inOrder

/-- However a stream of requests is cut, and whenever the output is taken, the
same commands are executed, and the connection ends alike: it waits for more,
or it closes with the same error behind the replies. -/
theorem chunking_irrelevant (cap : Nat) (s s' : Store) (calls calls' : List ConnCall)
    (hvalid : (Session.start cap s).Valid calls) (hvalid' : (Session.start cap s').Valid calls')
    (hsame : (ConnCall.chunks calls).flatten = (ConnCall.chunks calls').flatten)
    (hroom : (ConnCall.chunks calls).flatten.length ≤ cap)
    (hlines : RespParser.ShortLines (ConnCall.chunks calls).flatten) :
    ((Session.start cap s).run calls).commands = ((Session.start cap s').run calls').commands ∧
      ∃ error : Option Bytes,
        ((Session.start cap s).run calls).conn.closing = error.isSome ∧
        ((Session.start cap s').run calls').conn.closing = error.isSome ∧
        ((Session.start cap s).run calls).said =
          ((Session.start cap s).run calls).replies.flatten ++ Connection.lastWord error ∧
        ((Session.start cap s').run calls').said =
          ((Session.start cap s').run calls').replies.flatten ++ Connection.lastWord error := by
  have hwaits : RespParser.move {} [] = .wait {} 0 := rfl
  obtain ⟨cmds, error, hfeeds, hcmds, htold⟩ := Session.run_feeds calls
    (Session.told_start cap s) hvalid (by rw [Nat.add_comm]; exact hroom)
  obtain ⟨cmds', error', hfeeds', hcmds', htold'⟩ := Session.run_feeds calls'
    (Session.told_start cap s') hvalid' (by rw [Nat.add_comm, ← hsame]; exact hroom)
  obtain ⟨rfl, rfl⟩ := hfeeds.unique RespParser.resumable hfeeds' hsame hwaits hlines
  exact ⟨hcmds.trans hcmds'.symm, error, htold.closing, htold'.closing, htold.said, htold'.said⟩

/-- Two requests, the second broken. -/
def pingThenNoise : List ConnCall :=
  [.onBytes (text "*1\r\n$4\r\nPING\r\n*x\r\n") fun _ => {}]

/-- The same cut inside a payload and between CR and LF, part of the reply
being sent in between. -/
def pingThenNoiseInPieces : List ConnCall := [
  .onBytes (text "*1\r\n$4\r\nPI") fun _ => {},
  .onBytes (text "NG\r\n*x\r") fun _ => {},
  .consumeOutput 3,
  .onBytes (text "\n") fun _ => {}]

theorem replies_in_order_pieces : ((Session.start 100 {}).run pingThenNoiseInPieces).InOrder :=
  replies_in_order 100 {} pingThenNoiseInPieces ⟨by decide +kernel, trivial⟩

theorem chunking_irrelevant_pieces :
    ((Session.start 100 {}).run pingThenNoise).commands =
      ((Session.start 100 {}).run pingThenNoiseInPieces).commands :=
  (chunking_irrelevant 100 {} {} pingThenNoise pingThenNoiseInPieces trivial
    ⟨by decide +kernel, trivial⟩ (by decide +kernel) (by decide +kernel)
    (RespParser.shortLines_of_length (by decide +kernel))).1

end Cachedb
