import Cachedb.Lib.Potential
import Cachedb.Proofs.Clients

/-!
# Partial writes do not copy over and over

A socket takes the output of a connection in pieces. The bytes it took stay in
front of the output, behind an offset, until they are at least half of it and
many; only then the rest is moved to the front. Each byte that is moved is paid
for by a byte that was taken since the last move, so a client that reads a few
bytes at a time does not make the server copy a long reply again and again. And
what is kept of bytes already taken is never more than a fixed amount or than
what is still to go out.
-/

namespace Cachedb

open Potential

/-- The bytes `consume_output` moves to the front of its buffer. -/
def Connection.moved (c : Connection) (n : Nat) : Nat :=
  let outPos := c.outPos + n
  if outPos = c.out.length then 0
  else if kCompactThreshold ≤ outPos ∧ c.out.length ≤ outPos * 2 then c.out.length - outPos
  else 0

namespace Session

/-- The bytes of output a call moves. -/
def moved (t : Session) : ConnCall → Nat
  | .onBytes _ _ => 0
  | .consumeOutput n => t.conn.moved n

/-- The bytes the socket takes with a call. -/
def takes (_ : Session) : ConnCall → Nat
  | .onBytes _ _ => 0
  | .consumeOutput n => n

/-- A call that consumes no more than there is. -/
def Allows (t : Session) : ConnCall → Prop
  | .onBytes _ _ => True
  | .consumeOutput n => n ≤ t.conn.pendingOutput.length

theorem along_iff (calls : List ConnCall) :
    ∀ t : Session, Along step Allows t calls ↔ t.Valid calls := by
  induction calls with
  | nil => exact fun _ => Iff.rfl
  | cons call calls ih =>
      intro t
      cases call with
      | onBytes bytes envs => simp [Along, Allows, Valid, ih]
      | consumeOutput n => simp [Along, Allows, Valid, ih]

/-- What was taken is at the front of the output, and is either little or less
than what follows. An open connection has read all but a line. -/
structure Trim (t : Session) : Prop where
  placed : t.conn.outPos ≤ t.conn.out.length
  little : t.conn.outPos < Connection.kCompactThreshold ∨
    t.conn.outPos < t.conn.pendingOutput.length
  read : t.conn.closing = false → t.conn.inBuf.length ≤ RespParser.kMaxLineLen

end Session

/-- Reading puts something behind the output, and leaves a line at most. -/
theorem Connection.onBytes_appends (c : Connection) (bytes : Bytes) (s : Store)
    (envs : Nat → Env) :
    (c.onBytes bytes s envs).conn.outPos = c.outPos ∧
      (∃ data, (c.onBytes bytes s envs).conn.out = c.out ++ data) ∧
      ((c.onBytes bytes s envs).conn.closing = false →
        (c.onBytes bytes s envs).conn.inBuf.length ≤ RespParser.kMaxLineLen) := by
  rw [Connection.onBytes]
  split
  · next hclosing =>
      refine ⟨rfl, ⟨[], (List.append_nil _).symm⟩, fun hopen => ?_⟩
      rw [hclosing] at hopen
      cases hopen
  · split
    · exact ⟨rfl, ⟨_, rfl⟩, fun hopen => by cases hopen⟩
    · obtain ⟨fin, hreads, hbecame⟩ := Connection.drain_reads ((c.inBuf ++ bytes).length + 1)
        envs { c with inBuf := c.inBuf ++ bytes } s (Nat.lt_succ_self _)
      dsimp only
      generalize Connection.drain envs ((c.inBuf ++ bytes).length + 1)
        { c with inBuf := c.inBuf ++ bytes } s = fed at hreads hbecame
      cases fin with
      | waits parser unread =>
          rw [Connection.Became] at hbecame
          rw [hbecame]
          exact ⟨rfl, ⟨_, rfl⟩, fun _ => RespParser.reads_left hreads rfl⟩
      | failed error =>
          obtain ⟨_, hclosed, hpos, hout⟩ := hbecame
          refine ⟨hpos, ⟨_, hout⟩, fun hopen => ?_⟩
          rw [hclosed] at hopen
          cases hopen

namespace Session

variable {t : Session}

theorem Trim.start (cap : Nat) (s : Store) : (start cap s).Trim :=
  ⟨Nat.le_refl _, Or.inl (show 0 < 64 * 1024 by decide), fun _ => Nat.zero_le _⟩

theorem Trim.onBytes (h : t.Trim) (bytes : Bytes) (envs : Nat → Env) :
    (t.step (.onBytes bytes envs)).Trim := by
  obtain ⟨hpos, ⟨data, hout⟩, hread⟩ := t.conn.onBytes_appends bytes t.store envs
  have hpending := Connection.pendingOutput_append h.placed hpos hout
  refine ⟨?_, ?_, hread⟩
  · show (t.conn.onBytes bytes t.store envs).conn.outPos ≤ _
    rw [hpos]
    exact Nat.le_trans h.placed (by simp [step, hout])
  · show (t.conn.onBytes bytes t.store envs).conn.outPos < _ ∨
      (t.conn.onBytes bytes t.store envs).conn.outPos <
        (t.conn.onBytes bytes t.store envs).conn.pendingOutput.length
    rw [hpos, hpending, List.length_append]
    exact h.little.imp id fun hlt => Nat.lt_add_right _ hlt

theorem Trim.consumeOutput (h : t.Trim) {n : Nat} (hn : n ≤ t.conn.pendingOutput.length) :
    (t.step (.consumeOutput n)).Trim := by
  obtain ⟨_, hplaced⟩ := Connection.consumeOutput_spec h.placed hn
  obtain ⟨_, hbuf, hclosing, _⟩ := t.conn.consumeOutput_input n
  refine ⟨hplaced, ?_, fun hopen => ?_⟩
  · show (t.conn.consumeOutput n).outPos < _ ∨ (t.conn.consumeOutput n).outPos <
      (t.conn.consumeOutput n).pendingOutput.length
    rw [Connection.pendingOutput, List.length_drop] at hn ⊢
    have hthreshold : 0 < Connection.kCompactThreshold := by decide
    unfold Connection.consumeOutput
    dsimp only
    split
    · exact Or.inl hthreshold
    · split
      · exact Or.inl hthreshold
      · next hpart hkeep =>
          dsimp only
          omega
  · show (t.conn.consumeOutput n).inBuf.length ≤ _
    rw [hbuf]
    exact h.read (hclosing.symm.trans hopen)

theorem Trim.step (h : t.Trim) {call : ConnCall} (hcall : t.Allows call) :
    (t.step call).Trim := by
  cases call with
  | onBytes bytes envs => exact h.onBytes bytes envs
  | consumeOutput n => exact h.consumeOutput hcall

/-- A move is paid for by what was taken since the last one. -/
theorem moved_paid (t : Session) (call : ConnCall) :
    t.moved call + (t.step call).conn.outPos ≤ t.conn.outPos + t.takes call := by
  cases call with
  | onBytes bytes envs =>
      obtain ⟨hpos, _⟩ := t.conn.onBytes_appends bytes t.store envs
      rw [moved, takes, Nat.zero_add]
      exact Nat.le_of_eq hpos
  | consumeOutput n =>
      show t.conn.moved n + (t.conn.consumeOutput n).outPos ≤ t.conn.outPos + n
      unfold Connection.moved Connection.consumeOutput
      dsimp only
      split
      · dsimp only
        omega
      · split
        · dsimp only
          omega
        · dsimp only
          omega

/-- Everything that was to be taken was there. -/
theorem total_takes (calls : List ConnCall) : ∀ {t : Session}, t.Trim → t.Valid calls →
    t.taken.length + total Session.step takes t calls = (t.run calls).taken.length := by
  induction calls with
  | nil => exact fun _ _ => rfl
  | cons call calls ih =>
      intro t h hvalid
      cases call with
      | onBytes bytes envs =>
          rw [total, takes, Nat.zero_add]
          exact ih (h.onBytes bytes envs) hvalid
      | consumeOutput n =>
          have hrest := ih (h.consumeOutput hvalid.1) hvalid.2
          have htaken : (t.step (.consumeOutput n)).taken.length = t.taken.length + n := by
            show (t.taken ++ t.conn.pendingOutput.take n).length = _
            rw [List.length_append, List.length_take, Nat.min_eq_left hvalid.1]
          rw [total, takes, ← Nat.add_assoc, ← htaken]
          exact hrest

end Session

/-- Whatever a client sends, and in whatever pieces the socket takes what it is
told: the output bytes a connection ever moves are no more than those the
socket has taken. At any time the bytes kept though they were taken are fewer
than 64 KB, or fewer than those that are still to go, and while the connection
is open what it holds unread is one line at most. -/
theorem output_moved_once (cap : Nat) (s : Store) (calls : List ConnCall)
    (h : (Session.start cap s).Valid calls) :
    let t := (Session.start cap s).run calls
    total Session.step Session.moved (Session.start cap s) calls ≤ t.taken.length ∧
      (t.conn.outPos < Connection.kCompactThreshold ∨
        t.conn.outPos < t.conn.pendingOutput.length) ∧
      (t.conn.closing = false → t.conn.inBuf.length ≤ RespParser.kMaxLineLen) := by
  have hstart := Session.Trim.start cap s
  have hstep : ∀ (t : Session) call, t.Trim → t.Allows call → (t.step call).Trim :=
    fun _ _ h hcall => h.step hcall
  obtain ⟨hlast, hpaid⟩ := amortized Session.moved Session.takes (fun t => t.conn.outPos) hstep
    (fun t call _ _ => t.moved_paid call) calls hstart ((Session.along_iff calls _).mpr h)
  have htaken := Session.total_takes calls hstart h
  have hzero : (Session.start cap s).taken.length = 0 ∧ (Session.start cap s).conn.outPos = 0 :=
    ⟨rfl, rfl⟩
  refine ⟨?_, hlast.little, hlast.read⟩
  rw [Session.run] at htaken ⊢
  omega

/-- A reply is taken in two pieces. -/
theorem output_moved_once_pieces :
    let calls : List ConnCall :=
      [.onBytes (text "PING\r\n") fun _ => {}, .consumeOutput 3, .consumeOutput 4]
    ((Session.start 100 {}).run calls).taken = text "+PONG\r\n" ∧
      total Session.step Session.moved (Session.start 100 {}) calls ≤ 7 := by
  intro calls
  have hvalid : (Session.start 100 {}).Valid calls :=
    ⟨by decide +kernel, by decide +kernel, trivial⟩
  have htaken : ((Session.start 100 {}).run calls).taken = text "+PONG\r\n" := by decide +kernel
  have hmoved := (output_moved_once 100 {} calls hvalid).1
  rw [htaken] at hmoved
  exact ⟨htaken, hmoved⟩

end Cachedb
