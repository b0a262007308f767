import Cachedb.Proofs.Sessions

/-!
# What an unfinished request holds

`on_bytes` compares the read buffer with the cap. The bytes of a payload do
not stay in the read buffer: the parser moves them into the pending command as
they come, and there nobody counts them. So a client may send a payload in
pieces that each fit the read buffer and make the connection hold any number
of them (`payload_not_counted`).

What a connection holds grows by no more than what it is given (`reads_held`).
Where every chunk that is let into the read buffer would also be let in if the
pending arguments were counted, the cap holds for both together
(`held_within_cap`).
-/

namespace Cachedb

open Resume

namespace RespParser

/-- The bytes of the arguments moved into the pending command. -/
def pendingBytes (p : RespParser) : Nat := (p.pending.map List.length).sum

theorem pendingBytes_absorb {p : RespParser} (h : p.pending ≠ []) (data : Bytes) :
    (p.absorb data).pendingBytes = p.pendingBytes + data.length := by
  obtain ⟨args, arg, hargs⟩ := (List.eq_nil_or_concat p.pending).resolve_left h
  unfold pendingBytes absorb
  rw [hargs, List.concat_eq_append, appendBack_append]
  simp only [List.map_append, List.map_cons, List.map_nil, List.sum_append, List.sum_singleton,
    List.length_append]
  omega

theorem pendingBytes_absorb_le (p : RespParser) (data : Bytes) :
    (p.absorb data).pendingBytes ≤ p.pendingBytes + data.length := by
  by_cases h : p.pending = []
  · unfold pendingBytes absorb
    rw [h]
    exact Nat.zero_le _
  · exact Nat.le_of_eq (pendingBytes_absorb h data)

theorem pendingBytes_reset {p : RespParser} (hs : p.state ≠ .failed) :
    p.reset.pendingBytes = 0 := by
  unfold reset
  rw [if_neg hs]
  rfl

/-- A turn moves bytes into the pending command only as it absorbs them, and
with a command the pending arguments are gone. -/
def Moves (p : RespParser) : Move RespParser Command Bytes → Prop
  | .wait q n => q.pendingBytes ≤ p.pendingBytes + n
  | .skip q n => q.pendingBytes ≤ p.pendingBytes + n
  | .emit q _ _ => q.pendingBytes = 0
  | .fail _ => True

theorem move_moves (p : RespParser) (rest : Bytes) : p.Moves (p.move rest) := by
  have hstep := p.move_step rest
  generalize p.move rest = m at hstep
  have hreset : ∀ {q : RespParser} {n : Nat}, q.state ≠ .failed →
      q.reset.pendingBytes ≤ p.pendingBytes + n := by
    intro q n hs
    rw [pendingBytes_reset hs]
    exact Nat.zero_le _
  cases hstep with
  | framingLost | tooLong | badCount | noDollar | badLength | noEnd => trivial
  | nothing | unended | endAwaited => exact Nat.le_refl _
  | star | plain | count | nextArg => exact Nat.le_add_right _ _
  | length =>
      show (((p.pending ++ [[]]).map List.length).sum) ≤ p.pendingBytes + _
      rw [List.map_append, List.sum_append]
      exact Nat.le_add_right _ _
  | piece => exact p.pendingBytes_absorb_le rest
  | payload hs hle =>
      have := p.pendingBytes_absorb_le (rest.take p.bulkRemaining)
      rwa [List.length_take_of_le hle] at this
  | noArgs hs => exact hreset (by rw [hs]; decide)
  | blank hs => exact hreset (by rw [hs]; decide)
  | lastArg hs => exact pendingBytes_reset (by rw [hs]; decide)
  | inline hs => exact pendingBytes_reset (by rw [hs]; decide)

/-- What a parser holds after it has read: no more than it held, and what it
was given. -/
theorem reads_held {p q : RespParser} {inp rest : Bytes} {cmds : List Command}
    {fin : End RespParser UInt8 Bytes} (h : Reads move p inp cmds fin)
    (hfin : fin = .waits q rest) :
    rest.length + q.pendingBytes ≤ inp.length + p.pendingBytes := by
  induction h with
  | @wait p t inp n hm =>
      cases hfin
      have hmoves := p.move_moves inp
      have hturn := p.move_turn inp
      rw [hm] at hmoves hturn
      have hmoves : q.pendingBytes ≤ p.pendingBytes + n := hmoves
      rw [List.length_drop]
      cases hturn <;> omega
  | fail => cases hfin
  | @skip p t inp n _ _ hm _ ih =>
      have hmoves := p.move_moves inp
      have hturn := p.move_turn inp
      rw [hm] at hmoves hturn
      have hmoves : t.pendingBytes ≤ p.pendingBytes + n := hmoves
      have := ih hfin
      rw [List.length_drop] at this
      cases hturn
      omega
  | @emit p t inp n _ _ _ hm _ ih =>
      have hmoves := p.move_moves inp
      rw [hm] at hmoves
      have hmoves : t.pendingBytes = 0 := hmoves
      have := ih hfin
      rw [List.length_drop] at this
      omega

end RespParser

namespace Connection

/-- The bytes held for the request that is not complete yet. -/
def held (c : Connection) : Nat := c.inBuf.length + c.parser.pendingBytes

/-- The connection is closing, or it holds no more than it may. -/
def Within (c : Connection) (cap : Nat) : Prop :=
  c.closing = true ∨ c.maxReadBuffer = cap ∧ c.held ≤ cap

/-- A chunk that the check of `on_bytes` lets in would be let in if the pending
arguments were counted, too. -/
def Counts (c : Connection) (bytes : Bytes) : Prop :=
  c.inBuf.length + bytes.length ≤ c.maxReadBuffer → c.held + bytes.length ≤ c.maxReadBuffer

theorem Within.onBytes {c : Connection} {cap : Nat} (h : c.Within cap) {bytes : Bytes}
    (hcounts : c.Counts bytes) (s : Store) (envs : Nat → Env) :
    (c.onBytes bytes s envs).conn.Within cap := by
  unfold Connection.onBytes
  by_cases hclosing : c.closing = true
  · rw [if_pos hclosing]
    exact .inl hclosing
  · obtain ⟨hcap, hheld⟩ := h.resolve_left hclosing
    by_cases hlarge : c.maxReadBuffer < c.inBuf.length + bytes.length
    · rw [if_neg hclosing, if_pos hlarge]
      exact .inl rfl
    · rw [if_neg hclosing, if_neg hlarge]
      obtain ⟨fin, hreads, hbecame⟩ := drain_reads ((c.inBuf ++ bytes).length + 1) envs
        { c with inBuf := c.inBuf ++ bytes } s (Nat.lt_succ_self _)
      cases fin with
      | failed error => exact .inl hbecame.2.1
      | waits q rest =>
          refine .inr ?_
          have hroom := hcounts (Nat.le_of_not_lt hlarge)
          have hread := RespParser.reads_held hreads rfl
          rw [show (drain _ _ _ _).conn = _ from hbecame]
          refine ⟨hcap, ?_⟩
          unfold held at hroom ⊢
          simp only [List.length_append] at hread ⊢
          omega

/-- In a payload this is exact: what comes is held. -/
theorem payload_within_iff {c : Connection} {bytes : Bytes} (hopen : c.closing = false)
    (hs : c.parser.state = .readingBulkBody) (hpending : c.parser.pending ≠ [])
    (hlt : (c.inBuf ++ bytes).length < c.parser.bulkRemaining) (s : Store) (envs : Nat → Env) :
    (c.onBytes bytes s envs).conn.Within c.maxReadBuffer ↔ c.Counts bytes := by
  by_cases hlarge : c.maxReadBuffer < c.inBuf.length + bytes.length
  · refine iff_of_true ?_ fun h => absurd hlarge (Nat.not_lt.mpr h)
    unfold Connection.onBytes
    rw [if_neg (by rw [hopen]; decide), if_pos hlarge]
    exact .inl rfl
  · have hmove := RespParser.move_body hs (c.inBuf ++ bytes)
    rw [if_pos hlt] at hmove
    obtain ⟨fin, hreads, hbecame⟩ := drain_reads ((c.inBuf ++ bytes).length + 1) envs
      { c with inBuf := c.inBuf ++ bytes } s (Nat.lt_succ_self _)
    obtain ⟨_, rfl⟩ := hreads.unique (.wait hmove)
    rw [List.drop_length] at hbecame
    have hheld := RespParser.pendingBytes_absorb hpending (c.inBuf ++ bytes)
    rw [List.length_append] at hheld
    unfold Connection.onBytes
    rw [if_neg (by rw [hopen]; decide), if_neg hlarge,
      show (drain _ _ _ _).conn = _ from hbecame]
    unfold Within Counts held
    simp only [hopen, hheld, List.length_nil, true_and, reduceCtorEq, false_or]
    omega

theorem Within.consumeOutput {c : Connection} {cap : Nat} (h : c.Within cap) (n : Nat) :
    (c.consumeOutput n).Within cap := by
  obtain ⟨hparser, hbuf, hclosing, hmax⟩ := c.consumeOutput_input n
  unfold Within held
  rw [hparser, hbuf, hclosing, hmax]
  exact h

end Connection

namespace Session

/-- Every chunk of a run is counted with the pending arguments. -/
def AllCount (t : Session) : List ConnCall → Prop
  | [] => True
  | .onBytes bytes envs :: calls =>
      t.conn.Counts bytes ∧ (t.step (.onBytes bytes envs)).AllCount calls
  | .consumeOutput n :: calls => (t.step (.consumeOutput n)).AllCount calls

theorem within_run {cap : Nat} (begun : List ConnCall) : ∀ {t : Session} {later : List ConnCall},
    t.conn.Within cap → t.AllCount (begun ++ later) → (t.run begun).conn.Within cap := by
  induction begun with
  | nil => exact fun h _ => h
  | cons call begun ih =>
      intro t later h hcount
      cases call with
      | onBytes bytes envs => exact ih (h.onBytes hcount.1 t.store envs) hcount.2
      | consumeOutput n => exact ih (h.consumeOutput n) hcount

end Session

/-- In a run whose chunks are all counted with the pending arguments, a
connection that is not closing never holds more than its cap. -/
theorem held_within_cap (cap : Nat) (s : Store) (begun later : List ConnCall)
    (h : (Session.start cap s).AllCount (begun ++ later)) :
    ((Session.start cap s).run begun).conn.closing = true ∨
      ((Session.start cap s).run begun).conn.held ≤ cap := by
  have hstart : (Session.start cap s).conn.Within cap := .inr ⟨rfl, Nat.zero_le _⟩
  exact (Session.within_run begun hstart h).imp_right And.right

/-- The header of a request with one argument of 99 bytes, and the beginning of
the argument in pieces of the given lengths. -/
def payloadPieces (lengths : List Nat) : List ConnCall :=
  .onBytes (text "*1\r\n$99\r\n") (fun _ => {}) ::
    lengths.map fun n => .onBytes (List.replicate n 120) fun _ => {}

theorem held_within_cap_pieces :
    ((Session.start 16 {}).run (payloadPieces [12, 4])).conn.closing = true ∨
      ((Session.start 16 {}).run (payloadPieces [12, 4])).conn.held ≤ 16 :=
  held_within_cap 16 {} (payloadPieces [12, 4]) []
    ⟨fun _ => (by decide +kernel), fun _ => (by decide +kernel), fun _ => (by decide +kernel),
      trivial⟩

/-- With a cap of 16 bytes the connection takes two pieces of 12 bytes, holds
them both, and goes on. -/
theorem payload_not_counted :
    ((Session.start 16 {}).run (payloadPieces [12, 12])).conn.closing = false ∧
      ((Session.start 16 {}).run (payloadPieces [12, 12])).conn.held = 24 := by
  decide +kernel

end Cachedb
