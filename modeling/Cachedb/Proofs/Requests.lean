import Cachedb.Proofs.Loop
import Cachedb.Proofs.Parsing

/-!
# What a client can ask for

The file formats give a key or a value 32 bits for its length, and nothing
behind the parser checks that. It is the parser and the connection that keep
longer arguments out: a bulk string declares its length and is refused above
`kMaxBulkLen`, and an inline request has to fit the read buffer. The invariant
is one of the parser between two reads, since a bulk string may arrive in any
number of pieces; `Server.run_fits` is what it comes to for whole runs.
-/

namespace Cachedb

namespace RespParser

/-- What is parsed so far is short, and the bulk string under way will be. -/
structure Bounded (p : RespParser) : Prop where
  fits : p.pending.Fits
  body : p.state = .readingBulkBody →
    ∃ args arg, p.pending = args ++ [arg] ∧ arg.length + p.bulkRemaining < 2 ^ 32

def Round.Bounded : Round → Prop
  | .again p _ => RespParser.Bounded p
  | .done p _ command => RespParser.Bounded p ∧ ∀ cmd, command = some cmd → Command.Fits cmd

theorem fits_nil : Command.Fits [] := fun _ h => absurd h List.not_mem_nil

theorem bounded_start : Bounded {} := ⟨fits_nil, nofun⟩

/-- Outside a bulk string only the arguments matter. -/
theorem Bounded.of_fits {p : RespParser} (h : p.pending.Fits)
    (hstate : p.state ≠ .readingBulkBody) : p.Bounded :=
  ⟨h, fun hbody => absurd hbody hstate⟩

theorem Bounded.reset {p : RespParser} (h : p.Bounded) : p.reset.Bounded := by
  unfold RespParser.reset
  split
  · exact h
  · exact bounded_start

theorem splitInline_length {arg : Bytes} :
    ∀ (line word : Bytes), arg ∈ splitInline word line →
      arg.length ≤ word.length + line.length := by
  intro line
  induction line with
  | nil =>
      intro word h
      rw [splitInline] at h
      split at h
      · cases h
      · rw [List.mem_singleton.mp h]
        exact Nat.le_add_right _ _
  | cons c line ih =>
      intro word h
      rw [splitInline] at h
      rw [List.length_cons]
      split at h
      · split at h
        · have := ih [] h
          rw [List.length_nil] at this
          omega
        · rcases List.mem_cons.mp h with rfl | h
          · omega
          · have := ih [] h
            rw [List.length_nil] at this
            omega
      · have := ih _ h
        rw [List.length_append, List.length_singleton] at this
        omega

theorem inlineArgs_fits {line : Bytes} (h : line.length < 2 ^ 32) : (inlineArgs line).Fits := by
  intro arg harg
  have hsplit := splitInline_length _ [] harg
  have hcut : (if line.getLast? = some cr then line.dropLast else line).length ≤ line.length := by
    split
    · rw [List.length_dropLast]
      omega
    · exact Nat.le_refl _
  rw [List.length_nil] at hsplit
  omega

/-- What a payload takes it no longer waits for. -/
theorem Bounded.absorb {p : RespParser} (h : p.Bounded) (hs : p.state = .readingBulkBody)
    {data : Bytes} (hdata : data.length ≤ p.bulkRemaining) : (p.absorb data).Bounded := by
  obtain ⟨args, arg, hpending, hlen⟩ := h.body hs
  have htake : (arg ++ data).length + (p.bulkRemaining - data.length) < 2 ^ 32 := by
    rw [List.length_append]
    omega
  have habsorbed : (p.absorb data).pending = args ++ [arg ++ data] := by
    rw [RespParser.absorb, hpending, appendBack_append]
  refine ⟨?_, fun _ => ⟨args, _, habsorbed, htake⟩⟩
  rw [habsorbed]
  intro a ha
  rcases List.mem_append.mp ha with ha | ha
  · exact h.fits a (by rw [hpending]; exact List.mem_append_left _ ha)
  · rw [List.mem_singleton.mp ha]
    omega

/-- One turn of the parser's loop. -/
theorem round_bounded {p : RespParser} (h : p.Bounded) (pos : Nat) (rest : Bytes)
    (hrest : rest.length < 2 ^ 32) : (p.round pos rest).Bounded := by
  have hstep := p.move_step rest
  rw [round_eq]
  generalize p.move rest = m at hstep
  have hinline : ∀ nl, (inlineArgs (rest.take nl)).Fits := fun nl =>
    inlineArgs_fits (by rw [List.length_take]; omega)
  cases hstep with
  | framingLost | tooLong | badCount | noDollar | badLength | noEnd =>
      exact ⟨.of_fits h.fits nofun, nofun⟩
  | nothing | unended | endAwaited => exact ⟨h, nofun⟩
  | star | plain | count | nextArg => exact .of_fits h.fits nofun
  | noArgs => exact h.reset
  | @length line i n hs hline hi hn hpos hmax =>
      refine ⟨?_, fun _ => ⟨p.pending, [], rfl, ?_⟩⟩
      · intro arg harg
        rcases List.mem_append.mp harg with harg | harg
        · exact h.fits arg harg
        · rw [List.mem_singleton.mp harg]
          exact Nat.two_pow_pos 32
      · show 0 + n.toNat < 2 ^ 32
        unfold kMaxBulkLen at hmax
        omega
  | piece hs hlt => exact ⟨h.absorb hs (Nat.le_of_lt hlt), nofun⟩
  | payload hs hle => exact .of_fits (h.absorb hs (List.length_take_le _ _)).fits nofun
  | lastArg hs _ _ _ =>
      have hq : Bounded { p with multibulkRemaining := p.multibulkRemaining - 1 } :=
        .of_fits h.fits (by rw [hs]; nofun)
      exact ⟨hq.reset, fun cmd hcmd => (Option.some.inj hcmd) ▸ h.fits⟩
  | @blank nl hs _ _ =>
      have hq : Bounded { p with pending := inlineArgs (rest.take nl) } :=
        .of_fits (hinline nl) (by rw [hs]; nofun)
      exact hq.reset
  | @inline nl hs _ _ =>
      have hq : Bounded { p with pending := inlineArgs (rest.take nl) } :=
        .of_fits (hinline nl) (by rw [hs]; nofun)
      exact ⟨hq.reset, fun cmd hcmd => (Option.some.inj hcmd) ▸ hinline nl⟩

theorem parse_bounded {p : RespParser} (h : p.Bounded) (inp : Bytes)
    (hinp : inp.length < 2 ^ 32) :
    (p.parse inp).1.Bounded ∧ ∀ cmd, (p.parse inp).2.2 = some cmd → cmd.Fits := by
  refine parse_rule (I := fun p _ => p.Bounded)
    (Q := fun o => o.1.Bounded ∧ ∀ cmd, o.2.2 = some cmd → cmd.Fits) ?_ h
  intro p pos hp
  have hround := round_bounded hp pos (inp.drop pos) (by rw [List.length_drop]; omega)
  cases hr : p.round pos (inp.drop pos) with
  | again q pos' => rwa [hr] at hround
  | done q result command => rwa [hr] at hround

end RespParser

/-! ## Connections -/

/-- The parser is within bounds, and what it is given fits the buffer. -/
structure Connection.Bounded (c : Connection) : Prop where
  parser : c.parser.Bounded
  buffer : c.inBuf.length ≤ c.maxReadBuffer
  limit : c.maxReadBuffer < 2 ^ 32

theorem Connection.bounded_new : Connection.Bounded {} :=
  ⟨RespParser.bounded_start, Nat.zero_le _, by decide⟩

theorem Connection.drain_bounded :
    ∀ (fuel : Nat) (envs : Nat → Env) {c : Connection} (s : Store), c.Bounded →
      (c.drain envs fuel s).conn.Bounded ∧ ∀ cmd ∈ (c.drain envs fuel s).commands, cmd.Fits := by
  intro fuel
  induction fuel with
  | zero => exact fun envs c s h => ⟨h, List.forall_mem_nil _⟩
  | succ fuel ih =>
      intro envs c s h
      obtain ⟨hparser, hcmd⟩ := RespParser.parse_bounded h.parser c.inBuf
        (Nat.lt_of_le_of_lt h.buffer h.limit)
      have hlen : ∀ n, (c.inBuf.drop n).length ≤ c.maxReadBuffer := by
        intro n
        have := h.buffer
        rw [List.length_drop]
        omega
      rw [Connection.drain]
      simp only []
      split
      · next cmd _ heq =>
          obtain ⟨hconn, hcmds⟩ := ih (fun n => envs (n + 1))
            (execute cmd s (envs 0)).store
            (c := { c with
              parser := (c.parser.parse c.inBuf).1
              inBuf := c.inBuf.drop (c.parser.parse c.inBuf).2.1.consumed
              out := c.out ++ (execute cmd s (envs 0)).ret })
            ⟨hparser, hlen _, h.limit⟩
          exact ⟨hconn, List.forall_mem_cons.mpr ⟨hcmd cmd heq, hcmds⟩⟩
      · exact ⟨⟨hparser, hlen _, h.limit⟩, List.forall_mem_nil _⟩
      · exact ⟨⟨hparser, hlen _, h.limit⟩, List.forall_mem_nil _⟩

theorem Connection.onBytes_bounded {c : Connection} (h : c.Bounded) (bytes : Bytes) (s : Store)
    (envs : Nat → Env) :
    (c.onBytes bytes s envs).conn.Bounded ∧
      ∀ cmd ∈ (c.onBytes bytes s envs).commands, cmd.Fits := by
  rw [Connection.onBytes]
  split
  · exact ⟨h, nofun⟩
  · split
    · exact ⟨⟨h.parser, h.buffer, h.limit⟩, nofun⟩
    · next hroom =>
        refine Connection.drain_bounded _ envs s ⟨h.parser, ?_, h.limit⟩
        show (c.inBuf ++ bytes).length ≤ c.maxReadBuffer
        rw [List.length_append]
        omega

/-- What is sent does not change what was read. -/
theorem Connection.consumeOutput_bounded {c : Connection} (h : c.Bounded) (n : Nat) :
    (c.consumeOutput n).Bounded := by
  unfold Connection.consumeOutput
  simp only []
  split
  · exact ⟨h.parser, h.buffer, h.limit⟩
  · split
    · exact ⟨h.parser, h.buffer, h.limit⟩
    · exact ⟨h.parser, h.buffer, h.limit⟩

/-! ## The server -/

def Server.Bounded (s : Server) : Prop :=
  ∀ fd state, s.conns.find fd = some state → state.conn.Bounded

theorem Server.Bounded.service {s : Server} (h : s.Bounded) (fd : Nat) (hungUp : Bool)
    (read : Option Read) (envs : Nat → Env) :
    (s.service fd hungUp read envs).2.server.Bounded ∧
      ∀ cmd ∈ (s.service fd hungUp read envs).2.commands, cmd.Fits := by
  unfold Server.service
  split
  · exact ⟨h, nofun⟩
  · next state hstate =>
      split
      · exact ⟨Server.Every.closeConnection h fd, nofun⟩
      · split
        · exact ⟨h, nofun⟩
        · exact ⟨h, nofun⟩
        · exact ⟨Server.Every.closeConnection h fd, nofun⟩
        · exact ⟨Server.Every.closeConnection h fd, nofun⟩
        · next bytes =>
            obtain ⟨hconn, hcmds⟩ := Connection.onBytes_bounded (h fd state hstate) bytes
              s.engine.store envs
            exact ⟨Server.Every.setConn (s := { s with engine := _ }) h hconn, hcmds⟩

theorem Server.Bounded.serviceAll (ready : List Ready) :
    ∀ {s : Server}, s.Bounded → (s.serviceAll ready).2.server.Bounded ∧
      ∀ cmd ∈ (s.serviceAll ready).2.commands, cmd.Fits := by
  induction ready with
  | nil => exact fun h => ⟨h, nofun⟩
  | cons r ready ih =>
      intro s h
      cases r with
      | listener accepted => exact ih (Server.Every.acceptReady (fun _ => Connection.bounded_new) h)
      | socket fd hungUp read envs =>
          obtain ⟨hs, hcmds⟩ := h.service fd hungUp read envs
          obtain ⟨hs', hcmds'⟩ := ih hs
          exact ⟨hs', List.forall_mem_append.mpr ⟨hcmds, hcmds'⟩⟩

theorem Server.writePending_bounded (fd : Nat) :
    ∀ (sends : List Send) {conn : Connection}, conn.Bounded →
      (Server.writePending fd conn sends).2.1.Bounded := by
  intro sends
  induction sends with
  | nil => exact fun h => h
  | cons send sends ih =>
      intro conn h
      unfold Server.writePending
      split
      · exact h
      · split
        · exact h
        · exact h
        · simp only []
          split
          · exact h
          · exact ih (Connection.consumeOutput_bounded h _)

theorem Server.Bounded.release {s : Server} (h : s.Bounded) (fd : Nat) (sends : List Send)
    (epollCtl : Bool) : (s.release fd sends epollCtl).server.Bounded := by
  unfold Server.release
  split
  · exact h
  · next state hstate =>
      have hconn := Server.writePending_bounded fd sends (h fd state hstate)
      simp only []
      split
      · exact Server.Every.closeConnection h fd
      · refine Server.Every.setConn h ?_
        unfold Server.updateInterest
        simp only []
        split
        · exact hconn
        · exact hconn

theorem Server.Bounded.releaseAll {fds : List Nat} :
    ∀ {s : Server} (sends : Nat → List Send) (epollCtl : Nat → Bool), s.Bounded →
      (s.releaseAll sends epollCtl fds).server.Bounded := by
  induction fds with
  | nil => exact fun _ _ h => h
  | cons fd fds ih => exact fun sends epollCtl h => ih _ _ (h.release fd _ _)

theorem Server.Bounded.iterate {s : Server} (h : s.Bounded) (it : Iteration) :
    (s.iterate it).server.Bounded ∧ ∀ cmd ∈ (s.iterate it).commands, cmd.Fits := by
  obtain ⟨hserved, hcmds⟩ := Server.Bounded.serviceAll it.ready h
  refine ⟨?_, by rw [s.iterate_commands it]; exact hcmds⟩
  rw [Server.iterate]
  simp only []
  split
  · exact hserved
  · exact Server.Bounded.releaseAll it.sends it.epollCtl hserved

/-- Every command a run executes fits the file formats. -/
theorem Server.run_fits (its : List Iteration) :
    ∀ {s : Server}, s.Bounded → ∀ cmd ∈ (s.run its).commands, cmd.Fits := by
  induction its with
  | nil => exact fun _ => nofun
  | cons it its ih =>
      intro s h
      obtain ⟨hs, hcmds⟩ := h.iterate it
      rw [Server.run]
      simp only []
      split
      · exact hcmds
      · exact List.forall_mem_append.mpr ⟨hcmds, ih hs⟩

theorem Outcome.serve_bounded {α : Type} (o : Outcome α) (d : Disk) : (o.serve d).Bounded := by
  intro fd state h
  cases h

end Cachedb
