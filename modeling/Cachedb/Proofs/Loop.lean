import Cachedb.Proofs.Dispatch

/-!
# The loop is a sequence of commands

Many clients are served in one turn, each with bytes cut anywhere, and yet what
the first half of a turn does to the store is to execute some commands one
after the other. `Server.serviceAll_executes` says so, with the commands being
those the turn reports; which bytes they came from does not matter any more.
The second half only sends.

`LoopRule` is the rule for whole runs: what holds of single commands, of the
sync with the sends behind it and of the housekeeping, and can be put end to
end, holds of every run.
-/

namespace Cachedb

/-- The engine after one command. -/
def Engine.command (e : Engine) (cmd : Command) (env : Env) : Engine :=
  { store := (execute cmd e.store env).store
    disk := e.disk.run (execute cmd e.store env).events }

def Engine.commands (e : Engine) : List (Command × Env) → Engine
  | [] => e
  | (cmd, env) :: cs => (e.command cmd env).commands cs

/-- Everything a sequence of commands asks of the directory. -/
def Engine.commandEvents (e : Engine) : List (Command × Env) → List Event
  | [] => []
  | (cmd, env) :: cs =>
      (execute cmd e.store env).events ++ (e.command cmd env).commandEvents cs

/-- From `e` to `e'` by executing `cmds`, in surroundings that are `given`. -/
def Engine.Executes (given : Env → Prop) (e : Engine) (cmds : List Command)
    (events : List Event) (e' : Engine) : Prop :=
  ∃ cs : List (Command × Env), cs.map Prod.fst = cmds ∧ (∀ c ∈ cs, given c.2) ∧
    e.commandEvents cs = events ∧ e.commands cs = e'

variable {given given' : Env → Prop} {e e₁ e₂ : Engine} {cmds cmds' : List Command}
  {events events' : List Event}

theorem Engine.Executes.nil (e : Engine) : e.Executes given [] [] e :=
  ⟨[], rfl, fun _ hc => absurd hc List.not_mem_nil, rfl, rfl⟩

theorem Engine.Executes.cons {cmd : Command} {env : Env} (henv : given env)
    (h : (e.command cmd env).Executes given cmds events e₁) :
    e.Executes given (cmd :: cmds) ((execute cmd e.store env).events ++ events) e₁ := by
  obtain ⟨cs, rfl, hgiven, rfl, rfl⟩ := h
  exact ⟨(cmd, env) :: cs, rfl, List.forall_mem_cons.mpr ⟨henv, hgiven⟩, rfl, rfl⟩

theorem Engine.commands_append (e : Engine) (xs ys : List (Command × Env)) :
    e.commands (xs ++ ys) = (e.commands xs).commands ys := by
  induction xs generalizing e with
  | nil => rfl
  | cons c xs ih => exact ih _

theorem Engine.commandEvents_append (e : Engine) (xs ys : List (Command × Env)) :
    e.commandEvents (xs ++ ys) = e.commandEvents xs ++ (e.commands xs).commandEvents ys := by
  induction xs generalizing e with
  | nil => rfl
  | cons c xs ih =>
      rw [List.cons_append, Engine.commandEvents, ih, Engine.commandEvents, List.append_assoc]
      rfl

theorem Engine.Executes.append (h : e.Executes given cmds events e₁)
    (h' : e₁.Executes given cmds' events' e₂) :
    e.Executes given (cmds ++ cmds') (events ++ events') e₂ := by
  obtain ⟨cs, rfl, hgiven, rfl, rfl⟩ := h
  obtain ⟨cs', rfl, hgiven', rfl, rfl⟩ := h'
  exact ⟨cs ++ cs', List.map_append, List.forall_mem_append.mpr ⟨hgiven, hgiven'⟩,
    e.commandEvents_append cs cs', e.commands_append cs cs'⟩

theorem Engine.Executes.mono (h : e.Executes given cmds events e₁)
    (himp : ∀ env, given env → given' env) : e.Executes given' cmds events e₁ := by
  obtain ⟨cs, hcmds, hgiven, hevents, hend⟩ := h
  exact ⟨cs, hcmds, fun c hc => himp _ (hgiven c hc), hevents, hend⟩

/-! ## Reading -/

/-- The surroundings the outside gives to what it makes ready. -/
def Ready.Supplies : Ready → Env → Prop
  | .listener _, _ => False
  | .socket _ _ _ envs, env => ∃ n, env = envs n

theorem Connection.drain_executes :
    ∀ (fuel : Nat) (envs : Nat → Env) (c : Connection) (e : Engine),
      e.Executes (fun env => ∃ n, env = envs n) (c.drain envs fuel e.store).commands
        (c.drain envs fuel e.store).events
        { store := (c.drain envs fuel e.store).store
          disk := e.disk.run (c.drain envs fuel e.store).events } := by
  intro fuel
  induction fuel with
  | zero => exact fun envs c e => .nil e
  | succ fuel ih =>
      intro envs c e
      rw [Connection.drain]
      simp only []
      split
      · next cmd hstatus hcmd =>
          simp only [Disk.run_append]
          refine .cons ⟨0, rfl⟩ ?_
          refine (ih (fun n => envs (n + 1)) _ (e.command cmd (envs 0))).mono ?_
          exact fun env ⟨n, henv⟩ => ⟨n + 1, henv⟩
      · exact .nil e
      · exact .nil e

theorem Connection.onBytes_executes (c : Connection) (bytes : Bytes) (e : Engine)
    (envs : Nat → Env) :
    e.Executes (fun env => ∃ n, env = envs n) (c.onBytes bytes e.store envs).commands
      (c.onBytes bytes e.store envs).events
      { store := (c.onBytes bytes e.store envs).store
        disk := e.disk.run (c.onBytes bytes e.store envs).events } := by
  unfold Connection.onBytes
  split
  · exact .nil e
  · split
    · exact .nil e
    · exact Connection.drain_executes _ _ _ e

theorem Server.acceptReady_engine (s : Server) (accepted : List (Nat × Bool)) :
    (s.acceptReady accepted).engine = s.engine := by
  induction accepted generalizing s with
  | nil => rfl
  | cons p rest ih =>
      rw [Server.acceptReady]
      split
      · exact ih _
      · exact ih s

theorem Server.service_executes (s : Server) (fd : Nat) (hungUp : Bool) (read : Option Read)
    (envs : Nat → Env) :
    s.engine.Executes (fun env => ∃ n, env = envs n) (s.service fd hungUp read envs).2.commands
      (s.service fd hungUp read envs).2.events
      (s.service fd hungUp read envs).2.server.engine := by
  unfold Server.service
  split
  · exact .nil _
  · split
    · exact .nil _
    · split
      · exact .nil _
      · exact .nil _
      · exact .nil _
      · exact .nil _
      · exact Connection.onBytes_executes _ _ s.engine envs

/-- The first half of a turn executes the commands it reports. -/
theorem Server.serviceAll_executes (s : Server) (ready : List Ready) :
    s.engine.Executes (fun env => ∃ r ∈ ready, r.Supplies env) (s.serviceAll ready).2.commands
      (s.serviceAll ready).2.events (s.serviceAll ready).2.server.engine := by
  induction ready generalizing s with
  | nil => exact .nil _
  | cons r ready ih =>
      have hlater : ∀ env, (∃ r' ∈ ready, r'.Supplies env) →
          ∃ r' ∈ r :: ready, r'.Supplies env := by
        rintro env ⟨r', hr', hsup⟩
        exact ⟨r', List.mem_cons_of_mem _ hr', hsup⟩
      cases r with
      | listener accepted =>
          have h := (ih (s.acceptReady accepted)).mono hlater
          rw [Server.acceptReady_engine] at h
          exact h
      | socket fd hungUp read envs =>
          refine ((s.service_executes fd hungUp read envs).mono ?_).append ((ih _).mono hlater)
          exact fun env henv => ⟨_, List.mem_cons_self, henv⟩

/-! ## Sending -/

def Event.IsSent : Event → Prop
  | .sent _ _ => True
  | _ => False

theorem Server.writePending_sent (fd : Nat) :
    ∀ (sends : List Send) (conn : Connection),
      ∀ e ∈ (Server.writePending fd conn sends).2.2, e.IsSent := by
  intro sends
  induction sends with
  | nil => intro conn e he; cases he
  | cons send sends ih =>
      intro conn e he
      unfold Server.writePending at he
      split at he
      · cases he
      · split at he
        · cases he
        · cases he
        · simp only [] at he
          split at he
          · cases he
          · rcases List.mem_cons.mp he with rfl | he
            · trivial
            · exact ih _ e he

theorem Server.release_sent (s : Server) (fd : Nat) (sends : List Send) (epollCtl : Bool) :
    (s.release fd sends epollCtl).server.engine = s.engine ∧
      ∀ e ∈ (s.release fd sends epollCtl).events, e.IsSent := by
  unfold Server.release
  split
  · exact ⟨rfl, nofun⟩
  · next state hstate =>
      have hsent := Server.writePending_sent fd sends state.conn
      simp only []
      split
      · exact ⟨rfl, hsent⟩
      · exact ⟨rfl, hsent⟩

/-- The second half of a turn sends, and leaves the store alone. -/
theorem Server.releaseAll_sent (fds : List Nat) :
    ∀ (s : Server) (sends : Nat → List Send) (epollCtl : Nat → Bool),
      (s.releaseAll sends epollCtl fds).server.engine = s.engine ∧
        ∀ e ∈ (s.releaseAll sends epollCtl fds).events, e.IsSent := by
  induction fds with
  | nil => exact fun s _ _ => ⟨rfl, nofun⟩
  | cons fd fds ih =>
      intro s sends epollCtl
      have hone := s.release_sent fd (sends 0) (epollCtl 0)
      have hrest := ih (s.release fd (sends 0) (epollCtl 0)).server (fun n => sends (n + 1))
        (fun n => epollCtl (n + 1))
      exact ⟨hrest.1.trans hone.1, List.forall_mem_append.mpr ⟨hone.2, hrest.2⟩⟩

/-! ## Whole runs -/

/-- A relation between the engine before, the calls made and the engine after,
that commands satisfy. -/
structure CommandRule (given : Env → Prop) (allowed : Command → Prop)
    (R : Engine → List Event → Engine → Prop) : Prop where
  refl : ∀ e, R e [] e
  trans : ∀ {e₁ e₂ e₃ xs ys}, R e₁ xs e₂ → R e₂ ys e₃ → R e₁ (xs ++ ys) e₃
  command : ∀ e cmd env, given env → allowed cmd →
    R e (execute cmd e.store env).events (e.command cmd env)

/-- One that every part of a turn satisfies. -/
structure LoopRule (given : Env → Prop) (allowed : Command → Prop) (turn : Iteration → Prop)
    (R : Engine → List Event → Engine → Prop) : Prop extends CommandRule given allowed R where
  /-- The log could not be synced. -/
  gaveUp : ∀ (s : Server) it, turn it → (s.syncLog it.now it.sync).ok = false →
    R s.engine (s.syncLog it.now it.sync).events (s.syncLog it.now it.sync).server.engine
  /-- It was, and then bytes were sent. -/
  released : ∀ (s : Server) it sent, turn it → (s.syncLog it.now it.sync).ok = true →
    (∀ e ∈ sent, Event.IsSent e) →
    R s.engine ((s.syncLog it.now it.sync).events ++ sent)
      (s.syncLog it.now it.sync).server.engine
  kept : ∀ (s : Server) it, turn it →
    R s.engine (s.housekeeping it).events (s.housekeeping it).server.engine

/-- A turn of the kind the rule is about, in surroundings it allows. -/
def Iteration.Meets (given : Env → Prop) (turn : Iteration → Prop) (it : Iteration) : Prop :=
  turn it ∧ ∀ r ∈ it.ready, ∀ env, r.Supplies env → given env

section LoopRule

variable {allowed : Command → Prop} {turn : Iteration → Prop}
  {R : Engine → List Event → Engine → Prop}

theorem CommandRule.commands (h : CommandRule given allowed R) (cs : List (Command × Env)) :
    ∀ e : Engine, (∀ c ∈ cs, given c.2) → (∀ cmd ∈ cs.map Prod.fst, allowed cmd) →
      R e (e.commandEvents cs) (e.commands cs) := by
  induction cs with
  | nil => exact fun e _ _ => h.refl e
  | cons c cs ih =>
      intro e hgiven hallowed
      rw [List.forall_mem_cons] at hgiven
      rw [List.map_cons, List.forall_mem_cons] at hallowed
      exact h.trans (h.command e c.1 c.2 hgiven.1 hallowed.1)
        (ih (e.command c.1 c.2) hgiven.2 hallowed.2)

theorem Server.iterate_commands (s : Server) (it : Iteration) :
    (s.iterate it).commands = (s.serviceAll it.ready).2.commands := by
  rw [Server.iterate]
  simp only []
  split <;> rfl

theorem CommandRule.serviceAll (h : CommandRule given allowed R) (s : Server) {it : Iteration}
    (hit : ∀ r ∈ it.ready, ∀ env, r.Supplies env → given env)
    (hcmds : ∀ cmd ∈ (s.iterate it).commands, allowed cmd) :
    R s.engine (s.serviceAll it.ready).2.events (s.serviceAll it.ready).2.server.engine := by
  obtain ⟨cs, hcs, hsupplied, hevents, hengine⟩ := s.serviceAll_executes it.ready
  rw [s.iterate_commands it, ← hcs] at hcmds
  rw [← hevents, ← hengine]
  refine h.commands cs s.engine (fun c hc => ?_) hcmds
  obtain ⟨r, hr, hsup⟩ := hsupplied c hc
  exact hit r hr c.2 hsup

theorem LoopRule.iterate (h : LoopRule given allowed turn R) (s : Server) {it : Iteration}
    (hit : it.Meets given turn) (hcmds : ∀ cmd ∈ (s.iterate it).commands, allowed cmd) :
    R s.engine (s.iterate it).events (s.iterate it).server.engine := by
  have hserved := h.serviceAll s hit.2 hcmds
  rw [Server.iterate]
  simp only []
  split
  · next hfail =>
      exact h.trans hserved (h.gaveUp _ it hit.1 (by simpa using hfail))
  · next hok =>
      obtain ⟨hengine, hsent⟩ := Server.releaseAll_sent (s.serviceAll it.ready).1
        ((s.serviceAll it.ready).2.server.syncLog it.now it.sync).server it.sends it.epollCtl
      have hreleased := h.released _ it _ hit.1 (by simpa using hok) hsent
      rw [← hengine] at hreleased
      have hturn := h.trans (h.trans hserved hreleased) (h.kept _ it hit.1)
      rwa [← List.append_assoc] at hturn

theorem LoopRule.run (h : LoopRule given allowed turn R) (its : List Iteration) :
    ∀ s : Server, (∀ it ∈ its, it.Meets given turn) →
      (∀ cmd ∈ (s.run its).commands, allowed cmd) →
      R s.engine (s.run its).events (s.run its).server.engine := by
  induction its with
  | nil => exact fun s _ _ => h.refl _
  | cons it its ih =>
      intro s hits hcmds
      rw [List.forall_mem_cons] at hits
      rw [Server.run] at hcmds ⊢
      simp only [] at hcmds ⊢
      split at hcmds
      · next hstop =>
          rw [if_pos hstop]
          exact h.iterate s hits.1 hcmds
      · next hgo =>
          rw [if_neg hgo]
          rw [List.forall_mem_append] at hcmds
          exact h.trans (h.iterate s hits.1 hcmds.1) (ih _ hits.2 hcmds.2)

end LoopRule

theorem Server.run_append (s : Server) (xs ys : List Iteration) (h : (s.run xs).ok = true) :
    (s.run (xs ++ ys)).events = (s.run xs).events ++ ((s.run xs).server.run ys).events ∧
      (s.run (xs ++ ys)).commands =
        (s.run xs).commands ++ ((s.run xs).server.run ys).commands := by
  induction xs generalizing s with
  | nil => exact ⟨rfl, rfl⟩
  | cons it xs ih =>
      rw [Server.run] at h
      rw [List.cons_append, Server.run, Server.run]
      simp only [] at h ⊢
      split at h
      · next hstop => rw [h] at hstop; cases hstop
      · next hgo =>
          rw [if_neg hgo, if_neg hgo]
          obtain ⟨hevents, hcommands⟩ := ih _ h
          exact ⟨by rw [hevents, List.append_assoc], by rw [hcommands, List.append_assoc]⟩

/-- A client connects and sets a key. -/
def oneSet : List Iteration :=
  [{ ready := [.listener [(5, true)]] },
   { ready := [.socket 5 false (some (.data (text "SET k v\r\n"))) fun _ => {}]
     sends := fun _ => [.took 100] }]

end Cachedb
