import Cachedb.Proofs.Clients
import Cachedb.Proofs.CrashCompaction

/-!
# The server is a plain server

The server and the plain server are given the same turns. `Server.Shows` is
what holds between them: the store agrees with the map from a clock reading on,
and every socket is a client whose unread bytes and unsent bytes are the same,
however the connection keeps them. Accepting, reading and sending are done by
both; syncing the log, sweeping and merging are done by the server alone, and
leave the relation as it is.
-/

namespace Cachedb

/-! ## The server -/

/-- Every socket is a client. -/
def Hosts (conns : SortedMap Nat ConnState) (clients : Nat → Option Client) : Prop :=
  ∀ fd, Option.Rel (fun state client => state.conn.Serves client) (conns.find fd) (clients fd)

theorem Hosts.insert {conns : SortedMap Nat ConnState} {clients : Nat → Option Client}
    (h : Hosts conns clients) (fd : Nat) {state : ConnState} {client : Client}
    (hserves : state.conn.Serves client) :
    Hosts (conns.insert fd state) fun fd' => if fd' = fd then some client else clients fd' := by
  intro fd'
  simp only [SortedMap.find_insert]
  split
  · exact .some hserves
  · exact h fd'

theorem Hosts.erase {conns : SortedMap Nat ConnState} {clients : Nat → Option Client}
    (h : Hosts conns clients) (fd : Nat) :
    Hosts (conns.erase fd) fun fd' => if fd' = fd then none else clients fd' := by
  intro fd'
  simp only [SortedMap.find_erase]
  split
  · exact .none
  · exact h fd'

/-- The plain server is what the server shows from `now` on. -/
structure Server.Shows (ask : Prop) (now : Int64) (s : Server) (p : PlainServer) : Prop where
  store : s.engine.store.Shows ask now p.map p.policy
  hosts : Hosts s.conns p.clients

section Server

variable {ask : Prop} {now upTo : Int64} {s : Server} {p : PlainServer}

theorem Server.Shows.mono (h : s.Shows ask now p) (ht : now ≤ upTo) : s.Shows ask upTo p :=
  ⟨h.store.mono ht, h.hosts⟩

theorem Server.Shows.acceptReady (accepted : List (Nat × Bool)) :
    ∀ {s : Server} {p : PlainServer}, s.Shows ask now p →
      (s.acceptReady accepted).Shows ask now (p.accept accepted) := by
  induction accepted with
  | nil => exact fun h => h
  | cons a rest ih =>
      intro s p h
      have hfree : s.conns.find a.1 = none ↔ p.clients a.1 = none := by
        have hrel := h.hosts a.1
        generalize s.conns.find a.1 = x, p.clients a.1 = y at hrel
        cases hrel <;> simp
      rw [Server.acceptReady, PlainServer.accept]
      by_cases hok : a.2 = true ∧ s.conns.find a.1 = none
      · rw [if_pos hok, if_pos (by rwa [← hfree])]
        exact ih ⟨h.store, h.hosts.insert a.1 Connection.serves_new⟩
      · rw [if_neg hok, if_neg (by rwa [← hfree])]
        exact ih h

theorem PlainServer.given_accept (accepted : List (Nat × Bool)) (rs : List Bytes) :
    ∀ p : PlainServer, (p.given rs).accept accepted = (p.accept accepted).given rs := by
  induction accepted with
  | nil => exact fun _ => rfl
  | cons a rest ih =>
      intro p
      by_cases h : a.2 = true ∧ p.clients a.1 = none
      · rw [accept, accept, if_pos h]
        exact (if_pos h).trans (ih (p.setClient a.1 (some {})))
      · rw [accept, accept, if_neg h]
        exact (if_neg h).trans (ih p)

theorem PlainServer.heard_accept (accepted : List (Nat × Bool)) :
    ∀ p : PlainServer, (p.accept accepted).heard = p.heard := by
  induction accepted with
  | nil => exact fun _ => rfl
  | cons a rest ih =>
      intro p
      rw [accept]
      split
      · exact ih _
      · exact ih p

/-- Every reading that comes with a socket lies between the bounds, and those of
a command before those of the next. -/
def Ready.Timed (now upTo : Int64) : Ready → Prop
  | .listener _ => True
  | .socket _ _ _ envs => ∃ bound : Nat → Int64, bound 0 = now ∧ InTime envs bound upTo

def Ready.AllTimed (now : Int64) : List Ready → Int64 → Prop
  | [], upTo => now ≤ upTo
  | r :: rest, upTo => ∃ mid, now ≤ mid ∧ r.Timed now mid ∧ AllTimed mid rest upTo

/-- The log takes what a command gives it, a `FLUSHALL` runs through, and a
`read` gives no more than it was asked for. -/
def Ready.Works : Ready → Prop
  | .listener _ => True
  | .socket _ _ read envs =>
      (∀ n, (envs n).log = {} ∧ (envs n).FlushAllSucceeds) ∧
        ∀ bytes, read = some (.data bytes) → bytes.length ≤ kReadChunk

/-- What a client sent is executed and answered alike. -/
theorem Server.Shows.receive (h : s.Shows ask now p) {fd : Nat} {state : ConnState}
    {client : Client} (hserves : state.conn.Serves client) (hclient : p.clients fd = some client)
    {bytes : Bytes} (hbytes : bytes.length ≤ kReadChunk) {envs : Nat → Env} {bound : Nat → Int64}
    (hbound : bound 0 = now) (htime : InTime envs bound upTo)
    (hfate : ∀ n, (envs n).log = {} ∧ (envs n).FlushAllSucceeds) {fed : Connection.Fed}
    (hfed : state.conn.onBytes bytes s.engine.store envs = fed)
    (hask : ∀ cmd ∈ fed.commands, cmd.IsNamed "config" → ask) :
    ∃ (rs : List Bytes) (p' : PlainServer), rs.length = reportCount fed.commands ∧
      fed.store.Shows ask upTo p'.map p'.policy ∧
      Hosts (s.conns.insert fd { state with conn := fed.conn }) p'.clients ∧
      p'.heard = p.heard ++ fed.commands.map (Prod.mk fd) ∧
      ∀ more, (p.given (rs ++ more)).receive fd client bytes envs = p'.given more := by
  subst hbound
  cases hclosing : client.closing with
  | true =>
      rw [Connection.onBytes, if_pos (hserves.closing.trans hclosing)] at hfed
      subst hfed
      refine ⟨[], p, rfl, h.store.mono (htime.le 0), ?_, (List.append_nil _).symm,
        fun more => if_pos hclosing⟩
      have hsame : p.clients = fun fd' => if fd' = fd then some client else p.clients fd' := by
        funext fd'
        split
        · next heq => rw [heq, hclient]
        · rfl
      rw [hsame]
      exact h.hosts.insert fd hserves
  | false =>
      obtain ⟨cmds, fin, hread, hcmds, hfits, hstore, hconn⟩ :=
        hserves.onBytes hclosing hbytes s.engine.store envs
      rw [hfed] at hcmds hstore hconn
      rw [hcmds] at hask ⊢
      obtain ⟨rs, p', hlen, hshows, hclients, hheard, hrun⟩ :=
        PlainServer.executeAll_shows fd cmds h.store
          (fun cmd hcmd => ⟨hfits cmd hcmd, hask cmd hcmd⟩) htime hfate
      refine ⟨rs, p'.setClient fd
        (some (client.told (s.engine.store.answers envs cmds).flatten fin)), hlen, ?_, ?_, hheard,
        fun more => ?_⟩
      · rw [hstore]
        exact hshows
      · rw [PlainServer.setClient, hclients]
        exact h.hosts.insert fd hconn
      · rw [PlainServer.receive, if_neg (by rw [hclosing]; decide)]
        simp only [hread, hrun]
        rfl

theorem Server.service_shows (h : s.Shows ask now p) {fd : Nat} {hungUp : Bool}
    {read : Option Read} {envs : Nat → Env} (hle : now ≤ upTo)
    (htimed : (Ready.socket fd hungUp read envs).Timed now upTo)
    (hworks : (Ready.socket fd hungUp read envs).Works)
    (hask : ∀ cmd ∈ (s.service fd hungUp read envs).2.commands, cmd.IsNamed "config" → ask) :
    ∃ (rs : List Bytes) (p' : PlainServer),
      rs.length = reportCount (s.service fd hungUp read envs).2.commands ∧
      (s.service fd hungUp read envs).2.server.Shows ask upTo p' ∧
      p'.heard = p.heard ++ (s.service fd hungUp read envs).2.commands.map (Prod.mk fd) ∧
      ∀ more, (p.given (rs ++ more)).service fd hungUp read envs =
        ((s.service fd hungUp read envs).1, p'.given more) := by
  have hrel := h.hosts fd
  unfold Server.service PlainServer.service at *
  simp only [PlainServer.given] at *
  generalize hfind : s.conns.find fd = found, hclient : p.clients fd = client at hrel hask ⊢
  cases hrel with
  | none => exact ⟨[], p, rfl, h.mono hle, (List.append_nil _).symm, fun _ => rfl⟩
  | @some state client hserves =>
      simp only [] at hask ⊢
      have hgone : ∃ (rs : List Bytes) (p' : PlainServer), rs.length = reportCount [] ∧
          (s.closeConnection fd).Shows ask upTo p' ∧ p'.heard = p.heard ++ [] ∧
          ∀ more, (false, PlainServer.setClient { p with reports := rs ++ more } fd none) =
            (false, p'.given more) :=
        ⟨[], p.setClient fd none, rfl, ⟨h.store.mono hle, h.hosts.erase fd⟩,
          (List.append_nil _).symm, fun _ => rfl⟩
      cases hungUp with
      | true => exact hgone
      | false =>
          simp only [Bool.false_eq_true, if_false] at hask ⊢
          cases read with
          | none => exact ⟨[], p, rfl, h.mono hle, (List.append_nil _).symm, fun _ => rfl⟩
          | some read =>
              cases read with
              | wouldBlock =>
                  exact ⟨[], p, rfl, h.mono hle, (List.append_nil _).symm, fun _ => rfl⟩
              | closed => exact hgone
              | failed => exact hgone
              | data bytes =>
                  obtain ⟨bound, hbound, htime⟩ := htimed
                  obtain ⟨rs, p', hlen, hstore, hhosts, hheard, hrun⟩ :=
                    h.receive hserves hclient (hworks.2 bytes rfl) hbound htime hworks.1 rfl hask
                  exact ⟨rs, p', hlen, ⟨hstore, hhosts⟩, hheard,
                    fun more => Prod.ext rfl (hrun more)⟩

/-- The commands of a batch, and who gave them. -/
def Server.asked (s : Server) : List Ready → List (Nat × Command)
  | [] => []
  | .listener accepted :: rest => (s.acceptReady accepted).asked rest
  | .socket fd hungUp read envs :: rest =>
      (s.service fd hungUp read envs).2.commands.map (Prod.mk fd) ++
        (s.service fd hungUp read envs).2.server.asked rest

theorem Server.asked_commands (ready : List Ready) :
    ∀ s : Server, (s.asked ready).map Prod.snd = (s.serviceAll ready).2.commands := by
  induction ready with
  | nil => exact fun _ => rfl
  | cons r ready ih =>
      intro s
      cases r with
      | listener accepted => exact ih _
      | socket fd hungUp read envs =>
          rw [asked, List.map_append, ih, List.map_map, Function.comp_def, List.map_id']
          rfl

theorem Server.serviceAll_shows (ready : List Ready) :
    ∀ {s : Server} {p : PlainServer} {now : Int64}, s.Shows ask now p →
      Ready.AllTimed now ready upTo → (∀ r ∈ ready, r.Works) →
      (∀ cmd ∈ (s.serviceAll ready).2.commands, cmd.IsNamed "config" → ask) →
      ∃ (rs : List Bytes) (p' : PlainServer),
        rs.length = reportCount (s.serviceAll ready).2.commands ∧
        (s.serviceAll ready).2.server.Shows ask upTo p' ∧
        p'.heard = p.heard ++ s.asked ready ∧
        ∀ more, (p.given (rs ++ more)).serve ready = ((s.serviceAll ready).1, p'.given more) := by
  induction ready with
  | nil =>
      exact fun h htimed _ _ =>
        ⟨[], _, rfl, h.mono htimed, (List.append_nil _).symm, fun _ => rfl⟩
  | cons r ready ih =>
      intro s p now h htimed hworks hask
      obtain ⟨mid, hle, hone, hrest⟩ := htimed
      rw [List.forall_mem_cons] at hworks
      cases r with
      | listener accepted =>
          obtain ⟨rs, p', hlen, hshows, hheard, hrun⟩ :=
            ih ((h.acceptReady accepted).mono hle) hrest hworks.2 hask
          rw [PlainServer.heard_accept] at hheard
          refine ⟨rs, p', hlen, hshows, hheard, fun more => ?_⟩
          rw [PlainServer.serve, PlainServer.given_accept, hrun]
          rfl
      | socket fd hungUp read envs =>
          rw [Server.serviceAll] at hask
          simp only [List.forall_mem_append] at hask
          obtain ⟨rs, p₁, hlen, hshows, hheard, hrun⟩ := service_shows h hle hone hworks.1 hask.1
          obtain ⟨rs', p₂, hlen', hshows', hheard', hrun'⟩ := ih hshows hrest hworks.2 hask.2
          refine ⟨rs ++ rs', p₂, ?_, hshows', ?_, fun more => ?_⟩
          · rw [List.length_append, hlen, hlen', ← reportCount_append]
            rfl
          · rw [hheard', hheard, List.append_assoc]
            rfl
          · rw [PlainServer.serve, List.append_assoc, hrun]
            simp only [hrun']
            rfl

/-! ### What the server does besides -/

/-- A step of the log goes unnoticed. -/
theorem Store.Shows.onLog {s : Store} {m : RefMap} {policy : Option SyncPolicy}
    (h : s.Shows ask now m policy) {f : Wal → Logged}
    (hf : ∀ w, (f w).wal.settings = w.settings) : (s.onLog f).store.Shows ask now m policy := by
  have hsettings := Store.policy_of_settings (Store.onLog_settings hf s)
  have hfind : ∀ key, (s.onLog f).store.find key = s.find key := by
    intro key
    rw [s.onLog_store f]
    rfl
  refine ⟨?_, fun key => ?_, fun hask => hsettings.trans (h.policy hask)⟩
  · rw [s.onLog_store f]
    exact ⟨h.sane.tables, h.sane.fits⟩
  · rw [hfind]
    exact h.refines key

theorem Server.Shows.syncLog (h : s.Shows ask now p) (r : Reading) (sync : Bool) :
    (s.syncLog r sync).server.Shows ask now p := by
  refine ⟨h.store.onLog fun w => ?_, h.hosts⟩
  split
  · exact w.sync_settings r sync
  · rfl

theorem Server.Shows.housekeeping (h : s.Shows ask now p) {it : Iteration}
    (hsweep : now ≤ (it.sweep.clock 0).wall)
    (hcompact : (it.sweep.clock 0).wall ≤ (it.compact.clock 0).wall) :
    (s.housekeeping it).server.Shows ask (it.compact.clock 0).wall p := by
  obtain ⟨hsane, hrefines⟩ := Store.sweepExpired_refines h.store.sane
    (h.store.refines.mono hsweep) kSweepBudget
  obtain ⟨hsane', hrefines'⟩ := Store.maybeCompact_refines hsane (hrefines.mono hcompact)
    (s.engine.disk.run (s.engine.store.sweepExpired kSweepBudget it.sweep).events)
  refine ⟨Store.Shows.onLog ⟨hsane', hrefines', fun hask => ?_⟩
    fun w => w.maybeSync_settings it.tick it.tickSync, h.hosts⟩
  refine Eq.trans (Store.policy_of_settings ?_) (h.store.policy hask)
  exact Store.call_settings (s.engine.store.sweepExpired kSweepBudget it.sweep).store _
    it.compact .maybeCompact

/-! ### Sending -/

theorem Server.updateInterest_conn (state : ConnState) (epollCtl : Bool) :
    (Server.updateInterest state epollCtl).conn = state.conn := by
  unfold Server.updateInterest
  simp only []
  split <;> rfl

theorem Server.release_shows (h : s.Shows ask now p) (fd : Nat) (sends : List Send)
    (epollCtl : Bool) :
    (s.release fd sends epollCtl).server.Shows ask now (p.release fd sends).1 ∧
      (s.release fd sends epollCtl).events.filterMap Event.told = (p.release fd sends).2 := by
  have hrel := h.hosts fd
  unfold Server.release PlainServer.release
  generalize hfind : s.conns.find fd = found, hclient : p.clients fd = client at hrel ⊢
  cases hrel with
  | none => exact ⟨h, rfl⟩
  | @some state client hserves =>
      obtain ⟨hok, hleft, hevents⟩ := hserves.writePending fd sends
      simp only []
      have hclose : ((Server.writePending fd state.conn sends).2.1.shouldClose) =
          (client.closing && (PlainServer.hand client.owed sends).2.1.isEmpty) := by
        rw [Connection.shouldClose, Connection.hasPendingOutput, hleft.closing, hleft.owed,
          Bool.not_not]
      rw [hok, hclose]
      split
      · exact ⟨⟨h.store, h.hosts.erase fd⟩, hevents⟩
      · refine ⟨⟨h.store, h.hosts.insert fd ?_⟩, hevents⟩
        rw [Server.updateInterest_conn]
        exact hleft

theorem PlainServer.given_release (p : PlainServer) (rs : List Bytes) (fd : Nat)
    (sends : List Send) :
    (p.given rs).release fd sends = ((p.release fd sends).1.given rs, (p.release fd sends).2) := by
  unfold release
  simp only [given]
  cases p.clients fd with
  | none => rfl
  | some client =>
      simp only []
      split <;> rfl

theorem Server.releaseAll_shows (fds : List Nat) :
    ∀ {s : Server} {p : PlainServer} (sends : Nat → List Send) (epollCtl : Nat → Bool),
      s.Shows ask now p →
      (s.releaseAll sends epollCtl fds).server.Shows ask now (p.releaseAll sends fds).1 ∧
        (s.releaseAll sends epollCtl fds).events.filterMap Event.told =
          (p.releaseAll sends fds).2 := by
  induction fds with
  | nil => exact fun _ _ h => ⟨h, rfl⟩
  | cons fd fds ih =>
      intro s p sends epollCtl h
      obtain ⟨hone, htold⟩ := release_shows h fd (sends 0) (epollCtl 0)
      obtain ⟨hrest, htold'⟩ := ih (fun n => sends (n + 1)) (fun n => epollCtl (n + 1)) hone
      refine ⟨hrest, ?_⟩
      rw [Server.releaseAll, PlainServer.releaseAll]
      simp only [List.filterMap_append, htold, htold']

theorem PlainServer.given_releaseAll (rs : List Bytes) (fds : List Nat) :
    ∀ (p : PlainServer) (sends : Nat → List Send), (p.given rs).releaseAll sends fds =
      ((p.releaseAll sends fds).1.given rs, (p.releaseAll sends fds).2) := by
  induction fds with
  | nil => exact fun _ _ => rfl
  | cons fd fds ih =>
      intro p sends
      rw [releaseAll, given_release]
      simp only [ih]
      rfl

theorem PlainServer.heard_releaseAll (fds : List Nat) :
    ∀ (p : PlainServer) (sends : Nat → List Send), (p.releaseAll sends fds).1.heard = p.heard := by
  induction fds with
  | nil => exact fun _ _ => rfl
  | cons fd fds ih =>
      intro p sends
      refine (ih (p.release fd (sends 0)).1 _).trans ?_
      unfold release
      split
      · rfl
      · simp only []
        split <;> rfl

/-! ### Turns -/

/-- The clock of a turn does not go backwards: the commands, the sweep, the
merge. -/
def Iteration.Timed (now : Int64) (it : Iteration) (last : Int64) : Prop :=
  ∃ served, Ready.AllTimed now it.ready served ∧ served ≤ (it.sweep.clock 0).wall ∧
    (it.sweep.clock 0).wall ≤ (it.compact.clock 0).wall ∧ (it.compact.clock 0).wall ≤ last

def Iteration.AllTimed (now : Int64) : List Iteration → Int64 → Prop
  | [], last => now ≤ last
  | it :: its, last => ∃ mid, it.Timed now mid ∧ AllTimed mid its last

def Iteration.Works (it : Iteration) : Prop := ∀ r ∈ it.ready, r.Works

/-- What the clients are told by a run, piece by piece. -/
def Turn.told (turn : Turn) : List (Nat × Bytes) := turn.events.filterMap Event.told

theorem Server.quiet_syncLog (s : Server) (now : Reading) (sync : Bool) :
    Quiet (s.syncLog now sync).events := by
  refine Store.quiet_onLog (fun w => ?_) _
  split
  · exact w.quiet_sync now sync
  · rfl

theorem Server.quiet_housekeeping (s : Server) (it : Iteration) :
    Quiet (s.housekeeping it).events := by
  rw [Server.housekeeping]
  simp only [quiet_append]
  exact ⟨⟨rfl, Store.quiet_maybeCompact _ _ _⟩,
    Store.quiet_onLog (fun w => w.quiet_maybeSync it.tick it.tickSync) _⟩

/-- One turn. If the log could not be synced nothing is told to anybody. -/
theorem Server.iterate_shows (h : s.Shows ask now p) {it : Iteration} {last : Int64}
    (htimed : it.Timed now last) (hworks : it.Works)
    (hask : ∀ cmd ∈ (s.iterate it).commands, cmd.IsNamed "config" → ask) :
    ((s.iterate it).ok = false → (s.iterate it).told = []) ∧
      ∃ (rs : List Bytes) (p' : PlainServer), rs.length = reportCount (s.iterate it).commands ∧
        ((s.iterate it).ok = true → (s.iterate it).server.Shows ask last p' ∧
          p'.heard = p.heard ++ s.asked it.ready ∧
          ∀ more, (p.given (rs ++ more)).turn it = (p'.given more, (s.iterate it).told)) := by
  obtain ⟨served, hready, hsweep, hcompact, hlast⟩ := htimed
  rw [Server.iterate_commands] at hask ⊢
  obtain ⟨rs, p', hlen, hshows, hheard, hrun⟩ := serviceAll_shows it.ready h hready hworks hask
  have hquiet : Quiet ((s.serviceAll it.ready).2.events ++
      ((s.serviceAll it.ready).2.server.syncLog it.now it.sync).events) :=
    quiet_append.mpr ⟨s.quiet_serviceAll it.ready, Server.quiet_syncLog _ _ _⟩
  obtain ⟨hreleased, htold⟩ := releaseAll_shows (s.serviceAll it.ready).1 it.sends it.epollCtl
    (hshows.syncLog it.now it.sync)
  rw [Server.iterate]
  simp only []
  split
  · next hfail =>
      have hbad : ((s.serviceAll it.ready).2.server.syncLog it.now it.sync).ok = false := by
        simpa using hfail
      exact ⟨fun _ => hquiet, rs, p', hlen, fun hok => by rw [hbad] at hok; cases hok⟩
  · refine ⟨fun h => (by cases h), rs, (p'.releaseAll it.sends (s.serviceAll it.ready).1).1, hlen,
      fun _ => ⟨(hreleased.housekeeping hsweep hcompact).mono hlast, ?_, fun more => ?_⟩⟩
    · rw [PlainServer.heard_releaseAll, hheard]
    · rw [PlainServer.turn, hrun, PlainServer.given_releaseAll, ← htold]
      exact Prod.ext rfl (told_between hquiet (Server.quiet_housekeeping _ it)).symm

/-- The commands of a run, and who gave them. -/
def Server.askedIn (s : Server) : List Iteration → List (Nat × Command)
  | [] => []
  | it :: its =>
      s.asked it.ready ++ if (s.iterate it).ok then (s.iterate it).server.askedIn its else []

theorem Server.askedIn_commands (its : List Iteration) :
    ∀ s : Server, (s.askedIn its).map Prod.snd = (s.run its).commands := by
  induction its with
  | nil => exact fun _ => rfl
  | cons it its ih =>
      intro s
      rw [askedIn, List.map_append, asked_commands, ← iterate_commands, Server.run]
      cases hok : (s.iterate it).ok with
      | true => simp [ih]
      | false => simp

/-- A run tells the clients what a run of the plain server tells them, up to the
turn that gives up if there is one. -/
theorem Server.run_shows {last : Int64} (its : List Iteration) :
    ∀ {s : Server} {p : PlainServer} {now : Int64}, s.Shows ask now p →
      Iteration.AllTimed now its last → (∀ it ∈ its, it.Works) →
      (∀ cmd ∈ (s.run its).commands, cmd.IsNamed "config" → ask) →
      ∃ rs : List Bytes, rs.length = reportCount (s.run its).commands ∧ ∀ more,
        (s.run its).told <+: ((p.given (rs ++ more)).run its).2 ∧
        ((s.run its).ok = true →
          (s.run its).told = ((p.given (rs ++ more)).run its).2 ∧
          ((p.given (rs ++ more)).run its).1.heard = p.heard ++ s.askedIn its ∧
          (s.run its).server.Shows ask last ((p.given (rs ++ more)).run its).1) := by
  induction its with
  | nil =>
      intro s p now h htimed _ _
      exact ⟨[], rfl, fun more => ⟨List.nil_prefix, fun _ =>
        ⟨rfl, (List.append_nil _).symm, (h.mono htimed).store, h.hosts⟩⟩⟩
  | cons it its ih =>
      intro s p now h htimed hworks hask
      obtain ⟨mid, hone, hrest⟩ := htimed
      rw [List.forall_mem_cons] at hworks
      rw [Server.run] at hask ⊢
      simp only [] at hask ⊢
      split at hask
      · next hstop =>
          have hbad : (s.iterate it).ok = false := by simpa using hstop
          obtain ⟨hnone, rs, p', hlen, _⟩ := iterate_shows h hone hworks.1 hask
          rw [if_pos hstop]
          refine ⟨rs, hlen, fun more => ⟨?_, fun hok => ?_⟩⟩
          · rw [hnone hbad]
            exact List.nil_prefix
          · rw [hbad] at hok
            cases hok
      · next hgo =>
          have hok : (s.iterate it).ok = true := by simpa using hgo
          rw [List.forall_mem_append] at hask
          obtain ⟨_, rs, p', hlen, hturn⟩ := iterate_shows h hone hworks.1 hask.1
          obtain ⟨hshows, hheard, hrun⟩ := hturn hok
          obtain ⟨rs', hlen', hall⟩ := ih hshows hrest hworks.2 hask.2
          rw [if_neg hgo]
          refine ⟨rs ++ rs', ?_, fun more => ?_⟩
          · rw [List.length_append, hlen, hlen', ← reportCount_append]
          · obtain ⟨hpre, hend⟩ := hall more
            have hsplit : Turn.told { (s.iterate it).server.run its with
                events := (s.iterate it).events ++ ((s.iterate it).server.run its).events
                commands := (s.iterate it).commands ++
                  ((s.iterate it).server.run its).commands } =
                (s.iterate it).told ++ ((s.iterate it).server.run its).told :=
              List.filterMap_append
            rw [PlainServer.run, List.append_assoc, hrun, hsplit]
            refine ⟨(List.prefix_append_right_inj _).mpr hpre, fun hok' => ?_⟩
            obtain ⟨heq, hheard', hshows'⟩ := hend hok'
            refine ⟨congrArg _ heq, ?_, hshows'.store, hshows'.hosts⟩
            exact hheard'.trans (by rw [hheard, List.append_assoc, askedIn, if_pos hok])

end Server

/-! ## From the start on -/

/-- Every directory shows some map. -/
theorem Disk.Sane.exists_map {d : Disk} (hd : d.Sane) (now : Int64) :
    ∃ m : RefMap, ∀ t key, now ≤ t → m.lookup t key = d.lookup t key := by
  obtain ⟨o, _, hlookup⟩ := startup_lookup hd {} rfl {}
  obtain ⟨m, hm⟩ := o.store.exists_refines now
  exact ⟨m, fun t key ht => by rw [← hlookup, hm.lookup ht]⟩

/-- A server that has just been started shows the plain server on a map that
shows what the directory shows. -/
theorem startup_shows {cfg : Config} {d : Disk} {boot : Reading} {o : Outcome Unit} (hd : d.Sane)
    (hdir : cfg.options.hasDir = true) (h : startup cfg d boot = some o) {now : Int64} {m : RefMap}
    (hm : ∀ t key, now ≤ t → m.lookup t key = d.lookup t key) {ask : Prop}
    {policy : Option SyncPolicy} (hpolicy : ask → policy = some cfg.policy) :
    (o.serve d).Shows ask now { policy, map := m } := by
  obtain ⟨o', ho', hstarted⟩ := startup_spec hd cfg hdir boot
  obtain rfl : o = o' := Option.some.inj (h.symm.trans ho')
  refine ⟨⟨hstarted.sane, fun key t ht => ?_, fun hask => ?_⟩, fun fd => .none⟩
  · rw [← RefMap.lookup_eq, hm t key ht, Disk.lookup]
    exact congrArg (Option.bind · _) (hstarted.find key)
  · obtain ⟨w, hw, hpolicy', _⟩ := hstarted.wal
    show o.store.wal.map Wal.policy = policy
    rw [hw, hpolicy hask, ← hpolicy']
    rfl

/-- Two servers of the same clients, as far as those can tell. -/
theorem Hosts.same {conns : SortedMap Nat ConnState} {clients : Nat → Option Client}
    (h : Hosts conns clients) (fd : Nat) :
    (conns.find fd).map (fun state => (state.conn.pendingOutput, state.conn.closing)) =
      (clients fd).map fun client => (client.owed, client.closing) := by
  have hrel := h fd
  generalize conns.find fd = x, clients fd = y at hrel
  cases hrel with
  | none => rfl
  | some hserves => simp [hserves.owed, hserves.closing]

/-- The clients of a server cannot tell it from a plain server. Started on a
directory, and given turns whose clock does not go backwards, in which the log
takes what it is given and every `FLUSHALL` runs through, it hears the same
clients' commands and tells the same clients the same bytes in the same pieces
as the plain server on any map that shows what the directory showed, whatever
flushes and merges come to; the plain server has what `INFO` says from a list.
At the end it shows the same keys, owes every client the same bytes and has
closed the same ones. If it gives up on the way it had told them nothing
else. -/
theorem server_is_plain {cfg : Config} {d : Disk} {boot : Reading} {o : Outcome Unit}
    (hd : d.Sane) (hdir : cfg.options.hasDir = true) (h : startup cfg d boot = some o)
    {now last : Int64} {m : RefMap} (hm : ∀ t key, now ≤ t → m.lookup t key = d.lookup t key)
    (its : List Iteration) (htimed : Iteration.AllTimed now its last)
    (hworks : ∀ it ∈ its, it.Works) :
    ∃ reports : List Bytes,
      let real := (o.serve d).run its
      let plain := PlainServer.run { policy := some cfg.policy, map := m, reports } its
      real.told <+: plain.2 ∧
      (real.ok = true →
        real.told = plain.2 ∧ (o.serve d).askedIn its = plain.1.heard ∧
        (∀ t key, last ≤ t → real.server.engine.store.lookup t key = plain.1.map.lookup t key) ∧
        ∀ fd, (real.server.conns.find fd).map
            (fun state => (state.conn.pendingOutput, state.conn.closing)) =
          (plain.1.clients fd).map fun client => (client.owed, client.closing)) := by
  obtain ⟨rs, _, hall⟩ := Server.run_shows its (startup_shows hd hdir h hm fun _ => rfl) htimed
    hworks fun _ _ _ => trivial
  obtain ⟨hpre, hend⟩ := hall []
  rw [List.append_nil] at hpre hend
  refine ⟨rs, hpre, fun hok => ?_⟩
  obtain ⟨htold, hheard, hshows⟩ := hend hok
  exact ⟨htold, hheard.symm, fun t key ht => hshows.store.refines.lookup ht key, hshows.hosts.same⟩

/-- While the clock stands still. -/
theorem oneSet_timed : Iteration.AllTimed 0 oneSet 0 := by
  have henvs : InTime (fun _ => {}) (fun _ => 0) 0 :=
    ⟨fun _ _ => ⟨le_refl _, le_refl _⟩, fun _ => le_refl _⟩
  exact ⟨0, ⟨0, ⟨0, le_refl _, trivial, le_refl _⟩, le_refl _, le_refl _, le_refl _⟩,
    0, ⟨0, ⟨0, le_refl _, ⟨_, rfl, henvs⟩, le_refl _⟩, le_refl _, le_refl _, le_refl _⟩, le_refl _⟩

theorem oneSet_works : ∀ it ∈ oneSet, it.Works := by
  intro it hit r hr
  simp only [oneSet, List.mem_cons, List.not_mem_nil, or_false] at hit
  rcases hit with rfl | rfl
  · rw [List.mem_singleton.mp hr]
    trivial
  · rw [List.mem_singleton.mp hr]
    refine ⟨fun _ => ⟨rfl, ⟨fun _ => rfl, rfl, rfl⟩⟩, fun bytes hbytes => ?_⟩
    cases hbytes
    decide

theorem server_is_plain_set :
    (((freshStart {}).serve {}).run oneSet).told = [(5, text "+OK\r\n")] ∧
      ∃ reports, (PlainServer.run { policy := some .kAlways, reports } oneSet).2 =
        [(5, text "+OK\r\n")] := by
  have htold : (((freshStart {}).serve {}).run oneSet).told = [(5, text "+OK\r\n")] := by
    decide +kernel
  have hempty : ∀ t key, (0 : Int64) ≤ t →
      RefMap.empty.lookup t key = Disk.lookup {} t key := fun _ _ _ => rfl
  have hstart : startup {} {} {} = some (freshStart {}) := startup_empty rfl
  obtain ⟨reports, _, hend⟩ := server_is_plain (fun p hp => by cases hp) rfl hstart hempty oneSet
    oneSet_timed oneSet_works
  exact ⟨htold, reports, ((hend (by decide +kernel)).1.symm.trans htold)⟩

section TwoServers

variable {cfg cfg' : Config} {d d' : Disk} {boot boot' : Reading} {o o' : Outcome Unit}
  {now last : Int64} {its : List Iteration}

/-- Two servers on directories that show the same, given the same turns, show one
plain server at the end. -/
theorem startup_run_same (hd : d.Sane) (hd' : d'.Sane) (hdir : cfg.options.hasDir = true)
    (hdir' : cfg'.options.hasDir = true) (h : startup cfg d boot = some o)
    (h' : startup cfg' d' boot' = some o')
    (hsame : ∀ t key, now ≤ t → d.lookup t key = d'.lookup t key)
    (htimed : Iteration.AllTimed now its last) (hworks : ∀ it ∈ its, it.Works)
    (hasked : ∀ cmd ∈ ((o.serve d).run its).commands ++ ((o'.serve d').run its).commands,
      ¬cmd.IsNamed "info" ∧ ¬cmd.IsNamed "config")
    (hok : ((o.serve d).run its).ok = true) (hok' : ((o'.serve d').run its).ok = true) :
    ∃ p : PlainServer, ((o.serve d).run its).server.Shows False last p ∧
      ((o'.serve d').run its).server.Shows False last p ∧
      (o.serve d).askedIn its = (o'.serve d').askedIn its ∧
      ((o.serve d).run its).told = ((o'.serve d').run its).told := by
  rw [List.forall_mem_append] at hasked
  obtain ⟨m, hm⟩ := hd.exists_map now
  have hnone : ∀ {cmds : List Command}, (∀ cmd ∈ cmds, ¬cmd.IsNamed "info" ∧
      ¬cmd.IsNamed "config") → reportCount cmds = 0 := by
    intro cmds hcmds
    exact List.countP_eq_zero.mpr fun cmd hcmd => by simpa using (hcmds cmd hcmd).1
  have hstart : (o.serve d).Shows False now { map := m } := startup_shows hd hdir h hm nofun
  have hstart' : (o'.serve d').Shows False now { map := m } :=
    startup_shows hd' hdir' h' (fun t key ht => (hm t key ht).trans (hsame t key ht)) nofun
  obtain ⟨rs, hlen, hall⟩ := Server.run_shows its hstart htimed hworks
    fun cmd hcmd hc => (hasked.1 cmd hcmd).2 hc
  obtain ⟨rs', hlen', hall'⟩ := Server.run_shows its hstart' htimed hworks
    fun cmd hcmd hc => (hasked.2 cmd hcmd).2 hc
  rw [hnone hasked.1, List.length_eq_zero_iff] at hlen
  rw [hnone hasked.2, List.length_eq_zero_iff] at hlen'
  subst hlen hlen'
  obtain ⟨htold, hheard, hshows⟩ := (hall []).2 hok
  obtain ⟨htold', hheard', hshows'⟩ := (hall' []).2 hok'
  exact ⟨_, hshows, hshows', hheard.symm.trans hheard', htold.trans htold'.symm⟩

end TwoServers

/-- How a server is configured cannot be told from outside. Two servers, with
any thresholds, filters, compaction and sync policies, on directories that show
the same, are given the same turns, in which neither is asked for `INFO` or
`CONFIG`. If neither gives up they hear the same commands, send the same bytes
in the same pieces, and show the same keys at the end. -/
theorem settings_unseen {cfg cfg' : Config} {d d' : Disk} {boot boot' : Reading}
    {o o' : Outcome Unit} (hd : d.Sane) (hd' : d'.Sane) (hdir : cfg.options.hasDir = true)
    (hdir' : cfg'.options.hasDir = true) (h : startup cfg d boot = some o)
    (h' : startup cfg' d' boot' = some o') {now last : Int64}
    (hsame : ∀ t key, now ≤ t → d.lookup t key = d'.lookup t key)
    (its : List Iteration) (htimed : Iteration.AllTimed now its last)
    (hworks : ∀ it ∈ its, it.Works)
    (hasked : ∀ cmd ∈ ((o.serve d).run its).commands ++ ((o'.serve d').run its).commands,
      ¬cmd.IsNamed "info" ∧ ¬cmd.IsNamed "config")
    (hok : ((o.serve d).run its).ok = true) (hok' : ((o'.serve d').run its).ok = true) :
    (o.serve d).askedIn its = (o'.serve d').askedIn its ∧
      ((o.serve d).run its).told = ((o'.serve d').run its).told ∧
      ∀ t key, last ≤ t → ((o.serve d).run its).server.engine.store.lookup t key =
        ((o'.serve d').run its).server.engine.store.lookup t key := by
  obtain ⟨p, hshows, hshows', hheard, htold⟩ :=
    startup_run_same hd hd' hdir hdir' h h' hsame htimed hworks hasked hok hok'
  refine ⟨hheard, htold, fun t key ht => ?_⟩
  rw [hshows.store.refines.lookup ht, hshows'.store.refines.lookup ht]

/-- One server flushes every write and never syncs for a client, the other has
the defaults. -/
theorem settings_unseen_set :
    let cfg : Config :=
      { options := { memtableLimitBytes := 0, useBloom := false }, policy := .kNo }
    (((freshStart cfg).serve {}).run oneSet).server.engine.store.sstables.length = 1 ∧
      (((freshStart {}).serve {}).run oneSet).server.engine.store.sstables.length = 0 ∧
      (((freshStart cfg).serve {}).run oneSet).told =
        (((freshStart {}).serve {}).run oneSet).told := by
  intro cfg
  have hcmds : (((freshStart cfg).serve {}).run oneSet).commands ++
      (((freshStart {}).serve {}).run oneSet).commands =
        [[text "SET", text "k", text "v"], [text "SET", text "k", text "v"]] := by
    decide +kernel
  refine ⟨by decide +kernel, by decide +kernel, ?_⟩
  refine (settings_unseen (fun p hp => by cases hp) (fun p hp => by cases hp) rfl rfl
    (startup_empty rfl) (startup_empty rfl) (fun _ _ _ => rfl) oneSet oneSet_timed oneSet_works
    ?_ (by decide +kernel) (by decide +kernel)).2.1
  rw [hcmds]
  decide

end Cachedb
