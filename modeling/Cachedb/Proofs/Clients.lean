import Cachedb.Proofs.Operations
import Cachedb.Proofs.Progress
import Cachedb.Proofs.Requests
import Cachedb.Proofs.Sessions
import Cachedb.Spec.PlainServer

/-!
# A client of the server and of the plain server

What a connection does with the bytes it is given, command by command as they
are complete, comes to reading them all and executing the commands one after
the other. The plain server does just that. So a connection and a client that
keep the same bytes (`Connection.Serves`) keep the same bytes after a read, with
the store and the map agreeing again, and after a `send`.

A plain server has nothing to say to an `INFO`. It is given a list of reports,
and the list is found as the commands are gone through: what holds of some
commands holds for some reports, whatever reports come behind them.
-/

namespace Cachedb

open Resume

/-! ## Reading -/

theorem RespParser.readAll_reads (fuel : Nat) : ∀ (p : RespParser) (inp : Bytes),
    inp.length < fuel → Reads move p inp (readAll fuel p inp).1 (readAll fuel p inp).2 := by
  induction fuel with
  | zero => intro p inp h; omega
  | succ fuel ih =>
      intro p inp hfuel
      have hparsed := p.parse_cases inp
      rw [readAll]
      generalize p.parse inp = o at hparsed
      cases hparsed with
      | @complete q n cmd h =>
          obtain ⟨hpos, hn⟩ := first_sized h
          exact h.reads_emit (ih q (inp.drop n) (by rw [List.length_drop]; omega))
      | needMore h => exact h.reads_wait
      | fail h => exact h.reads_fail

/-- Where it waits a parser leaves a line at most. -/
theorem RespParser.reads_left {p q : RespParser} {inp rest : Bytes} {cmds : List Command}
    {fin : End RespParser UInt8 Bytes} (h : Reads move p inp cmds fin)
    (hfin : fin = .waits q rest) : rest.length ≤ kMaxLineLen := by
  induction h with
  | wait h =>
      cases hfin
      have hleft := move_wait_left h
      rw [List.length_drop]
      omega
  | fail => cases hfin
  | skip _ _ ih => exact ih hfin
  | emit _ _ ih => exact ih hfin

/-! ## Commands -/

/-- The store behind commands executed one after the other. -/
def Store.behind (s : Store) (envs : Nat → Env) : List Command → Store
  | [] => s
  | cmd :: cmds => (execute cmd s (envs 0)).store.behind (fun n => envs (n + 1)) cmds

theorem Connection.drain_behind (fuel : Nat) : ∀ (envs : Nat → Env) (c : Connection) (s : Store),
    (c.drain envs fuel s).store = s.behind envs (c.drain envs fuel s).commands := by
  induction fuel with
  | zero => exact fun _ _ _ => rfl
  | succ fuel ih =>
      intro envs c s
      rw [drain]
      simp only []
      split
      · exact ih _ _ _
      · rfl
      · rfl

/-- The readings of the `n`-th command lie between the `n`-th bound and the
next. -/
structure InTime (envs : Nat → Env) (bound : Nat → Int64) (upTo : Int64) : Prop where
  clock : ∀ n k, bound n ≤ ((envs n).clock k).wall ∧ ((envs n).clock k).wall ≤ bound (n + 1)
  le : ∀ n, bound n ≤ upTo

theorem InTime.next {envs : Nat → Env} {bound : Nat → Int64} {upTo : Int64}
    (h : InTime envs bound upTo) :
    InTime (fun n => envs (n + 1)) (fun n => bound (n + 1)) upTo where
  clock n := h.clock (n + 1)
  le n := h.le (n + 1)

/-- How many reports the commands use up. -/
def reportCount (cmds : List Command) : Nat := cmds.countP fun cmd => cmd.IsNamed "info"

theorem reportCount_append (xs ys : List Command) :
    reportCount (xs ++ ys) = reportCount xs + reportCount ys := List.countP_append

/-- The plain server with other reports to give. -/
def PlainServer.given (p : PlainServer) (reports : List Bytes) : PlainServer := { p with reports }

/-- `ask` is whether somebody may ask for the policy of the log. -/
structure Permits (ask : Prop) (cmd : Command) : Prop where
  fits : cmd.Fits
  config : cmd.IsNamed "config" → ask

/-- The store shows the map, and its log has the policy if somebody may ask. -/
structure Store.Shows (ask : Prop) (now : Int64) (s : Store) (m : RefMap)
    (policy : Option SyncPolicy) : Prop where
  sane : s.Sane
  refines : s.Refines now m
  policy : ask → s.wal.map Wal.policy = policy

theorem Store.Shows.mono {ask : Prop} {now t : Int64} {s : Store} {m : RefMap}
    {policy : Option SyncPolicy} (h : s.Shows ask now m policy) (ht : now ≤ t) :
    s.Shows ask t m policy :=
  ⟨h.sane, h.refines.mono ht, h.policy⟩

theorem Store.policy_of_settings {s s' : Store} (h : s'.settings = s.settings) :
    s'.wal.map Wal.policy = s.wal.map Wal.policy := by
  have hpolicy := congrArg (fun settings => settings.2.map Prod.fst) h
  simpa [Store.settings, Option.map_map, Function.comp_def, Wal.settings] using hpolicy

/-- A report is said and leaves no trace in the map. -/
theorem Command.answer_map (cmd : Command) (policy : Option SyncPolicy) (r r' : Bytes) (m : RefMap)
    (env : Env) : (cmd.answer policy r m env).1 = (cmd.answer policy r' m env).1 := by
  cases cmd with
  | nil => rfl
  | cons raw args =>
      rw [Command.answer, Command.answer]
      cases Operation.read raw args <;> rfl

theorem PlainServer.execute_shows {ask : Prop} {now upTo : Int64} {s : Store} {p : PlainServer}
    (h : s.Shows ask now p.map p.policy) (fd : Nat) {cmd : Command} (hcmd : Permits ask cmd)
    {env : Env} (hlog : env.log = {}) (hall : env.FlushAllSucceeds)
    (hclock : ∀ n, now ≤ (env.clock n).wall ∧ (env.clock n).wall ≤ upTo) :
    ∃ (rs : List Bytes) (p' : PlainServer), rs.length = reportCount [cmd] ∧
      (Cachedb.execute cmd s env).store.Shows ask upTo p'.map p'.policy ∧
      p'.clients = p.clients ∧ p'.heard = p.heard ++ [(fd, cmd)] ∧
      ∀ more, (p.given (rs ++ more)).execute fd env cmd =
        (p'.given more, (Cachedb.execute cmd s env).ret) := by
  obtain ⟨report, hreport⟩ : ∃ report, (cmdInfo cmd s env).ret = bulkString report := ⟨_, rfl⟩
  have hfaces : Faces s p.map env now upTo :=
    ⟨h.sane, h.refines, hlog, hclock, le_trans (hclock 0).1 (hclock 0).2⟩
  have hanswers : ∀ r, (cmd.IsNamed "info" → r = report) →
      Answers upTo (Cachedb.execute cmd s env) (cmd.answer p.policy r p.map env) := by
    intro r hr
    refine execute_answers hfaces hcmd.fits (fun _ => hall)
      (fun hc => h.policy (hcmd.config hc)) fun hi => ?_
    rw [hr hi, hreport]
  have hshows : (Cachedb.execute cmd s env).store.Shows ask upTo
      (cmd.answer p.policy report p.map env).1 p.policy := by
    obtain ⟨_, hsane, hrefines⟩ := hanswers report fun _ => rfl
    refine ⟨hsane, hrefines, fun hask => ?_⟩
    rw [Store.policy_of_settings (s.execute_settings cmd env)]
    exact h.policy hask
  by_cases hinfo : cmd.IsNamed "info"
  · refine ⟨[report], { p with map := _, heard := _ }, by simp [reportCount, hinfo], hshows, rfl,
      rfl, fun more => ?_⟩
    have hreply := (hanswers report fun _ => rfl).reply
    simp only [PlainServer.execute, PlainServer.given, List.cons_append, List.headD_cons,
      if_pos hinfo, List.tail_cons, List.nil_append, ← hreply]
  · refine ⟨[], { p with map := _, heard := _ }, by simp [reportCount, hinfo], hshows, rfl, rfl,
      fun more => ?_⟩
    have hreply := (hanswers (more.headD []) fun hi => absurd hi hinfo).reply
    simp only [PlainServer.execute, PlainServer.given, List.nil_append, if_neg hinfo, ← hreply]
    rw [cmd.answer_map p.policy (more.headD []) report]

theorem PlainServer.executeAll_shows {ask : Prop} {upTo : Int64} (fd : Nat) (cmds : List Command) :
    ∀ {s : Store} {p : PlainServer} {envs : Nat → Env} {bound : Nat → Int64},
      s.Shows ask (bound 0) p.map p.policy → (∀ cmd ∈ cmds, Permits ask cmd) →
      InTime envs bound upTo →
      (∀ n, (envs n).log = {} ∧ (envs n).FlushAllSucceeds) →
      ∃ (rs : List Bytes) (p' : PlainServer), rs.length = reportCount cmds ∧
        (s.behind envs cmds).Shows ask upTo p'.map p'.policy ∧ p'.clients = p.clients ∧
        p'.heard = p.heard ++ cmds.map (Prod.mk fd) ∧
        ∀ more, (p.given (rs ++ more)).executeAll fd envs cmds =
          (p'.given more, (s.answers envs cmds).flatten) := by
  induction cmds with
  | nil =>
      intro s p envs bound h _ htime _
      exact ⟨[], p, rfl, h.mono (htime.le 0), rfl, (List.append_nil _).symm, fun _ => rfl⟩
  | cons cmd cmds ih =>
      intro s p envs bound h hcmds htime hfate
      rw [List.forall_mem_cons] at hcmds
      obtain ⟨rs, p₁, hlen, hone, hclients, hheard, hrun⟩ :=
        execute_shows h fd hcmds.1 (hfate 0).1 (hfate 0).2 (htime.clock 0)
      obtain ⟨rs', p₂, hlen', hrest, hclients', hheard', hrun'⟩ :=
        ih hone hcmds.2 htime.next fun n => hfate (n + 1)
      refine ⟨rs ++ rs', p₂, ?_, hrest, hclients'.trans hclients, ?_, fun more => ?_⟩
      · rw [List.length_append, hlen, hlen', ← reportCount_append]
        rfl
      · rw [hheard', hheard, List.append_assoc]
        rfl
      · rw [executeAll, List.append_assoc, hrun]
        simp only [hrun', Store.answers, List.flatten_cons]

/-! ## Nothing is sent behind the loop's back -/

/-- The pieces a client is sent. -/
def Event.told : Event → Option (Nat × Bytes)
  | .sent fd data => some (fd, data)
  | _ => none

/-- The events tell no client anything. -/
def Quiet (events : List Event) : Prop := events.filterMap Event.told = []

@[simp] theorem quiet_nil : Quiet [] := rfl

@[simp] theorem quiet_append {xs ys : List Event} : Quiet (xs ++ ys) ↔ Quiet xs ∧ Quiet ys := by
  simp [Quiet]

@[simp] theorem quiet_cons {e : Event} {xs : List Event} :
    Quiet (e :: xs) ↔ e.told = none ∧ Quiet xs := by
  cases h : e.told <;> simp [Quiet, h]

theorem told_between {xs ys zs : List Event} (hxs : Quiet xs) (hzs : Quiet zs) :
    (xs ++ ys ++ zs).filterMap Event.told = ys.filterMap Event.told := by
  rw [Quiet] at hxs hzs
  rw [List.filterMap_append, List.filterMap_append, hxs, hzs, List.append_nil, List.nil_append]

@[simp] theorem quiet_writeTemp (temp : FileName) (ok : Bool) (content : Bytes)
    (fate : FileFate) : Quiet (writeTemp temp ok content fate).2 := by
  unfold writeTemp
  split
  · rfl
  · simp only []
    split <;> rfl

@[simp] theorem quiet_unlinkEvents (ok : Bool) (file : FileName) :
    Quiet (unlinkEvents ok file) := by
  cases ok <;> rfl

@[simp] theorem quiet_unlinkRun (unlink : Nat → Bool) (paths : List FileName) :
    ∀ n, Quiet (unlinkRun unlink n paths) := by
  induction paths with
  | nil => exact fun _ => rfl
  | cons path paths ih => exact fun n => quiet_append.mpr ⟨quiet_unlinkEvents _ _, ih _⟩

@[simp] theorem quiet_unlinkAll (unlink : Nat → Bool) (paths : List FileName) :
    ∀ n, Quiet (unlinkAll unlink n paths).2 := by
  induction paths with
  | nil => exact fun _ => rfl
  | cons path paths ih => exact fun n => quiet_append.mpr ⟨quiet_unlinkEvents _ _, ih _⟩

@[simp] theorem Wal.quiet_sync (w : Wal) (now : Reading) (ok : Bool) :
    Quiet (w.sync now ok).events := by
  cases ok <;> rfl

@[simp] theorem Wal.quiet_truncate (w : Wal) (now : Reading) (fate : TruncateFate) :
    Quiet (w.truncate now fate).events := by
  rcases w.truncate_cases now fate with h | ⟨_, h⟩
  · rw [h]; rfl
  · rw [h]; rfl

@[simp] theorem Wal.quiet_step (w : Wal) (step : LogStep) : Quiet (w.step step).events := by
  rw [Wal.step_eq]
  split
  · rfl
  · have hcases := w.commit_cases (Wal.batchBytes step.mutations step.now.wall) step.now step.fate
    generalize w.commit _ _ _ = l at hcases
    cases hcases <;> rfl

@[simp] theorem Wal.quiet_maybeSync (w : Wal) (now : Reading) (ok : Bool) :
    Quiet (w.maybeSync now ok).events := by
  unfold Wal.maybeSync
  split
  · rfl
  · split
    · rfl
    · split
      · rfl
      · exact w.quiet_sync now ok

namespace Store

theorem quiet_onLog {f : Wal → Logged} (h : ∀ w, Quiet (f w).events) (s : Store) :
    Quiet (s.onLog f).events := by
  cases hw : s.wal with
  | none => rw [s.onLog_none f hw]; rfl
  | some w => rw [s.onLog_some f hw]; exact h w

@[simp] theorem quiet_cut (s : Store) (now : Reading) (fate : TruncateFate) :
    Quiet (s.onLog fun w => w.truncate now fate).events :=
  quiet_onLog (fun w => w.quiet_truncate now fate) s

theorem quiet_flush (s : Store) (now : Reading) (fate : FlushFate) :
    Quiet (s.flush now fate).events := by
  unfold flush
  split
  · rfl
  · simp only []
    split
    · simp
    · split
      · simp [Event.told]
      · split
        · simp [Event.told]
        · split <;> simp [Event.told]

theorem quiet_mutate {α : Type} (s : Store) (ms : List Mutation) (step : LogStep) (mt : Memtable)
    (now : Reading) (fate : FlushFate) (refused accepted : α) :
    Quiet (s.mutate ms (fun w => w.step step) mt now fate refused accepted).events := by
  have hlog := quiet_onLog (fun w => w.quiet_step step) s
  unfold mutate
  simp only []
  split
  · simp [Event.told, hlog]
  · rcases maybeFlush_cases { (s.onLog fun w => w.step step).store with memtable := mt } now fate
      with h | h
    · simp [Event.told, hlog, h]
    · simp [Event.told, hlog, h, quiet_flush]

theorem quiet_maybeCompact (s : Store) (d : Disk) (env : Env) :
    Quiet (s.maybeCompact d env).events := by
  unfold maybeCompact
  split
  · rfl
  · unfold compactRun
    simp only []
    split
    · simp
    · split
      · simp [Event.told]
      · split
        · split <;> simp [Event.told]
        · simp [Event.told]

theorem quiet_flushAll (s : Store) (env : Env) : Quiet (s.flushAll env).events := by
  unfold flushAll
  simp only []
  split
  · split <;> simp [Event.told]
  · split
    · split <;> simp [Event.told]
    · split <;> simp [Event.told]

theorem quiet_call (s : Store) (d : Disk) (env : Env) (c : Call) :
    Quiet (s.call d env c).events := by
  have hcases := s.call_cases d env c
  generalize s.call d env c = o at hcases
  cases hcases with
  | nothing => rfl
  | mutated step _ mt _ _ now refused accepted =>
      exact s.quiet_mutate step.mutations step mt now env.flush refused accepted
  | flushed now => exact s.quiet_flush now env.flush
  | swept => rfl
  | merged => exact s.quiet_maybeCompact d env
  | cleared => exact s.quiet_flushAll env

end Store

theorem quiet_execute (cmd : Command) (s : Store) (env : Env) :
    Quiet (execute cmd s env).events := by
  have hcases := execute_cases cmd s {} env
  generalize execute cmd s env = o at hcases
  cases hcases with
  | replied => rfl
  | called c env' => exact s.quiet_call {} env' c

theorem Engine.quiet_commandEvents (cs : List (Command × Env)) :
    ∀ e : Engine, Quiet (e.commandEvents cs) := by
  induction cs with
  | nil => exact fun _ => rfl
  | cons c cs ih => exact fun e => quiet_append.mpr ⟨quiet_execute c.1 e.store c.2, ih _⟩

theorem Server.quiet_serviceAll (s : Server) (ready : List Ready) :
    Quiet (s.serviceAll ready).2.events := by
  obtain ⟨cs, _, _, hevents, _⟩ := s.serviceAll_executes ready
  rw [← hevents]
  exact Engine.quiet_commandEvents cs s.engine

/-! ## One client -/

/-- A connection keeps what the client has to be given and has sent. -/
structure Connection.Serves (c : Connection) (client : Client) : Prop where
  owed : c.pendingOutput = client.owed
  placed : c.outPos ≤ c.out.length
  closing : c.closing = client.closing
  bounded : c.Bounded
  reading : c.closing = false → c.parser = client.parser ∧ c.inBuf = client.unread ∧
    c.inBuf.length ≤ RespParser.kMaxLineLen ∧
    RespParser.kMaxLineLen + kReadChunk ≤ c.maxReadBuffer

theorem Connection.serves_new : Connection.Serves {} {} where
  owed := rfl
  placed := Nat.le_refl _
  closing := rfl
  bounded := Connection.bounded_new
  reading _ := ⟨rfl, rfl, Nat.zero_le _, by decide⟩

/-- A chunk always fits the read buffer, so what is read is what the parser makes
of it, and what the client is told are the answers and the parser's error. -/
theorem Connection.Serves.onBytes {c : Connection} {client : Client} (h : c.Serves client)
    (hopen : client.closing = false) {bytes : Bytes} (hbytes : bytes.length ≤ kReadChunk)
    (s : Store) (envs : Nat → Env) :
    ∃ cmds fin, client.parser.readAll ((client.unread ++ bytes).length + 1)
        (client.unread ++ bytes) = (cmds, fin) ∧
      (c.onBytes bytes s envs).commands = cmds ∧ (∀ cmd ∈ cmds, cmd.Fits) ∧
      (c.onBytes bytes s envs).store = s.behind envs cmds ∧
      (c.onBytes bytes s envs).conn.Serves
        (client.told (s.answers envs cmds).flatten fin) := by
  have hclosing : c.closing = false := h.closing.trans hopen
  obtain ⟨hparser, hbuf, hleft, hroom⟩ := h.reading hclosing
  obtain ⟨hbounded, hfits⟩ := Connection.onBytes_bounded h.bounded bytes s envs
  obtain ⟨fin, hreads, hbecame⟩ := Connection.drain_reads ((c.inBuf ++ bytes).length + 1) envs
    { c with inBuf := c.inBuf ++ bytes } s (Nat.lt_succ_self _)
  have honBytes : c.onBytes bytes s envs =
      Connection.drain envs ((c.inBuf ++ bytes).length + 1)
        { c with inBuf := c.inBuf ++ bytes } s := by
    rw [Connection.onBytes, if_neg (by rw [hclosing]; decide), if_neg (by omega)]
  have hall := RespParser.readAll_reads ((client.unread ++ bytes).length + 1) client.parser
    (client.unread ++ bytes) (Nat.lt_succ_self _)
  rw [← honBytes] at hreads hbecame
  rw [← hparser, ← hbuf] at hall ⊢
  obtain ⟨hcmds, hfin⟩ := hall.unique hreads
  refine ⟨_, fin, Prod.ext hcmds hfin, rfl, hfits, ?_, ?_⟩
  · rw [honBytes]
    exact Connection.drain_behind _ _ _ _
  · generalize hconn : (c.onBytes bytes s envs).conn = c' at hbounded hbecame ⊢
    cases fin with
    | waits parser unread =>
        have hpos : c'.outPos = c.outPos := by rw [hbecame]
        have hout : c'.out = c.out ++ _ := congrArg Connection.out hbecame
        exact {
          owed := by
            rw [Connection.pendingOutput_append h.placed hpos hout, h.owed]
            rfl
          placed := by
            rw [hbecame, List.length_append]
            exact Nat.le_add_right_of_le h.placed
          closing := by rw [hbecame]; exact h.closing
          bounded := hbounded
          reading := fun _ => by
            rw [hbecame]
            exact ⟨rfl, rfl, RespParser.reads_left hreads rfl, hroom⟩ }
    | failed error =>
        obtain ⟨_, hclosed, hpos, hout⟩ := hbecame
        exact {
          owed := by
            rw [Connection.pendingOutput_append h.placed hpos hout, h.owed, Client.told,
              List.append_assoc]
            rfl
          placed := by
            rw [hpos, hout, List.length_append]
            exact Nat.le_add_right_of_le h.placed
          closing := hclosed
          bounded := hbounded
          reading := fun hopen' => by rw [hclosed] at hopen'; cases hopen' }

/-- Whatever the socket takes, it takes from the front of what is owed. -/
theorem Connection.Serves.consumeOutput {c : Connection} {client : Client} (h : c.Serves client)
    {n : Nat} (hn : n ≤ client.owed.length) :
    (c.consumeOutput n).Serves { client with owed := client.owed.drop n } := by
  obtain ⟨hpending, hplaced⟩ := Connection.consumeOutput_spec h.placed (h.owed ▸ hn)
  obtain ⟨hparser, hbuf, hclosing, hmax⟩ := c.consumeOutput_input n
  exact {
    owed := hpending.trans (congrArg (List.drop n) h.owed)
    placed := hplaced
    closing := hclosing.trans h.closing
    bounded := Connection.consumeOutput_bounded h.bounded n
    reading := by
      rw [hparser, hbuf, hclosing, hmax]
      exact h.reading }

theorem Connection.Serves.writePending (fd : Nat) (sends : List Send) :
    ∀ {c : Connection} {client : Client}, c.Serves client →
      (Server.writePending fd c sends).1 = (PlainServer.hand client.owed sends).1 ∧
      (Server.writePending fd c sends).2.1.Serves
        { client with owed := (PlainServer.hand client.owed sends).2.1 } ∧
      (Server.writePending fd c sends).2.2.filterMap Event.told =
        (PlainServer.hand client.owed sends).2.2.map fun data => (fd, data) := by
  induction sends with
  | nil => exact fun h => ⟨rfl, h, rfl⟩
  | cons send sends ih =>
      intro c client h
      unfold Server.writePending PlainServer.hand
      rw [Connection.hasPendingOutput, h.owed]
      by_cases hnone : client.owed = []
      · rw [if_pos (by simp [hnone]), if_pos hnone]
        exact ⟨rfl, h, rfl⟩
      · rw [if_neg (by simpa using hnone), if_neg hnone]
        cases send with
        | wouldBlock => exact ⟨rfl, h, rfl⟩
        | failed => exact ⟨rfl, h, rfl⟩
        | took n =>
            simp only []
            by_cases htake : client.owed.take n = []
            · rw [if_pos htake, if_pos htake]
              exact ⟨rfl, h, rfl⟩
            · rw [if_neg htake, if_neg htake]
              have hlen : (client.owed.take n).length ≤ client.owed.length :=
                List.length_take_le' n client.owed
              have hdrop : client.owed.drop (client.owed.take n).length = client.owed.drop n := by
                simp [List.drop_eq_drop_iff]
              have hnext := h.consumeOutput hlen
              rw [hdrop] at hnext
              obtain ⟨hok, hserves, hevents⟩ := ih hnext
              exact ⟨hok, hserves, by
                rw [List.filterMap_cons, Event.told]; simp only [hevents, List.map_cons]⟩

end Cachedb
