import Cachedb.Proofs.Language
import Cachedb.Proofs.PlainServer
import Mathlib.Data.List.Infix
import Mathlib.Data.Set.List

/-!
# A client and its server talk

One client is followed through a run of the loop in which others come, go, are
served and fail. What it has sent so far is cut anywhere, and so is what it is
sent; between two of its requests the store may become any other. Still, the
commands executed for it are those its bytes spell, and every one of them is
answered once, in order, and nothing else is ever sent to it.

`Server.Talks` is what holds between two steps: the parser of the connection
waits for what is left of the stream, and so many bytes are still owed. Each
step of a turn keeps it for the client at hand, by one lemma where the step is
about this client and one where it is about another.
-/

namespace Cachedb

open Resume Grammar

/-! ## Streams in reads -/

theorem Grammar.Stream.ne_nil {bytes : Bytes} {cmds : List Command} (h : Stream bytes cmds) :
    ∀ cmd ∈ cmds, cmd ≠ [] := by
  induction h with
  | nil => exact fun _ hcmd => absurd hcmd List.not_mem_nil
  | skipped _ _ ih => exact ih
  | request h _ ih => exact List.forall_mem_cons.mpr ⟨h.ne_nil, ih⟩

/-- A piece of the stream is read to its end, and the parser awaits the rest. -/
theorem RespParser.Awaits.chunk {p : RespParser} {buf piece future : Bytes}
    {cmds now : List Command} {fin : End RespParser UInt8 Bytes}
    (h : Awaits p buf (piece ++ future) cmds) (hreads : Reads move p (buf ++ piece) now fin) :
    ∃ q rest later, fin = .waits q rest ∧ cmds = now ++ later ∧ Awaits q rest future later := by
  have hall := h.reads
  have hshort := h.short
  rw [← List.append_assoc] at hall hshort
  cases fin with
  | failed error => cases (hall.unique (hreads.append_failed resumable hshort)).2
  | waits q rest =>
      obtain ⟨hrest, hgoes⟩ := hreads.append resumable hshort
      obtain ⟨later, fin, hlater⟩ := exists_reads q (rest ++ future)
      obtain ⟨hcmds, hfin⟩ := hall.unique (hgoes hlater)
      exact ⟨q, rest, later, rfl, hcmds, hfin ▸ hlater, hrest⟩

/-! ## One client among many -/

/-- Of what concerns several clients, that which concerns one. -/
def forClient {α : Type} (fd : Nat) (xs : List (Nat × α)) : List α :=
  xs.filterMap fun x => if x.1 = fd then some x.2 else none

section ForClient

variable {α : Type} {fd fd' : Nat}

theorem forClient_append (fd : Nat) (xs ys : List (Nat × α)) :
    forClient fd (xs ++ ys) = forClient fd xs ++ forClient fd ys := List.filterMap_append

theorem forClient_own (fd : Nat) (xs : List α) : forClient fd (xs.map (Prod.mk fd)) = xs := by
  simp [forClient, List.filterMap_map]

theorem forClient_other (h : fd' ≠ fd) (xs : List α) :
    forClient fd (xs.map (Prod.mk fd')) = [] := by
  simp [forClient, List.filterMap_map, h]

theorem mem_of_forClient {x : α} {xs : List (Nat × α)} (h : x ∈ forClient fd xs) :
    (fd, x) ∈ xs := by
  obtain ⟨y, hy, hx⟩ := List.mem_filterMap.mp h
  split at hx
  · next hfd =>
      cases hx
      rwa [← hfd]
  · cases hx

end ForClient

/-- The bytes a notification brings from a client. -/
def Ready.spoken (fd : Nat) : Ready → Bytes
  | .socket fd' _ (some (.data bytes)) _ => if fd' = fd then bytes else []
  | _ => []

def Iteration.spoken (fd : Nat) (it : Iteration) : Bytes := it.ready.flatMap (Ready.spoken fd)

/-- The client is there and sends as much as one `read` returns, or nothing. -/
def Ready.Hears (fd : Nat) : Ready → Prop
  | .listener _ => True
  | .socket fd' hungUp read _ => fd' = fd → hungUp = false ∧ read ≠ some .closed ∧
      read ≠ some .failed ∧ ∀ bytes, read = some (.data bytes) → bytes.length ≤ kReadChunk

/-- The commands of a batch, who gave them, and the answers. -/
def Server.exchanges (s : Server) : List Ready → List (Nat × Command × Bytes)
  | [] => []
  | .listener accepted :: rest => (s.acceptReady accepted).exchanges rest
  | .socket fd hungUp read envs :: rest =>
      let served := (s.service fd hungUp read envs).2
      (served.commands.zip (s.engine.store.answers envs served.commands)).map (Prod.mk fd) ++
        served.server.exchanges rest

def Server.exchangesIn (s : Server) : List Iteration → List (Nat × Command × Bytes)
  | [] => []
  | it :: its =>
      s.exchanges it.ready ++
        if (s.iterate it).ok then (s.iterate it).server.exchangesIn its else []

theorem Store.answers_length (cmds : List Command) :
    ∀ (s : Store) (envs : Nat → Env), (s.answers envs cmds).length = cmds.length := by
  induction cmds with
  | nil => exact fun _ _ => rfl
  | cons cmd cmds ih => exact fun s envs => congrArg (· + 1) (ih _ _)

/-! ## Answers -/

theorem Store.answers_replies (cmds : List Command) :
    ∀ (s : Store) (envs : Nat → Env), ∀ x ∈ cmds.zip (s.answers envs cmds),
      x.1 ≠ [] → IsReply x.2 := by
  induction cmds with
  | nil => exact fun _ _ x hx => absurd hx List.not_mem_nil
  | cons cmd cmds ih =>
      intro s envs
      rw [answers, List.zip_cons_cons, List.forall_mem_cons]
      exact ⟨fun hcmd => execute_reply s (envs 0) hcmd, ih _ _⟩

theorem Server.exchanges_replies (ready : List Ready) :
    ∀ s : Server, ∀ x ∈ s.exchanges ready, x.2.1 ≠ [] → IsReply x.2.2 := by
  induction ready with
  | nil => exact fun _ x hx => absurd hx List.not_mem_nil
  | cons r ready ih =>
      intro s
      cases r with
      | listener accepted => exact ih _
      | socket fd hungUp read envs =>
          rw [exchanges, List.forall_mem_append, List.forall_mem_map]
          exact ⟨Store.answers_replies _ _ _, ih _⟩

theorem Server.exchangesIn_replies (its : List Iteration) :
    ∀ s : Server, ∀ x ∈ s.exchangesIn its, x.2.1 ≠ [] → IsReply x.2.2 := by
  induction its with
  | nil => exact fun _ x hx => absurd hx List.not_mem_nil
  | cons it its ih =>
      intro s
      rw [exchangesIn, List.forall_mem_append]
      refine ⟨s.exchanges_replies it.ready, ?_⟩
      split
      · exact ih _
      · exact fun x hx => absurd hx List.not_mem_nil

/-! ## Staying connected -/

/-- The client is connected, the server waits for the rest of its stream, and
so much is owed to it. -/
def Server.Talks (s : Server) (fd : Nat) (future : Bytes) (later : List Command)
    (owed : Bytes) : Prop :=
  ∃ state client, s.conns.find fd = some state ∧ state.conn.Serves client ∧
    client.closing = false ∧ client.owed = owed ∧
    client.parser.Awaits client.unread future later ∧
    RespParser.move client.parser client.unread = .wait client.parser 0

namespace Server

variable {s : Server} {fd fd' : Nat} {future : Bytes} {later : List Command} {owed : Bytes}

theorem Talks.of_find {s' : Server} (h : s.Talks fd future later owed)
    (hfind : s'.conns.find fd = s.conns.find fd) : s'.Talks fd future later owed := by
  obtain ⟨state, client, hstate, hrest⟩ := h
  exact ⟨state, client, hfind.trans hstate, hrest⟩

/-! ### Reading -/

theorem acceptReady_find {state : ConnState} (accepted : List (Nat × Bool)) :
    ∀ {s : Server}, s.conns.find fd = some state →
      (s.acceptReady accepted).conns.find fd = some state := by
  induction accepted with
  | nil => exact fun h => h
  | cons x rest ih =>
      intro s h
      rw [acceptReady]
      split
      · next hnew =>
          refine ih ?_
          rw [setConn, SortedMap.find_insert, if_neg, h]
          rintro rfl
          rw [hnew.2] at h
          cases h
      · exact ih h

theorem service_other (s : Server) (h : fd' ≠ fd) (hungUp : Bool) (read : Option Read)
    (envs : Nat → Env) :
    (s.service fd' hungUp read envs).2.server.conns.find fd = s.conns.find fd := by
  have hclosed : (s.closeConnection fd').conns.find fd = s.conns.find fd := by
    rw [closeConnection, SortedMap.find_erase, if_neg h.symm]
  unfold service
  split
  · rfl
  · split
    · exact hclosed
    · split
      · rfl
      · rfl
      · exact hclosed
      · exact hclosed
      · exact (SortedMap.find_insert ..).trans (if_neg h.symm)

theorem Talks.silent (h : s.Talks fd future later owed) (envs : Nat → Env) :
    ∃ later', later = [] ++ later' ∧
      s.Talks fd future later' (owed ++ (s.engine.store.answers envs []).flatten) := by
  refine ⟨later, rfl, ?_⟩
  rwa [Store.answers, List.flatten_nil, List.append_nil]

/-- What a client sends is read on, and it is owed the answers. -/
theorem Talks.service {hungUp : Bool} {read : Option Read} {envs : Nat → Env}
    (h : s.Talks fd ((Ready.socket fd hungUp read envs).spoken fd ++ future) later owed)
    (hhears : (Ready.socket fd hungUp read envs).Hears fd) :
    ∃ later', later = (s.service fd hungUp read envs).2.commands ++ later' ∧
      (s.service fd hungUp read envs).2.server.Talks fd future later'
        (owed ++ (s.engine.store.answers envs
          (s.service fd hungUp read envs).2.commands).flatten) := by
  obtain ⟨hup, hclosed, hfailed, hdata⟩ := hhears rfl
  obtain ⟨state, client, hfind, hserves, hopen, howed, hawaits, hsettled⟩ := id h
  unfold Server.service
  simp only [hfind, hup, Bool.false_eq_true, if_false]
  cases read with
  | none => exact h.silent envs
  | some r =>
      cases r with
      | wouldBlock => exact h.silent envs
      | closed => exact absurd rfl hclosed
      | failed => exact absurd rfl hfailed
      | data bytes =>
          rw [Ready.spoken, if_pos rfl] at hawaits
          obtain ⟨cmds, fin, hread, hcmds, _, _, hnext⟩ :=
            hserves.onBytes hopen (hdata bytes rfl) s.engine.store envs
          have hreads := RespParser.readAll_reads _ client.parser (client.unread ++ bytes)
            (Nat.lt_succ_self _)
          rw [hread] at hreads
          obtain ⟨q, rest, later', rfl, hlater, hawaits'⟩ := hawaits.chunk hreads
          dsimp only
          rw [hcmds, ← howed]
          exact ⟨later', hlater, _, _, (SortedMap.find_insert ..).trans (if_pos rfl), hnext, hopen,
            rfl, hawaits', hreads.settled RespParser.resumable⟩

theorem Talks.serviceAll (ready : List Ready) :
    ∀ {s : Server} {later : List Command} {owed : Bytes},
      s.Talks fd (ready.flatMap (Ready.spoken fd) ++ future) later owed →
      (∀ r ∈ ready, r.Hears fd) →
      ∃ later', later = (forClient fd (s.exchanges ready)).map Prod.fst ++ later' ∧
        (s.serviceAll ready).2.server.Talks fd future later'
          (owed ++ ((forClient fd (s.exchanges ready)).map Prod.snd).flatten) := by
  induction ready with
  | nil =>
      intro s later owed h _
      refine ⟨later, rfl, ?_⟩
      rwa [exchanges, forClient, List.filterMap_nil, List.map_nil, List.flatten_nil,
        List.append_nil]
  | cons r ready ih =>
      intro s later owed h hhears
      rw [List.forall_mem_cons] at hhears
      rw [List.flatMap_cons, List.append_assoc] at h
      cases r with
      | listener accepted =>
          obtain ⟨state, client, hfind, hrest⟩ := h
          exact ih ⟨state, client, acceptReady_find accepted hfind, hrest⟩ hhears.2
      | socket fd' hungUp read envs =>
          rw [exchanges, forClient_append]
          by_cases hfd : fd' = fd
          · subst hfd
            obtain ⟨mid, hmid, hone⟩ := h.service hhears.1
            obtain ⟨later', hlater, hall⟩ := ih hone hhears.2
            have hlen := (Store.answers_length (s.service fd' hungUp read envs).2.commands
              s.engine.store envs).symm.le
            rw [forClient_own, List.map_append, List.map_append, List.flatten_append,
              List.map_fst_zip hlen, List.map_snd_zip (Store.answers_length ..).le]
            refine ⟨later', by rw [hmid, hlater, List.append_assoc], ?_⟩
            rw [← List.append_assoc]
            exact hall
          · have hsilent : (Ready.socket fd' hungUp read envs).spoken fd = [] := by
              unfold Ready.spoken
              split
              · next heq => cases heq; exact if_neg hfd
              · rfl
            rw [hsilent, List.nil_append] at h
            rw [forClient_other hfd, List.nil_append]
            exact ih (h.of_find (s.service_other hfd hungUp read envs)) hhears.2

/-! ### Sending -/

theorem hand_flatten (sends : List Send) :
    ∀ owed : Bytes, (PlainServer.hand owed sends).2.2.flatten ++
      (PlainServer.hand owed sends).2.1 = owed := by
  induction sends with
  | nil => exact fun _ => rfl
  | cons send sends ih =>
      intro owed
      unfold PlainServer.hand
      split
      · rfl
      · cases send with
        | wouldBlock => rfl
        | failed => rfl
        | took n =>
            dsimp only
            split
            · rfl
            · rw [List.flatten_cons, List.append_assoc, ih, List.take_append_drop]

theorem writePending_told (fd : Nat) (sends : List Send) :
    ∀ conn : Connection, ∃ pieces : List Bytes,
      (writePending fd conn sends).2.2.filterMap Event.told = pieces.map (Prod.mk fd) := by
  induction sends with
  | nil => exact fun _ => ⟨[], rfl⟩
  | cons send sends ih =>
      intro conn
      unfold writePending
      split
      · exact ⟨[], rfl⟩
      · cases send with
        | wouldBlock => exact ⟨[], rfl⟩
        | failed => exact ⟨[], rfl⟩
        | took n =>
            dsimp only
            split
            · exact ⟨[], rfl⟩
            · obtain ⟨pieces, hpieces⟩ := ih _
              exact ⟨_ :: pieces, congrArg (List.cons _) hpieces⟩

theorem release_other (s : Server) (h : fd' ≠ fd) (sends : List Send) (epollCtl : Bool) :
    (s.release fd' sends epollCtl).server.conns.find fd = s.conns.find fd ∧
      forClient fd (s.release fd' sends epollCtl).told = [] := by
  unfold release
  split
  · exact ⟨rfl, rfl⟩
  · next state hstate =>
      obtain ⟨pieces, hpieces⟩ := writePending_told fd' sends state.conn
      have htold : forClient fd
          ((writePending fd' state.conn sends).2.2.filterMap Event.told) = [] := by
        rw [hpieces, forClient_other h]
      dsimp only
      split
      · exact ⟨(SortedMap.find_erase ..).trans (if_neg h.symm), htold⟩
      · exact ⟨(SortedMap.find_insert ..).trans (if_neg h.symm), htold⟩

/-- A client is sent the front of what it is owed, unless its socket is bad. -/
theorem Talks.release (h : s.Talks fd future later owed) (sends : List Send)
    (epollCtl : Bool) :
    (s.release fd sends epollCtl).server.conns.find fd = none ∨
      ∃ left, owed = (forClient fd (s.release fd sends epollCtl).told).flatten ++ left ∧
        (s.release fd sends epollCtl).server.Talks fd future later left := by
  obtain ⟨state, client, hfind, hserves, hopen, howed, hawaits, hsettled⟩ := h
  obtain ⟨_, hleft, htold⟩ := hserves.writePending fd sends
  have hstays : (writePending fd state.conn sends).2.1.shouldClose = false := by
    rw [Connection.shouldClose, hleft.closing]
    exact Bool.and_eq_false_imp.mpr fun hclosing => absurd (hopen.symm.trans hclosing) (by decide)
  unfold Server.release
  rw [hfind]
  dsimp only
  split
  · exact Or.inl ((SortedMap.find_erase ..).trans (if_pos rfl))
  · refine Or.inr ⟨(PlainServer.hand client.owed sends).2.1, ?_, _,
      { client with owed := (PlainServer.hand client.owed sends).2.1 },
      (SortedMap.find_insert ..).trans (if_pos rfl), by rw [updateInterest_conn]; exact hleft,
      hopen, rfl, hawaits, hsettled⟩
    rw [Turn.told, htold, forClient_own, hand_flatten, howed]

/-- Who is gone is sent nothing. -/
theorem releaseAll_gone (fds : List Nat) :
    ∀ {s : Server} (sends : Nat → List Send) (epollCtl : Nat → Bool),
      s.conns.find fd = none → (s.releaseAll sends epollCtl fds).server.conns.find fd = none := by
  induction fds with
  | nil => exact fun _ _ h => h
  | cons fd' fds ih =>
      intro s sends epollCtl h
      refine ih _ _ ?_
      by_cases hfd : fd' = fd
      · subst hfd
        unfold Server.release
        rw [h]
        exact h
      · exact (s.release_other hfd _ _).1.trans h

theorem Talks.releaseAll (fds : List Nat) :
    ∀ {s : Server} {owed : Bytes} (sends : Nat → List Send) (epollCtl : Nat → Bool),
      s.Talks fd future later owed →
      (s.releaseAll sends epollCtl fds).server.conns.find fd = none ∨
        ∃ left, owed = (forClient fd (s.releaseAll sends epollCtl fds).told).flatten ++ left ∧
          (s.releaseAll sends epollCtl fds).server.Talks fd future later left := by
  induction fds with
  | nil => exact fun _ _ h => Or.inr ⟨_, rfl, h⟩
  | cons fd' fds ih =>
      intro s owed sends epollCtl h
      have htold : (s.releaseAll sends epollCtl (fd' :: fds)).told =
          (s.release fd' (sends 0) (epollCtl 0)).told ++
            ((s.release fd' (sends 0) (epollCtl 0)).server.releaseAll (fun n => sends (n + 1))
              (fun n => epollCtl (n + 1)) fds).told := List.filterMap_append
      rw [htold, forClient_append, List.flatten_append]
      by_cases hfd : fd' = fd
      · subst hfd
        rcases h.release (sends 0) (epollCtl 0) with hgone | ⟨mid, hmid, hone⟩
        · exact Or.inl (releaseAll_gone fds _ _ hgone)
        · rcases ih (fun n => sends (n + 1)) (fun n => epollCtl (n + 1)) hone with
            hgone | ⟨left, hleft, hall⟩
          · exact Or.inl hgone
          · exact Or.inr ⟨left, by rw [hmid, hleft, List.append_assoc], hall⟩
      · obtain ⟨hfind, hnone⟩ := s.release_other hfd (sends 0) (epollCtl 0)
        rw [hnone, List.flatten_nil, List.nil_append]
        exact ih _ _ (h.of_find hfind)

/-! ### Turns -/

/-- One turn that leaves the client connected. -/
theorem Talks.iterate {it : Iteration} (h : s.Talks fd (it.spoken fd ++ future) later owed)
    (hhears : ∀ r ∈ it.ready, r.Hears fd) (hok : (s.iterate it).ok = true)
    (hthere : (s.iterate it).server.conns.find fd ≠ none) :
    ∃ later' left, later = (forClient fd (s.exchanges it.ready)).map Prod.fst ++ later' ∧
      owed ++ ((forClient fd (s.exchanges it.ready)).map Prod.snd).flatten =
        (forClient fd (s.iterate it).told).flatten ++ left ∧
      (s.iterate it).server.Talks fd future later' left := by
  obtain ⟨later', hlater, hserved⟩ := h.serviceAll it.ready hhears
  refine ⟨later', ?_⟩
  have hquiet : Quiet ((s.serviceAll it.ready).2.events ++
      ((s.serviceAll it.ready).2.server.syncLog it.now it.sync).events) :=
    quiet_append.mpr ⟨s.quiet_serviceAll it.ready, quiet_syncLog _ _ _⟩
  have hsynced : ((s.serviceAll it.ready).2.server.syncLog it.now it.sync).server.Talks fd future
      later' _ := hserved.of_find rfl
  have hreleased := hsynced.releaseAll (s.serviceAll it.ready).1 it.sends it.epollCtl
  rw [Server.iterate] at hok hthere ⊢
  dsimp only at hok hthere ⊢
  split at hok
  · next hfail => exact absurd hok (by simpa using hfail)
  · next hgood =>
      rw [if_neg hgood] at hthere ⊢
      rcases hreleased with hgone | ⟨left, hleft, htalks⟩
      · exact absurd hgone hthere
      · refine ⟨left, hlater, ?_, htalks.of_find rfl⟩
        rw [hleft]
        exact congrArg (fun told => (forClient fd told).flatten ++ left)
          (told_between hquiet (quiet_housekeeping _ it)).symm

/-- A run that goes on behind its first turn. -/
theorem run_cons (s : Server) (it : Iteration) (hone : (s.iterate it).ok = true)
    (its : List Iteration) :
    (s.run (it :: its)).server = ((s.iterate it).server.run its).server ∧
      (s.run (it :: its)).ok = ((s.iterate it).server.run its).ok ∧
      (s.run (it :: its)).told = (s.iterate it).told ++ ((s.iterate it).server.run its).told := by
  rw [Server.run]
  dsimp only
  rw [if_neg (by rw [hone]; decide)]
  exact ⟨rfl, rfl, List.filterMap_append⟩

theorem iterate_ok {it : Iteration} {its : List Iteration} (h : (s.run (it :: its)).ok = true) :
    (s.iterate it).ok = true := by
  rw [Server.run] at h
  dsimp only at h
  split at h
  · exact h
  · next hgo => simpa using hgo

theorem Talks.run (its : List Iteration) :
    ∀ {s : Server} {later : List Command} {owed : Bytes},
      s.Talks fd (its.flatMap (Iteration.spoken fd) ++ future) later owed →
      (∀ it ∈ its, ∀ r ∈ it.ready, r.Hears fd) → (s.run its).ok = true →
      (∀ its₁, its₁ <+: its → (s.run its₁).server.conns.find fd ≠ none) →
      ∃ later' left, later = (forClient fd (s.exchangesIn its)).map Prod.fst ++ later' ∧
        owed ++ ((forClient fd (s.exchangesIn its)).map Prod.snd).flatten =
          (forClient fd (s.run its).told).flatten ++ left ∧
        (s.run its).server.Talks fd future later' left := by
  induction its with
  | nil =>
      intro s later owed h _ _ _
      exact ⟨later, owed, rfl, List.append_nil _, h⟩
  | cons it its ih =>
      intro s later owed h hhears hok hthere
      rw [List.forall_mem_cons] at hhears
      rw [List.flatMap_cons, List.append_assoc] at h
      have hone := iterate_ok hok
      have hrun := s.run_cons it hone
      have hstays : (s.iterate it).server.conns.find fd ≠ none := by
        have hfirst := hthere [it] ⟨its, rfl⟩
        rw [(hrun []).1] at hfirst
        exact hfirst
      obtain ⟨mid, owed', hmid, howed, hturn⟩ := h.iterate hhears.1 hone hstays
      obtain ⟨later', left, hlater, hleft, hall⟩ := ih hturn hhears.2 ((hrun its).2.1 ▸ hok) (by
        intro its₁ hpre
        rw [← (hrun its₁).1]
        exact hthere _ (List.cons_prefix_cons.mpr ⟨rfl, hpre⟩))
      rw [exchangesIn, if_pos hone, forClient_append, List.map_append, List.map_append,
        List.flatten_append, (hrun its).1, (hrun its).2.2, forClient_append, List.flatten_append]
      refine ⟨later', left, by rw [hmid, hlater, List.append_assoc], ?_, hall⟩
      rw [← List.append_assoc, howed, List.append_assoc, hleft, List.append_assoc]

end Server

/-- A client that has just connected sends requests, well formed and with short
lines, cut anywhere, and the server has not lost it. Then the commands executed
for it are those its bytes spell, in order, and what it was sent and is still
owed are their answers, one reply each. If all of its bytes have arrived, no
command is missing. -/
theorem client_is_answered {s : Server} {fd : Nat} (hnew : s.conns.find fd = some {})
    (its : List Iteration) (hhears : ∀ it ∈ its, ∀ r ∈ it.ready, r.Hears fd)
    (hok : (s.run its).ok = true)
    (hthere : ∀ its₁, its₁ <+: its → (s.run its₁).server.conns.find fd ≠ none)
    {more : Bytes} {cmds : List Command}
    (hstream : Stream (its.flatMap (Iteration.spoken fd) ++ more) cmds)
    (hshort : RespParser.ShortLines (its.flatMap (Iteration.spoken fd) ++ more)) :
    ∃ (state : ConnState) (later : List Command) (vs : List RespValue),
      (s.run its).server.conns.find fd = some state ∧ state.conn.closing = false ∧
      (forClient fd (s.exchangesIn its)).map Prod.fst ++ later = cmds ∧
      (more = [] → later = []) ∧
      (forClient fd (s.exchangesIn its)).map Prod.snd = vs.map RespValue.encode ∧
      (forClient fd (s.run its).told).flatten ++ state.conn.pendingOutput =
        (vs.map RespValue.encode).flatten := by
  have hstart : s.Talks fd (its.flatMap (Iteration.spoken fd) ++ more) cmds [] :=
    ⟨{}, {}, hnew, Connection.serves_new, rfl, rfl, ⟨RespParser.reads_stream hstream, hshort⟩, rfl⟩
  obtain ⟨later, left, hcmds, hleft, state, client, hfind, hserves, hopen, howed, hawaits,
    hsettled⟩ := hstart.run its hhears hok hthere
  have hreplies : ∀ out ∈ (forClient fd (s.exchangesIn its)).map Prod.snd,
      out ∈ Set.range RespValue.encode := by
    rw [List.forall_mem_map]
    intro x hx
    have hcmd : x.1 ≠ [] := by
      refine hstream.ne_nil x.1 ?_
      rw [hcmds]
      exact List.mem_append_left _ (List.mem_map_of_mem hx)
    exact s.exchangesIn_replies its (fd, x) (mem_of_forClient hx) hcmd
  have hvs : (forClient fd (s.exchangesIn its)).map Prod.snd ∈
      Set.range (List.map RespValue.encode) := by
    rw [Set.range_list_map]
    exact hreplies
  obtain ⟨vs, hvs⟩ := hvs
  refine ⟨state, later, vs, hfind, hserves.closing.trans hopen, hcmds.symm, ?_, hvs.symm, ?_⟩
  · rintro rfl
    exact hawaits.done (.wait hsettled)
  · rw [hvs, hserves.owed, howed, ← hleft, List.nil_append]

/-- Client 3 sends a request in two pieces and gets a part of its answer. In
between client 4 connects, and is served first. -/
def pingInPieces : List Iteration := [
  { ready := [.socket 3 false (some (.data (text "PI"))) fun _ => {}, .listener [(4, true)]] },
  { ready := [.socket 4 false (some (.data (text "SET k v\r\n"))) fun _ => {},
      .socket 3 false (some (.data (text "NG\r\n"))) fun _ => {}]
    sends := fun n => if n = 1 then [.took 3, .wouldBlock] else [.took 5] }]

/-- A server that client 3 has just connected to. -/
def connected : Server :=
  { engine := { store := {}, disk := {} }, conns := SortedMap.empty.insert 3 {} }

theorem pingInPieces_stream :
    Stream (pingInPieces.flatMap (Iteration.spoken 3) ++ []) [[text "PING"]] := by
  have hping : Request (text "PING\r" ++ [lf]) (words (text "PING\r")) :=
    .inline ⟨by decide, by decide⟩ (by decide)
  exact Stream.request hping .nil

theorem client_is_answered_pieces :
    ∃ (state : ConnState) (v : RespValue),
      (connected.run pingInPieces).server.conns.find 3 = some state ∧
      forClient 3 (connected.run pingInPieces).told = [text "+PO"] ∧
      text "+PO" ++ state.conn.pendingOutput = v.encode := by
  have htold : forClient 3 (connected.run pingInPieces).told = [text "+PO"] := by decide +kernel
  have hthere : ∀ its₁, its₁ <+: pingInPieces →
      (connected.run its₁).server.conns.find 3 ≠ none := by
    have hall : ∀ its₁ ∈ pingInPieces.inits,
        (connected.run its₁).server.conns.find 3 ≠ none := by
      simp only [pingInPieces, List.inits, List.map_cons, List.map_nil, List.forall_mem_cons]
      exact ⟨by decide +kernel, by decide +kernel, by decide +kernel,
        fun _ h => absurd h List.not_mem_nil⟩
    exact fun its₁ hpre => hall its₁ (List.mem_inits _ _ |>.mpr hpre)
  have hhears : ∀ it ∈ pingInPieces, ∀ r ∈ it.ready, r.Hears 3 := by
    simp only [pingInPieces, List.forall_mem_cons, Ready.Hears]
    exact ⟨⟨fun _ => ⟨trivial, by decide, by decide, fun _ h => (by cases h; decide)⟩, trivial,
      fun _ h => absurd h List.not_mem_nil⟩,
      ⟨fun h => absurd h (by decide),
        fun _ => ⟨trivial, by decide, by decide, fun _ h => (by cases h; decide)⟩,
        fun _ h => absurd h List.not_mem_nil⟩, fun _ h => absurd h List.not_mem_nil⟩
  obtain ⟨state, later, vs, hfind, -, hcmds, hlater, hvs, hsaid⟩ :=
    client_is_answered (by decide +kernel) pingInPieces hhears (by decide +kernel) hthere
      pingInPieces_stream (RespParser.shortLines_of_length (by decide +kernel))
  rw [hlater rfl, List.append_nil] at hcmds
  have hone : vs.length = 1 := by
    have hlen := congrArg List.length hvs
    have hlen' := congrArg List.length hcmds
    rw [List.length_map, List.length_map] at hlen
    rw [List.length_map] at hlen'
    exact hlen.symm.trans hlen'
  obtain ⟨v, rfl⟩ := List.length_eq_one_iff.mp hone
  rw [htold] at hsaid
  exact ⟨state, v, hfind, htold, by simpa using hsaid⟩

end Cachedb
