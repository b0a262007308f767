import Cachedb.Model.Server

/-!
# No reply is left waiting for nobody

What a client is owed goes out when its socket is released, or later, when
epoll reports the socket writable. So a reply that is not all sent needs the
socket registered for that, and a connection that is closing has to be closed
by the release that sends its last byte: nobody else will look at it again.

Reading and releasing are two passes over a map that changes under both.
Between them the sockets that were read are behind: they may have output and
not be registered for it. They are on the list of sockets touched, whatever
else happens in the batch, and every one on the list is brought up to date or
closed (`Server.Behind`).
-/

namespace Cachedb

/-- A connection as the loop may leave it alone. -/
structure ConnState.Armed (state : ConnState) : Prop where
  input : state.registered.input = true
  output : state.registered.output = state.conn.hasPendingOutput
  cached : state.interest = state.registered
  live : state.conn.shouldClose = false

/-- Only the sockets in `touched` are not up to date. -/
def Server.Behind (s : Server) (touched : List Nat) : Prop :=
  ∀ fd state, s.conns.find fd = some state →
    state.interest = state.registered ∧ (fd ∈ touched ∨ state.Armed)

theorem ConnState.armed_new : ConnState.Armed {} := ⟨rfl, rfl, rfl, rfl⟩

namespace Server

variable {s : Server} {touched touched' : List Nat}

theorem Behind.mono (h : s.Behind touched) (hsub : ∀ fd ∈ touched, fd ∈ touched') :
    s.Behind touched' :=
  fun fd state hfind =>
    ⟨(h fd state hfind).1, (h fd state hfind).2.imp_left (hsub fd)⟩

/-- What a socket is read is owed once it is on the list. -/
theorem Behind.service (h : s.Behind touched) (fd : Nat) (hungUp : Bool) (read : Option Read)
    (envs : Nat → Env) :
    (s.service fd hungUp read envs).2.server.Behind
      (if (s.service fd hungUp read envs).1 then fd :: touched else touched) := by
  have hcons : s.Behind (fd :: touched) := h.mono fun _ => List.mem_cons_of_mem _
  unfold Server.service
  split
  · exact h
  · next state hstate =>
      split
      · exact Every.closeConnection h fd
      · split
        · exact hcons
        · exact hcons
        · exact Every.closeConnection h fd
        · exact Every.closeConnection h fd
        · exact Every.setConn (s := { s with engine := _ }) hcons
            ⟨(h fd state hstate).1, .inl List.mem_cons_self⟩

theorem Behind.serviceAll (ready : List Ready) :
    ∀ {s : Server} {touched : List Nat}, s.Behind touched →
      (s.serviceAll ready).2.server.Behind (touched ++ (s.serviceAll ready).1) := by
  induction ready with
  | nil => exact fun h => h.mono fun _ => List.mem_append_left _
  | cons r ready ih =>
      intro s touched h
      cases r with
      | listener accepted =>
          exact ih (Every.acceptReady (fun _ => ⟨rfl, .inr ConnState.armed_new⟩) h)
      | socket fd hungUp read envs =>
          have hnext := ih (h.service fd hungUp read envs)
          rw [Server.serviceAll]
          simp only []
          refine hnext.mono fun fd' hmem => ?_
          split at hmem
          · next hthere =>
              rw [if_pos hthere]
              simp only [List.mem_append, List.mem_cons] at hmem ⊢
              tauto
          · next hthere =>
              rw [if_neg hthere]
              exact hmem

/-- A release brings a socket up to date or closes it. -/
theorem Behind.release {fd : Nat} (h : s.Behind (fd :: touched)) (sends : List Send) :
    (s.release fd sends true).server.Behind touched := by
  have hothers : ∀ {s' : Server}, s'.Behind (fd :: touched) →
      (∀ state, s'.conns.find fd = some state → state.Armed) → s'.Behind touched := by
    intro s' h' hfd fd' state hfind
    refine ⟨(h' fd' state hfind).1, ?_⟩
    rcases (h' fd' state hfind).2 with hmem | harmed
    · rcases List.mem_cons.mp hmem with rfl | hmem
      · exact .inr (hfd state hfind)
      · exact .inl hmem
    · exact .inr harmed
  unfold Server.release
  split
  · next hnone =>
      refine hothers h fun state hfind => ?_
      rw [hnone] at hfind
      cases hfind
  · next state hstate =>
      have hcached := (h fd state hstate).1
      simp only []
      split
      · refine hothers (Every.closeConnection h fd) fun state hfind => ?_
        rw [Server.closeConnection, SortedMap.find_erase, if_pos rfl] at hfind
        cases hfind
      · next hgood =>
          rw [Bool.or_eq_true, not_or] at hgood
          have hlive := Bool.eq_false_of_not_eq_true hgood.2
          have harmed : (updateInterest
              { state with conn := (writePending fd state.conn sends).2.1 } true).Armed := by
            unfold updateInterest
            simp only [Bool.not_true, Bool.false_eq_true, or_false]
            split
            · next hsame =>
                refine ⟨?_, ?_, hcached, hlive⟩
                · rw [← hcached, ← hsame]
                · rw [← hcached, ← hsame]
            · exact ⟨rfl, rfl, rfl, hlive⟩
          refine hothers (Every.setConn h ⟨harmed.cached, .inr harmed⟩) fun state hfind => ?_
          rw [Server.setConn, SortedMap.find_insert, if_pos rfl] at hfind
          rw [← Option.some.inj hfind]
          exact harmed

theorem Behind.releaseAll {fds : List Nat} :
    ∀ {s : Server} (sends : Nat → List Send) (epollCtl : Nat → Bool), (∀ n, epollCtl n = true) →
      s.Behind fds → (s.releaseAll sends epollCtl fds).server.Behind [] := by
  induction fds with
  | nil => exact fun _ _ _ h => h
  | cons fd fds ih =>
      intro s sends epollCtl hctl h
      have hfirst := h.release (sends 0)
      rw [← hctl 0] at hfirst
      exact ih _ _ (fun n => hctl (n + 1)) hfirst

theorem Behind.iterate {it : Iteration} (hctl : ∀ n, it.epollCtl n = true) (h : s.Behind [])
    (hok : (s.iterate it).ok = true) : (s.iterate it).server.Behind [] := by
  have hserved := h.serviceAll it.ready
  rw [List.nil_append] at hserved
  rw [Server.iterate] at hok ⊢
  simp only [] at hok ⊢
  split at hok
  · next hfailed =>
      rw [hok] at hfailed
      cases hfailed
  · next hsynced =>
      rw [if_neg hsynced]
      have hreleased := Behind.releaseAll (s := ((s.serviceAll it.ready).2.server.syncLog it.now
        it.sync).server) it.sends it.epollCtl hctl hserved
      exact hreleased

theorem Behind.run (its : List Iteration) :
    ∀ {s : Server}, (∀ it ∈ its, ∀ n, it.epollCtl n = true) → s.Behind [] →
      (s.run its).ok = true → (s.run its).server.Behind [] := by
  induction its with
  | nil => exact fun _ h _ => h
  | cons it its ih =>
      intro s hctl h hok
      obtain ⟨hit, hits⟩ := List.forall_mem_cons.mp hctl
      rw [Server.run] at hok ⊢
      simp only [] at hok ⊢
      split at hok
      · next hfailed =>
          rw [hok] at hfailed
          cases hfailed
      · next hgood =>
          rw [if_neg hgood]
          simp only [Bool.not_eq_true, Bool.not_eq_false'] at hgood
          exact ih hits (h.iterate hit hgood) hok

end Server

/-- While epoll takes what it is told, every connection is registered after
every turn for what it needs, and none that is done is still open. -/
theorem no_reply_stuck (e : Engine) (its : List Iteration)
    (hctl : ∀ it ∈ its, ∀ n, it.epollCtl n = true)
    (hok : (Server.run { engine := e } its).ok = true) (fd : Nat) (state : ConnState)
    (hfind : (Server.run { engine := e } its).server.conns.find fd = some state) :
    state.Armed := by
  have hstart : Server.Behind { engine := e } [] := fun _ _ h => (by cases h)
  rcases ((hstart.run its hctl hok) fd state hfind).2 with hmem | harmed
  · cases hmem
  · exact harmed

/-- A client whose socket takes three bytes of a reply and is then full. -/
def pingHeld : List Iteration := [
  { ready := [.listener [(3, true)]] },
  { ready := [.socket 3 false (some (.data (text "PING\r\n"))) fun _ => {}]
    sends := fun _ => [.took 3, .wouldBlock] }]

theorem no_reply_stuck_held :
    ∃ state, (Server.run { engine := { store := {}, disk := {} } } pingHeld).server.conns.find 3 =
        some state ∧ state.conn.pendingOutput = text "NG\r\n" ∧ state.Armed := by
  have hstate : ((Server.run { engine := { store := {}, disk := {} } } pingHeld).server.conns.find
      3).map (fun state => state.conn.pendingOutput) = some (text "NG\r\n") := by decide +kernel
  obtain ⟨state, hfind, hpending⟩ := Option.map_eq_some_iff.mp hstate
  refine ⟨state, hfind, hpending, no_reply_stuck _ pingHeld ?_ (by decide +kernel) 3 state hfind⟩
  intro it hit n
  simp only [pingHeld, List.mem_cons, List.not_mem_nil, or_false] at hit
  rcases hit with rfl | rfl
  · rfl
  · rfl

end Cachedb
