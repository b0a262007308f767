import Cachedb.Proofs.Interleaving
import Cachedb.Proofs.PlainServer
import Mathlib.Order.Monotone.Basic

/-!
# Clients with keys of their own

Some clients use keys that nobody else writes. What they are told is then what
a plain server tells them that has no other clients: the others cannot be seen
through the replies, however their requests come between, and whatever the
store behind all of them flushes and merges on their account.

An operation answers from its keys and changes no others (`Operation.run_local`,
`Operation.run_other`). So two plain servers, one with all clients and one with
some of them, can be walked through the same turns side by side (`Alike`).
Where the others come up only the first one moves, and nothing that was alike
changes.
-/

namespace Cachedb

/-! ## What an operation depends on -/

namespace Operation

/-- The keys an operation looks up or writes. -/
def keys : Operation → List Bytes
  | .set key _ | .setFor key _ _ _ | .get key | .expire key _ | .ttl key | .incr key => [key]
  | .del keys | .exists keys => keys
  | .ping _ | .flushall | .info | .configGet _ | .command => []

/-- The keys an operation may write, short of removing everything. -/
def writes : Operation → List Bytes
  | .set key _ | .setFor key _ _ _ | .expire key _ | .incr key => [key]
  | .del keys => keys
  | .ping _ | .get _ | .exists _ | .ttl _ | .flushall | .info | .configGet _ | .command => []

variable {m m' : RefMap}

theorem lookup_congr {key : Bytes} (h : m key = m' key) (t : Int64) :
    m.lookup t key = m'.lookup t key := by
  rw [RefMap.lookup, RefMap.lookup, h]

theorem count_congr (keys : List Bytes) : ∀ clock : Nat → Reading,
    (∀ key ∈ keys, m key = m' key) → count m clock keys = count m' clock keys := by
  induction keys with
  | nil => exact fun _ _ => rfl
  | cons key keys ih =>
      intro clock h
      rw [List.forall_mem_cons] at h
      rw [count, count, lookup_congr h.1, ih _ h.2]

theorem set_congr {key : Bytes} (h : m key = m' key) (key' value : Bytes) (stamp : Int64) :
    m.set key' value stamp key = m'.set key' value stamp key := by
  rw [RefMap.set, RefMap.set, h]

theorem eraseAll_congr (keys : List Bytes) : ∀ {m m' : RefMap} (clock : Nat → Reading),
    (∀ key ∈ keys, m key = m' key) →
      (m.eraseAll clock keys).1 = (m'.eraseAll clock keys).1 ∧
        ∀ key, m key = m' key → (m.eraseAll clock keys).2 key = (m'.eraseAll clock keys).2 key := by
  induction keys with
  | nil => exact fun _ _ => ⟨rfl, fun _ h => h⟩
  | cons key keys ih =>
      intro m m' clock h
      rw [List.forall_mem_cons] at h
      have hone : ∀ k, m k = m' k → m.erase key k = m'.erase key k := by
        intro k hk
        rw [RefMap.erase, RefMap.erase, hk]
      obtain ⟨hcount, hrest⟩ := ih (fun n => clock (n + 1)) fun k hk => hone k (h.2 k hk)
      refine ⟨?_, fun k hk => hrest k (hone k hk)⟩
      simp only [RefMap.eraseAll]
      rw [hcount, lookup_congr h.1]

theorem expireAt_congr {key : Bytes} (h : m key = m' key) (now deadline : Int64) :
    (expireAt m now key deadline).2 = (expireAt m' now key deadline).2 ∧
      ∀ k, m k = m' k →
        (expireAt m now key deadline).1 k = (expireAt m' now key deadline).1 k := by
  rw [expireAt, expireAt, lookup_congr h]
  cases m'.lookup now key with
  | none => exact ⟨rfl, fun _ hk => hk⟩
  | some found => exact ⟨rfl, fun _ hk => set_congr hk _ _ _⟩

theorem increment_congr (key : Bytes) (value stamp : Int64) :
    (increment m key value stamp).2 = (increment m' key value stamp).2 ∧
      ∀ k, m k = m' k → (increment m key value stamp).1 k = (increment m' key value stamp).1 k := by
  unfold increment
  split
  · exact ⟨rfl, fun _ hk => hk⟩
  · exact ⟨rfl, fun _ hk => set_congr hk _ _ _⟩

/-- Two maps that hold the same under the keys of an operation give it the same
answer, and hold the same afterwards wherever they did. -/
theorem run_local (policy : Option SyncPolicy) (env : Env) (op : Operation)
    (h : ∀ key ∈ op.keys, m key = m' key) :
    (op.run policy m env).2 = (op.run policy m' env).2 ∧
      ∀ key, m key = m' key → (op.run policy m env).1 key = (op.run policy m' env).1 key := by
  cases op with
  | ping message => cases message <;> exact ⟨rfl, fun _ hk => hk⟩
  | set key value => exact ⟨rfl, fun _ hk => set_congr hk _ _ _⟩
  | setFor key value amount unitMs =>
      rw [run, run]
      cases deadlineFrom amount unitMs (env.clock 0).wall with
      | none => exact ⟨rfl, fun _ hk => hk⟩
      | some deadline => exact ⟨rfl, fun _ hk => set_congr hk _ _ _⟩
  | get key =>
      rw [run, run, lookup_congr (h key List.mem_cons_self)]
      exact ⟨rfl, fun _ hk => hk⟩
  | del keys =>
      obtain ⟨hcount, hrest⟩ := eraseAll_congr keys
        (if keys.length = 1 then env.clock else env.later.clock) h
      simp only [run]
      exact ⟨by rw [hcount], hrest⟩
  | «exists» keys =>
      rw [run, run, count_congr keys env.clock h]
      exact ⟨rfl, fun _ hk => hk⟩
  | expire key seconds =>
      have hkey := h key List.mem_cons_self
      rw [run, run]
      split
      · obtain ⟨hanswer, hrest⟩ := expireAt_congr hkey (env.clock 0).wall (-1)
        exact ⟨congrArg some hanswer, hrest⟩
      · cases deadlineFrom seconds 1000 (env.clock 0).wall with
        | none => exact ⟨rfl, fun _ hk => hk⟩
        | some deadline =>
            obtain ⟨hanswer, hrest⟩ := expireAt_congr hkey (env.clock 1).wall deadline
            exact ⟨congrArg some hanswer, hrest⟩
  | ttl key =>
      rw [run, run, lookup_congr (h key List.mem_cons_self)]
      cases m'.lookup (env.clock 0).wall key with
      | none => exact ⟨rfl, fun _ hk => hk⟩
      | some found =>
          dsimp only
          split <;> exact ⟨rfl, fun _ hk => hk⟩
  | incr key =>
      rw [run, run, lookup_congr (h key List.mem_cons_self)]
      cases m'.lookup (env.clock 0).wall key with
      | none =>
          obtain ⟨hanswer, hrest⟩ := increment_congr key 0 0
          exact ⟨congrArg some hanswer, hrest⟩
      | some found =>
          dsimp only
          cases parseInt64 found.value with
          | none => exact ⟨rfl, fun _ hk => hk⟩
          | some value =>
              obtain ⟨hanswer, hrest⟩ := increment_congr key value found.expiresAtMs
              exact ⟨congrArg some hanswer, hrest⟩
  | flushall => exact ⟨rfl, fun _ _ => rfl⟩
  | info => exact ⟨rfl, fun _ hk => hk⟩
  | configGet param => exact ⟨rfl, fun _ hk => hk⟩
  | command => exact ⟨rfl, fun _ hk => hk⟩

/-- Whoever does not ask about the server is told something. -/
theorem run_answered (policy : Option SyncPolicy) (m : RefMap) (env : Env) {op : Operation}
    (hop : op ≠ .info) : (op.run policy m env).2.isSome = true := by
  cases op with
  | ping message => cases message <;> rfl
  | setFor key value amount unitMs =>
      rw [run]
      split <;> rfl
  | expire key seconds =>
      rw [run]
      split
      · rfl
      · split <;> rfl
  | ttl key =>
      rw [run]
      split
      · rfl
      · split <;> rfl
  | incr key =>
      rw [run]
      split
      · rfl
      · split <;> rfl
  | info => exact absurd rfl hop
  | _ => rfl

theorem set_other {key key' : Bytes} (h : key ≠ key') (m : RefMap) (value : Bytes)
    (stamp : Int64) : m.set key' value stamp key = m key := if_neg h

theorem expireAt_other {key key' : Bytes} (h : key ≠ key') (m : RefMap) (now deadline : Int64) :
    (expireAt m now key' deadline).1 key = m key := by
  unfold expireAt
  split
  · rfl
  · exact set_other h _ _ _

theorem increment_other {key key' : Bytes} (h : key ≠ key') (m : RefMap) (value stamp : Int64) :
    (increment m key' value stamp).1 key = m key := by
  unfold increment
  split
  · rfl
  · exact set_other h _ _ _

/-- What is under a key that an operation does not write stays there. -/
theorem run_other (policy : Option SyncPolicy) (env : Env) (m : RefMap) {op : Operation}
    (hop : op ≠ .flushall) {key : Bytes} (h : key ∉ op.writes) :
    (op.run policy m env).1 key = m key := by
  cases op with
  | ping message => cases message <;> rfl
  | set key' value => exact set_other (List.ne_of_not_mem_cons h) _ _ _
  | setFor key' value amount unitMs =>
      rw [run]
      split
      · rfl
      · exact set_other (List.ne_of_not_mem_cons h) _ _ _
  | get key' => rfl
  | del keys => exact RefMap.eraseAll_other keys m _ h
  | «exists» keys => rfl
  | expire key' seconds =>
      rw [run]
      split
      · exact expireAt_other (List.ne_of_not_mem_cons h) _ _ _
      · split
        · rfl
        · exact expireAt_other (List.ne_of_not_mem_cons h) _ _ _
  | ttl key' =>
      rw [run]
      split
      · rfl
      · split <;> rfl
  | incr key' =>
      rw [run]
      split
      · exact increment_other (List.ne_of_not_mem_cons h) m 0 0
      · split
        · rfl
        · exact increment_other (List.ne_of_not_mem_cons h) m _ _
  | flushall => exact absurd rfl hop
  | info => rfl
  | configGet param => rfl
  | command => rfl

end Operation

/-- The operation a command asks for, if it asks for one. -/
def Command.operation : Command → Option Operation
  | [] => none
  | raw :: args => (Operation.read raw args).toOption

/-- The command looks up and writes keys of one's own only, and does not ask
about the server. -/
def Command.Within (own : Bytes → Prop) (cmd : Command) : Prop :=
  ∀ op, cmd.operation = some op → op ≠ .info ∧ ∀ key ∈ op.keys, own key

/-- The command may look up any key but writes none of those. -/
def Command.Outside (own : Bytes → Prop) (cmd : Command) : Prop :=
  ∀ op, cmd.operation = some op → op ≠ .flushall ∧ ∀ key ∈ op.writes, ¬own key

/-! ## Two plain servers -/

/-- What is left of a batch when only some clients are there. -/
def Ready.only (mine : Nat → Bool) : Ready → Option Ready
  | .listener accepted => some (.listener (accepted.filter fun p => mine p.1))
  | .socket fd hungUp read envs => if mine fd then some (.socket fd hungUp read envs) else none

/-- The same turn with some clients only. A `send` to one of them takes what it
took. -/
structure Iteration.OnlyOf (mine : Nat → Bool) (it it' : Iteration) : Prop where
  ready : it'.ready = it.ready.filterMap (Ready.only mine)
  sends : ∃ place : Nat → Nat, StrictMono place ∧ it'.sends = it.sends ∘ place

section Alike

variable (mine : Nat → Bool) (own : Bytes → Prop)

/-- The second server has some clients of the first, and the keys these use. -/
structure PlainServer.Alike (p q : PlainServer) : Prop where
  policy : p.policy = q.policy
  map : ∀ key, own key → p.map key = q.map key
  clients : ∀ fd, mine fd = true → p.clients fd = q.clients fd

/-- Who gave a command, and what it may do. -/
def KeepsApart (asked : Nat × Command) : Prop :=
  if mine asked.1 then asked.2.Within own else asked.2.Outside own

variable {mine own} {p q : PlainServer}

namespace PlainServer

theorem Alike.setClient (h : p.Alike mine own q) (fd : Nat) (client : Option Client) :
    (p.setClient fd client).Alike mine own (q.setClient fd client) := by
  refine ⟨h.policy, h.map, fun fd' hmine => ?_⟩
  rw [PlainServer.setClient, PlainServer.setClient]
  dsimp only
  rw [h.clients fd' hmine]

/-- What becomes of another client makes no difference. -/
theorem Alike.setOther (h : p.Alike mine own q) {fd : Nat} (hfd : mine fd = false)
    (client : Option Client) : (p.setClient fd client).Alike mine own q := by
  refine ⟨h.policy, h.map, fun fd' hmine => ?_⟩
  have hne : fd' ≠ fd := by
    rintro rfl
    rw [hfd] at hmine
    cases hmine
  rw [PlainServer.setClient]
  dsimp only
  rw [if_neg hne]
  exact h.clients fd' hmine

theorem Alike.accept (accepted : List (Nat × Bool)) : ∀ {p q : PlainServer},
    p.Alike mine own q →
      (p.accept accepted).Alike mine own (q.accept (accepted.filter fun p => mine p.1)) := by
  induction accepted with
  | nil => exact fun h => h
  | cons a accepted ih =>
      obtain ⟨fd, ok⟩ := a
      intro p q h
      cases hfd : mine fd with
      | true =>
          rw [List.filter_cons, if_pos hfd, PlainServer.accept, PlainServer.accept,
            h.clients fd hfd]
          split
          · exact ih (h.setClient fd _)
          · exact ih h
      | false =>
          rw [List.filter_cons, if_neg (Bool.eq_false_iff.mp hfd), PlainServer.accept]
          split
          · exact ih (h.setOther hfd _)
          · exact ih h

/-! ### Commands -/

/-- A command that stays within one's own keys is answered alike. -/
theorem Alike.execute (h : p.Alike mine own q) (fd : Nat) (env : Env) {cmd : Command}
    (hcmd : cmd.Within own) :
    (p.execute fd env cmd).2 = (q.execute fd env cmd).2 ∧
      (p.execute fd env cmd).1.Alike mine own (q.execute fd env cmd).1 := by
  have hanswer : ∀ r r', (cmd.answer p.policy r p.map env).2 =
        (cmd.answer q.policy r' q.map env).2 ∧
      ∀ key, own key → (cmd.answer p.policy r p.map env).1 key =
        (cmd.answer q.policy r' q.map env).1 key := by
    intro r r'
    cases cmd with
    | nil => exact ⟨rfl, h.map⟩
    | cons raw args =>
        rw [Command.answer, Command.answer]
        cases hread : Operation.read raw args with
        | error msg => exact ⟨rfl, h.map⟩
        | ok op =>
            obtain ⟨hinfo, hkeys⟩ := hcmd op (by rw [Command.operation, hread]; rfl)
            obtain ⟨hsame, hmap⟩ := op.run_local p.policy env
              fun key hkey => h.map key (hkeys key hkey)
            rw [Operation.result, Operation.result, ← h.policy]
            refine ⟨?_, fun key hkey => hmap key (h.map key hkey)⟩
            dsimp only
            rw [hsame]
            obtain ⟨answer, hanswer⟩ := Option.isSome_iff_exists.mp
              (op.run_answered p.policy q.map env hinfo)
            rw [hanswer]
            rfl
  obtain ⟨hreply, hmap⟩ := hanswer (p.reports.headD []) (q.reports.headD [])
  exact ⟨hreply, h.policy, hmap, h.clients⟩

/-- A command that writes none of one's own keys makes no difference. -/
theorem Alike.executeOther (h : p.Alike mine own q) (fd : Nat) (env : Env) {cmd : Command}
    (hcmd : cmd.Outside own) : (p.execute fd env cmd).1.Alike mine own q := by
  refine ⟨h.policy, fun key hkey => Eq.trans ?_ (h.map key hkey), h.clients⟩
  cases cmd with
  | nil => rfl
  | cons raw args =>
      rw [PlainServer.execute]
      dsimp only
      rw [Command.answer]
      cases hread : Operation.read raw args with
      | error msg => rfl
      | ok op =>
          obtain ⟨hall, hwrites⟩ := hcmd op (by rw [Command.operation, hread]; rfl)
          exact op.run_other p.policy env p.map hall fun hmem => hwrites key hmem hkey

theorem Alike.executeAll (fd : Nat) (cmds : List Command) :
    ∀ {p q : PlainServer} (envs : Nat → Env), p.Alike mine own q →
      (∀ cmd ∈ cmds, cmd.Within own) →
      (p.executeAll fd envs cmds).2 = (q.executeAll fd envs cmds).2 ∧
        (p.executeAll fd envs cmds).1.Alike mine own (q.executeAll fd envs cmds).1 := by
  induction cmds with
  | nil => exact fun _ h _ => ⟨rfl, h⟩
  | cons cmd cmds ih =>
      intro p q envs h hcmds
      rw [List.forall_mem_cons] at hcmds
      obtain ⟨hone, hnext⟩ := h.execute fd (envs 0) hcmds.1
      obtain ⟨hrest, hlast⟩ := ih (fun n => envs (n + 1)) hnext hcmds.2
      simp only [PlainServer.executeAll]
      exact ⟨by rw [hone, hrest], hlast⟩

theorem Alike.executeOthers (fd : Nat) (cmds : List Command) :
    ∀ {p : PlainServer} (envs : Nat → Env), p.Alike mine own q →
      (∀ cmd ∈ cmds, cmd.Outside own) → (p.executeAll fd envs cmds).1.Alike mine own q := by
  induction cmds with
  | nil => exact fun _ h _ => h
  | cons cmd cmds ih =>
      intro p envs h hcmds
      rw [List.forall_mem_cons] at hcmds
      exact ih (fun n => envs (n + 1)) (h.executeOther fd (envs 0) hcmds.1) hcmds.2

theorem heard_executeAll (fd : Nat) (cmds : List Command) :
    ∀ (p : PlainServer) (envs : Nat → Env),
      (p.executeAll fd envs cmds).1.heard = p.heard ++ cmds.map (Prod.mk fd) := by
  induction cmds with
  | nil => exact fun p _ => (List.append_nil _).symm
  | cons cmd cmds ih =>
      intro p envs
      rw [PlainServer.executeAll, ih, List.map_cons]
      exact List.append_assoc _ _ _

theorem mem_heard_executeAll (p : PlainServer) {fd : Nat} (envs : Nat → Env)
    {cmds : List Command} {cmd : Command} (h : cmd ∈ cmds) :
    (fd, cmd) ∈ (p.executeAll fd envs cmds).1.heard := by
  rw [heard_executeAll]
  exact List.mem_append_right _ (List.mem_map_of_mem h)

/-! ### Batches -/

theorem heard_service (p : PlainServer) (fd : Nat) (hungUp : Bool) (read : Option Read)
    (envs : Nat → Env) : p.heard ⊆ (p.service fd hungUp read envs).2.heard := by
  have hsame : p.heard ⊆ p.heard := fun _ hx => hx
  rw [PlainServer.service]
  split
  · exact hsame
  · split
    · exact hsame
    · split
      · exact hsame
      · exact hsame
      · exact hsame
      · exact hsame
      · rw [PlainServer.receive]
        split
        · exact hsame
        · intro x hx
          show x ∈ (p.executeAll fd envs _).1.heard
          rw [heard_executeAll]
          exact List.mem_append_left _ hx

theorem heard_serve (ready : List Ready) :
    ∀ p : PlainServer, p.heard ⊆ (p.serve ready).2.heard := by
  induction ready with
  | nil => exact fun _ _ hx => hx
  | cons r ready ih =>
      intro p x hx
      cases r with
      | listener accepted =>
          refine ih (p.accept accepted) ?_
          rw [heard_accept]
          exact hx
      | socket fd hungUp read envs => exact ih _ (p.heard_service fd hungUp read envs hx)

theorem Alike.receive (h : p.Alike mine own q) {fd : Nat} (hfd : mine fd = true) (client : Client)
    (bytes : Bytes) (envs : Nat → Env)
    (hkeeps : ∀ x ∈ (p.receive fd client bytes envs).heard, KeepsApart mine own x) :
    (p.receive fd client bytes envs).Alike mine own (q.receive fd client bytes envs) := by
  rw [PlainServer.receive] at hkeeps ⊢
  rw [PlainServer.receive]
  split
  · exact h
  · next hopen =>
      rw [if_neg hopen] at hkeeps
      dsimp only at hkeeps ⊢
      obtain ⟨hreply, halike⟩ := Alike.executeAll fd _ envs h fun cmd hcmd => by
        have hone := hkeeps (fd, cmd) (mem_heard_executeAll p envs hcmd)
        rwa [KeepsApart, if_pos hfd] at hone
      rw [hreply]
      exact halike.setClient fd _

theorem Alike.receiveOther (h : p.Alike mine own q) {fd : Nat} (hfd : mine fd = false)
    (client : Client) (bytes : Bytes) (envs : Nat → Env)
    (hkeeps : ∀ x ∈ (p.receive fd client bytes envs).heard, KeepsApart mine own x) :
    (p.receive fd client bytes envs).Alike mine own q := by
  rw [PlainServer.receive] at hkeeps ⊢
  split
  · exact h
  · next hopen =>
      rw [if_neg hopen] at hkeeps
      dsimp only at hkeeps ⊢
      refine Alike.setOther (Alike.executeOthers fd _ envs h fun cmd hcmd => ?_) hfd _
      have hone := hkeeps (fd, cmd) (mem_heard_executeAll p envs hcmd)
      rwa [KeepsApart, if_neg (Bool.eq_false_iff.mp hfd)] at hone

theorem Alike.service (h : p.Alike mine own q) {fd : Nat} (hfd : mine fd = true) (hungUp : Bool)
    (read : Option Read) (envs : Nat → Env)
    (hkeeps : ∀ x ∈ (p.service fd hungUp read envs).2.heard, KeepsApart mine own x) :
    (p.service fd hungUp read envs).1 = (q.service fd hungUp read envs).1 ∧
      (p.service fd hungUp read envs).2.Alike mine own (q.service fd hungUp read envs).2 := by
  rw [PlainServer.service, h.clients fd hfd] at hkeeps ⊢
  rw [PlainServer.service]
  generalize q.clients fd = found at hkeeps ⊢
  cases found with
  | none => exact ⟨rfl, h⟩
  | some client =>
      dsimp only at hkeeps ⊢
      split
      · exact ⟨rfl, h.setClient fd none⟩
      · next hup =>
          rw [if_neg hup] at hkeeps
          split
          · exact ⟨rfl, h⟩
          · exact ⟨rfl, h⟩
          · exact ⟨rfl, h.setClient fd none⟩
          · exact ⟨rfl, h.setClient fd none⟩
          · exact ⟨rfl, h.receive hfd client _ envs hkeeps⟩

theorem Alike.serviceOther (h : p.Alike mine own q) {fd : Nat} (hfd : mine fd = false)
    (hungUp : Bool) (read : Option Read) (envs : Nat → Env)
    (hkeeps : ∀ x ∈ (p.service fd hungUp read envs).2.heard, KeepsApart mine own x) :
    (p.service fd hungUp read envs).2.Alike mine own q := by
  rw [PlainServer.service] at hkeeps ⊢
  generalize p.clients fd = found at hkeeps ⊢
  cases found with
  | none => exact h
  | some client =>
      dsimp only at hkeeps ⊢
      split
      · exact h.setOther hfd none
      · next hup =>
          rw [if_neg hup] at hkeeps
          split
          · exact h
          · exact h
          · exact h.setOther hfd none
          · exact h.setOther hfd none
          · exact h.receiveOther hfd client _ envs hkeeps

/-- Of the sockets that are still there those with some clients are left. -/
theorem Alike.serve (ready : List Ready) : ∀ {p q : PlainServer}, p.Alike mine own q →
    (∀ x ∈ (p.serve ready).2.heard, KeepsApart mine own x) →
    (q.serve (ready.filterMap (Ready.only mine))).1 = (p.serve ready).1.filter mine ∧
      (p.serve ready).2.Alike mine own (q.serve (ready.filterMap (Ready.only mine))).2 := by
  induction ready with
  | nil => exact fun h _ => ⟨rfl, h⟩
  | cons r ready ih =>
      intro p q h hkeeps
      cases r with
      | listener accepted => exact ih (h.accept accepted) hkeeps
      | socket fd hungUp read envs =>
          have hone : ∀ x ∈ (p.service fd hungUp read envs).2.heard, KeepsApart mine own x :=
            fun x hx => hkeeps x (heard_serve ready _ hx)
          cases hfd : mine fd with
          | true =>
              have honly : (Ready.socket fd hungUp read envs).only mine =
                  some (.socket fd hungUp read envs) := if_pos hfd
              obtain ⟨hthere, hnext⟩ := h.service hfd hungUp read envs hone
              obtain ⟨hrest, hlast⟩ := ih hnext hkeeps
              rw [List.filterMap_cons_some honly]
              simp only [PlainServer.serve]
              refine ⟨?_, hlast⟩
              rw [hrest, hthere]
              split
              · rw [List.filter_cons, if_pos hfd]
              · rfl
          | false =>
              have honly : (Ready.socket fd hungUp read envs).only mine = none :=
                if_neg (Bool.eq_false_iff.mp hfd)
              obtain ⟨hrest, hlast⟩ := ih (h.serviceOther hfd hungUp read envs hone) hkeeps
              rw [List.filterMap_cons_none honly]
              simp only [PlainServer.serve]
              refine ⟨?_, hlast⟩
              rw [hrest]
              split
              · rw [List.filter_cons, if_neg (Bool.eq_false_iff.mp hfd)]
              · rfl

/-! ### Sending -/

theorem Alike.release (h : p.Alike mine own q) {fd : Nat} (hfd : mine fd = true)
    (sends : List Send) : (p.release fd sends).2 = (q.release fd sends).2 ∧
      (p.release fd sends).1.Alike mine own (q.release fd sends).1 := by
  rw [PlainServer.release, PlainServer.release, h.clients fd hfd]
  cases q.clients fd with
  | none => exact ⟨rfl, h⟩
  | some client =>
      refine ⟨rfl, ?_⟩
      dsimp only
      split
      · exact h.setClient fd none
      · exact h.setClient fd _

theorem Alike.releaseOther (h : p.Alike mine own q) {fd : Nat} (hfd : mine fd = false)
    (sends : List Send) : (p.release fd sends).1.Alike mine own q := by
  rw [PlainServer.release]
  cases p.clients fd with
  | none => exact h
  | some client =>
      dsimp only
      split
      · exact h.setOther hfd none
      · exact h.setOther hfd _

theorem filter_release (mine : Nat → Bool) (p : PlainServer) (fd : Nat) (sends : List Send) :
    (p.release fd sends).2.filter (fun x => mine x.1) =
      if mine fd then (p.release fd sends).2 else [] := by
  have hfd : ∀ x ∈ (p.release fd sends).2, x.1 = fd := by
    rw [PlainServer.release]
    cases p.clients fd with
    | none => exact fun _ hx => absurd hx List.not_mem_nil
    | some client =>
        intro x hx
        obtain ⟨_, _, rfl⟩ := List.mem_map.mp hx
        rfl
  rw [List.filter_congr fun x hx => by rw [hfd x hx]]
  cases mine fd with
  | true => exact List.filter_true _
  | false => exact List.filter_false _

/-- Some clients are handed what they are handed among all. -/
theorem Alike.releaseAll (fds : List Nat) : ∀ {p q : PlainServer} (sends : Nat → List Send),
    p.Alike mine own q →
    ∃ place : Nat → Nat, StrictMono place ∧
      (q.releaseAll (sends ∘ place) (fds.filter mine)).2 =
        (p.releaseAll sends fds).2.filter (fun x => mine x.1) ∧
      (p.releaseAll sends fds).1.Alike mine own
        (q.releaseAll (sends ∘ place) (fds.filter mine)).1 := by
  induction fds with
  | nil => exact fun sends h => ⟨id, strictMono_id, rfl, h⟩
  | cons fd fds ih =>
      intro p q sends h
      have hfilter := filter_release mine p fd (sends 0)
      cases hfd : mine fd with
      | true =>
          obtain ⟨htold, hnext⟩ := h.release hfd (sends 0)
          obtain ⟨place, hmono, hrest, hlast⟩ := ih (fun n => sends (n + 1)) hnext
          -- The first place is kept, and the others move up by one.
          refine ⟨fun n => Nat.casesOn n 0 fun n => place n + 1, ?_, ?_⟩
          · refine strictMono_nat_of_lt_succ fun n => ?_
            cases n with
            | zero => exact Nat.succ_pos _
            | succ n => exact Nat.succ_lt_succ (hmono (Nat.lt_succ_self n))
          · rw [List.filter_cons, if_pos hfd]
            simp only [PlainServer.releaseAll]
            refine ⟨?_, hlast⟩
            rw [List.filter_append, ← hrest, hfilter, if_pos hfd, htold]
            rfl
      | false =>
          obtain ⟨place, hmono, hrest, hlast⟩ :=
            ih (fun n => sends (n + 1)) (h.releaseOther hfd (sends 0))
          refine ⟨fun n => place n + 1, fun a b hab => Nat.succ_lt_succ (hmono hab), ?_⟩
          rw [List.filter_cons, if_neg (Bool.eq_false_iff.mp hfd)]
          simp only [PlainServer.releaseAll]
          refine ⟨?_, hlast⟩
          rw [List.filter_append, hfilter, if_neg (Bool.eq_false_iff.mp hfd)]
          exact hrest

/-! ### Turns -/

theorem heard_turn (p : PlainServer) (it : Iteration) :
    (p.turn it).1.heard = (p.serve it.ready).2.heard := heard_releaseAll _ _ _

theorem heard_run (its : List Iteration) : ∀ p : PlainServer, p.heard ⊆ (p.run its).1.heard := by
  induction its with
  | nil => exact fun _ _ hx => hx
  | cons it its ih =>
      intro p x hx
      refine ih (p.turn it).1 ?_
      rw [heard_turn]
      exact heard_serve it.ready p hx

theorem Alike.turn (h : p.Alike mine own q) {it : Iteration}
    (hkeeps : ∀ x ∈ (p.turn it).1.heard, KeepsApart mine own x) :
    ∃ it', it.OnlyOf mine it' ∧ (q.turn it').2 = (p.turn it).2.filter (fun x => mine x.1) ∧
      (p.turn it).1.Alike mine own (q.turn it').1 := by
  rw [heard_turn] at hkeeps
  obtain ⟨hthere, hserved⟩ := Alike.serve it.ready h hkeeps
  obtain ⟨place, hmono, htold, hlast⟩ :=
    Alike.releaseAll (p.serve it.ready).1 it.sends hserved
  rw [← hthere] at htold hlast
  exact ⟨{ it with ready := it.ready.filterMap (Ready.only mine), sends := it.sends ∘ place },
    ⟨rfl, place, hmono, rfl⟩, htold, hlast⟩

theorem Alike.run (its : List Iteration) : ∀ {p q : PlainServer}, p.Alike mine own q →
    (∀ x ∈ (p.run its).1.heard, KeepsApart mine own x) →
    ∃ its', List.Forall₂ (Iteration.OnlyOf mine) its its' ∧
      (q.run its').2 = (p.run its).2.filter (fun x => mine x.1) ∧
      (p.run its).1.Alike mine own (q.run its').1 := by
  induction its with
  | nil => exact fun h _ => ⟨[], .nil, rfl, h⟩
  | cons it its ih =>
      intro p q h hkeeps
      obtain ⟨it', hit, htold, hnext⟩ := h.turn fun x hx => hkeeps x (heard_run its _ hx)
      obtain ⟨its', hits, hrest, hlast⟩ := ih hnext hkeeps
      refine ⟨it' :: its', .cons hit hits, ?_, hlast⟩
      simp only [PlainServer.run]
      rw [List.filter_append, htold, hrest]

end PlainServer

end Alike

/-! ## The server -/

/-- Some clients of a server use keys that the others do not write, and do not
ask about the server; the others may do what they like but remove everything.
Then those clients are told the same bytes in the same pieces as by a plain
server that has no other clients and knows no other keys. At the end they are
owed the same, and their keys show the same. -/
theorem others_unseen {cfg : Config} {d : Disk} {boot : Reading} {o : Outcome Unit} (hd : d.Sane)
    (hdir : cfg.options.hasDir = true) (h : startup cfg d boot = some o) {now last : Int64}
    (mine : Nat → Bool) (own : Bytes → Prop) {m : RefMap}
    (hm : ∀ t key, own key → now ≤ t → m.lookup t key = d.lookup t key) (its : List Iteration)
    (htimed : Iteration.AllTimed now its last) (hworks : ∀ it ∈ its, it.Works)
    (hok : ((o.serve d).run its).ok = true)
    (hmine : ∀ fd cmd, (fd, cmd) ∈ (o.serve d).askedIn its → mine fd = true → cmd.Within own)
    (hothers : ∀ fd cmd, (fd, cmd) ∈ (o.serve d).askedIn its → mine fd = false →
      cmd.Outside own) :
    ∃ its', List.Forall₂ (Iteration.OnlyOf mine) its its' ∧
      let real := (o.serve d).run its
      let plain := PlainServer.run { policy := some cfg.policy, map := m } its'
      real.told.filter (fun piece => mine piece.1) = plain.2 ∧
      (∀ fd, mine fd = true → (real.server.conns.find fd).map
          (fun state => (state.conn.pendingOutput, state.conn.closing)) =
        (plain.1.clients fd).map fun client => (client.owed, client.closing)) ∧
      ∀ t key, own key → last ≤ t →
        real.server.engine.store.lookup t key = plain.1.map.lookup t key := by
  classical
  obtain ⟨rest, hrest⟩ := hd.exists_map now
  -- The plain server with all clients starts from `m` under the keys in question.
  let all : RefMap := fun key => if own key then m key else rest key
  have hall : ∀ t key, now ≤ t → all.lookup t key = d.lookup t key := by
    intro t key ht
    by_cases hkey : own key
    · exact (Operation.lookup_congr (if_pos hkey) t).trans (hm t key hkey ht)
    · exact (Operation.lookup_congr (if_neg hkey) t).trans (hrest t key ht)
  obtain ⟨rs, _, hrun⟩ := Server.run_shows its (startup_shows hd hdir h hall fun _ => rfl) htimed
    hworks fun _ _ _ => trivial
  obtain ⟨htold, hheard, hshows⟩ := (hrun []).2 hok
  rw [List.append_nil] at htold hheard hshows
  have halike : PlainServer.Alike mine own
      (PlainServer.given { policy := some cfg.policy, map := all } rs)
      { policy := some cfg.policy, map := m } :=
    ⟨rfl, fun key hkey => if_pos hkey, fun _ _ => rfl⟩
  obtain ⟨its', hits, hpieces, hlast⟩ := PlainServer.Alike.run its halike fun x hx => by
    rw [hheard] at hx
    rw [KeepsApart]
    split
    · next hfd => exact hmine x.1 x.2 hx hfd
    · next hfd => exact hothers x.1 x.2 hx (Bool.eq_false_iff.mpr hfd)
  refine ⟨its', hits, ?_, fun fd hfd => ?_, fun t key hkey ht => ?_⟩
  · rw [htold, hpieces]
  · rw [← hlast.clients fd hfd]
    exact hshows.hosts.same fd
  · rw [hshows.store.refines.lookup ht]
    exact Operation.lookup_congr (hlast.map key hkey) t

/-- Two clients connect. One counts and looks at a key of the other, who sets it
and reads it back. -/
def twoClients : List Iteration :=
  [{ ready := [.listener [(5, true), (6, true)]] },
   { ready := [
      .socket 6 false (some (.data (text "INCR n\r\nGET k\r\n"))) fun _ => {},
      .socket 5 false (some (.data (text "SET k v\r\nGET k\r\n"))) fun _ => {}]
     sends := fun _ => [.took 100] }]

theorem twoClients_works : Iteration.AllTimed 0 twoClients 0 ∧ ∀ it ∈ twoClients, it.Works := by
  have henvs : InTime (fun _ => {}) (fun _ => 0) 0 :=
    ⟨fun _ _ => ⟨le_refl _, le_refl _⟩, fun _ => le_refl _⟩
  have hsocket : ∀ fd bytes, Ready.Timed 0 0 (.socket fd false (some (.data bytes)) fun _ => {}) :=
    fun _ _ => ⟨_, rfl, henvs⟩
  refine ⟨⟨0, ⟨0, ⟨0, le_refl _, trivial, le_refl _⟩, le_refl _, le_refl _, le_refl _⟩, 0,
    ⟨0, ⟨0, le_refl _, hsocket _ _, 0, le_refl _, hsocket _ _, le_refl _⟩, le_refl _, le_refl _,
      le_refl _⟩, le_refl _⟩, fun it hit r hr => ?_⟩
  have hworks : ∀ fd bytes, bytes.length ≤ kReadChunk →
      Ready.Works (.socket fd false (some (.data bytes)) fun _ => {}) := by
    intro fd bytes hbytes
    refine ⟨fun _ => ⟨rfl, ⟨fun _ => rfl, rfl, rfl⟩⟩, fun bytes' heq => ?_⟩
    cases heq
    exact hbytes
  simp only [twoClients, List.mem_cons, List.not_mem_nil, or_false] at hit
  rcases hit with rfl | rfl
  · rw [List.mem_singleton.mp hr]
    trivial
  · simp only [List.mem_cons, List.not_mem_nil, or_false] at hr
    rcases hr with rfl | rfl
    · exact hworks _ _ (by decide)
    · exact hworks _ _ (by decide)

theorem others_unseen_two :
    (((freshStart {}).serve {}).run twoClients).told =
        [(6, text ":1\r\n$-1\r\n"), (5, text "+OK\r\n$1\r\nv\r\n")] ∧
      ∃ its', List.Forall₂ (Iteration.OnlyOf (· == 5)) twoClients its' ∧
        (PlainServer.run { policy := some .kAlways } its').2 =
          [(5, text "+OK\r\n$1\r\nv\r\n")] := by
  have htold : (((freshStart {}).serve {}).run twoClients).told =
      [(6, text ":1\r\n$-1\r\n"), (5, text "+OK\r\n$1\r\nv\r\n")] := by
    decide +kernel
  have hasked : ((freshStart {}).serve {}).askedIn twoClients =
      [(6, [text "INCR", text "n"]), (6, [text "GET", text "k"]),
        (5, [text "SET", text "k", text "v"]), (5, [text "GET", text "k"])] := by
    decide +kernel
  have hoperations : [[text "INCR", text "n"], [text "GET", text "k"],
      [text "SET", text "k", text "v"]].map Command.operation =
      [some (.incr (text "n")), some (.get (text "k")), some (.set (text "k") (text "v"))] := by
    decide +kernel
  simp only [List.map_cons, List.map_nil, List.cons.injEq, and_true] at hoperations
  obtain ⟨hincr, hget, hset⟩ := hoperations
  have hstart : startup {} {} {} = some (freshStart {}) := startup_empty rfl
  have hempty : ∀ t key, key = text "k" → (0 : Int64) ≤ t →
      RefMap.empty.lookup t key = Disk.lookup {} t key := fun _ _ _ _ => rfl
  obtain ⟨its', hits, hpieces, _⟩ := others_unseen (fun p hp => by cases hp) rfl hstart (· == 5)
    (· = text "k") hempty twoClients twoClients_works.1 twoClients_works.2 (by decide +kernel)
    (fun fd cmd hmem hfd => by
      rw [hasked] at hmem
      simp only [List.mem_cons, Prod.mk.injEq, List.not_mem_nil, or_false] at hmem
      rcases hmem with ⟨rfl, _⟩ | ⟨rfl, _⟩ | ⟨_, rfl⟩ | ⟨_, rfl⟩
      · cases hfd
      · cases hfd
      · intro op hop
        rw [hset] at hop
        cases hop
        exact ⟨nofun, by simp [Operation.keys]⟩
      · intro op hop
        rw [hget] at hop
        cases hop
        exact ⟨nofun, by simp [Operation.keys]⟩)
    (fun fd cmd hmem hfd => by
      rw [hasked] at hmem
      simp only [List.mem_cons, Prod.mk.injEq, List.not_mem_nil, or_false] at hmem
      rcases hmem with ⟨_, rfl⟩ | ⟨_, rfl⟩ | ⟨rfl, _⟩ | ⟨rfl, _⟩
      · intro op hop
        rw [hincr] at hop
        cases hop
        exact ⟨nofun, by simp [Operation.writes]; decide⟩
      · intro op hop
        rw [hget] at hop
        cases hop
        exact ⟨nofun, by simp [Operation.writes]⟩
      · cases hfd
      · cases hfd)
  refine ⟨htold, its', hits, Eq.trans hpieces.symm ?_⟩
  rw [htold]
  rfl

end Cachedb
