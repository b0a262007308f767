import Cachedb.Model.Command
import Cachedb.Spec.RespValue

/-!
# Every command is answered once

The handlers put their replies together from the six writers of `resp.cpp`,
and two of those, the simple string and the error, write a text as it is.
Whoever calls them has to keep the end of a line out of it. The fixed texts
have none; what comes from a client goes through `append_printable`; the name
in an arity error is one of the dispatch table. Everything else of a client's
or of the store goes into bulk strings.
-/

namespace Cachedb

/-- The bytes are one reply. -/
def IsReply (out : Bytes) : Prop := ∃ v : RespValue, v.encode = out

theorem isReply_simpleString {s : Bytes} (h : OneLine s) : IsReply (simpleString s) :=
  ⟨.simple ⟨s, h⟩, by rw [RespValue.encode, simpleString, List.append_assoc]; rfl⟩

theorem isReply_error {msg : Bytes} (h : OneLine msg) : IsReply (errorReply msg) :=
  ⟨.error ⟨msg, h⟩, by rw [RespValue.encode, errorReply, List.append_assoc]; rfl⟩

theorem isReply_integer (n : Int) : IsReply (integerReply n) :=
  ⟨.integer n, by rw [RespValue.encode, integerReply, List.append_assoc]; rfl⟩

theorem encode_bulk (data : Bytes) : (RespValue.bulk data).encode = bulkString data := by
  simp only [RespValue.encode, RespValue.line, bulkString, List.append_assoc, List.cons_append]
  rfl

theorem isReply_bulkString (data : Bytes) : IsReply (bulkString data) :=
  ⟨.bulk data, encode_bulk data⟩

theorem isReply_nullBulk : IsReply nullBulk := ⟨.null, by decide⟩

theorem isReply_array (vs : List RespValue) :
    IsReply (arrayHeader vs.length ++ (vs.map RespValue.encode).flatten) := by
  refine ⟨.array vs, ?_⟩
  simp only [RespValue.encode, RespValue.encodeAll_eq, RespValue.line, arrayHeader,
    List.append_assoc, List.cons_append]
  rfl

theorem isReply_emptyArray : IsReply (arrayHeader 0) := ⟨.array [], by decide⟩

/-! ## Texts in lines -/

theorem OneLine.append {s t : Bytes} (hs : OneLine s) (ht : OneLine t) : OneLine (s ++ t) :=
  List.forall_mem_append.mpr ⟨hs, ht⟩

theorem oneLine_printable (s : Bytes) : OneLine (printable s) := by
  intro c hc
  obtain ⟨d, _, rfl⟩ := List.mem_map.mp hc
  split
  · next hprint =>
      constructor
      · rintro rfl; exact absurd hprint (by decide)
      · rintro rfl; exact absurd hprint (by decide)
  · decide

/-- A literal is checked character by character. -/
theorem oneLine_text (cs : List Char)
    (h : cs.all (fun c => UInt8.ofNat c.toNat ≠ cr ∧ UInt8.ofNat c.toNat ≠ lf) = true) :
    OneLine (text (String.ofList cs)) := by
  rw [text, String.toList_ofList]
  intro c hc
  obtain ⟨d, hd, rfl⟩ := List.mem_map.mp hc
  exact of_decide_eq_true (List.all_eq_true.mp h d hd)

/-- The texts the handlers put into lines. -/
def fixedTexts : List Bytes := [
  text "PONG", text "OK", kSetFailed, kDelFailed, kNotAnInteger, text "ERR syntax error",
  text "ERR invalid expire time in 'set' command",
  text "ERR invalid expire time in 'expire' command",
  text "ERR the expiry could not be logged and was not applied",
  text "ERR increment or decrement would overflow", text "ERR the flush could not be completed",
  text "ERR Unknown CONFIG subcommand or wrong number of arguments for '",
  text "ERR unknown command '", text "ERR wrong number of arguments for '", text "'",
  text "' command"]

theorem oneLine_fixed : ∀ s ∈ fixedTexts, OneLine s := by
  simp only [fixedTexts, List.forall_mem_cons, List.not_mem_nil, false_implies, implies_true,
    and_true]
  refine ⟨?_, ?_, ?_, ?_, ?_, ?_, ?_, ?_, ?_, ?_, ?_, ?_, ?_, ?_, ?_, ?_⟩ <;>
    exact oneLine_text _ (by decide +kernel)

theorem isReply_fixed {msg : Bytes} (h : msg ∈ fixedTexts) : IsReply (errorReply msg) :=
  isReply_error (oneLine_fixed msg h)

/-- A client's bytes in an error. -/
theorem isReply_echo {before after : Bytes} (hbefore : before ∈ fixedTexts)
    (hafter : after ∈ fixedTexts) (s : Bytes) :
    IsReply (errorReply (before ++ printable s ++ after)) :=
  isReply_error (((oneLine_fixed before hbefore).append (oneLine_printable s)).append
    (oneLine_fixed after hafter))

/-! ## Handlers -/

theorem IsReply.ite {p : Prop} [Decidable p] {out out' : Bytes} (h : IsReply out)
    (h' : IsReply out') : IsReply (if p then out else out') := by
  split
  · exact h
  · exact h'

theorem isReply_ok : IsReply (simpleString (text "OK")) :=
  isReply_simpleString (oneLine_fixed _ (by simp [fixedTexts]))

variable (c : Command) (s : Store) (env : Env)

theorem cmdPing_reply : IsReply (cmdPing c s env).ret :=
  .ite (isReply_simpleString (oneLine_fixed _ (by simp [fixedTexts]))) (isReply_bulkString _)

theorem cmdSetTo_reply (stamp : Int64) : IsReply (cmdSetTo c s env stamp).ret :=
  .ite isReply_ok (isReply_fixed (by simp [fixedTexts]))

theorem cmdSet_reply : IsReply (cmdSet c s env).ret := by
  unfold cmdSet
  split
  · split
    · exact isReply_fixed (by simp [fixedTexts])
    · split
      · exact isReply_fixed (by simp [fixedTexts])
      · split
        · exact isReply_fixed (by simp [fixedTexts])
        · split
          · exact isReply_fixed (by simp [fixedTexts])
          · split
            · exact isReply_fixed (by simp [fixedTexts])
            · exact cmdSetTo_reply c s _ _
  · split
    · exact isReply_fixed (by simp [fixedTexts])
    · exact cmdSetTo_reply c s _ _

theorem cmdGet_reply : IsReply (cmdGet c s env).ret := by
  unfold cmdGet Store.reply
  simp only []
  split
  · exact isReply_bulkString _
  · exact isReply_nullBulk

theorem cmdDel_reply : IsReply (cmdDel c s env).ret := by
  unfold cmdDel
  split
  · exact .ite (isReply_fixed (by simp [fixedTexts])) (isReply_integer _)
  · exact .ite (isReply_fixed (by simp [fixedTexts])) (isReply_integer _)

theorem cmdExpireAt_reply (deadline : Int64) : IsReply (cmdExpireAt c s env deadline).ret :=
  .ite (isReply_fixed (by simp [fixedTexts])) (isReply_integer _)

theorem cmdExpire_reply : IsReply (cmdExpire c s env).ret := by
  unfold cmdExpire
  split
  · exact isReply_fixed (by simp [fixedTexts])
  · split
    · exact cmdExpireAt_reply c s _ _
    · split
      · exact isReply_fixed (by simp [fixedTexts])
      · exact cmdExpireAt_reply c s _ _

theorem cmdTtl_reply : IsReply (cmdTtl c s env).ret :=
  .ite (isReply_integer _) (.ite (isReply_integer _) (isReply_integer _))

theorem cmdIncrFrom_reply (value stamp : Int64) :
    IsReply (cmdIncrFrom c s env value stamp).ret := by
  unfold cmdIncrFrom
  split
  · exact isReply_fixed (by simp [fixedTexts])
  · exact .ite (isReply_integer _) (isReply_fixed (by simp [fixedTexts]))

theorem cmdIncr_reply : IsReply (cmdIncr c s env).ret := by
  unfold cmdIncr
  split
  · exact cmdIncrFrom_reply c s _ _ _
  · split
    · exact isReply_fixed (by simp [fixedTexts])
    · exact cmdIncrFrom_reply c s _ _ _

theorem cmdFlushall_reply : IsReply (cmdFlushall c s env).ret :=
  .ite isReply_ok (isReply_fixed (by simp [fixedTexts]))

theorem cmdConfig_reply : IsReply (cmdConfig c s env).ret := by
  unfold cmdConfig Store.reply
  simp only []
  split
  · split
    · exact isReply_emptyArray
    · split
      · exact isReply_emptyArray
      · next value _ =>
          have hpair := isReply_array [.bulk (c.arg 2), .bulk value]
          simp only [List.map_cons, List.map_nil, List.flatten_cons, List.flatten_nil,
            List.append_nil, encode_bulk] at hpair
          rw [List.append_assoc]
          exact hpair
  · exact isReply_echo (by simp [fixedTexts]) (by simp [fixedTexts]) _

theorem oneLine_names : ∀ entry ∈ dispatchTable, OneLine entry.1 := by decide +kernel

/-- Every handler answers with one reply. -/
theorem handler_reply {name : Bytes} {spec : Spec} (h : (name, spec) ∈ dispatchTable) :
    IsReply (spec.handler c s env).ret := by
  simp only [dispatchTable, List.mem_cons, Prod.mk.injEq, List.not_mem_nil, or_false] at h
  rcases h with ⟨_, rfl⟩ | ⟨_, rfl⟩ | ⟨_, rfl⟩ | ⟨_, rfl⟩ | ⟨_, rfl⟩ | ⟨_, rfl⟩ | ⟨_, rfl⟩ |
    ⟨_, rfl⟩ | ⟨_, rfl⟩ | ⟨_, rfl⟩ | ⟨_, rfl⟩ | ⟨_, rfl⟩
  · exact cmdPing_reply c s env
  · exact cmdSet_reply c s env
  · exact cmdGet_reply c s env
  · exact cmdExpire_reply c s env
  · exact cmdTtl_reply c s env
  · exact cmdIncr_reply c s env
  · exact cmdFlushall_reply c s env
  · exact isReply_bulkString _
  · exact cmdConfig_reply c s env
  · exact cmdDel_reply c s env
  · exact isReply_integer _
  · exact isReply_emptyArray

theorem mem_of_lookup {name : Bytes} {spec : Spec} {table : List (Bytes × Spec)}
    (h : table.lookup name = some spec) : (name, spec) ∈ table := by
  induction table with
  | nil => cases h
  | cons entry table ih =>
      rw [List.lookup_cons] at h
      split at h
      · next heq =>
          rw [Option.some.injEq] at h
          rw [eq_of_beq heq, ← h]
          exact List.mem_cons_self
      · exact List.mem_cons_of_mem _ (ih h)

theorem execute_reply {cmd : Command} (h : cmd ≠ []) : IsReply (execute cmd s env).ret := by
  unfold execute
  split
  · exact absurd rfl h
  · next raw args =>
      split
      · exact isReply_echo (by simp [fixedTexts]) (by simp [fixedTexts]) _
      · next name _ =>
          split
          · exact isReply_echo (by simp [fixedTexts]) (by simp [fixedTexts]) _
          · next spec hspec =>
              have hmem := mem_of_lookup hspec
              split
              · refine isReply_error (OneLine.append (.append ?_ ?_) ?_)
                · exact oneLine_fixed _ (by simp [fixedTexts])
                · exact oneLine_names _ hmem
                · exact oneLine_fixed _ (by simp [fixedTexts])
              · exact handler_reply _ s env hmem

/-! ## Pipelines -/

/-- The replies to commands executed one after the other. -/
def Store.answers (s : Store) (envs : Nat → Env) : List Command → List Bytes
  | [] => []
  | cmd :: cmds =>
      (execute cmd s (envs 0)).ret ::
        (execute cmd s (envs 0)).store.answers (fun n => envs (n + 1)) cmds

/-- However many commands are sent at once, a client finds as many replies to
them, in order, and then whatever else was sent. -/
theorem one_reply_each (s : Store) (envs : Nat → Env) (cmds : List Command)
    (h : ∀ cmd ∈ cmds, cmd ≠ []) :
    ∃ vs : List RespValue, s.answers envs cmds = vs.map RespValue.encode ∧
      vs.length = cmds.length ∧
      ∀ rest, RespValue.decode cmds.length ((s.answers envs cmds).flatten ++ rest) =
        some (vs, rest) := by
  have hvalues : ∃ vs : List RespValue, s.answers envs cmds = vs.map RespValue.encode ∧
      vs.length = cmds.length := by
    induction cmds generalizing s envs with
    | nil => exact ⟨[], rfl, rfl⟩
    | cons cmd cmds ih =>
        obtain ⟨hcmd, hcmds⟩ := List.forall_mem_cons.mp h
        obtain ⟨v, hv⟩ := execute_reply s (envs 0) hcmd
        obtain ⟨vs, hvs, hlen⟩ := ih (execute cmd s (envs 0)).store (fun n => envs (n + 1)) hcmds
        refine ⟨v :: vs, ?_, by rw [List.length_cons, List.length_cons, hlen]⟩
        rw [Store.answers, hvs, ← hv, List.map_cons]
  obtain ⟨vs, hvs, hlen⟩ := hvalues
  refine ⟨vs, hvs, hlen, fun rest => ?_⟩
  rw [hvs, ← hlen]
  exact RespValue.decode_encode vs rest

/-- An unknown name that holds the end of a line, and a stored value that does. -/
theorem one_reply_each_forged :
    ∃ vs : List RespValue, vs.length = 3 ∧ ∀ rest, RespValue.decode 3
      ((Store.answers {} (fun _ => {}) [[text "+OK\r\n"], [text "SET", text "k", text "\r\n:1\r\n"],
        [text "GET", text "k"]]).flatten ++ rest) = some (vs, rest) := by
  obtain ⟨vs, _, hlen, hdecode⟩ := one_reply_each {} (fun _ => {})
    [[text "+OK\r\n"], [text "SET", text "k", text "\r\n:1\r\n"], [text "GET", text "k"]]
    (by decide +kernel)
  exact ⟨vs, hlen, hdecode⟩

end Cachedb
