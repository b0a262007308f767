import Cachedb.Proofs.Accesses
import Cachedb.Proofs.LogFailure
import Cachedb.Proofs.Restart

/-!
# Replaying a log, and replaying it again

Replay takes the log for whatever bytes it is. `decode_record` makes no access
outside of its input and takes at least a header off it when it succeeds, so
the scan ends. It cuts the file where it stopped, which is between two
records, and that leaves a log a second replay reads to its last byte and an
append can go on with.
-/

namespace Cachedb

open Checked

/-- `decode_record` on any bytes: no check fails. -/
theorem decodeRecordChecked_ok (inp : Bytes) :
    decodeRecordChecked inp = .ok (decodeRecord inp) := by
  rw [decodeRecordChecked, decodeRecord]
  split
  · rfl
  next hlen =>
  rw [kRecordHeaderSize] at hlen
  have hklen : headerKlen inp < 2 ^ 32 := loadU32_lt _
  have hvlen : headerVlen inp < 2 ^ 32 := loadU32_lt _
  have hextra : headerExtra inp ≤ 8 := by
    rw [headerExtra]
    split
    · exact Nat.le_refl _
    · exact Nat.zero_le _
  have htotal : headerTotal inp =
      kRecordHeaderSize + headerExtra inp + headerKlen inp + headerVlen inp := rfl
  have hheader : kRecordHeaderSize = 21 := rfl
  rw [loadU32At_ok (by omega), ok_bind, loadU64At_ok (by omega), ok_bind, item_ok (by omega) 0,
    ok_bind, loadU32At_ok (by omega), ok_bind, loadU32At_ok (by omega), ok_bind, List.drop_zero]
  rw [show inp.getD 12 0 = headerOp inp from rfl,
    show loadU32 (inp.drop 13) = headerKlen inp from rfl,
    show loadU32 (inp.drop 17) = headerVlen inp from rfl]
  simp only []
  rw [show (if headerOp inp = kSetExOpByte then kExpirySize else 0) = headerExtra inp from rfl]
  rw [add_ok (by omega), ok_bind, add_ok (by omega), ok_bind, add_ok (by omega), ok_bind,
    ← htotal]
  split
  · rfl
  rw [sub_ok (by omega), ok_bind, slice_ok (by omega), ok_bind]
  split
  · rfl
  split
  · rfl
  next hfits _ _ =>
  have hstamp : stampAt inp kRecordHeaderSize (decide (headerOp inp = kSetExOpByte)) =
      .ok (if headerOp inp = kSetExOpByte then bitsStamp (loadU64 (inp.drop kRecordHeaderSize))
        else 0) := by
    rw [stampAt]
    by_cases hop : headerOp inp = kSetExOpByte
    · rw [headerExtra, if_pos hop, kExpirySize] at htotal
      rw [if_pos (decide_eq_true hop), if_pos hop, loadU64At_ok (by omega)]
      rfl
    · rw [if_neg (by simpa using hop), if_neg hop]
      rfl
  rw [hstamp, ok_bind, ok_bind, slice_ok (by omega), ok_bind, add_ok (by omega), ok_bind,
    slice_ok (by omega), ok_bind]
  rfl

/-- The scan stops after at most one round per header. -/
theorem replayScanChecked_ok (data : Bytes) : ∀ (fuel offset : Nat), offset ≤ data.length →
    data.length - offset < 21 * fuel →
    replayScanChecked data fuel offset = .ok (recordsOf (data.drop offset),
      offset + (replay (data.drop offset)).goodBytes)
  | 0, _, _, hfuel => absurd hfuel (by omega)
  | fuel + 1, offset, hoffset, hfuel => by
      have hall : (data.drop offset).take (data.length - offset) = data.drop offset :=
        List.take_of_length_le (by rw [List.length_drop])
      rw [replayScanChecked, sub_ok hoffset, ok_bind, slice_ok (by omega), ok_bind, hall,
        decodeRecordChecked_ok, ok_bind, recordsOf_eq, goodBytes_eq]
      cases hd : decodeRecord (data.drop offset) with
      | incomplete => rfl
      | corrupt => rfl
      | ok consumed record =>
          obtain ⟨hlo, hhi⟩ := decodeRecord_ok_bounds hd
          rw [kRecordHeaderSize] at hlo
          rw [List.length_drop] at hhi
          simp only []
          rw [replayScanChecked_ok data fuel (offset + consumed) (by omega) (by omega), ok_bind,
            List.drop_drop, Nat.add_assoc]
          rfl

/-- What appends put into the log, when every write goes through. -/
theorem recordsOf_landed {steps : List LogStep}
    (hfits : ∀ step ∈ steps, ∀ m ∈ step.mutations, m.Fits)
    (hlanded : ∀ step ∈ steps, step.landed = Wal.batchBytes step.mutations step.now.wall) :
    recordsOf (steps.flatMap LogStep.landed) =
      steps.flatMap fun step => batchRecords step.mutations step.now.wall := by
  induction steps with
  | nil => exact recordsOf_nil
  | cons step steps ih =>
      have hms := hfits step List.mem_cons_self
      rw [List.flatMap_cons, hlanded step List.mem_cons_self, List.flatMap_cons,
        ((whole_batch hms _).replay_append _).1, recordsOf_batch hms,
        ih (fun s hs => hfits s (List.mem_cons_of_mem _ hs))
          fun s hs => hlanded s (List.mem_cons_of_mem _ hs)]

/-- For any content of the log: decoding makes no access outside of its input
and takes between a header and everything, the scan of replay ends, replaying
the file that is left delivers the same again with nothing to cut, and after
any appends whose writes go through the next replay delivers the records of
the first and then theirs. -/
theorem replay_again (d : Disk) (s : Store) (w : Wal) (steps : List LogStep)
    (hfits : ∀ step ∈ steps, ∀ m ∈ step.mutations, m.Fits)
    (hlanded : ∀ step ∈ steps, step.landed = Wal.batchBytes step.mutations step.now.wall) :
    (∀ inp, decodeRecordChecked inp = .ok (decodeRecord inp) ∧
      ∀ n r, decodeRecord inp = .ok n r → 21 ≤ n ∧ n ≤ inp.length) ∧
    replayScanChecked d.logBytes (d.logBytes.length / 21 + 1) 0 =
      .ok ((replay d.logBytes).records, (replay d.logBytes).goodBytes) ∧
    replay (d.run (s.recover d).events).logBytes =
      { records := (replay d.logBytes).records, goodBytes := (replay d.logBytes).goodBytes
        truncated := false } ∧
    (replay ((d.run (s.recover d).events).run (w.events steps)).logBytes).records =
      (replay d.logBytes).records ++
        steps.flatMap fun step => batchRecords step.mutations step.now.wall := by
  obtain ⟨-, hwhole, hsame⟩ := recover_log d s
  refine ⟨fun inp => ⟨decodeRecordChecked_ok inp, fun n r h => decodeRecord_ok_bounds h⟩,
    ?_, ?_, ?_⟩
  · have hscan := replayScanChecked_ok d.logBytes (d.logBytes.length / 21 + 1) 0 (Nat.zero_le _)
      (by omega)
    rw [List.drop_zero, Nat.zero_add] at hscan
    exact hscan
  · have hlen := congrArg List.length (recover_logBytes d s)
    rw [List.length_take, Nat.min_eq_left (goodBytes_le d.logBytes)] at hlen
    have hgood : (replay (d.run (s.recover d).events).logBytes).goodBytes =
        (replay d.logBytes).goodBytes := hwhole.trans hlen
    have htrunc : (replay (d.run (s.recover d).events).logBytes).truncated = false := by
      show decide ((replay (d.run (s.recover d).events).logBytes).goodBytes <
        (d.run (s.recover d).events).logBytes.length) = false
      rw [hwhole, decide_eq_false_iff_not]
      exact Nat.lt_irrefl _
    rw [recordsOf, recordsOf] at hsame
    rw [← hgood, ← htrunc, ← hsame]
  · show recordsOf _ = recordsOf _ ++ _
    rw [Wal.events_landed, (hwhole.replay_append _).1, hsame, recordsOf_landed hfits hlanded]

/-- A record and two bytes of wreckage; then a SET and a batch of one DEL are
appended. -/
theorem replay_again_torn :
    let d : Disk :=
      { log := some (encodeRecord { op := .kSet, key := [1], value := [7] } 3 ++ [0, 9]) }
    let steps : List LogStep := [
      { call := .append { op := .kSet, key := [2], value := [8] }, now := { wall := 4 } },
      { call := .appendBatch [{ op := .kDelete, key := [1] }], now := { wall := 5 } }]
    (replay ((d.run (Store.recover {} d).events).run (Wal.events {} steps)).logBytes).records = [
      { op := .kSet, timestampMs := 3, expiresAtMs := 0, key := [1], value := [7] },
      { op := .kSet, timestampMs := 4, expiresAtMs := 0, key := [2], value := [8] },
      { op := .kDelete, timestampMs := 5, expiresAtMs := 0, key := [1], value := [] }] := by
  intro d steps
  have hsteps : ∀ step ∈ steps, (∀ m ∈ step.mutations, m.Fits) ∧
      step.landed = Wal.batchBytes step.mutations step.now.wall := by decide +kernel
  have hall := (replay_again d {} {} steps (fun step h => (hsteps step h).1)
    fun step h => (hsteps step h).2).2.2.2
  rw [hall]
  decide +kernel

end Cachedb
