import Cachedb.Proofs.LogReplay
import Cachedb.Proofs.StoreSteps

/-!
# Appends that fail

A `write` may give up after any number of bytes, and what it put down stays in
the log. If that is a whole number of records, nothing is lost by it: the next
append begins where a record begins. If it is not, the next append begins
inside a record, replay stops in front of both, and whatever was answered from
then on is not found again. The log does not cut the piece off.

`append_failures_harmless` is the positive half: as long as nothing is
answered after such a tear, everything that was answered is replayed, in order.
-/

namespace Cachedb

/-- What of an append reached the file. -/
def LogStep.landed (step : LogStep) : Bytes :=
  (writeAll (Wal.batchBytes step.mutations step.now.wall) step.fate.cut).1

/-- The records of the appends that returned true. -/
def Wal.answered (w : Wal) : List LogStep → List Record
  | [] => []
  | step :: steps =>
      (if (w.step step).ok then batchRecords step.mutations step.now.wall else []) ++
        (w.step step).wal.answered steps

/-- Once an append has been cut inside a record, no append is answered that
has a record. -/
def Wal.NothingAfterTear (w : Wal) : List LogStep → Prop
  | [] => True
  | step :: steps =>
      (¬Whole step.landed → (w.step step).wal.answered steps = []) ∧
        (w.step step).wal.NothingAfterTear steps

/-- An append puts down what landed, and an answered one puts down all. -/
theorem Wal.step_landed (w : Wal) (step : LogStep) (d : Disk) :
    (d.run (w.step step).events).logBytes = d.logBytes ++ step.landed ∧
      ((w.step step).ok = true →
        step.landed = Wal.batchBytes step.mutations step.now.wall) := by
  rw [Wal.step_eq, LogStep.landed]
  split
  · next h =>
      rw [h]
      have hnil : (writeAll (Wal.batchBytes [] step.now.wall) step.fate.cut).1 = [] := by
        rcases writeAll_cases (Wal.batchBytes [] step.now.wall) step.fate.cut with
          heq | ⟨n, _, hn, _⟩
        · rw [heq]; rfl
        · exact absurd hn (Nat.not_lt_zero n)
      rw [hnil]
      exact ⟨(List.append_nil _).symm, fun _ => rfl⟩
  · rw [Wal.commit]
    rcases writeAll_cases (Wal.batchBytes step.mutations step.now.wall) step.fate.cut with
      heq | ⟨n, _, _, heq⟩
    · rw [heq]
      refine ⟨?_, fun _ => rfl⟩
      simp only [Bool.not_true, Bool.false_eq_true, if_false]
      split
      · rw [Wal.sync]
        split <;> rfl
      · rfl
    · rw [heq]
      exact ⟨rfl, fun h => by cases h⟩

theorem Wal.events_landed (steps : List LogStep) : ∀ (w : Wal) (d : Disk),
    (d.run (w.events steps)).logBytes = d.logBytes ++ steps.flatMap LogStep.landed := by
  induction steps with
  | nil => intro w d; exact (List.append_nil _).symm
  | cons step steps ih =>
      intro w d
      rw [Wal.events, Disk.run_append, ih, (w.step_landed step d).1, List.flatMap_cons,
        List.append_assoc]

theorem Wal.answered_sublist {steps : List LogStep} :
    ∀ {w : Wal}, (∀ step ∈ steps, ∀ m ∈ step.mutations, m.Fits) → w.NothingAfterTear steps →
      (w.answered steps).Sublist (recordsOf (steps.flatMap LogStep.landed)) := by
  induction steps with
  | nil => intro w _ _; exact List.nil_sublist _
  | cons step steps ih =>
      intro w hfits hw
      obtain ⟨htear, hrest⟩ := hw
      have hms := hfits step List.mem_cons_self
      have htail := ih (fun step' hstep' => hfits step' (List.mem_cons_of_mem _ hstep')) hrest
      rw [Wal.answered, List.flatMap_cons]
      by_cases hwhole : Whole step.landed
      · rw [(hwhole.replay_append _).1]
        refine List.Sublist.append ?_ htail
        split
        · next hok =>
            rw [(w.step_landed step {}).2 hok, recordsOf_batch hms]
        · exact List.nil_sublist _
      · -- A torn append returned false, and nothing is answered after it.
        rw [htear hwhole, List.append_nil]
        split
        · next hok =>
            refine absurd ?_ hwhole
            rw [(w.step_landed step {}).2 hok]
            exact whole_batch hms _
        · exact List.nil_sublist _

/-- Appends to a whole log, any of which may fail anywhere: if nothing was
answered after a tear inside a record, replay delivers what the log held and
every record of every append that returned true, in order. -/
theorem append_failures_harmless (w : Wal) (d : Disk) (hd : Whole d.logBytes)
    (steps : List LogStep) (hfits : ∀ step ∈ steps, ∀ m ∈ step.mutations, m.Fits)
    (hw : w.NothingAfterTear steps) :
    (recordsOf d.logBytes ++ w.answered steps).Sublist
      (recordsOf (d.run (w.events steps)).logBytes) := by
  rw [Wal.events_landed, (hd.replay_append _).1]
  exact List.Sublist.append (List.Sublist.refl _) (Wal.answered_sublist hfits hw)

/-- The second of two records of a batch fails to land, and then a record is
torn; the append between them is found again. -/
theorem append_failures_harmless_batch :
    let m : Bytes → Mutation := fun key => { op := .kSet, key, value := [7] }
    let steps : List LogStep := [
      { call := .appendBatch [m [1], m [2]], fate := { cut := some 23 } },
      { call := .append (m [3]) },
      { call := .append (m [4]), fate := { cut := some 5 } }]
    Wal.answered {} steps = [(m [3]).record 0] ∧
      (Wal.answered {} steps).Sublist (recordsOf (Disk.run {} (Wal.events {} steps)).logBytes) := by
  intro m steps
  have hfits : ∀ step ∈ steps, ∀ m ∈ step.mutations, m.Fits := by
    intro step hstep mu hmu
    simp only [steps, List.mem_cons, List.not_mem_nil, or_false] at hstep
    rcases hstep with rfl | rfl | rfl <;>
      simp only [LogStep.mutations, List.mem_cons, List.not_mem_nil, or_false] at hmu
    · rcases hmu with rfl | rfl <;> exact ⟨by decide, by decide⟩
    · rw [hmu]; exact ⟨by decide, by decide⟩
    · rw [hmu]; exact ⟨by decide, by decide⟩
  have htear : Wal.NothingAfterTear {} steps :=
    ⟨fun h => absurd (by decide +kernel) h, fun h => absurd (by decide +kernel) h,
      fun _ => rfl, trivial⟩
  refine ⟨by decide +kernel, ?_⟩
  have := append_failures_harmless {} {} whole_nil steps hfits htear
  rwa [show recordsOf (Disk.logBytes {}) = [] from recordsOf_nil, List.nil_append] at this

/-- An append that lands five bytes and fails, then one that succeeds: replay
finds nothing. -/
theorem append_after_tear_lost :
    let steps : List LogStep := [
      { call := .append { op := .kSet, key := [1], value := [7] }, fate := { cut := some 5 } },
      { call := .append { op := .kSet, key := [2], value := [8] } }]
    Wal.answered {} steps =
        [{ op := .kSet, timestampMs := 0, expiresAtMs := 0, key := [2], value := [8] }] ∧
      recordsOf (Disk.run {} (Wal.events {} steps)).logBytes = [] := by
  decide +kernel

end Cachedb
