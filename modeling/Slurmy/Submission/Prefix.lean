import Slurmy.Lib.Machine
import Slurmy.Submission.Controller

/-!
# `submission.csv` over all controller runs of a job

Controllers of one job run one after another (they hold `.submit-controller.lock`), each with its
own `RESUME_INCOMPLETE`, under arbitrary answers of the coordinator, killed between any two file
operations, while results are published and the stop marker comes and goes.

* `World`: the machine; `replies` observes what the coordinator has answered for which batch;
* `PcOk`: what `submission.csv` holds at each place of the script;
* `PcOk.step`, `RecordOk.step`: the record stays a contiguous batch prefix, as long as no controller
  is cut off while it writes the header;
* `RecordOk.contiguous`: the next controller's check passes wherever such a run ends.
-/

namespace Slurmy
namespace Submission

/-- The files of the job, and its controller with `RESUME_INCOMPLETE` if there is one. -/
structure World where
  files : JobFiles
  running : Option (Bool × Pc)

inductive Event
  | start (incomplete : Bool)
  | move (m : Move)
  | kill
  | results (r : ResultFiles)
  | marker (stopped : Bool)

/-- The event ends or interrupts the controller. -/
def Event.cuts : Event → Bool
  | .kill | .move .abort => true
  | _ => false

namespace World

def step (job : Job) (w : World) : Event → Option World
  | .start incomplete =>
      match w.running with
      | none | some (_, .exited _) => some { w with running := some (incomplete, .lock) }
      | some _ => none
  | .move m =>
      match w.running with
      | some (incomplete, pc) =>
          (pc.step job incomplete w.files m).map fun r => ⟨r.1, some (incomplete, r.2)⟩
      | none => none
  | .kill => some { w with running := none }
  | .results r => some { w with files := { w.files with results := r } }
  | .marker stopped => some { w with files := { w.files with stopped := stopped } }

/-- The answers of the coordinator, with the batch they are about. -/
def replies (w : World) : Event → List (ℕ × Reply)
  | .move (.reply rc out) =>
      match w.running with
      | some (_, .calling _ b) => [(b, parseReply rc out)]
      | _ => []
  | _ => []

/-- The controller has printed `Submission complete`. -/
def Completed (w : World) : Prop :=
  ∃ incomplete, w.running = some (incomplete, .exiting 0) ∨ w.running = some (incomplete, .exited 0)

/-- The step does not cut off a controller that is writing the header. -/
def HeaderUncut (w : World) (e : Event) : Prop :=
  ∀ incomplete writes, w.running = some (incomplete, .header writes) → e.cuts = false

end World

/-- The batches of all rows of `submission.csv`, as the readers see them. -/
def fileBatches (t : Text) : Option (List ℤ) := (Csv.dictReader t).bind (·.mapM batchId)

/-! ### The record of accepted batches -/

/-- The number of distinct batches in the rows. -/
def count (rows : List Row) : ℕ := (rows.map Row.batch).toFinset.card

/-- `submission.csv` consists of its header and contiguous rows. -/
def Holds (submission : Option Text) (rows : List Row) : Prop :=
  submission = some (table rows) ∧ Contiguous (rows.map Row.batch)

/-- `submission.csv` does not exist or holds some rows. -/
def Quiet (submission : Option Text) : Prop := submission = none ∨ ∃ rows, Holds submission rows

/-- The rest of the loop after the batches below `m`. -/
def restFrom (job : Job) (m : ℕ) : List ℕ := List.range' m (job.batches - m)

/-- What `submission.csv` holds at each place of the script. -/
def PcOk (job : Job) (submission : Option Text) : Pc → Prop
  | .header writes =>
      ∃ written, written ++ writes = csvRowWrites [] columns ∧ submission = some written.flatten
  | .select submitted => ∃ rows, Holds submission rows ∧ submitted = count rows
  | .batch l =>
      ∃ rows, Holds submission rows ∧ l.submitted = count rows ∧
        ∃ m, l.rest = restFrom job m ∧ m ≤ l.submitted
  | .attempt l b | .calling l b | .record l b _ =>
      ∃ rows, Holds submission rows ∧ l.submitted = count rows ∧
        l.rest = restFrom job (b + 1) ∧ b ≤ l.submitted
  | .exiting rc | .exited rc =>
      Quiet submission ∧ (rc = 0 → ∃ rows, Holds submission rows ∧ job.batches ≤ count rows)
  | _ => Quiet submission

theorem batchOrder_eq_restFrom (job : Job) : batchOrder job.batches = restFrom job 0 := by
  have hle : job.batches ≤ 10 ^ (5 + 1) := job.batches_le.trans (by omega)
  rw [batchOrder_eq_range hle, List.range_eq_range']
  rfl

/-- The next batch of the loop, and what is left after it. -/
theorem restFrom_eq_cons {job : Job} {m b : ℕ} {rest : List ℕ} (h : b :: rest = restFrom job m) :
    b = m ∧ b < job.batches ∧ rest = restFrom job (b + 1) := by
  obtain ⟨rfl, hpos, hrest⟩ := List.range'_eq_cons_iff.1 h.symm
  have hsub : job.batches - m - 1 = job.batches - (m + 1) := by omega
  exact ⟨rfl, by omega, by rw [hrest, hsub]; rfl⟩

theorem le_of_restFrom_eq_nil {job : Job} {m : ℕ} (h : [] = restFrom job m) : job.batches ≤ m := by
  have hlen := congrArg List.length h
  simp only [restFrom, List.length_nil, List.length_range'] at hlen
  omega

theorem Holds.append {submission : Option Text} {rows : List Row} (h : Holds submission rows)
    (r : Row) (hr : r.batch ≤ count rows) :
    Holds (some (submission.getD [] ++ r.line)) (rows ++ [r]) ∧
      count (rows ++ [r]) = if count rows ≤ r.batch then count rows + 1 else count rows := by
  obtain ⟨rfl, hc⟩ := h
  have hmem := hc.mem_iff r.batch
  have hins : ((rows ++ [r]).map Row.batch).toFinset =
      insert r.batch (rows.map Row.batch).toFinset := by
    ext c
    simp
  refine ⟨⟨?_, ?_⟩, ?_⟩
  · simp [table]
  · rw [List.map_append, List.map_singleton, contiguous_append_singleton, hmem]
    refine ⟨hc, ?_⟩
    unfold count at hr
    omega
  · unfold count at hr ⊢
    rw [hins]
    split_ifs with hlt
    · exact Finset.card_insert_of_notMem fun hin => by
        have := hmem.1 (List.mem_toFinset.1 hin)
        omega
    · exact congrArg Finset.card
        (Finset.insert_eq_of_mem (List.mem_toFinset.2 (hmem.2 (by omega))))

/-- Wherever a controller is cut off outside the header, the record is whole. -/
theorem PcOk.quiet {job : Job} {submission : Option Text} {pc : Pc} (h : PcOk job submission pc)
    (hpc : ∀ writes, pc ≠ .header writes) : Quiet submission := by
  cases pc with
  | header writes => exact absurd rfl (hpc writes)
  | select | batch | attempt | calling | record =>
    obtain ⟨rows, hrows, -⟩ := h
    exact .inr ⟨rows, hrows⟩
  | exiting | exited => exact h.1
  | lock | context | contextWrite | stoppedTest | plan | readSubmission => exact h

theorem pcOk_failed {job : Job} {submission : Option Text} (h : Quiet submission) :
    PcOk job submission (.exiting 1) ∧ PcOk job submission (.exited 1) :=
  ⟨⟨h, fun h1 => by cases h1⟩, ⟨h, fun h1 => by cases h1⟩⟩

/-- One move keeps the record, unless it aborts the controller in the header. -/
theorem PcOk.step {job : Job} {incomplete : Bool} {f f' : JobFiles} {pc pc' : Pc} {m : Move}
    (h : PcOk job f.submission pc) (hcut : ∀ writes, pc = .header writes → m ≠ .abort)
    (hstep : Moves job incomplete f pc m f' pc') : PcOk job f'.submission pc' := by
  cases hstep with
  | locked | contextKept | contextCreated | contextWritten | notStopped | planned => exact h
  | stopped | inconsistent => exact (pcOk_failed h).1
  | unlocked => exact (pcOk_failed h).2
  | unreadable | stoppedBefore | stoppedWaiting | failed =>
    exact (pcOk_failed (h.quiet fun _ hpc => by cases hpc)).1
  | counted t k hsub _ hcount =>
    rcases h with h | ⟨rows, hrows⟩
    · rw [h] at hsub
      cases hsub
    · refine ⟨rows, hrows, ?_⟩
      obtain rfl := Option.some.inj (hrows.1.symm.trans hsub)
      rw [countSubmitted_table] at hcount
      exact (Option.some.inj hcount).symm
  | created => exact ⟨[], rfl, rfl⟩
  | headerWrite w writes =>
    obtain ⟨written, hwritten, hsub⟩ := h
    refine ⟨written ++ [w], by rw [← hwritten]; simp, ?_⟩
    simp only [hsub, Option.getD_some, List.flatten_append, List.flatten_singleton]
  | headerDone =>
    obtain ⟨written, hwritten, hsub⟩ := h
    rw [List.append_nil] at hwritten
    refine ⟨[], ⟨?_, contiguous_nil⟩, rfl⟩
    rw [hsub, hwritten]
    simp [table, csvRow]
  | selected k wanted =>
    obtain ⟨rows, hrows, hk⟩ := h
    exact ⟨rows, hrows, hk, 0, batchOrder_eq_restFrom job, Nat.zero_le _⟩
  | completed l hrest =>
    obtain ⟨rows, hrows, hsub, m, hm, hle⟩ := h
    have hall := le_of_restFrom_eq_nil (hrest.symm.trans hm)
    exact ⟨.inr ⟨rows, hrows⟩, fun _ => ⟨rows, hrows, by omega⟩⟩
  | skipped l b rest hrest hlt =>
    obtain ⟨rows, hrows, hsub, m, hm, hle⟩ := h
    obtain ⟨rfl, hb, hrest'⟩ := restFrom_eq_cons (hrest.symm.trans hm)
    exact ⟨rows, hrows, hsub, b + 1, hrest', hlt⟩
  | chosen l b rest hrest =>
    obtain ⟨rows, hrows, hsub, m, hm, hle⟩ := h
    obtain ⟨rfl, hb, hrest'⟩ := restFrom_eq_cons (hrest.symm.trans hm)
    exact ⟨rows, hrows, hsub, hrest', hle⟩
  | called | accepted | waits => exact h
  | recorded l b epoch id =>
    obtain ⟨rows, hrows, hsub, hrest, hle⟩ := h
    have happ := hrows.append ⟨id.1, b, epoch, id.2⟩ (hsub ▸ hle)
    refine ⟨rows ++ [⟨id.1, b, epoch, id.2⟩], happ.1, ?_, b + 1, hrest, ?_⟩
    · rw [happ.2, hsub]
    · show b + 1 ≤ if l.submitted ≤ b then l.submitted + 1 else l.submitted
      split_ifs <;> omega
  | exited => exact h
  | trapped pc habort =>
    refine (pcOk_failed (h.quiet fun writes hpc => ?_)).1
    exact hcut writes hpc rfl

/-- The record in a state between two steps. -/
def RecordOk (job : Job) (w : World) : Prop :=
  match w.running with
  | none => Quiet w.files.submission
  | some (_, pc) => PcOk job w.files.submission pc

theorem RecordOk.step {job : Job} {w w' : World} {e : Event} (h : RecordOk job w)
    (hcut : w.HeaderUncut e) (hstep : w.step job e = some w') : RecordOk job w' := by
  obtain ⟨f, running⟩ := w
  cases e with
  | start incomplete =>
    cases running with
    | none => cases hstep; exact h
    | some c =>
      obtain ⟨_, pc⟩ := c
      cases pc with
      | exited rc => cases hstep; exact h.1
      | _ => cases hstep
  | move m =>
    cases running with
    | none => cases hstep
    | some c =>
      obtain ⟨incomplete, pc⟩ := c
      obtain ⟨⟨f', pc'⟩, hpc, rfl⟩ := Option.map_eq_some_iff.1 hstep
      refine PcOk.step h (fun writes heq hm => ?_) (Pc.moves_of_step hpc)
      subst hm
      exact Bool.false_ne_true (hcut incomplete writes (by rw [heq])).symm
  | kill =>
    cases hstep
    cases running with
    | none => exact h
    | some c =>
      obtain ⟨incomplete, pc⟩ := c
      exact PcOk.quiet h fun writes heq =>
        Bool.false_ne_true (hcut incomplete writes (by rw [heq])).symm
  | results r => cases hstep; exact h
  | marker stopped => cases hstep; exact h

/-! ### What the readers find -/

/-- The batches of all rows are contiguous, and the check of the next controller passes. -/
def ContiguousRecord (w : World) : Prop :=
  ∀ t, w.files.submission = some t →
    ∃ ids : List ℕ, fileBatches t = some (ids.map Nat.cast) ∧ Contiguous ids ∧
      (checkPrior t).isSome = true

/-- Every batch of the job is in `submission.csv` once the submission is complete. -/
def CompleteRecord (job : Job) (w : World) : Prop :=
  w.Completed → ∃ t ids, w.files.submission = some t ∧ fileBatches t = some ids ∧
    ∀ b : ℕ, b < job.batches → (b : ℤ) ∈ ids

theorem fileBatches_table (rows : List Row) :
    fileBatches (table rows) = some ((rows.map Row.batch).map Nat.cast) := by
  rw [fileBatches, dictReader_table, List.map_map]
  exact mapM_batchId rows

/-- A part of the header names no batch. -/
theorem fileBatches_header {j : ℕ} (hj : j ≤ 6) :
    fileBatches ((csvRowWrites [] columns).take j).flatten = some [] ∧
      (checkPrior ((csvRowWrites [] columns).take j).flatten).isSome = true := by
  interval_cases j <;> decide

theorem Quiet.contiguous {submission : Option Text} (h : Quiet submission) {t : Text}
    (ht : submission = some t) :
    ∃ ids : List ℕ, fileBatches t = some (ids.map Nat.cast) ∧ Contiguous ids ∧
      (checkPrior t).isSome = true := by
  rcases h with h | ⟨rows, hsub, hc⟩
  · rw [h] at ht
    cases ht
  · obtain rfl := Option.some.inj (hsub.symm.trans ht)
    exact ⟨_, fileBatches_table rows, hc, checkPrior_table hc⟩

theorem PcOk.contiguous {job : Job} {submission : Option Text} {pc : Pc}
    (h : PcOk job submission pc) {t : Text} (ht : submission = some t) :
    ∃ ids : List ℕ, fileBatches t = some (ids.map Nat.cast) ∧ Contiguous ids ∧
      (checkPrior t).isSome = true := by
  by_cases hpc : ∃ writes, pc = .header writes
  · obtain ⟨writes, rfl⟩ := hpc
    obtain ⟨written, hwritten, hsub⟩ := h
    obtain rfl := Option.some.inj (hsub.symm.trans ht)
    have htake : written = (csvRowWrites [] columns).take written.length := by
      rw [← hwritten, List.take_left]
    have hlen : written.length ≤ 6 := by
      have := congrArg List.length hwritten
      have hsix : (csvRowWrites [] columns).length = 6 := rfl
      rw [List.length_append, hsix] at this
      omega
    rw [htake]
    exact ⟨[], (fileBatches_header hlen).1, contiguous_nil, (fileBatches_header hlen).2⟩
  · exact (h.quiet fun writes heq => hpc ⟨writes, heq⟩).contiguous ht

theorem RecordOk.contiguous {job : Job} {w : World} (h : RecordOk job w) : ContiguousRecord w := by
  obtain ⟨f, running⟩ := w
  intro t ht
  cases running with
  | none => exact Quiet.contiguous h ht
  | some c => exact PcOk.contiguous h ht

theorem RecordOk.complete {job : Job} {w : World} (h : RecordOk job w) : CompleteRecord job w := by
  obtain ⟨f, running⟩ := w
  rintro ⟨incomplete, hpc⟩
  have hrows : ∃ rows, Holds f.submission rows ∧ job.batches ≤ count rows := by
    rcases hpc with rfl | rfl
    · exact h.2 rfl
    · exact h.2 rfl
  obtain ⟨rows, ⟨hsub, hc⟩, hall⟩ := hrows
  refine ⟨_, _, hsub, fileBatches_table rows, fun b hb => ?_⟩
  rw [List.mem_map]
  exact ⟨b, (hc.mem_iff b).2 (hb.trans_le hall), rfl⟩

end Submission
end Slurmy
