import Mathlib.Data.List.Sort
import Slurmy.Submission.Record

/-!
# Which batches a controller selects

* `batchOrder`: the batches in the order of the glob `batches/batch_*.sh`, the numbers themselves as
  long as they have six digits (`batchOrder_eq_range`);
* `ResultFiles`, `resumeBatches`: the batches with a pair that no result file records as complete,
  as the script for `RESUME_INCOMPLETE` computes them;
* `mem_resumeBatches`: what that script selects.
-/

namespace Slurmy
namespace Submission

/-! ### The order of the batches -/

/-- `printf 'batches/batch_%06d.sh'`. -/
def batchFile (b : ℕ) : Text := "batches/batch_".toList ++ padded 6 b ++ ".sh".toList

/-- The batches of a job of `n` batches as the shell's glob lists their files, sorted by name. -/
def batchOrder (n : ℕ) : List ℕ :=
  (List.range n).insertionSort fun a b => batchFile a ≤ batchFile b

theorem append_lt_append {s t : Text} (h : s < t) (hlen : s.length = t.length) (u v : Text) :
    s ++ u < t ++ v := by
  induction s generalizing t with
  | nil => cases t with
    | nil => exact absurd h (lt_irrefl _)
    | cons d t => cases hlen
  | cons c s ih => cases t with
    | nil => cases hlen
    | cons d t =>
      rcases List.cons_lt_cons_iff.1 h with hhead | ⟨rfl, htail⟩
      · exact List.cons_lt_cons_iff.2 (.inl hhead)
      · exact List.cons_lt_cons_iff.2 (.inr ⟨rfl, ih htail (Nat.succ.inj hlen)⟩)

theorem append_lt_append_left {s t : Text} (h : s < t) (u : Text) : u ++ s < u ++ t := by
  induction u with
  | nil => exact h
  | cons c u ih => exact List.cons_lt_cons_iff.2 (.inr ⟨rfl, ih⟩)

/-- Up to six digits, numbered file names are in the order of their numbers. -/
theorem append_padded_lt (stem ending : Text) {a b : ℕ} (hab : a < b) (hb : b < 10 ^ (5 + 1)) :
    stem ++ padded 6 a ++ ending < stem ++ padded 6 b ++ ending := by
  have hlen : (padded (5 + 1) a).length = (padded (5 + 1) b).length := by
    rw [length_padded (hab.trans hb), length_padded hb]
  rw [List.append_assoc, List.append_assoc]
  exact append_lt_append_left (append_lt_append (padded_lt_padded hab hb) hlen _ _) _

theorem batchFile_lt {a b : ℕ} (hab : a < b) (hb : b < 10 ^ (5 + 1)) :
    batchFile a < batchFile b :=
  append_padded_lt _ _ hab hb

/-- Up to a million batches, the glob lists them in numerical order. -/
theorem batchOrder_eq_range {n : ℕ} (hn : n ≤ 10 ^ (5 + 1)) : batchOrder n = List.range n := by
  apply List.Pairwise.insertionSort_eq
  refine List.pairwise_lt_range.imp_of_mem fun {a b} _ hb hab => ?_
  exact le_of_lt (batchFile_lt hab ((List.mem_range.1 hb).trans_le hn))

/-! ### Recorded results -/

/-- The contents of the result files, in any order. -/
structure ResultFiles where
  ready : Bool
  indexLegacy : List Text
  index : List Text
  individual : List Text

/-- The files that are read: the compact indexes once they are published. -/
def ResultFiles.paths (r : ResultFiles) : List Text :=
  if r.ready then r.indexLegacy ++ r.index else r.individual

/-- `row.get('complete', '').lower() == 'true'`, `none` when the row is too short for it. -/
def isComplete (row : Csv.DictRow) : Option Bool :=
  ((row.get? "complete".toList).getD (some [])).map fun t => t.map Char.toLower = "true".toList

/-- `int(row['task_id'])`. -/
def taskId (row : Csv.DictRow) : Option ℤ := (field row "task_id").bind toInt

/-- The pairs that the rows record as complete. -/
def doneIn : List Csv.DictRow → Option (List ℤ)
  | [] => some []
  | row :: rows => do
      let complete ← isComplete row
      if complete then
        let task ← taskId row
        let tail ← doneIn rows
        pure (task :: tail)
      else doneIn rows

/-- The pairs that a result file records as complete. -/
def doneTasks (t : Text) : Option (List ℤ) := (Csv.dictReader t).bind doneIn

/-- The batches with a pair that is not done; `planned` is `planned_batch_tasks` of the metadata. -/
def unfinished (planned : List (List ℕ)) (done : List ℤ) : List ℕ :=
  (List.range planned.length).filter fun b =>
    (planned.getD b []).any fun task => decide ((task : ℤ) ∉ done)

/-- The selection for `RESUME_INCOMPLETE`, `none` when a file cannot be read. -/
def resumeBatches (planned : List (List ℕ)) (r : ResultFiles) : Option (List ℕ) := do
  let done ← r.paths.mapM doneTasks
  pure (unfinished planned done.flatten)

/-- Some result file that is read has a row of the task that says complete. -/
def RecordedComplete (r : ResultFiles) (task : ℕ) : Prop :=
  ∃ t ∈ r.paths, ∃ rows, Csv.dictReader t = some rows ∧
    ∃ row ∈ rows, isComplete row = some true ∧ taskId row = some task

/-- Some planned pair of the batch is not recorded complete. -/
def Unfinished (planned : List (List ℕ)) (r : ResultFiles) (b : ℕ) : Prop :=
  ∃ tasks, planned[b]? = some tasks ∧ ∃ task ∈ tasks, ¬ RecordedComplete r task

theorem mem_doneIn {rows : List Csv.DictRow} {done : List ℤ} (h : doneIn rows = some done) (k : ℤ) :
    k ∈ done ↔ ∃ row ∈ rows, isComplete row = some true ∧ taskId row = some k := by
  induction rows generalizing done with
  | nil => cases h; simp
  | cons row rows ih =>
    rw [List.exists_mem_cons_iff]
    obtain ⟨complete, hc, h⟩ := Option.bind_eq_some_iff.1 h
    cases complete with
    | false =>
      rw [ih h, hc]
      simp
    | true =>
      obtain ⟨task, htask, h⟩ := Option.bind_eq_some_iff.1 h
      obtain ⟨tail, htail, h⟩ := Option.bind_eq_some_iff.1 h
      cases h
      rw [List.mem_cons, ih htail, hc, htask]
      simp [eq_comm]

theorem mem_doneTasks {t : Text} {done : List ℤ} (h : doneTasks t = some done) (k : ℤ) :
    k ∈ done ↔ ∃ rows, Csv.dictReader t = some rows ∧
      ∃ row ∈ rows, isComplete row = some true ∧ taskId row = some k := by
  obtain ⟨rows, hrows, hdone⟩ := Option.bind_eq_some_iff.1 h
  rw [mem_doneIn hdone, hrows]
  simp

theorem mem_flatten_doneTasks {paths : List Text} {done : List (List ℤ)}
    (h : paths.mapM doneTasks = some done) (k : ℤ) :
    k ∈ done.flatten ↔ ∃ t ∈ paths, ∃ rows, Csv.dictReader t = some rows ∧
      ∃ row ∈ rows, isComplete row = some true ∧ taskId row = some k := by
  induction paths generalizing done with
  | nil => cases h; simp
  | cons t paths ih =>
    simp only [List.mapM_cons, Option.bind_eq_bind, Option.bind_eq_some_iff, Option.pure_def,
      Option.some.injEq] at h
    obtain ⟨head, hhead, tail, htail, rfl⟩ := h
    rw [List.flatten_cons, List.mem_append, mem_doneTasks hhead, ih htail,
      List.exists_mem_cons_iff]

theorem mem_unfinished {planned : List (List ℕ)} {done : List ℤ} {b : ℕ} :
    b ∈ unfinished planned done ↔
      ∃ tasks, planned[b]? = some tasks ∧ ∃ task ∈ tasks, (task : ℤ) ∉ done := by
  simp only [unfinished, List.mem_filter, List.mem_range, List.any_eq_true, decide_eq_true_eq]
  constructor
  · rintro ⟨hb, task, htask, hdone⟩
    refine ⟨planned[b], List.getElem?_eq_getElem hb, task, ?_, hdone⟩
    rwa [List.getD_eq_getElem _ _ hb] at htask
  · rintro ⟨tasks, hb, task, htask, hdone⟩
    obtain ⟨hlt, rfl⟩ := List.getElem?_eq_some_iff.1 hb
    refine ⟨hlt, task, ?_, hdone⟩
    rwa [List.getD_eq_getElem _ _ hlt]

/-- The script selects the batches with a planned pair that is not recorded complete. -/
theorem mem_resumeBatches {planned : List (List ℕ)} {r : ResultFiles} {wanted : List ℕ}
    (h : resumeBatches planned r = some wanted) (b : ℕ) :
    b ∈ wanted ↔ Unfinished planned r b := by
  simp only [resumeBatches, Option.bind_eq_bind, Option.bind_eq_some_iff, Option.pure_def,
    Option.some.injEq] at h
  obtain ⟨done, hdone, rfl⟩ := h
  simp only [mem_unfinished, mem_flatten_doneTasks hdone]
  rfl

end Submission
end Slurmy
