import Slurmy.Lib.Counter
import Slurmy.Monitor.TaskRows

/-!
# Outcome breakdowns

What the pie charts of `app.py` count.

* `Snapshot`, `outcomeBreakdown`: the outcomes of a job, and of each of its solvers;
* `Summary`, `historyOutcomes`: the outcomes of a job in the overview;
* `IsPartition`: every pair is counted once;
* `breakdowns_partition_iff`: where the breakdown does so; the overview always does.
-/

namespace Slurmy
namespace Outcomes

open TaskPages (ResultRecord TaskDefinition SlurmRecord callOutcome upper)
open StableSort

/-! ### The breakdown of a job -/

/-- A job whose results belong to its tasks. -/
structure Snapshot where
  taskCount : ℤ
  results : List (ℕ × ResultRecord)
  tasks : List (ℕ × TaskDefinition)
  nodup_results : (results.map Prod.fst).Nodup
  nodup_tasks : (tasks.map Prod.fst).Nodup
  belongs : ∀ id ∈ results.map Prod.fst, id ∈ tasks.map Prod.fst

/-- An outcome: the label and where it comes from. -/
abbrev Outcome := Text × Text

def notFinished : Text := "Not finished".toList

def unknownSolver : Text := "Unknown solver".toList

/-- `definition.solver or 'Unknown solver'`. -/
def solverName (definition : TaskDefinition) : Text :=
  if definition.solver = [] then unknownSolver else definition.solver

structure Row where
  label : Text
  source : Text
  count : ℤ
  solvers : List (Text × ℤ)
  deriving DecidableEq

section Definitions

variable (casefold : Text → Text) (job : Snapshot)

/-- The outcome of a result, and the solver of its task. -/
def solverOutcome (entry : ℕ × ResultRecord) : Text × Text × Text :=
  let outcome := callOutcome casefold (some entry.2)
  (outcome.1, outcome.2, ((Dict.get job.tasks entry.1).map solverName).getD unknownSolver)

def Snapshot.total : ℤ := max job.taskCount (max (job.tasks.length : ℤ) (job.results.length : ℤ))

def Snapshot.unfinished : ℤ := max 0 (job.total - job.results.length)

/-- The tasks without results. -/
def Snapshot.open : List (ℕ × TaskDefinition) := job.tasks.filter fun task => decide (task.1 ∉ job.results.map Prod.fst)

/-- `counts`. -/
def counts : List (Outcome × ℤ) :=
  let finished := job.results.foldl (fun c entry => Counter.add c (callOutcome casefold (some entry.2)) 1) []
  if job.unfinished ≠ 0 then Counter.add finished (notFinished, []) job.unfinished else finished

/-- `by_solver`, but for pairs that no task is known of. -/
def tracked : List ((Text × Text × Text) × ℤ) :=
  let finished := job.results.foldl (fun c entry => Counter.add c (solverOutcome casefold job entry) 1) []
  if job.unfinished ≠ 0 then
    job.open.foldl (fun c task => Counter.add c (notFinished, [], solverName task.2) 1) finished
  else finished

/-- `unfinished - sum(count for (label, source, _), count in by_solver.items() if label == 'Not finished')`. -/
def untracked : ℤ := job.unfinished - Counter.totalWhere (fun k => decide (k.1 = notFinished)) (tracked casefold job)

/-- `by_solver`. -/
def bySolver : List ((Text × Text × Text) × ℤ) :=
  if job.unfinished ≠ 0 ∧ 0 < untracked casefold job then
    Counter.add (tracked casefold job) (notFinished, [], unknownSolver) (untracked casefold job)
  else tracked casefold job

/-- The places of the outcomes in the list. -/
def priority (outcome : Text × Text) : ℕ :=
  (Dict.get [(("theorem".toList, "solver".toList), 0), (("contradictoryaxioms".toList, "solver".toList), 1),
    (("countersatisfiable".toList, "solver".toList), 2), (("unsatisfiable".toList, "solver".toList), 3),
    (("satisfiable".toList, "solver".toList), 4), (("timeout".toList, "solver".toList), 5),
    (("solver error".toList, "execution".toList), 6), (("time limit".toList, "resource limiter".toList), 7),
    (("memory limit".toList, "resource limiter".toList), 8),
    (("resource limiter error".toList, "resource limiter".toList), 9), (("not finished".toList, []), 11)] outcome).getD 10

/-- The solvers of an outcome. -/
def solversOf (outcome : Outcome) : List Text :=
  sortBy casefold (firsts (job.tasks.map (fun task => solverName task.2) ++
    ((bySolver casefold job).map Prod.fst).filterMap fun k => if (k.1, k.2.1) = outcome then some k.2.2 else none))

/-- `outcome_breakdown`. -/
def outcomeBreakdown : List Row :=
  (sortBy (fun entry : Outcome × ℤ =>
      toLex (priority (casefold entry.1.1, entry.1.2), toLex (casefold entry.1.1, entry.1.2)))
    (counts casefold job)).map fun entry => {
      label := entry.1.1
      source := entry.1.2
      count := entry.2
      solvers := (solversOf casefold job entry.1).map fun name =>
        (name, Counter.count (bySolver casefold job) (entry.1.1, entry.1.2, name)) }

end Definitions

/-- Every pair is counted once, in all and for the solvers. -/
structure IsPartition (rows : List Row) (total : ℤ) : Prop where
  total : (rows.map Row.count).sum = total
  solvers : ∀ row ∈ rows, (row.solvers.map Prod.snd).sum = row.count

/-! ### The tasks without results -/

section Counts

variable (casefold : Text → Text) (job : Snapshot)

theorem length_open : (job.open.length : ℤ) = job.tasks.length - job.results.length := by
  have hdone : ((job.tasks.map Prod.fst).filter fun id => decide (id ∈ job.results.map Prod.fst)).Perm
      (job.results.map Prod.fst) := by
    refine (List.perm_ext_iff_of_nodup (job.nodup_tasks.filter _) job.nodup_results).2 fun id => ?_
    rw [List.mem_filter, decide_eq_true_eq]
    exact ⟨And.right, fun h => ⟨job.belongs id h, h⟩⟩
  have hlength := hdone.length_eq
  rw [List.filter_map, List.length_map, List.length_map] at hlength
  have hsplit := List.length_eq_length_filter_add (l := job.tasks)
    fun task : ℕ × TaskDefinition => decide (task.1 ∈ job.results.map Prod.fst)
  have hopen : job.open = job.tasks.filter fun task => !decide (task.1 ∈ job.results.map Prod.fst) :=
    List.filter_congr fun task _ => decide_not
  rw [hopen]
  simp only [Function.comp_def] at hlength
  omega

/-- The tasks that are only counted. -/
def Snapshot.unlisted : ℤ := max 0 (job.taskCount - job.tasks.length)

theorem unfinished_eq : job.unfinished = job.open.length + job.unlisted := by
  have hopen := length_open job
  unfold Snapshot.unfinished Snapshot.total Snapshot.unlisted
  omega

theorem total_eq : job.total = job.results.length + job.unfinished := by
  have hopen := length_open job
  unfold Snapshot.unfinished Snapshot.total
  omega

theorem open_of_unfinished (h : job.unfinished = 0) : job.open = [] := by
  have heq := unfinished_eq job
  have hnonneg : 0 ≤ job.unlisted := le_max_left _ _
  exact List.eq_nil_of_length_eq_zero (by omega)

/-! ### The outcomes of the results -/

/-- The number of results with such an outcome. -/
def finished (p : Outcome → Bool) : ℕ :=
  (job.results.filter fun entry => p (callOutcome casefold (some entry.2))).length

theorem finished_true : finished casefold job (fun _ => true) = job.results.length := by
  unfold finished
  rw [List.filter_true]

/-- A result comes from somewhere. -/
theorem source_callOutcome (result : ResultRecord) : (callOutcome casefold (some result)).2 ≠ [] := by
  unfold callOutcome
  dsimp only
  split_ifs <;> dsimp only <;> decide

theorem finished_notFinished : finished casefold job (fun o => decide (o = (notFinished, []))) = 0 := by
  rw [finished, List.length_eq_zero_iff, List.filter_eq_nil_iff]
  intro entry _ heq
  exact source_callOutcome casefold entry.2 (congrArg Prod.snd (of_decide_eq_true heq))

/-- The results that look like pairs without results. -/
def lookalikes : ℕ := finished casefold job fun o => decide (o.1 = notFinished)

/-! ### The counters -/

theorem totalWhere_counts (p : Outcome → Bool) :
    Counter.totalWhere p (counts casefold job) =
      finished casefold job p + if p (notFinished, []) then job.unfinished else 0 := by
  have hfinished : Counter.totalWhere p
      (job.results.foldl (fun c entry => Counter.add c (callOutcome casefold (some entry.2)) 1) []) =
      finished casefold job p := by
    rw [Counter.totalWhere_foldl, Counter.sum_indicator]
    exact zero_add _
  unfold counts
  dsimp only
  by_cases h : job.unfinished = 0
  · rw [if_neg (not_not_intro h), hfinished, h, ite_self, add_zero]
  · rw [if_pos h, Counter.totalWhere_add, hfinished]

theorem nodup_counts : ((counts casefold job).map Prod.fst).Nodup := by
  unfold counts
  dsimp only
  have hfinished := Counter.nodup_keys_foldl (c := ([] : List (Outcome × ℤ)))
    (f := fun entry : ℕ × ResultRecord => callOutcome casefold (some entry.2)) (g := fun _ => 1) (l := job.results)
    List.nodup_nil
  split_ifs
  · exact Counter.nodup_keys_add hfinished
  · exact hfinished

theorem totalWhere_tracked (p : Outcome → Bool) :
    Counter.totalWhere (fun k => p (k.1, k.2.1)) (tracked casefold job) =
      finished casefold job p + if p (notFinished, []) then (job.open.length : ℤ) else 0 := by
  have hfinished : Counter.totalWhere (fun k => p (k.1, k.2.1))
      (job.results.foldl (fun c entry => Counter.add c (solverOutcome casefold job entry) 1) []) =
      finished casefold job p := by
    rw [Counter.totalWhere_foldl, Counter.sum_indicator]
    exact zero_add _
  unfold tracked
  dsimp only
  by_cases h : job.unfinished = 0
  · rw [if_neg (not_not_intro h), hfinished, open_of_unfinished job h]
    simp
  · rw [if_pos h, Counter.totalWhere_foldl, hfinished]
    cases hp : p (notFinished, []) <;> simp [hp]

theorem nodup_tracked : ((tracked casefold job).map Prod.fst).Nodup := by
  unfold tracked
  dsimp only
  have hfinished := Counter.nodup_keys_foldl (c := ([] : List ((Text × Text × Text) × ℤ)))
    (f := solverOutcome casefold job) (g := fun _ => 1) (l := job.results) List.nodup_nil
  split_ifs
  · exact Counter.nodup_keys_foldl hfinished
  · exact hfinished

/-- A result that looks like a pair without a result hides a task that is only counted. -/
theorem untracked_eq : untracked casefold job = job.unlisted - lookalikes casefold job := by
  have htracked := totalWhere_tracked casefold job fun o => decide (o.1 = notFinished)
  rw [if_pos (decide_eq_true rfl)] at htracked
  rw [untracked, htracked, unfinished_eq, lookalikes]
  ring

theorem bySolver_eq : bySolver casefold job =
    if 0 < untracked casefold job then
      Counter.add (tracked casefold job) (notFinished, [], unknownSolver) (untracked casefold job)
    else tracked casefold job := by
  have hunfinished : job.unfinished ≠ 0 ∧ 0 < untracked casefold job ↔ 0 < untracked casefold job := by
    refine ⟨And.right, fun h => ⟨?_, h⟩⟩
    rw [untracked_eq] at h
    have := unfinished_eq job
    omega
  unfold bySolver
  rw [if_congr hunfinished rfl rfl]

theorem totalWhere_bySolver (p : Outcome → Bool) :
    Counter.totalWhere (fun k => p (k.1, k.2.1)) (bySolver casefold job) = finished casefold job p +
      if p (notFinished, []) then job.open.length + max 0 (job.unlisted - lookalikes casefold job) else 0 := by
  rw [bySolver_eq]
  by_cases h : 0 < untracked casefold job
  · rw [if_pos h, Counter.totalWhere_add, totalWhere_tracked]
    rw [untracked_eq] at h ⊢
    rw [max_eq_right h.le, add_assoc]
    cases p (notFinished, []) <;> simp
  · rw [if_neg h, totalWhere_tracked]
    rw [untracked_eq, not_lt] at h
    rw [max_eq_left h, add_zero]

theorem nodup_bySolver : ((bySolver casefold job).map Prod.fst).Nodup := by
  rw [bySolver_eq]
  split_ifs
  · exact Counter.nodup_keys_add (nodup_tracked casefold job)
  · exact nodup_tracked casefold job

/-! ### The rows -/

theorem sum_solvers (outcome : Outcome) :
    ((solversOf casefold job outcome).map fun name =>
        Counter.count (bySolver casefold job) (outcome.1, outcome.2, name)).sum =
      Counter.totalWhere (fun k => decide ((k.1, k.2.1) = outcome)) (bySolver casefold job) := by
  refine Counter.sum_count (f := fun name => (outcome.1, outcome.2, name)) (nodup_bySolver casefold job) ?_
    (fun name _ => decide_eq_true rfl) fun k hk hkey => ?_
  · have hnames : (solversOf casefold job outcome).Nodup := (perm_sortBy _ _).nodup_iff.2 (nodup_firsts _)
    exact hnames.map fun name name' heq => congrArg (fun k : Text × Text × Text => k.2.2) heq
  · have hkey := of_decide_eq_true hkey
    refine List.mem_map.2 ⟨k.2.2, ?_, by rw [← hkey]⟩
    rw [solversOf, mem_sortBy, mem_firsts, List.mem_append, List.mem_filterMap]
    exact Or.inr ⟨k, hk, if_pos hkey⟩

theorem count_of_mem {entry : Outcome × ℤ} (h : entry ∈ counts casefold job) :
    entry.2 = finished casefold job (fun o => decide (o = entry.1)) +
      if entry.1 = (notFinished, []) then job.unfinished else 0 := by
  rw [← Counter.totalWhere_eq (nodup_counts casefold job) h, totalWhere_counts]
  simp only [decide_eq_true_eq, eq_comm (a := (notFinished, ([] : Text)))]

theorem mem_outcomeBreakdown {row : Row} : row ∈ outcomeBreakdown casefold job ↔
    ∃ entry ∈ counts casefold job, row = ⟨entry.1.1, entry.1.2, entry.2,
      (solversOf casefold job entry.1).map fun name =>
        (name, Counter.count (bySolver casefold job) (entry.1.1, entry.1.2, name))⟩ := by
  simp only [outcomeBreakdown, List.mem_map, mem_sortBy, eq_comm]

theorem sum_outcomeBreakdown : ((outcomeBreakdown casefold job).map Row.count).sum = job.total := by
  have htotal := totalWhere_counts casefold job fun _ => true
  rw [if_pos rfl, finished_true, ← total_eq] at htotal
  rw [← htotal, outcomeBreakdown, List.map_map]
  refine ((perm_sortBy _ (counts casefold job)).map _).sum_eq.trans ?_
  rfl

/-- The pairs of every row but that of the missing results are counted for the solvers. -/
theorem solvers_iff : (∀ row ∈ outcomeBreakdown casefold job, (row.solvers.map Prod.snd).sum = row.count) ↔
    job.unlisted = 0 ∨ lookalikes casefold job = 0 := by
  have hsum (outcome : Outcome) := (sum_solvers casefold job outcome).trans
    (totalWhere_bySolver casefold job fun o => decide (o = outcome))
  constructor
  · intro h
    by_contra hboth
    rw [not_or] at hboth
    have hnonneg : 0 ≤ job.unlisted := le_max_left _ _
    have hunfinished : job.unfinished ≠ 0 := by
      have := unfinished_eq job
      omega
    have hmem : (notFinished, ([] : Text)) ∈ (counts casefold job).map Prod.fst := by
      unfold counts
      dsimp only
      rw [if_pos hunfinished]
      exact Counter.mem_keys_add.2 (Or.inl rfl)
    obtain ⟨entry, hentry, heq⟩ := List.mem_map.1 hmem
    have hrow := h _ ((mem_outcomeBreakdown casefold job).2 ⟨entry, hentry, rfl⟩)
    have hcount := count_of_mem casefold job hentry
    simp only [List.map_map, Function.comp_def] at hrow
    rw [hsum entry.1, heq, finished_notFinished] at hrow
    rw [heq, finished_notFinished, if_pos rfl] at hcount
    rw [if_pos (decide_eq_true rfl), hcount, unfinished_eq] at hrow
    omega
  · intro h row hrow
    obtain ⟨entry, hentry, rfl⟩ := (mem_outcomeBreakdown casefold job).1 hrow
    have hcount := count_of_mem casefold job hentry
    simp only [List.map_map, Function.comp_def]
    rw [hsum entry.1, hcount]
    by_cases heq : entry.1 = (notFinished, [])
    · have hnonneg : 0 ≤ job.unlisted := le_max_left _ _
      rw [heq, if_pos (decide_eq_true rfl), if_pos rfl, unfinished_eq]
      omega
    · rw [if_neg (by simpa using Ne.symm heq), if_neg heq]

end Counts

/-! ### The overview -/

/-- A job of the overview: what it has published, and the pairs that are finished in running batches. -/
structure Summary where
  taskCount : ℤ
  outcomeCounts : List ((Text × Text) × ℕ)
  results : List (ℕ × ResultRecord)
  statusCounts : List (Text × ℕ)
  completed : ℤ
  progress : List (ℕ × ℕ)
  slurm : List SlurmRecord
  submissionOffsets : List (Text × ℕ)

section History

variable (casefold : Text → Text) (job : Summary)

/-- `active_batch_ids`. -/
def Summary.activeBatchIds : List ℕ :=
  (job.slurm.filter fun record => decide (record.source = "queue".toList ∧
    (upper record.state = "RUNNING".toList ∨ upper record.state = "COMPLETING".toList) ∧
    isDigits record.arrayTaskId)).map fun record =>
      (Dict.get job.submissionOffsets record.arrayJobId).getD 0 + number record.arrayTaskId

/-- `effective_completed`. -/
def Summary.effectiveCompleted : ℤ :=
  min job.taskCount (job.completed +
    ((job.progress.filter fun p => decide (p.1 ∈ job.activeBatchIds)).map Prod.snd).sum)

/-- `ResultRecord(0, True, status, szs_status=szs)`. -/
def compactResult (status szs : Text) : ResultRecord :=
  ⟨true, status, [], none, none, none, [], szs, []⟩

/-- The counters of the published results. -/
def publishedCounts : List (Outcome × ℤ) :=
  if job.outcomeCounts ≠ [] then
    (job.outcomeCounts.filter fun entry => decide (0 < entry.2)).foldl (fun c entry =>
      Counter.add c (callOutcome casefold (some (compactResult entry.1.1 entry.1.2))) entry.2) []
  else if job.results ≠ [] then
    (job.results.filter fun entry => entry.2.complete).foldl (fun c entry =>
      Counter.add c (callOutcome casefold (some entry.2)) 1) []
  else
    job.statusCounts.foldl (fun c entry =>
      Counter.add c (callOutcome casefold (some (compactResult entry.1 []))) entry.2) []

def outcomePending : Outcome := ("Finished · outcome pending".toList, "controller".toList)

/-- `counts[key] += n`, for a positive number. -/
def pad (c : List (Outcome × ℤ)) (key : Outcome) (n : ℤ) : List (Outcome × ℤ) :=
  if max 0 n ≠ 0 then Counter.add c key (max 0 n) else c

def sumOf (c : List (Outcome × ℤ)) : ℤ := (c.map Prod.snd).sum

/-- `counts`, with the pairs that have no result. -/
def historyCounts : List (Outcome × ℤ) :=
  let published := publishedCounts casefold job
  let live := pad published outcomePending (job.effectiveCompleted - sumOf published)
  pad live (notFinished, []) (job.taskCount - sumOf live)

/-- `history_outcomes`. -/
def historyOutcomes : List (Outcome × ℤ) :=
  (sortBy (fun entry : Outcome × ℤ => toLex (decide (entry.1.1 ≠ notFinished), toLex entry.1))
    (historyCounts casefold job)).filter fun entry => decide (0 < entry.2)

/-- The number of the results that the summary has. -/
def Summary.published : ℕ :=
  if job.outcomeCounts ≠ [] then (job.outcomeCounts.map Prod.snd).sum
  else if job.results ≠ [] then (job.results.filter fun entry => entry.2.complete).length
  else (job.statusCounts.map Prod.snd).sum

theorem sumOf_eq (c : List (Outcome × ℤ)) : sumOf c = Counter.totalWhere (fun _ => true) c := rfl

theorem sumOf_pad (c : List (Outcome × ℤ)) (key : Outcome) (n : ℤ) : sumOf (pad c key n) = sumOf c + max 0 n := by
  unfold pad
  split_ifs with h
  · rw [sumOf_eq, Counter.totalWhere_add, if_pos rfl, sumOf_eq]
  · rw [not_not.1 h, add_zero]

theorem nonneg_pad {c : List (Outcome × ℤ)} (h : ∀ e ∈ c, 0 ≤ e.2) (key : Outcome) (n : ℤ) :
    ∀ e ∈ pad c key n, 0 ≤ e.2 := by
  unfold pad
  split_ifs
  · exact Counter.nonneg_add h (le_max_left _ _)
  · exact h

theorem sum_foldl {α : Type} (f : α → Outcome) (g : α → ℕ) (l : List α) :
    sumOf (l.foldl (fun c a => Counter.add c (f a) (g a)) []) = (l.map g).sum := by
  rw [sumOf_eq, Counter.totalWhere_foldl (g := fun a => (g a : ℤ)), Nat.cast_list_sum, List.map_map]
  simp only [if_true]
  exact zero_add _

theorem sumOf_published : sumOf (publishedCounts casefold job) = job.published := by
  unfold publishedCounts Summary.published
  split_ifs
  · rw [sum_foldl (fun entry : (Text × Text) × ℕ => callOutcome casefold (some (compactResult entry.1.1 entry.1.2)))
      Prod.snd, Counter.sum_positive fun entry _ => Nat.zero_le entry.2]
  · refine (sum_foldl (fun entry : ℕ × ResultRecord => callOutcome casefold (some entry.2)) (fun _ => 1) _).trans ?_
    rw [List.map_const', List.sum_replicate, smul_eq_mul, mul_one]
  · exact sum_foldl (fun entry : Text × ℕ => callOutcome casefold (some (compactResult entry.1 []))) Prod.snd _

theorem nonneg_published : ∀ e ∈ publishedCounts casefold job, 0 ≤ e.2 := by
  unfold publishedCounts
  split_ifs
  · exact Counter.nonneg_foldl (by simp) fun _ _ => Int.natCast_nonneg _
  · exact Counter.nonneg_foldl (by simp) fun _ _ => Int.one_nonneg
  · exact Counter.nonneg_foldl (by simp) fun _ _ => Int.natCast_nonneg _

/-- The pairs that ran since come first out of those without a result. -/
theorem sumOf_historyCounts : sumOf (historyCounts casefold job) = max job.taskCount job.published := by
  have hpublished := sumOf_published casefold job
  have heffective : job.effectiveCompleted ≤ job.taskCount := min_le_left _ _
  unfold historyCounts
  dsimp only
  rw [sumOf_pad, sumOf_pad, hpublished]
  omega

theorem sum_historyOutcomes : sumOf (historyOutcomes casefold job) = max job.taskCount job.published := by
  have hnonneg : ∀ e ∈ historyCounts casefold job, 0 ≤ e.2 :=
    nonneg_pad (nonneg_pad (nonneg_published casefold job) _ _) _ _
  rw [historyOutcomes, sumOf, Counter.sum_positive fun e he => hnonneg e (mem_sortBy.1 he), ← sumOf_historyCounts]
  exact ((perm_sortBy _ _).map _).sum_eq

end History

/-! ### Partitions -/

/-- **The counts of an outcome breakdown are a partition where every task is listed or no result looks like a missing
one; those of the overview always are.** -/
theorem breakdowns_partition_iff (casefold : Text → Text) (job : Snapshot) (summary : Summary) :
    (IsPartition (outcomeBreakdown casefold job) job.total ↔
      job.taskCount ≤ job.tasks.length ∨
        ∀ entry ∈ job.results, (callOutcome casefold (some entry.2)).1 ≠ "Not finished".toList) ∧
      ((historyOutcomes casefold summary).map Prod.snd).sum = max summary.taskCount summary.published := by
  refine ⟨?_, sum_historyOutcomes casefold summary⟩
  have hunlisted : job.unlisted = 0 ↔ job.taskCount ≤ job.tasks.length := by
    unfold Snapshot.unlisted
    omega
  have hlookalikes : lookalikes casefold job = 0 ↔
      ∀ entry ∈ job.results, (callOutcome casefold (some entry.2)).1 ≠ "Not finished".toList := by
    rw [lookalikes, finished, List.length_eq_zero_iff, List.filter_eq_nil_iff]
    simp only [decide_eq_true_eq]
    rfl
  rw [← hunlisted, ← hlookalikes, ← solvers_iff]
  exact ⟨IsPartition.solvers, fun h => ⟨sum_outcomeBreakdown casefold job, h⟩⟩

/-- A result that reads as a missing one, and a task that is only counted. -/
def hiddenTask : Snapshot where
  taskCount := 2
  results := [(0, compactResult "not-finished".toList [])]
  tasks := [(0, ⟨"solver".toList, [], [], [], []⟩)]
  nodup_results := List.nodup_singleton 0
  nodup_tasks := List.nodup_singleton 0
  belongs := fun _ h => h

/-- Two pairs, of which the solvers have one. -/
theorem hiddenTask_breakdown :
    (∀ entry ∈ hiddenTask.results, Lines.strip entry.2.szsStatus ≠ "Not finished".toList) ∧
      ¬ IsPartition (outcomeBreakdown TaskPages.lower hiddenTask) hiddenTask.total := by
  refine ⟨by decide +kernel, fun h => ?_⟩
  have hrow : (⟨"Not finished".toList, [], 1,
      [("solver".toList, 0)]⟩ : Row) ∈ outcomeBreakdown TaskPages.lower hiddenTask := by
    decide +kernel
  exact absurd (h.solvers _ hrow) (by decide)

end Outcomes
end Slurmy
