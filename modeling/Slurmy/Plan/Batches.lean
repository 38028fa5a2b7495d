import Mathlib.Tactic
import Slurmy.Lib.Packing
import Slurmy.Text

/-!
# The batch plan

`generate` streams through the solver-problem pairs and keeps one open batch for each key, the
allocation a pair asks for together with the number of its configuration group.

* `readPairs`, `Task`: the pairs of `jobpairs.csv`, numbered in order;
* `Planner`, `planBatches`: the loop over the pairs;
* `planKeys`: the key under which the loop plans each pair;
* `planBatches_eq`: the plan is the packing of the keyed pairs;
* `planBatches_partition`: what the plan promises.
-/

namespace Slurmy
namespace Plan

open Packing

/-! ### The loop -/

/-- The orders of `PAIR_ORDERS`. -/
inductive PairOrder
  | problemMajor
  | solverMajor
  | random
  deriving DecidableEq

/-- The fields of `allocation_fields`. -/
structure Allocation where
  cores : ℕ
  threadsPerCore : ℕ
  cpus : ℕ
  exclusiveCpu : Bool
  exclusiveNode : Bool
  deriving DecidableEq

/-- The fields of `configuration_fields`. -/
structure Configuration extends Allocation where
  solver : Text
  solverRoot : Text
  command : Text
  wcLimit : ℕ
  cpuLimit : ℕ
  memLimit : ℕ
  deriving DecidableEq

/-- A solver-problem pair. -/
structure Task extends Configuration where
  taskId : ℕ
  deriving DecidableEq

/-- The pairs of the accepted rows; `task_id` is the number of pairs before. -/
def readPairs (rows : List Configuration) : List Task :=
  rows.zipIdx.map fun row => ⟨row.1, row.2⟩

/-- The configuration group and the allocation. -/
abbrev Key := ℕ × Allocation

/-- The variables of the loop. -/
structure Planner where
  batches : List (List Task)
  openBatches : Key → Option ℕ
  previousConfiguration : Option Configuration
  configurationGroup : ℕ

/-- The variables before the loop. -/
def Planner.start : Planner := ⟨[], fun _ => none, none, 0⟩

/-- The group of the next task. -/
def nextGroup (order : Option PairOrder) (previous : Option Configuration) (group : ℕ)
    (task : Task) : ℕ :=
  if order = some .solverMajor ∧ some task.toConfiguration ≠ previous then group + 1 else group

/-- One pass of the loop. -/
def Planner.step (size : ℕ) (order : Option PairOrder) (p : Planner) (task : Task) : Planner :=
  let group := nextGroup order p.previousConfiguration p.configurationGroup task
  let key := (group, task.toAllocation)
  let fresh : List (List Task) × (Key → Option ℕ) × ℕ :=
    (p.batches ++ [[]], Function.update p.openBatches key (some p.batches.length),
      p.batches.length)
  let (batches, openBatches, batchId) := match p.openBatches key with
    | none => fresh
    | some b =>
        if size ≤ (p.batches.getD b []).length then fresh else (p.batches, p.openBatches, b)
  { batches := batches.modify batchId (· ++ [task])
    openBatches := openBatches
    previousConfiguration := some task.toConfiguration
    configurationGroup := group }

/-- The batches of `generate`. -/
def planBatches (size : ℕ) (order : Option PairOrder) (tasks : List Task) : List (List Task) :=
  (tasks.foldl (Planner.step size order) Planner.start).batches

/-- `planned_batch_tasks` of the metadata. -/
def plannedBatchTasks (batches : List (List Task)) : List (List ℕ) :=
  batches.map fun batch => batch.map Task.taskId

/-! ### The keys -/

/-- The keys of the tasks that are still to come. -/
def keysFrom (order : Option PairOrder) : Option Configuration → ℕ → List Task → List Key
  | _, _, [] => []
  | previous, group, task :: tasks =>
      let next := nextGroup order previous group task
      (next, task.toAllocation) :: keysFrom order (some task.toConfiguration) next tasks

/-- The key under which each task is planned. -/
def planKeys (order : Option PairOrder) (tasks : List Task) : List Key :=
  keysFrom order none 0 tasks

theorem length_keysFrom (order : Option PairOrder) (previous : Option Configuration) (group : ℕ)
    (tasks : List Task) : (keysFrom order previous group tasks).length = tasks.length := by
  induction tasks generalizing previous group with
  | nil => rfl
  | cons task tasks ih => simp [keysFrom, ih]

theorem allocation_of_mem {order : Option PairOrder} {previous : Option Configuration} {group : ℕ}
    {tasks : List Task} {x : Key × Task}
    (hx : x ∈ (keysFrom order previous group tasks).zip tasks) : x.1.2 = x.2.toAllocation := by
  induction tasks generalizing previous group with
  | nil => simp [keysFrom] at hx
  | cons task tasks ih =>
    rw [keysFrom, List.zip_cons_cons, List.mem_cons] at hx
    rcases hx with rfl | hx
    · rfl
    · exact ih hx

theorem le_nextGroup (order : Option PairOrder) (previous : Option Configuration) (group : ℕ)
    (task : Task) : group ≤ nextGroup order previous group task := by
  unfold nextGroup
  split_ifs <;> omega

theorem le_group_of_mem {order : Option PairOrder} {previous : Option Configuration} {group : ℕ}
    {tasks : List Task} {k : Key} (hk : k ∈ keysFrom order previous group tasks) :
    group ≤ k.1 := by
  induction tasks generalizing previous group with
  | nil => simp [keysFrom] at hk
  | cons task tasks ih =>
    have hnext := le_nextGroup order previous group task
    rw [keysFrom, List.mem_cons] at hk
    rcases hk with rfl | hk
    · exact hnext
    · exact hnext.trans (ih hk)

/-- Solver-major: a task in the current group has the configuration before it. -/
theorem configuration_eq_of_group {previous : Option Configuration} {group : ℕ}
    {tasks : List Task} {x : Key × Task}
    (hx : x ∈ (keysFrom (some .solverMajor) previous group tasks).zip tasks)
    (hgroup : x.1.1 = group) : some x.2.toConfiguration = previous := by
  induction tasks generalizing previous group with
  | nil => simp [keysFrom] at hx
  | cons task tasks ih =>
    rw [keysFrom, List.zip_cons_cons, List.mem_cons] at hx
    by_cases hsame : some task.toConfiguration = previous
    · have hnext : nextGroup (some .solverMajor) previous group task = group := by
        simp [nextGroup, hsame]
      rw [hnext] at hx
      rcases hx with rfl | hx
      · exact hsame
      · rw [← hsame]
        exact ih hx hgroup
    · -- a new group starts here, and the group numbers never fall
      have hnext : nextGroup (some .solverMajor) previous group task = group + 1 := by
        simp [nextGroup, hsame]
      rw [hnext] at hx
      rcases hx with rfl | hx
      · simp at hgroup
      · have hle := le_group_of_mem (List.of_mem_zip hx).1
        omega

theorem configuration_eq {previous : Option Configuration} {group : ℕ} {tasks : List Task}
    {x y : Key × Task} (hx : x ∈ (keysFrom (some .solverMajor) previous group tasks).zip tasks)
    (hy : y ∈ (keysFrom (some .solverMajor) previous group tasks).zip tasks)
    (hxy : x.1.1 = y.1.1) : x.2.toConfiguration = y.2.toConfiguration := by
  induction tasks generalizing previous group with
  | nil => simp [keysFrom] at hx
  | cons task tasks ih =>
    rw [keysFrom, List.zip_cons_cons, List.mem_cons] at hx hy
    rcases hx with rfl | hx <;> rcases hy with rfl | hy
    · rfl
    · exact (Option.some.inj (configuration_eq_of_group hy hxy.symm)).symm
    · exact Option.some.inj (configuration_eq_of_group hx hxy)
    · exact ih hx hy

/-! ### The plan is a packing -/

/-- The planner and the shelf hold the same batches. -/
structure Planner.Matches (p : Planner) (s : Shelf Key Task) : Prop where
  batches : p.batches = s.batches.map Prod.snd
  openBatches : p.openBatches = s.opened

theorem modify_append_singleton (batches : List (List Task)) (task : Task) :
    (batches ++ [[]]).modify batches.length (· ++ [task]) = batches ++ [[task]] := by
  induction batches with
  | nil => rfl
  | cons batch batches ih => simpa using ih

theorem Planner.Matches.step {p : Planner} {s : Shelf Key Task} (h : p.Matches s)
    (hs : s.OpenIsLast) (size : ℕ) (order : Option PairOrder) (task : Task) :
    (p.step size order task).Matches (s.put size
      ((nextGroup order p.previousConfiguration p.configurationGroup task, task.toAllocation),
        task)) := by
  obtain ⟨batches, openBatches, previous, group⟩ := p
  obtain ⟨rfl, rfl⟩ := h
  generalize hkey : (nextGroup order previous group task, task.toAllocation) = key
  have hopened := hs key
  unfold Planner.step Shelf.put
  simp only [hkey]
  cases hopen : s.opened key with
  | none =>
    constructor
    · rw [modify_append_singleton]
      simp [Shelf.fresh]
    · simp [Shelf.fresh]
  | some i =>
    rw [hopen] at hopened
    obtain ⟨before, after, hsplit, hi, -⟩ := hopened
    have hlt : i < s.batches.length := by
      have hlen := congrArg List.length hsplit
      simp only [List.length_map, List.length_append, List.length_cons] at hlen
      omega
    have hget : s.batches[i]? = some s.batches[i] := List.getElem?_eq_getElem hlt
    have hgetD : (s.batches.map Prod.snd).getD i [] = s.batches[i].2 := by simp [hget]
    simp only [hget, hgetD]
    by_cases hfull : size ≤ s.batches[i].2.length
    · rw [if_pos hfull, if_neg (by omega)]
      constructor
      · rw [modify_append_singleton]
        simp [Shelf.fresh]
      · simp [Shelf.fresh]
    · rw [if_neg hfull, if_pos (by omega)]
      constructor
      · simp [List.modify_eq_set, hget]
      · rfl

/-- The tasks with their keys. -/
def keyed (order : Option PairOrder) (tasks : List Task) : List (Key × Task) :=
  (planKeys order tasks).zip tasks

theorem foldl_step_matches (size : ℕ) (order : Option PairOrder) {p : Planner}
    {s : Shelf Key Task} (h : p.Matches s) (hs : s.OpenIsLast) (tasks : List Task) :
    (tasks.foldl (Planner.step size order) p).Matches (s.putAll size
      ((keysFrom order p.previousConfiguration p.configurationGroup tasks).zip tasks)) := by
  induction tasks generalizing p s with
  | nil => exact h
  | cons task tasks ih =>
    have hnext := h.step hs size order task
    exact ih hnext (hs.put size _)

/-- The loop packs the tasks by their keys. -/
theorem planBatches_eq (size : ℕ) (order : Option PairOrder) (tasks : List Task) :
    planBatches size order tasks =
      (Shelf.empty.putAll size (keyed order tasks)).batches.map Prod.snd := by
  have hstart : Planner.start.Matches Shelf.empty := ⟨rfl, rfl⟩
  exact (foldl_step_matches size order hstart openIsLast_empty tasks).batches

/-! ### What the plan promises -/

/-- The batches with a task planned under `key`. -/
def batchesOf (order : Option PairOrder) (tasks : List Task) (plan : List (List Task)) (key : Key) :
    List (List Task) :=
  plan.filter fun batch => batch.any fun task => (planKeys order tasks)[task.taskId]? = some key

/-- An exact, homogeneous and minimal partition of the tasks into batches of at most `size`. -/
structure HomogeneousPartition (size : ℕ) (order : Option PairOrder) (tasks : List Task)
    (plan : List (List Task)) : Prop where
  covers : ((plannedBatchTasks plan).flatten).Perm (List.range tasks.length)
  tasks_of : ∀ batch ∈ plan, ∀ task ∈ batch, tasks[task.taskId]? = some task
  ascending : ∀ ids ∈ plannedBatchTasks plan, ids.Pairwise (· < ·)
  bounded : ∀ batch ∈ plan, batch ≠ [] ∧ batch.length ≤ size
  allocation : ∀ batch ∈ plan, ∀ t ∈ batch, ∀ u ∈ batch, t.toAllocation = u.toAllocation
  configuration : order = some .solverMajor →
    ∀ batch ∈ plan, ∀ t ∈ batch, ∀ u ∈ batch, t.toConfiguration = u.toConfiguration
  one_key : ∀ batch ∈ plan, ∃ key, ∀ t ∈ batch, (planKeys order tasks)[t.taskId]? = some key
  count : ∀ key, (batchesOf order tasks plan key).length =
    ((planKeys order tasks).count key + size - 1) / size
  full : ∀ key, ∀ batch ∈ (batchesOf order tasks plan key).dropLast, batch.length = size

/-! ### Numbers and keys of the pairs -/

theorem readPairs_getElem? (rows : List Configuration) (i : ℕ) :
    (readPairs rows)[i]? = rows[i]?.map fun row => ⟨row, i⟩ := by
  rw [readPairs, List.getElem?_map, List.getElem?_zipIdx, Option.map_map]
  simp [Function.comp_def]

theorem taskId_of_getElem? {rows : List Configuration} {i : ℕ} {task : Task}
    (h : (readPairs rows)[i]? = some task) : task.taskId = i := by
  rw [readPairs_getElem?] at h
  obtain ⟨row, -, rfl⟩ := Option.map_eq_some_iff.1 h
  rfl

theorem map_taskId_readPairs (rows : List Configuration) :
    (readPairs rows).map Task.taskId = List.range (readPairs rows).length := by
  apply List.ext_getElem?
  intro i
  rw [List.getElem?_map]
  cases h : (readPairs rows)[i]? with
  | none =>
    have hle := List.getElem?_eq_none_iff.1 h
    rw [List.getElem?_eq_none (by rwa [List.length_range])]
    rfl
  | some task =>
    have hlt := (List.getElem?_eq_some_iff.1 h).1
    rw [List.getElem?_range hlt, Option.map_some, taskId_of_getElem? h]

theorem map_snd_keyed (order : Option PairOrder) (tasks : List Task) :
    (keyed order tasks).map Prod.snd = tasks :=
  List.map_snd_zip (length_keysFrom order none 0 tasks).ge

theorem map_fst_keyed (order : Option PairOrder) (tasks : List Task) :
    (keyed order tasks).map Prod.fst = planKeys order tasks :=
  List.map_fst_zip (length_keysFrom order none 0 tasks).le

/-- A keyed task stands at its number, with its key. -/
theorem getElem?_of_mem_keyed {order : Option PairOrder} {rows : List Configuration}
    {x : Key × Task} (hx : x ∈ keyed order (readPairs rows)) :
    (readPairs rows)[x.2.taskId]? = some x.2 ∧
      (planKeys order (readPairs rows))[x.2.taskId]? = some x.1 := by
  obtain ⟨i, hi⟩ := List.mem_iff_getElem?.1 hx
  obtain ⟨hkey, htask⟩ := List.getElem?_zip_eq_some.1 hi
  rw [taskId_of_getElem? htask]
  exact ⟨htask, hkey⟩

theorem length_itemsOf (order : Option PairOrder) (tasks : List Task) (key : Key) :
    (itemsOf key (keyed order tasks)).length = (planKeys order tasks).count key := by
  rw [← map_fst_keyed order tasks, List.count_eq_countP, List.countP_map, itemsOf,
    List.length_map, ← List.countP_eq_length_filter]
  congr 1
  funext x
  simp [beq_eq_decide]

/-! ### The batches of a plan -/

section

variable {size : ℕ} (hsize : 0 < size) (order : Option PairOrder) (rows : List Configuration)

/-- The batches of the plan with their keys. -/
def keyedBatches (size : ℕ) (order : Option PairOrder) (tasks : List Task) :
    List (Key × List Task) :=
  (Shelf.empty.putAll size (keyed order tasks)).batches

include hsize

theorem mem_keyed_of_batch {b : Key × List Task}
    (hb : b ∈ keyedBatches size order (readPairs rows)) {task : Task} (htask : task ∈ b.2) :
    (b.1, task) ∈ keyed order (readPairs rows) := by
  have hmem := (sublist_itemsOf hsize hb).subset htask
  obtain ⟨x, hx, rfl⟩ := List.mem_map.1 hmem
  obtain ⟨hx, hkey⟩ := List.mem_filter.1 hx
  rw [← of_decide_eq_true hkey]
  exact hx

theorem ne_nil_of_batch {b : Key × List Task}
    (hb : b ∈ keyedBatches size order (readPairs rows)) : b.2 ≠ [] ∧ b.2.length ≤ size := by
  have hmem := mem_contents hb
  rw [contents_putAll] at hmem
  have hpacked := packed_pack hsize (itemsOf b.1 (keyed order (readPairs rows)))
  exact ⟨List.length_pos_iff.1 (hpacked.pos _ hmem), hpacked.le _ hmem⟩

/-- The batches with a task of a key are the batches of that key. -/
theorem batchesOf_eq (key : Key) :
    batchesOf order (readPairs rows) (planBatches size order (readPairs rows)) key =
      pack size (itemsOf key (keyed order (readPairs rows))) := by
  rw [← contents_putAll, batchesOf, planBatches_eq, Shelf.contents, List.filter_map]
  congr 1
  apply List.filter_congr
  intro b hb
  have hkeys : ∀ task ∈ b.2, (planKeys order (readPairs rows))[task.taskId]? = some b.1 :=
    fun task htask => (getElem?_of_mem_keyed (mem_keyed_of_batch hsize order rows hb htask)).2
  obtain ⟨task, htask⟩ := List.exists_mem_of_ne_nil _ (ne_nil_of_batch hsize order rows hb).1
  rw [Bool.eq_iff_iff]
  simp only [Function.comp_apply, List.any_eq_true, decide_eq_true_eq]
  constructor
  · rintro ⟨t, ht, hkey⟩
    exact Option.some.inj ((hkeys t ht).symm.trans hkey)
  · intro hkey
    exact ⟨task, htask, hkey ▸ hkeys task htask⟩

/-- **The plan.** Every pair is in exactly one batch, batches are homogeneous, and no key has more
batches than its pairs need. -/
theorem planBatches_partition :
    HomogeneousPartition size order (readPairs rows) (planBatches size order (readPairs rows)) := by
  have hbatch : ∀ batch ∈ planBatches size order (readPairs rows),
      ∃ b ∈ keyedBatches size order (readPairs rows), b.2 = batch := by
    intro batch h
    rw [planBatches_eq] at h
    exact List.mem_map.1 h
  have hpacked := fun key => packed_pack hsize (itemsOf key (keyed order (readPairs rows)))
  constructor
  case covers =>
    have hperm := flatten_putAll_perm size (keyed order (readPairs rows))
    rw [map_snd_keyed] at hperm
    rw [plannedBatchTasks, ← List.map_flatten, planBatches_eq, ← map_taskId_readPairs]
    exact hperm.map Task.taskId
  case tasks_of =>
    intro batch h task htask
    obtain ⟨b, hb, rfl⟩ := hbatch batch h
    exact (getElem?_of_mem_keyed (mem_keyed_of_batch hsize order rows hb htask)).1
  case ascending =>
    intro ids h
    obtain ⟨batch, hmem, rfl⟩ := List.mem_map.1 h
    obtain ⟨b, hb, rfl⟩ := hbatch batch hmem
    have hsub : (b.2.map Task.taskId).Sublist ((readPairs rows).map Task.taskId) := by
      apply List.Sublist.map
      refine (sublist_itemsOf hsize hb).trans ?_
      have hall := (List.filter_sublist (p := fun x => decide (x.1 = b.1))
        (l := keyed order (readPairs rows))).map Prod.snd
      rw [map_snd_keyed] at hall
      exact hall
    rw [map_taskId_readPairs] at hsub
    exact List.Pairwise.sublist hsub List.pairwise_lt_range
  case bounded =>
    intro batch h
    obtain ⟨b, hb, rfl⟩ := hbatch batch h
    exact ne_nil_of_batch hsize order rows hb
  case allocation =>
    intro batch h t ht u hu
    obtain ⟨b, hb, rfl⟩ := hbatch batch h
    have htkey := allocation_of_mem (mem_keyed_of_batch hsize order rows hb ht)
    have hukey := allocation_of_mem (mem_keyed_of_batch hsize order rows hb hu)
    exact htkey.symm.trans hukey
  case configuration =>
    rintro rfl batch h t ht u hu
    obtain ⟨b, hb, rfl⟩ := hbatch batch h
    exact configuration_eq (mem_keyed_of_batch hsize _ rows hb ht)
      (mem_keyed_of_batch hsize _ rows hb hu) rfl
  case one_key =>
    intro batch h
    obtain ⟨b, hb, rfl⟩ := hbatch batch h
    exact ⟨b.1, fun t ht =>
      (getElem?_of_mem_keyed (mem_keyed_of_batch hsize order rows hb ht)).2⟩
  case count =>
    intro key
    rw [batchesOf_eq hsize, (hpacked key).length_eq hsize, length_itemsOf]
  case full =>
    intro key batch h
    rw [batchesOf_eq hsize] at h
    exact (hpacked key).full batch h

end

/-- A row of `test_batching.py`, whose rows differ in the sharing of the node. -/
def sharingRow (cpu node : Bool) : Configuration :=
  ⟨⟨2, 1, 0, cpu, node⟩, "s".toList, "/s".toList, "./s".toList, 6, 3, 100000000⟩

theorem planBatches_partition_interleaved :
    plannedBatchTasks (planBatches 2 none (readPairs [sharingRow false false,
        sharingRow true false, sharingRow false false, sharingRow true false,
        sharingRow false false])) = [[0, 2], [1, 3], [4]] ∧
      HomogeneousPartition 2 none (readPairs [sharingRow false false, sharingRow true false,
          sharingRow false false, sharingRow true false, sharingRow false false])
        (planBatches 2 none (readPairs [sharingRow false false, sharingRow true false,
          sharingRow false false, sharingRow true false, sharingRow false false])) := by
  refine ⟨by decide +kernel, ?_⟩
  exact planBatches_partition (by decide) none _

end Plan
end Slurmy
