import Slurmy.Lib.NumberedFiles
import Slurmy.Lib.ShellArith
import Slurmy.Plan.Batches
import Slurmy.Submission.Selection

/-!
# The numbers of the batches

A batch number is the position of the batch in the plan, a part of the file names of its plan, of its
call bundle and of its remote script, and the counter of the loop that writes the remote scripts.

* `planScript`, `plans`, `callBundles`: what `generate` writes for each batch;
* `Topology`, `capacity`, `batchScript`, `planRemote`: the loop of `remote_submit.sh` over `plans/batch_*.sh`;
* `visits`: the numbers in the order in which the loop over `batches/batch_*.sh` meets them;
* `Aligned`: all numberings agree with the plan;
* `aligned_iff`: they do so up to a million batches, and for no larger number.
-/

namespace Slurmy
namespace Plan

open NumberedFiles Packing ShellArith Submission

/-! ### What generate writes -/

/-- `f'batch_{i:06d}.sh'` in `plans`. -/
def planFile (i : ℕ) : Text := "plans/batch_".toList ++ padded 6 i ++ ".sh".toList

/-- `f'batch_{batch_id:06d}.tar.gz'` in `call-bundles`. -/
def bundleFile (i : ℕ) : Text := "call-bundles/batch_".toList ++ padded 6 i ++ ".tar.gz".toList

/-- The variables that a plan assigns. -/
structure PlanScript where
  taskIds : List ℕ
  taskCores : List ℕ
  taskCpus : List ℕ
  taskWall : List ℕ
  taskMemory : List ℕ
  batchId : ℕ
  exclusiveCpu : Bool
  exclusiveNode : Bool
  memoryMib : ℕ
  wallSeconds : ℕ
  taskThreadsPerCore : List ℕ
  maxCores : ℕ
  maxCpus : ℕ
  maxThreadsPerCore : ℕ
  deriving DecidableEq

/-- `max(...)` of a batch, whose batches are never empty. -/
def largest (ns : List ℕ) : ℕ := ns.foldr max 0

/-- The nearest number of 53 bits, between two the even one. -/
def nearestDouble (n : ℕ) : ℕ :=
  let unit := 2 ^ (n.log2 - 52)
  if unit < 2 * (n % unit) ∨ unit = 2 * (n % unit) ∧ n / unit % 2 = 1 then (n / unit + 1) * unit else n / unit * unit

/-- `math.ceil(mem_limit / 2**20)`: the quotient is a float, so it has 53 bits.  One that no float holds is an error, of
which nothing is claimed here. -/
def mebibytes (bytes : ℕ) : ℕ := (nearestDouble bytes + 2 ^ 20 - 1) / 2 ^ 20

/-- The plan of batch `i`. -/
def planScript (i : ℕ) (batch : List Task) : PlanScript where
  taskIds := batch.map Task.taskId
  taskCores := batch.map (·.cores)
  taskCpus := batch.map (·.cpus)
  taskWall := batch.map (·.wcLimit)
  taskMemory := batch.map fun t => mebibytes t.memLimit
  batchId := i
  exclusiveCpu := batch.any (·.exclusiveCpu)
  exclusiveNode := batch.any (·.exclusiveNode)
  memoryMib := batch.length * (largest (batch.map fun t => mebibytes t.memLimit) + 128)
  wallSeconds := 60 + (batch.map fun t => t.wcLimit + 30).sum
  taskThreadsPerCore := batch.map (·.threadsPerCore)
  maxCores := largest (batch.map (·.cores))
  maxCpus := largest (batch.map (·.cpus))
  maxThreadsPerCore := largest (batch.map (·.threadsPerCore))

/-- The directory `plans`. -/
def plans (batches : List (List Task)) : Dir Text PlanScript :=
  writeFrom planFile 0 (batches.zipIdx.map fun b => planScript b.2 b.1) ∅

/-- The members of a call bundle for one pair. -/
def callScripts (task : ℕ) : List Text :=
  ["/solver.sh", "/limiter.sh", "/config.sh"].map fun name => decimal task ++ name.toList

/-- The directory `call-bundles`. -/
def callBundles (batches : List (List Task)) : Dir Text (List Text) :=
  writeFrom bundleFile 0 (batches.map fun batch => batch.flatMap fun t => callScripts t.taskId) ∅

/-! ### What remote_submit.sh makes of it -/

/-- The homogeneous nodes of the partition, as `sinfo` prints them. -/
structure Topology where
  sockets : ℕ
  coresPerSocket : ℕ
  threadsPerCore : ℕ
  nodeMemory : ℕ
  deriving DecidableEq

/-- The variables that a remote batch script assigns, as numbers that are written: where the shell computes one, it has
64 bits. -/
structure BatchScript where
  taskIds : List ℕ
  taskCores : List ℕ
  taskCpus : List ℤ
  taskThreadsPerCore : List ℕ
  batchId : ℕ
  parallel : ℕ
  exclusiveCpu : Bool
  exclusiveNode : Bool
  maxCores : ℕ
  maxCpus : ℤ
  maxThreadsPerCore : ℕ
  memoryMib : ℤ
  wallSeconds : ℤ
  reservedCores : ℤ
  deriving DecidableEq

/-- The sockets of each pair, where the plan leaves them to the cluster. -/
def resolveCpus (t : Topology) (plan : PlanScript) : List ℤ :=
  List.zipWith (fun cores cpus : ℕ =>
    if wrap cpus = 0 then
      if plan.exclusiveCpu then div (cores + t.coresPerSocket - 1) t.coresPerSocket else (t.sockets : ℤ)
    else cpus) plan.taskCores plan.taskCpus

/-- `(( MAX_CPUS >= TASK_CPUS[i] )) || MAX_CPUS=${TASK_CPUS[i]}` for some pairs. -/
def mostCpus (taskCpus : List ℤ) : ℤ := taskCpus.foldl (fun most cpus => if wrap cpus ≤ wrap most then most else cpus) 0

/-- `SLOT_CORES`: whole sockets, or the most cores that a call of the batch uses. -/
def slotCores (t : Topology) (exclusiveCpu : Bool) (maxCpus : ℤ) (maxCores : ℕ) : ℤ :=
  if exclusiveCpu then wrap (maxCpus * t.coresPerSocket) else maxCores

/-- `SLOT_MEMORY`. -/
def slotMemory (plan : PlanScript) : ℤ := div plan.memoryMib plan.taskIds.length

/-- `capacity`.  The script ends when it divides by zero; here the quotient is zero, which is too small a capacity. -/
def capacity (t : Topology) (plan : PlanScript) : ℤ :=
  let maxCpus := mostCpus (resolveCpus t plan)
  let capacity := min (div (t.sockets * t.coresPerSocket) (slotCores t plan.exclusiveCpu maxCpus plan.maxCores))
    (div t.nodeMemory (slotMemory plan))
  if plan.exclusiveCpu then min capacity (div t.sockets maxCpus) else capacity

/-- The checks on sockets and cores, which both loops make. -/
def FitsSockets (t : Topology) (maxCpus : ℤ) (maxCores : ℕ) : Prop :=
  wrap maxCpus ≤ wrap t.sockets ∧ wrap maxCores ≤ wrap (maxCpus * t.coresPerSocket)

/-- The check on threads, which both loops make. -/
def FitsThreads (t : Topology) (maxThreadsPerCore : ℕ) : Prop :=
  1 ≤ wrap maxThreadsPerCore ∧ wrap maxThreadsPerCore ≤ wrap t.threadsPerCore

instance (t : Topology) (maxCpus : ℤ) (maxCores : ℕ) : Decidable (FitsSockets t maxCpus maxCores) :=
  inferInstanceAs (Decidable (_ ∧ _))

instance (t : Topology) (maxThreadsPerCore : ℕ) : Decidable (FitsThreads t maxThreadsPerCore) :=
  inferInstanceAs (Decidable (_ ∧ _))

/-- `wall=$((wall + TASK_WALL[i] + 30))` for all pairs. -/
def wallSeconds (taskWall : List ℕ) : ℤ :=
  taskWall.foldl (fun (wall : ℤ) (seconds : ℕ) => wrap (wall + seconds + 30)) 60

/-- One pass of the loop over the plans, `none` when the script exits because the batch cannot fit. -/
def batchScript (t : Topology) (nextBatch : ℕ) (plan : PlanScript) : Option BatchScript :=
  let taskCpus := resolveCpus t plan
  let maxCpus := mostCpus taskCpus
  if FitsThreads t plan.maxThreadsPerCore ∧ 0 < capacity t plan ∧ FitsSockets t maxCpus plan.maxCores then
    some
      { taskIds := plan.taskIds
        taskCores := plan.taskCores
        taskCpus := taskCpus
        taskThreadsPerCore := plan.taskThreadsPerCore
        batchId := nextBatch
        parallel := 1
        exclusiveCpu := plan.exclusiveCpu
        exclusiveNode := plan.exclusiveNode
        maxCores := plan.maxCores
        maxCpus := maxCpus
        maxThreadsPerCore := plan.maxThreadsPerCore
        memoryMib := wrap (1 * slotMemory plan)
        wallSeconds := wallSeconds plan.taskWall
        reservedCores := wrap (1 * slotCores t plan.exclusiveCpu maxCpus plan.maxCores) }
  else none

/-- The loop over the plans from the counter `nextBatch` on. -/
def planLoop (t : Topology) (plans : Dir Text PlanScript) :
    List Text → ℕ → Dir Text BatchScript → Option (Dir Text BatchScript)
  | [], _, batches => some batches
  | name :: names, nextBatch, batches => do
      let plan ← plans.lookup name
      let script ← batchScript t nextBatch plan
      planLoop t plans names (nextBatch + 1) (batches.insert (batchFile nextBatch) script)

/-- The directory `batches` after the loop; `earlier` is what it was before. -/
def planRemote (t : Topology) (plans : Dir Text PlanScript) (earlier : Dir Text BatchScript) :
    Option (Dir Text BatchScript) :=
  planLoop t plans (glob plans) 0 earlier

/-- The batch numbers that the loop over `batches/batch_*.sh` sources, in order. -/
def visits (batches : Dir Text BatchScript) : List ℕ :=
  (glob batches).filterMap fun name => (batches.lookup name).map BatchScript.batchId

/-- What controllers of a job of `n` batches, ended anywhere, can have left in `batches`. -/
def LeftBehind (n : ℕ) (earlier : Dir Text BatchScript) : Prop := Below batchFile n earlier

/-! ### The file names -/

theorem numbered_injective (stem ending : Text) :
    Function.Injective fun i => stem ++ padded 6 i ++ ending := by
  intro i j h
  have hpadded := List.append_cancel_left (List.append_cancel_right h)
  rw [← number_padded 6 i, hpadded, number_padded]

theorem planFile_injective : Function.Injective planFile := numbered_injective _ _

theorem bundleFile_injective : Function.Injective bundleFile := numbered_injective _ _

theorem batchFile_injective : Function.Injective batchFile := numbered_injective _ _

theorem inOrder_eq_range {name : ℕ → Text} {n : ℕ} (hn : n ≤ 10 ^ (5 + 1))
    (hname : ∀ a b, a < b → b < 10 ^ (5 + 1) → name a < name b) : inOrder name n = List.range n := by
  apply List.Pairwise.insertionSort_eq
  refine List.pairwise_lt_range.imp_of_mem fun {a b} _ hb hab => ?_
  exact le_of_lt (hname a b hab ((List.mem_range.1 hb).trans_le hn))

theorem mem_inOrder {name : ℕ → Text} {n i : ℕ} : i ∈ inOrder name n ↔ i < n := by
  rw [inOrder, List.mem_insertionSort, List.mem_range]

theorem length_inOrder (name : ℕ → Text) (n : ℕ) : (inOrder name n).length = n := by
  rw [inOrder, List.length_insertionSort, List.length_range]

/-- From a million and one batches on, number 1000000 comes before number 100001. -/
theorem inOrder_batchFile_ne {n : ℕ} (hn : 10 ^ 6 < n) : inOrder batchFile n ≠ List.range n := by
  intro heq
  have hsorted : (inOrder batchFile n).Pairwise fun a b => batchFile a ≤ batchFile b :=
    List.pairwise_insertionSort _ _
  rw [heq, List.pairwise_iff_getElem] at hsorted
  have hle := hsorted 100001 1000000 (by rw [List.length_range]; omega)
    (by rw [List.length_range]; omega) (by omega)
  rw [List.getElem_range, List.getElem_range] at hle
  exact absurd hle (by decide)

/-! ### One pass of the loop, and the loop -/

theorem batchScript_spec {t : Topology} {next : ℕ} {plan : PlanScript} {script : BatchScript}
    (h : batchScript t next plan = some script) :
    script.taskIds = plan.taskIds ∧ script.batchId = next := by
  unfold batchScript at h
  dsimp only at h
  obtain ⟨-, h⟩ := Option.ite_none_right_eq_some.1 h
  rw [← Option.some.inj h]
  exact ⟨rfl, rfl⟩

/-- The loop writes one script for each name, under consecutive numbers. -/
theorem planLoop_spec {t : Topology} {plans : Dir Text PlanScript} {names : List Text} {next : ℕ}
    {batches result : Dir Text BatchScript}
    (h : planLoop t plans names next batches = some result) :
    ∃ scripts : List BatchScript, scripts.length = names.length ∧
      result = writeFrom batchFile next scripts batches ∧
      ∀ i name, names[i]? = some name → ∃ plan script, plans.lookup name = some plan ∧
        scripts[i]? = some script ∧ batchScript t (next + i) plan = some script := by
  induction names generalizing next batches with
  | nil =>
    cases h
    exact ⟨[], rfl, rfl, by simp⟩
  | cons head names ih =>
    obtain ⟨plan, hplan, h⟩ := Option.bind_eq_some_iff.1 h
    obtain ⟨script, hscript, h⟩ := Option.bind_eq_some_iff.1 h
    obtain ⟨scripts, hlen, hresult, hall⟩ := ih h
    refine ⟨script :: scripts, by simp [hlen], hresult, ?_⟩
    intro i name hi
    cases i with
    | zero =>
      obtain rfl : head = name := by simpa using hi
      exact ⟨plan, script, hplan, rfl, hscript⟩
    | succ i =>
      obtain ⟨plan', script', hplan', hget, hscript'⟩ := hall i name (by simpa using hi)
      refine ⟨plan', script', hplan', by simpa using hget, ?_⟩
      rwa [show next + (i + 1) = next + 1 + i by omega]

/-- A loop that ends anywhere leaves numbered files. -/
theorem LeftBehind.planLoop {n : ℕ} {t : Topology} {plans : Dir Text PlanScript}
    {names : List Text} {next : ℕ} {earlier result : Dir Text BatchScript}
    (hleft : LeftBehind n earlier) (hn : next + names.length ≤ n)
    (h : planLoop t plans names next earlier = some result) : LeftBehind n result := by
  obtain ⟨scripts, hlen, rfl, -⟩ := planLoop_spec h
  exact Below.writeFrom hleft (by omega)

theorem length_planScripts (batches : List (List Task)) :
    (batches.zipIdx.map fun b => planScript b.2 b.1).length = batches.length := by
  rw [List.length_map, List.length_zipIdx]

theorem lookup_plans {batches : List (List Task)} {i : ℕ} {batch : List Task}
    (h : batches[i]? = some batch) :
    (plans batches).lookup (planFile i) = some (planScript i batch) := by
  have hi : i < (batches.zipIdx.map fun b => planScript b.2 b.1).length := by
    rw [length_planScripts]
    exact (List.getElem?_eq_some_iff.1 h).1
  have hlookup := lookup_writeFrom planFile_injective hi 0 (∅ : NumberedFiles.Dir _ PlanScript)
  rw [Nat.zero_add] at hlookup
  rw [plans, hlookup, List.getElem?_map, List.getElem?_zipIdx, h]
  simp

theorem glob_plans (batches : List (List Task)) :
    glob (plans batches) = (inOrder planFile batches.length).map planFile := by
  have hbelow : Below planFile (batches.zipIdx.map fun b => planScript b.2 b.1).length
      (∅ : Dir Text PlanScript) := by
    intro x hx
    simp at hx
  have hglob := glob_writeFrom planFile_injective hbelow
  rw [length_planScripts] at hglob
  exact hglob

/-- The remote script number `i` is made of the plan that the glob lists in place `i`. -/
theorem planRemote_spec {batches : List (List Task)} {t : Topology}
    {earlier result : Dir Text BatchScript} (hleft : LeftBehind batches.length earlier)
    (h : planRemote t (plans batches) earlier = some result) :
    glob result = (inOrder batchFile batches.length).map batchFile ∧
      ∀ i j batch, (inOrder planFile batches.length)[i]? = some j → batches[j]? = some batch →
        ∃ script, result.lookup (batchFile i) = some script ∧
          batchScript t i (planScript j batch) = some script := by
  obtain ⟨scripts, hlen, rfl, hall⟩ := planLoop_spec h
  rw [glob_plans, List.length_map, length_inOrder] at hlen
  constructor
  · rw [← hlen]
    apply glob_writeFrom batchFile_injective
    rw [hlen]
    exact hleft
  · intro i j batch hi hj
    have hname : (glob (plans batches))[i]? = some (planFile j) := by
      rw [glob_plans, List.getElem?_map, hi, Option.map_some]
    obtain ⟨plan, script, hplan, hget, hscript⟩ := hall i _ hname
    rw [lookup_plans hj] at hplan
    obtain rfl := Option.some.inj hplan
    have hlookup := lookup_writeFrom batchFile_injective (List.getElem?_eq_some_iff.1 hget).1 0
      earlier
    rw [Nat.zero_add] at hlookup hscript
    exact ⟨script, hlookup.trans hget, hscript⟩

/-! ### All numberings -/

/-- The remote scripts, the bundles, the remote loop and the selection number the batches as the
plan does. -/
structure Aligned (planned : List (List ℕ)) (bundles : Dir Text (List Text))
    (batches : Dir Text BatchScript) : Prop where
  script : ∀ k, (batches.lookup (batchFile k)).map BatchScript.taskIds = planned[k]?
  batchId : ∀ k script, batches.lookup (batchFile k) = some script → script.batchId = k
  bundle : ∀ k, bundles.lookup (bundleFile k) = planned[k]?.map fun ids => ids.flatMap callScripts
  visits : visits batches = List.range planned.length
  resume : ∀ done k, k ∈ unfinished planned done ↔
    ∃ script, batches.lookup (batchFile k) = some script ∧
      ∃ task ∈ script.taskIds, (task : ℤ) ∉ done

theorem length_plannedBatchTasks (batches : List (List Task)) :
    (plannedBatchTasks batches).length = batches.length := List.length_map _

theorem lookup_callBundles (batches : List (List Task)) (k : ℕ) :
    (callBundles batches).lookup (bundleFile k) =
      (plannedBatchTasks batches)[k]?.map fun ids => ids.flatMap callScripts := by
  rcases Nat.lt_or_ge k batches.length with hk | hk
  · have hlength : k < (batches.map fun batch =>
        batch.flatMap fun t => callScripts t.taskId).length := by rwa [List.length_map]
    have hlookup := lookup_writeFrom bundleFile_injective hlength 0 ∅
    rw [Nat.zero_add] at hlookup
    rw [callBundles, hlookup, plannedBatchTasks, List.getElem?_map, List.getElem?_map,
      Option.map_map]
    congr 1
    funext batch
    simp [List.flatMap_map]
  · have habsent : bundleFile k ∉ callBundles batches := by
      intro hmem
      rcases mem_writeFrom.1 (AList.mem_keys.1 hmem) with hmem | ⟨i, hi, hname⟩
      · simp at hmem
      · have hki := bundleFile_injective hname
        rw [List.length_map] at hi
        omega
    rw [AList.lookup_eq_none.2 habsent, plannedBatchTasks, List.getElem?_map,
      List.getElem?_eq_none hk]
    rfl

section

variable {batches : List (List Task)} {t : Topology} {earlier result : Dir Text BatchScript}
  (hleft : LeftBehind batches.length earlier)
  (h : planRemote t (plans batches) earlier = some result)

include hleft h

theorem exists_script {k : ℕ} (hk : k < batches.length) :
    ∃ script, result.lookup (batchFile k) = some script ∧ script.batchId = k := by
  have hi : k < (inOrder planFile batches.length).length := by rwa [length_inOrder]
  have hget := List.getElem?_eq_getElem hi
  have hj := mem_inOrder.1 (List.getElem_mem hi)
  obtain ⟨script, hlookup, hscript⟩ :=
    (planRemote_spec hleft h).2 _ _ _ hget (List.getElem?_eq_getElem hj)
  exact ⟨script, hlookup, (batchScript_spec hscript).2⟩

/-- The remote loop meets the numbers in the order of the names of their scripts. -/
theorem visits_eq : visits result = inOrder batchFile batches.length := by
  rw [visits, (planRemote_spec hleft h).1, List.filterMap_map]
  have hall : ∀ k ∈ inOrder batchFile batches.length,
      ((fun name => (result.lookup name).map BatchScript.batchId) ∘ batchFile) k = some k := by
    intro k hk
    obtain ⟨script, hlookup, hbatch⟩ := exists_script hleft h (mem_inOrder.1 hk)
    simp [hlookup, hbatch]
  rw [List.filterMap_congr hall]
  exact List.filterMap_some

theorem lookup_eq_none {k : ℕ} (hk : batches.length ≤ k) : result.lookup (batchFile k) = none := by
  rw [AList.lookup_eq_none, AList.mem_keys]
  intro hmem
  have hglob : batchFile k ∈ glob result := List.mem_insertionSort (· ≤ ·) |>.2 hmem
  rw [(planRemote_spec hleft h).1] at hglob
  obtain ⟨i, hi, hname⟩ := List.mem_map.1 hglob
  have hki := batchFile_injective hname
  have hlt := mem_inOrder.1 hi
  omega

theorem aligned_of_le (hn : batches.length ≤ 10 ^ 6) :
    Aligned (plannedBatchTasks batches) (callBundles batches) result := by
  have hplan : inOrder planFile batches.length = List.range batches.length :=
    inOrder_eq_range hn fun _ _ => append_padded_lt _ _
  have hscript : ∀ k batch, batches[k]? = some batch → ∃ script,
      result.lookup (batchFile k) = some script ∧ script.taskIds = batch.map Task.taskId ∧
        script.batchId = k := by
    intro k batch hk
    have hplace : (inOrder planFile batches.length)[k]? = some k := by
      rw [hplan, List.getElem?_range (List.getElem?_eq_some_iff.1 hk).1]
    obtain ⟨script, hget, hscript⟩ := (planRemote_spec hleft h).2 k k batch hplace hk
    exact ⟨script, hget, (batchScript_spec hscript).1, (batchScript_spec hscript).2⟩
  have hlookup : ∀ k, (result.lookup (batchFile k)).map BatchScript.taskIds =
      (plannedBatchTasks batches)[k]? := by
    intro k
    rw [plannedBatchTasks, List.getElem?_map]
    cases hk : batches[k]? with
    | none =>
      rw [lookup_eq_none hleft h (List.getElem?_eq_none_iff.1 hk)]
      rfl
    | some batch =>
      obtain ⟨script, hget, hids, -⟩ := hscript k batch hk
      rw [hget, Option.map_some, hids]
      rfl
  refine ⟨hlookup, ?_, lookup_callBundles batches, ?_, ?_⟩
  · intro k script hget
    rcases Nat.lt_or_ge k batches.length with hk | hk
    · obtain ⟨other, hother, hbatch⟩ := exists_script hleft h hk
      rw [hget] at hother
      rw [Option.some.inj hother]
      exact hbatch
    · rw [lookup_eq_none hleft h hk] at hget
      cases hget
  · rw [visits_eq hleft h, length_plannedBatchTasks]
    exact inOrder_eq_range hn fun _ _ => append_padded_lt _ _
  · intro done k
    rw [mem_unfinished, ← hlookup k]
    constructor
    · rintro ⟨ids, hids, hdone⟩
      obtain ⟨script, hget, rfl⟩ := Option.map_eq_some_iff.1 hids
      exact ⟨script, hget, hdone⟩
    · rintro ⟨script, hget, hdone⟩
      exact ⟨script.taskIds, by rw [hget, Option.map_some], hdone⟩

/-- **The numberings.** They agree exactly up to a million batches, the numbers of six digits. -/
theorem aligned_iff : Aligned (plannedBatchTasks batches) (callBundles batches) result ↔
    batches.length ≤ 10 ^ 6 := by
  constructor
  · intro haligned
    by_contra hn
    have hvisits := haligned.visits
    rw [visits_eq hleft h, length_plannedBatchTasks] at hvisits
    exact inOrder_batchFile_ne (by omega) hvisits
  · exact aligned_of_le hleft h

end

theorem leftBehind_empty (n : ℕ) : LeftBehind n ∅ := by
  intro x hx
  simp at hx

/-- A row of one core on one socket. -/
def smallRow : Configuration :=
  ⟨⟨1, 1, 1, false, false⟩, "s".toList, "/s".toList, "./s".toList, 1, 1, 1000000⟩

theorem aligned_iff_three :
    ∃ result, planRemote ⟨1, 1, 1, 1000⟩ (plans (planBatches 2 none (readPairs
        (List.replicate 3 smallRow)))) ∅ = some result ∧
      Aligned [[0, 1], [2]] (callBundles (planBatches 2 none (readPairs
        (List.replicate 3 smallRow)))) result := by
  have hplanned : plannedBatchTasks (planBatches 2 none (readPairs (List.replicate 3 smallRow))) =
      [[0, 1], [2]] := by decide +kernel
  have hsome : (planRemote ⟨1, 1, 1, 1000⟩ (plans (planBatches 2 none (readPairs
      (List.replicate 3 smallRow)))) ∅).isSome := by decide +kernel
  obtain ⟨result, hresult⟩ := Option.isSome_iff_exists.1 hsome
  refine ⟨result, hresult, ?_⟩
  rw [← hplanned, aligned_iff (leftBehind_empty _) hresult]
  decide +kernel

/-! ### A million and one batches -/

theorem isSome_planLoop {t : Topology} {plans : Dir Text PlanScript} {names : List Text}
    (hfits : ∀ name ∈ names, ∃ plan, plans.lookup name = some plan ∧
      ∀ next, (batchScript t next plan).isSome) (next : ℕ) (batches : Dir Text BatchScript) :
    (planLoop t plans names next batches).isSome := by
  induction names generalizing next batches with
  | nil => rfl
  | cons name names ih =>
    obtain ⟨plan, hplan, hfits'⟩ := hfits name List.mem_cons_self
    obtain ⟨script, hscript⟩ := Option.isSome_iff_exists.1 (hfits' next)
    have hlater := ih (fun name hname => hfits name (List.mem_cons_of_mem _ hname)) (next + 1)
      (batches.insert (batchFile next) script)
    simpa [planLoop, hplan, hscript] using hlater

theorem isSome_planRemote {t : Topology} {batches : List (List Task)}
    (hfits : ∀ batch ∈ batches, ∀ i next, (batchScript t next (planScript i batch)).isSome)
    (earlier : Dir Text BatchScript) : (planRemote t (plans batches) earlier).isSome := by
  apply isSome_planLoop
  intro name hname
  rw [glob_plans] at hname
  obtain ⟨j, hj, rfl⟩ := List.mem_map.1 hname
  have hget := List.getElem?_eq_getElem (mem_inOrder.1 hj)
  exact ⟨_, lookup_plans hget, hfits _ (List.getElem_mem _) j⟩

/-- With one pair a batch, a batch is a pair. -/
theorem planBatches_one (order : Option PairOrder) (rows : List Configuration) :
    (planBatches 1 order (readPairs rows)).length = rows.length ∧
      ∀ batch ∈ planBatches 1 order (readPairs rows), ∃ row ∈ rows, ∃ i, batch = [⟨row, i⟩] := by
  have hone : ∀ batch ∈ planBatches 1 order (readPairs rows), ∃ task ∈ readPairs rows,
      batch = [task] := by
    intro batch hbatch
    rw [planBatches_eq] at hbatch
    obtain ⟨b, hb, rfl⟩ := List.mem_map.1 hbatch
    have hbounded := ne_nil_of_batch Nat.one_pos order rows hb
    have hlen : b.2.length = 1 := by
      have hpos := List.length_pos_iff.2 hbounded.1
      omega
    obtain ⟨task, htask⟩ := List.length_eq_one_iff.1 hlen
    have hin : task ∈ b.2 := by simp [htask]
    have hmem := mem_keyed_of_batch Nat.one_pos order rows hb hin
    exact ⟨task, List.mem_of_getElem? (getElem?_of_mem_keyed hmem).1, htask⟩
  constructor
  · have hperm := flatten_putAll_perm 1 (keyed order (readPairs rows))
    rw [map_snd_keyed] at hperm
    have hlen := hperm.length_eq
    have hrows : (readPairs rows).length = rows.length := by simp [readPairs]
    rw [← planBatches_eq, hrows, sum_length_of_full] at hlen
    · rwa [Nat.mul_one] at hlen
    · intro batch hbatch
      obtain ⟨task, -, rfl⟩ := hone batch hbatch
      rfl
  · intro batch hbatch
    obtain ⟨task, htask, rfl⟩ := hone batch hbatch
    obtain ⟨row, hrow, rfl⟩ := List.mem_map.1 htask
    exact ⟨row.1, List.fst_mem_of_mem_zipIdx hrow, row.2, rfl⟩

/-- What one pass checks. -/
theorem isSome_batchScript {t : Topology} {next : ℕ} {plan : PlanScript} : (batchScript t next plan).isSome ↔
    FitsThreads t plan.maxThreadsPerCore ∧ 0 < capacity t plan ∧
      FitsSockets t (mostCpus (resolveCpus t plan)) plan.maxCores := by
  unfold batchScript
  dsimp only
  split
  · next h => exact iff_of_true rfl h
  · next h => exact iff_of_false Bool.false_ne_true h

/-- A batch of one small pair fits a node of one core. -/
theorem isSome_batchScript_small (i j next : ℕ) :
    (batchScript ⟨1, 1, 1, 1000⟩ next (planScript i [⟨smallRow, j⟩])).isSome := by
  have hzero : (batchScript ⟨1, 1, 1, 1000⟩ 0 (planScript 0 [⟨smallRow, 0⟩])).isSome := by decide +kernel
  -- the numbers of the batch and of the pair do not matter
  have hfits := isSome_batchScript.mp hzero
  exact isSome_batchScript.mpr hfits

/-- With one small pair a batch and more than a million pairs, the remote loop does not meet the
batches in order. -/
theorem exists_misaligned {n : ℕ} (hn : 10 ^ 6 < n) :
    ∃ result, planRemote ⟨1, 1, 1, 1000⟩ (plans (planBatches 1 none (readPairs
        (List.replicate n smallRow)))) ∅ = some result ∧
      ¬ Aligned (plannedBatchTasks (planBatches 1 none (readPairs (List.replicate n smallRow))))
        (callBundles (planBatches 1 none (readPairs (List.replicate n smallRow)))) result := by
  obtain ⟨hlen, hbatches⟩ := planBatches_one none (List.replicate n smallRow)
  rw [List.length_replicate] at hlen
  have hsome : (planRemote ⟨1, 1, 1, 1000⟩ (plans (planBatches 1 none (readPairs
      (List.replicate n smallRow)))) ∅).isSome := by
    apply isSome_planRemote
    intro batch hbatch i next
    obtain ⟨row, hrow, j, rfl⟩ := hbatches batch hbatch
    rw [List.eq_of_mem_replicate hrow]
    exact isSome_batchScript_small i j next
  obtain ⟨result, hresult⟩ := Option.isSome_iff_exists.1 hsome
  refine ⟨result, hresult, fun haligned => ?_⟩
  have hvisits := haligned.visits
  rw [visits_eq (leftBehind_empty _) hresult, length_plannedBatchTasks, hlen] at hvisits
  exact inOrder_batchFile_ne hn hvisits

/-- A million and one pairs of one core each, one pair a batch. -/
theorem misaligned_million :
    ∃ result, planRemote ⟨1, 1, 1, 1000⟩ (plans (planBatches 1 none (readPairs
        (List.replicate 1000001 smallRow)))) ∅ = some result ∧
      ¬ Aligned (plannedBatchTasks (planBatches 1 none (readPairs
          (List.replicate 1000001 smallRow))))
        (callBundles (planBatches 1 none (readPairs (List.replicate 1000001 smallRow)))) result :=
  exists_misaligned (by omega)

end Plan
end Slurmy
