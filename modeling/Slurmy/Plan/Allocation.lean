import Slurmy.Plan.Numbering

/-!
# What a batch asks for

`remote_submit.sh` derives the options of `sbatch` from the scripts of the batches, which it derives from the
plans and the topology of the partition.

* `Options`, `sbatchOptions`: the options that ask for memory, time and cores;
* `Batch.Covers`: they cover what the calls of the batch may use;
* `Small`: the numbers that a float and the arithmetic of the shell can hold;
* `batchScript_covers`: one plan that fits the nodes;
* `allocation_covers`: every batch of a plan that is not rejected.
-/

namespace Slurmy
namespace Plan

open NumberedFiles Packing ShellArith Submission

/-- `--ntasks`, `--cpus-per-task`, `--threads-per-core`, `--mem` in MiB, `--time` in minutes and
`--cores-per-socket` with `--sockets-per-node` for whole sockets. -/
structure Options where
  ntasks : ℕ
  cpusPerTask : ℤ
  threadsPerCore : ℕ
  mem : ℤ
  time : ℤ
  sockets : Option (ℕ × ℤ)
  exclusive : Bool
  deriving DecidableEq

/-- The options for a batch script that the controller has sourced. -/
def sbatchOptions (t : Topology) (b : BatchScript) : Options :=
  { ntasks := b.parallel
    cpusPerTask := wrap (slotCores t b.exclusiveCpu b.maxCpus b.maxCores * b.maxThreadsPerCore)
    threadsPerCore := b.maxThreadsPerCore
    mem := b.memoryMib
    time := div (b.wallSeconds + 59) 60
    sockets := if b.exclusiveCpu then some (t.coresPerSocket, wrap (b.parallel * b.maxCpus)) else none
    exclusive := b.exclusiveNode }

/-- The checks of the loop that validates every batch. -/
def validBatch (t : Topology) (b : BatchScript) : Bool :=
  decide (FitsThreads t b.maxThreadsPerCore) && decide (FitsSockets t b.maxCpus b.maxCores) &&
    decide (wrap (b.parallel * slotCores t b.exclusiveCpu b.maxCpus b.maxCores) ≤ wrap (t.sockets * t.coresPerSocket))

/-- The allocation of a batch covers its calls, and fits the nodes. -/
structure Covers (t : Topology) (batch : List Task) (plan : PlanScript) (b : BatchScript) (o : Options) : Prop where
  planned_memory : o.mem * batch.length = plan.memoryMib
  memory : ∀ task ∈ batch, (((task.memLimit + 2 ^ 20 - 1) / 2 ^ 20 + 128 : ℕ) : ℤ) ≤ o.mem
  time : ((60 + (batch.map fun task => task.wcLimit + 30).sum : ℕ) : ℤ) ≤ o.time * 60
  cores : ∀ task ∈ batch, (task.cores : ℤ) ≤ b.reservedCores
  node_cores : b.reservedCores ≤ (t.sockets * t.coresPerSocket : ℕ)
  cpus : ∀ task ∈ batch, ((task.cores * task.threadsPerCore : ℕ) : ℤ) ≤ o.cpusPerTask
  valid : validBatch t b = true

/-! ### Numbers that are held -/

/-- The counts of `sinfo`, which have 16 bits. -/
structure Topology.Small (t : Topology) : Prop where
  sockets : t.sockets < 2 ^ 16
  coresPerSocket : t.coresPerSocket < 2 ^ 16
  threadsPerCore : t.threadsPerCore < 2 ^ 16

/-- A batch whose numbers a float and the shell hold. -/
structure Small (batch : List Task) : Prop where
  memLimit : ∀ task ∈ batch, task.memLimit < 2 ^ 53
  cores : ∀ task ∈ batch, task.cores < 2 ^ 63
  threads : ∀ task ∈ batch, task.threadsPerCore < 2 ^ 63
  memory : batch.length * (largest (batch.map fun task => mebibytes task.memLimit) + 128) < 2 ^ 63
  wall : 60 + (batch.map fun task => task.wcLimit + 30).sum + 59 < 2 ^ 63

theorem Topology.Small.cores_lt {t : Topology} (h : t.Small) : t.sockets * t.coresPerSocket < 2 ^ 16 * 2 ^ 16 :=
  Nat.mul_lt_mul'' h.sockets h.coresPerSocket

/-- A float holds 53 bits. -/
theorem nearestDouble_of_lt {n : ℕ} (h : n < 2 ^ 53) : nearestDouble n = n := by
  have hlog : n.log2 - 52 = 0 := by
    by_cases hzero : n = 0
    · rw [hzero]
      rfl
    · have hlt := (Nat.log2_lt hzero).mpr h
      omega
  unfold nearestDouble
  dsimp only
  rw [hlog, pow_zero, Nat.mod_one, Nat.div_one, if_neg (by omega), Nat.mul_one]

/-! ### The figures -/

theorem le_largest {ns : List ℕ} {n : ℕ} (h : n ∈ ns) : n ≤ largest ns := by
  unfold largest
  induction ns with
  | nil => cases h
  | cons m ns ih =>
    rw [List.foldr_cons]
    rcases List.mem_cons.1 h with rfl | h
    · exact le_max_left _ _
    · exact (ih h).trans (le_max_right _ _)

theorem largest_lt {ns : List ℕ} {k : ℕ} (hk : 0 < k) (h : ∀ n ∈ ns, n < k) : largest ns < k := by
  unfold largest
  induction ns with
  | nil => exact hk
  | cons n ns ih =>
    rw [List.foldr_cons]
    exact max_lt (h n List.mem_cons_self) (ih fun m hm => h m (List.mem_cons_of_mem _ hm))

/-- The loop over the wall limits adds them up, in 64 bits. -/
theorem wallSeconds_eq (taskWall : List ℕ) : wallSeconds taskWall = wrap ((60 + (taskWall.map (· + 30)).sum : ℕ) : ℤ) := by
  have hfold : ∀ (taskWall : List ℕ) (wall : ℤ), taskWall.foldl
      (fun (wall : ℤ) (seconds : ℕ) => wrap (wall + seconds + 30)) (wrap wall) =
      wrap (wall + ((taskWall.map (· + 30)).sum : ℕ)) := by
    intro taskWall
    induction taskWall with
    | nil => exact fun wall => congrArg wrap (Int.add_zero wall).symm
    | cons seconds taskWall ih =>
      intro wall
      rw [List.foldl_cons, add_assoc (wrap wall), wrap_wrap_add, ih, List.map_cons, List.sum_cons]
      congr 1
      push_cast
      ring
  have hsixty : wrap 60 = 60 := wrap_of_fits (by decide)
  have hall := hfold taskWall 60
  rw [hsixty] at hall
  exact_mod_cast hall

/-- Rounded up to minutes. -/
theorem le_minutes {seconds : ℕ} (h : seconds + 59 < 2 ^ 63) : (seconds : ℤ) ≤ div (seconds + 59) 60 * 60 := by
  have hdiv : div ((seconds + 59 : ℕ) : ℤ) (60 : ℕ) = ((seconds + 59) / 60 : ℕ) := div_natCast h (by omega)
  have hle : seconds ≤ (seconds + 59) / 60 * 60 := by omega
  push_cast at hdiv
  rw [hdiv]
  exact_mod_cast hle

/-- What a plan that is not rejected leads to. -/
structure Accepted (t : Topology) (plan : PlanScript) (b : BatchScript) : Prop where
  threads : FitsThreads t plan.maxThreadsPerCore
  sockets : FitsSockets t (mostCpus (resolveCpus t plan)) plan.maxCores
  node : 0 < div (t.sockets * t.coresPerSocket) (slotCores t plan.exclusiveCpu (mostCpus (resolveCpus t plan)) plan.maxCores)
  maxCores : b.maxCores = plan.maxCores
  maxCpus : b.maxCpus = mostCpus (resolveCpus t plan)
  maxThreads : b.maxThreadsPerCore = plan.maxThreadsPerCore
  exclusive : b.exclusiveCpu = plan.exclusiveCpu
  parallel : b.parallel = 1
  memory : b.memoryMib = wrap (slotMemory plan)
  wall : b.wallSeconds = wallSeconds plan.taskWall
  reserved : b.reservedCores = wrap (slotCores t plan.exclusiveCpu (mostCpus (resolveCpus t plan)) plan.maxCores)

theorem accepted_of_batchScript {t : Topology} {i : ℕ} {plan : PlanScript} {b : BatchScript}
    (h : batchScript t i plan = some b) : Accepted t plan b := by
  unfold batchScript at h
  dsimp only at h
  obtain ⟨⟨hthreads, hcapacity, hsockets⟩, h⟩ := Option.ite_none_right_eq_some.1 h
  have hnode : 0 < div (t.sockets * t.coresPerSocket)
      (slotCores t plan.exclusiveCpu (mostCpus (resolveCpus t plan)) plan.maxCores) := by
    unfold capacity at hcapacity
    dsimp only at hcapacity
    split at hcapacity
    · exact (lt_min_iff.1 (lt_min_iff.1 hcapacity).1).1
    · exact (lt_min_iff.1 hcapacity).1
  rw [← Option.some.inj h]
  refine ⟨hthreads, hsockets, hnode, rfl, rfl, rfl, rfl, rfl, ?_, rfl, ?_⟩
  · exact congrArg wrap (Int.one_mul _)
  · exact congrArg wrap (Int.one_mul _)

namespace Accepted

variable {t : Topology} {plan : PlanScript} {b : BatchScript}

/-- The cores are on a node. -/
theorem reserved_le (ht : t.Small) (h : Accepted t plan b) :
    0 < b.reservedCores ∧ b.reservedCores ≤ (t.sockets * t.coresPerSocket : ℕ) := by
  have hnode := h.node
  rw [← Nat.cast_mul] at hnode
  rw [h.reserved]
  exact (div_pos_iff (ht.cores_lt.trans (by decide))).mp hnode

/-- The cores of a call are reserved. -/
theorem maxCores_le (h : Accepted t plan b) (hcores : plan.maxCores < 2 ^ 63) : (plan.maxCores : ℤ) ≤ b.reservedCores := by
  have hfits := h.sockets.2
  rw [wrap_natCast hcores] at hfits
  rw [h.reserved]
  unfold slotCores
  split
  · rwa [wrap_wrap]
  · rw [wrap_natCast hcores]

/-- The controller computes the same cores when it submits the batch. -/
theorem cpusPerTask (ht : t.Small) (h : Accepted t plan b) (hcores : plan.maxCores < 2 ^ 63)
    (hthreads : plan.maxThreadsPerCore < 2 ^ 63) :
    (sbatchOptions t b).cpusPerTask = b.reservedCores * plan.maxThreadsPerCore := by
  obtain ⟨hpos, hle⟩ := h.reserved_le ht
  have hslot : slotCores t b.exclusiveCpu b.maxCpus b.maxCores = b.reservedCores := by
    rw [h.reserved, h.exclusive, h.maxCores, h.maxCpus]
    unfold slotCores
    split
    · rw [wrap_wrap]
    · rw [wrap_natCast hcores]
  have hmost : plan.maxThreadsPerCore < 2 ^ 16 := by
    have hthread := h.threads.2
    rw [wrap_natCast hthreads, wrap_natCast (ht.threadsPerCore.trans (by decide))] at hthread
    exact (Int.ofNat_le.mp hthread).trans_lt ht.threadsPerCore
  show wrap (slotCores t b.exclusiveCpu b.maxCpus b.maxCores * b.maxThreadsPerCore) = _
  rw [hslot, h.maxThreads]
  -- fewer than `2 ^ 32` cores with fewer than `2 ^ 16` threads each
  obtain ⟨cores, hcast⟩ := Int.eq_ofNat_of_zero_le hpos.le
  rw [hcast] at hle ⊢
  have hbound := Nat.mul_lt_mul'' ((Int.ofNat_le.mp hle).trans_lt ht.cores_lt) hmost
  rw [← Nat.cast_mul]
  exact wrap_natCast (hbound.trans (by decide))

/-- What is not rejected in the first loop passes the second one. -/
theorem valid (ht : t.Small) (h : Accepted t plan b) : validBatch t b = true := by
  have hcores : wrap ((t.sockets * t.coresPerSocket : ℕ) : ℤ) = (t.sockets * t.coresPerSocket : ℕ) :=
    wrap_natCast (ht.cores_lt.trans (by decide))
  have hle := (h.reserved_le ht).2
  rw [h.reserved, ← hcores, Nat.cast_mul] at hle
  unfold validBatch
  rw [h.exclusive, h.maxCores, h.maxCpus, h.maxThreads, h.parallel, Nat.cast_one, one_mul, decide_eq_true h.threads,
    decide_eq_true h.sockets, decide_eq_true hle]
  rfl

end Accepted

/-- The memory of a call is what was planned for it. -/
theorem slotMemory_planScript {batch : List Task} (hne : batch ≠ []) (hsmall : Small batch) (j : ℕ) : slotMemory (planScript j batch) = (largest (batch.map fun task => mebibytes task.memLimit) + 128 : ℕ) := by
  have hpos : 0 < batch.length := List.length_pos_iff.2 hne
  have hlength : batch.length < 2 ^ 63 :=
    (Nat.le_mul_of_pos_right _ (Nat.succ_pos _)).trans_lt hsmall.memory
  have hids : (planScript j batch).taskIds.length = batch.length := List.length_map _
  have hmemory : (planScript j batch).memoryMib =
      batch.length * (largest (batch.map fun task => mebibytes task.memLimit) + 128) := rfl
  unfold slotMemory
  rw [hids, hmemory, div_natCast hsmall.memory hlength, Nat.mul_div_cancel_left _ hpos]

/-- A batch that fits the nodes. -/
theorem batchScript_covers {t : Topology} (ht : t.Small) {batch : List Task} (hne : batch ≠ []) (hsmall : Small batch)
    {i j : ℕ} {b : BatchScript} (h : batchScript t i (planScript j batch) = some b) :
    Covers t batch (planScript j batch) b (sbatchOptions t b) := by
  have haccepted := accepted_of_batchScript h
  have hmaxCores : (planScript j batch).maxCores < 2 ^ 63 :=
    largest_lt (by decide) (List.forall_mem_map.mpr hsmall.cores)
  have hmaxThreads : (planScript j batch).maxThreadsPerCore < 2 ^ 63 :=
    largest_lt (by decide) (List.forall_mem_map.mpr hsmall.threads)
  have hcores : ∀ task ∈ batch, (task.cores : ℤ) ≤ b.reservedCores := fun task htask =>
    (Int.ofNat_le.mpr (le_largest (List.mem_map_of_mem htask))).trans (haccepted.maxCores_le hmaxCores)
  have hmem : (sbatchOptions t b).mem = (largest (batch.map fun task => mebibytes task.memLimit) + 128 : ℕ) := by
    show b.memoryMib = _
    rw [haccepted.memory, slotMemory_planScript hne hsmall]
    have hpos : 0 < batch.length := List.length_pos_iff.2 hne
    exact wrap_natCast ((Nat.le_mul_of_pos_left _ hpos).trans_lt hsmall.memory)
  refine ⟨?_, fun task htask => ?_, ?_, hcores, (haccepted.reserved_le ht).2, fun task htask => ?_, haccepted.valid ht⟩
  · rw [hmem, ← Nat.cast_mul, Nat.mul_comm]
    rfl
  · have hexact : mebibytes task.memLimit = (task.memLimit + 2 ^ 20 - 1) / 2 ^ 20 := by
      unfold mebibytes
      rw [nearestDouble_of_lt (hsmall.memLimit task htask)]
    have hle : mebibytes task.memLimit ≤ largest (batch.map fun task => mebibytes task.memLimit) :=
      le_largest (List.mem_map_of_mem htask)
    rw [hmem, ← hexact]
    exact_mod_cast Nat.add_le_add_right hle 128
  · have hwall : b.wallSeconds = ((60 + (batch.map fun task => task.wcLimit + 30).sum : ℕ) : ℤ) := by
      have hsum : ((planScript j batch).taskWall).map (· + 30) = batch.map fun task => task.wcLimit + 30 := List.map_map
      rw [haccepted.wall, wallSeconds_eq, hsum]
      exact wrap_natCast ((Nat.le_add_right _ 59).trans_lt hsmall.wall)
    show _ ≤ div (b.wallSeconds + 59) 60 * 60
    rw [hwall]
    exact le_minutes hsmall.wall
  · rw [haccepted.cpusPerTask ht hmaxCores hmaxThreads, Nat.cast_mul]
    exact mul_le_mul (hcores task htask)
      (Int.ofNat_le.mpr (le_largest (List.mem_map_of_mem (f := fun task => task.threadsPerCore) htask)))
      (Int.natCast_nonneg _) (haccepted.reserved_le ht).1.le

/-- Every batch of a plan that `remote_submit.sh` does not reject gets what its calls may use. -/
theorem allocation_covers {size : ℕ} (hsize : 0 < size) (order : Option PairOrder) (rows : List Configuration)
    {t : Topology} (ht : t.Small) (hsmall : ∀ batch ∈ planBatches size order (readPairs rows), Small batch)
    {earlier result : Dir Text BatchScript}
    (hleft : LeftBehind (planBatches size order (readPairs rows)).length earlier)
    (h : planRemote t (plans (planBatches size order (readPairs rows))) earlier = some result) :
    ∀ name ∈ glob result, ∃ b j batch, result.lookup name = some b ∧
      (planBatches size order (readPairs rows))[j]? = some batch ∧ b.taskIds = batch.map Task.taskId ∧
      Covers t batch (planScript j batch) b (sbatchOptions t b) := by
  intro name hname
  obtain ⟨hglob, hscripts⟩ := planRemote_spec hleft h
  rw [hglob] at hname
  obtain ⟨i, hi, rfl⟩ := List.mem_map.1 hname
  -- script `i` is made of the plan that the glob lists in place `i`
  have hlt : i < (inOrder planFile (planBatches size order (readPairs rows)).length).length := by
    rw [length_inOrder]
    exact mem_inOrder.1 hi
  have hj := mem_inOrder.1 (List.getElem_mem hlt)
  obtain ⟨b, hlookup, hb⟩ := hscripts i _ _ (List.getElem?_eq_getElem hlt) (List.getElem?_eq_getElem hj)
  have hne := ((planBatches_partition hsize order rows).bounded _ (List.getElem_mem hj)).1
  exact ⟨b, _, _, hlookup, List.getElem?_eq_getElem hj, (batchScript_spec hb).1,
    batchScript_covers ht hne (hsmall _ (List.getElem_mem hj)) hb⟩

/-- Two configurations that share a batch. -/
def unevenRows : List Configuration :=
  [{ smallRow with wcLimit := 100, memLimit := 1500000000 }, { smallRow with wcLimit := 7, memLimit := 2 ^ 30 }]

def evenNodes : Topology := ⟨2, 8, 2, 64000⟩

theorem small_evenNodes : evenNodes.Small := ⟨by decide, by decide, by decide⟩

instance (batch : List Task) : Decidable (Small batch) :=
  decidable_of_iff ((∀ task ∈ batch, task.memLimit < 2 ^ 53) ∧ (∀ task ∈ batch, task.cores < 2 ^ 63) ∧
      (∀ task ∈ batch, task.threadsPerCore < 2 ^ 63) ∧
      batch.length * (largest (batch.map fun task => mebibytes task.memLimit) + 128) < 2 ^ 63 ∧
      60 + (batch.map fun task => task.wcLimit + 30).sum + 59 < 2 ^ 63)
    ⟨fun ⟨hmemLimit, hcores, hthreads, hmemory, hwall⟩ => ⟨hmemLimit, hcores, hthreads, hmemory, hwall⟩,
      fun h => ⟨h.memLimit, h.cores, h.threads, h.memory, h.wall⟩⟩

theorem allocation_covers_uneven :
    ∃ result, planRemote evenNodes (plans (planBatches 2 none (readPairs unevenRows))) ∅ = some result ∧
      ∀ name ∈ glob result, ∃ b j batch, result.lookup name = some b ∧
        (planBatches 2 none (readPairs unevenRows))[j]? = some batch ∧ b.taskIds = batch.map Task.taskId ∧
        Covers evenNodes batch (planScript j batch) b (sbatchOptions evenNodes b) := by
  have hsome : (planRemote evenNodes (plans (planBatches 2 none (readPairs unevenRows))) ∅).isSome := by decide +kernel
  obtain ⟨result, hresult⟩ := Option.isSome_iff_exists.1 hsome
  exact ⟨result, hresult,
    allocation_covers Nat.two_pos none unevenRows small_evenNodes (by decide +kernel) (leftBehind_empty _) hresult⟩

/-- One pair with a wall limit of `2 ^ 64` seconds. -/
def longTask : Task := ⟨{ smallRow with wcLimit := 18446744073709551616 }, 0⟩

/-- The shell loses the limit, and asks for two minutes. -/
theorem longTask_not_covered :
    ∃ result, planRemote evenNodes (plans (planBatches 1 none (readPairs [longTask.toConfiguration]))) ∅ = some result ∧
      ¬ ∀ name ∈ glob result, ∃ b j batch, result.lookup name = some b ∧
        (planBatches 1 none (readPairs [longTask.toConfiguration]))[j]? = some batch ∧ b.taskIds = batch.map Task.taskId ∧
        Covers evenNodes batch (planScript j batch) b (sbatchOptions evenNodes b) := by
  have hbatches : planBatches 1 none (readPairs [longTask.toConfiguration]) = [[longTask]] := by decide +kernel
  rw [hbatches]
  have hrun : (planRemote evenNodes (plans [[longTask]]) ∅).any (fun result => decide (batchFile 0 ∈ glob result) &&
      (result.lookup (batchFile 0)).all fun b => decide ((sbatchOptions evenNodes b).time = 2)) = true := by
    decide +kernel
  obtain ⟨result, hresult, hrun⟩ := Option.any_eq_true _ _ |>.mp hrun
  rw [Bool.and_eq_true, decide_eq_true_eq, Option.all_eq_true] at hrun
  refine ⟨result, hresult, fun hall => ?_⟩
  obtain ⟨b, j, batch, hlookup, hbatch, -, hcovers⟩ := hall _ hrun.1
  have htime := hcovers.time
  rw [of_decide_eq_true (hrun.2 b hlookup)] at htime
  obtain ⟨hj, rfl⟩ := List.getElem?_eq_some_iff.mp hbatch
  obtain rfl : j = 0 := Nat.lt_one_iff.mp hj
  have hlong : ¬ ((60 + ([longTask].map fun task => task.wcLimit + 30).sum : ℕ) : ℤ) ≤ 2 * 60 := by decide +kernel
  exact hlong htime

end Plan
end Slurmy
