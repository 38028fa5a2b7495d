import Slurmy.Plan.Allocation
import Slurmy.Workflow.Reproduce

/-!
# The suggested size of batches

`estimate` of `batch_suggestion.py` counts the places for a configuration in a partition, and `remote_submit.sh` plans
the batches of the configuration there.

* `Request`, `readAllocation`: the texts of a configuration, and what `read_pairs` reads in them;
* `Node`, `configurationSlots`, `estimate`: the estimate;
* `coreCapacity`: the places on a node that `remote_submit.sh` finds for a batch, without regard to memory;
* `Agrees`, `estimate_agrees_iff`: where both find the same, and how many batches the suggestion leads to.
-/

namespace Slurmy
namespace Workflow

open Plan (Allocation Task Topology PlanScript largest batchScript planScript resolveCpus capacity mostCpus FitsSockets
  FitsThreads)
open ShellArith (wrap div)
open Column

/-! ### The estimate -/

/-- The texts of a configuration that has automatic CPUs, `''` for one that is missing. -/
structure Request where
  cores : Text
  threadsPerCore : Text
  exclusiveCpu : Text
  exclusiveNode : Text

/-- The row of `jobpairs.csv`, as far as it matters. -/
def Request.row (request : Request) : Row :=
  [(Column.cores, .text request.cores), (Column.threadsPerCore, .text request.threadsPerCore),
    (Column.cpus, .text "auto".toList), (Column.exclusiveCpu, .text request.exclusiveCpu),
    (Column.exclusiveNode, .text request.exclusiveNode)]

/-- What `read_pairs` reads in the row. -/
def readAllocation (site : Site) (host partition : Text) (request : Request) : Option Allocation := do
  let cores ← readCores site host partition request.row
  let threadsPerCore ← positive (Lines.strip (request.row.orText Column.threadsPerCore ['1']))
  let cpus ← readCpus request.row
  let exclusiveCpu ← boolean (request.row.written Column.exclusiveCpu)
  let exclusiveNode ← boolean (request.row.written Column.exclusiveNode)
  return { cores, threadsPerCore, cpus, exclusiveCpu, exclusiveNode }

structure Node where
  sockets : ℕ
  coresPerSocket : ℕ
  threadsPerCore : ℕ

/-- `str(configuration.get('threads_per_core') or 1)`. -/
def Request.threads (request : Request) : Text := if request.threadsPerCore = [] then ['1'] else request.threadsPerCore

/-- The cores on a node; `none` are all cores. -/
def coresOn (cores : Option ℕ) (dedicatedNode : Bool) (node : Node) : ℕ :=
  cores.getD (node.coresPerSocket * if dedicatedNode then node.sockets else 1)

/-- The places on a node. -/
def nodeSlots (cores : Option ℕ) (threads : ℕ) (dedicatedNode dedicatedSocket : Bool) (node : Node) : ℕ :=
  let cores := coresOn cores dedicatedNode node
  if node.sockets * node.coresPerSocket < cores ∨ node.threadsPerCore < threads then 0
  else if dedicatedNode then 1
  else if dedicatedSocket then node.sockets / ((cores + node.coresPerSocket - 1) / node.coresPerSocket)
  else node.sockets * node.coresPerSocket / cores

/-- The cores of a configuration; `some none` are all cores. -/
def requestedCores (request : Request) : Option (Option ℕ) :=
  if lower request.cores = "all".toList then some none else (positive request.cores).map some

/-- The places for a configuration, `none` when it is rejected. -/
def configurationSlots (nodes : List Node) (request : Request) : Option ℕ := do
  let cores ← requestedCores request
  let threads ← positive request.threads
  let dedicatedNode ← boolean request.exclusiveNode
  let dedicatedSocket ← boolean request.exclusiveCpu
  guard (cores = none → dedicatedSocket = true)
  let slots := (nodes.map (nodeSlots cores threads dedicatedNode dedicatedSocket)).sum
  guard (slots ≠ 0)
  return slots

structure Estimate where
  batchSize : ℕ
  totalPairs : ℕ
  nodeCount : ℕ
  hardwareParallelism : ℕ
  maximumParallelism : ℕ
  configurationParallelism : List ℕ

def estimate (requests : List Request) (totalPairs : ℕ) (maximumOutstanding : Text) (nodes : List Node) :
    Option Estimate := do
  guard (1 ≤ totalPairs)
  let capacities ← requests.mapM (configurationSlots nodes)
  let hardware ← capacities.min?
  let outstanding ← positive maximumOutstanding
  let parallelism := min hardware outstanding
  return {
    batchSize := max 1 ((totalPairs + 2 * parallelism - 1) / (2 * parallelism))
    totalPairs
    nodeCount := nodes.length
    hardwareParallelism := hardware
    maximumParallelism := parallelism
    configurationParallelism := capacities }

/-! ### The planner -/

/-- The places on a node without regard to memory. -/
def coreCapacity (t : Topology) (plan : PlanScript) : ℤ :=
  let maxCpus := mostCpus (resolveCpus t plan)
  let capacity := div (t.sockets * t.coresPerSocket) (Plan.slotCores t plan.exclusiveCpu maxCpus plan.maxCores)
  if plan.exclusiveCpu then min capacity (div t.sockets maxCpus) else capacity

/-- `NODE_MEMORY / SLOT_MEMORY`. -/
def memoryCapacity (t : Topology) (plan : PlanScript) : ℤ := div t.nodeMemory (Plan.slotMemory plan)

/-- The request fits a node. -/
def Fits (t : Topology) (a : Allocation) : Prop :=
  a.cores ≤ t.sockets * t.coresPerSocket ∧ a.threadsPerCore ≤ t.threadsPerCore

/-- What the shell reads of it does. -/
def FitsRead (t : Topology) (a : Allocation) : Prop :=
  (0 < wrap a.cores ∧ wrap a.cores ≤ (t.sockets * t.coresPerSocket : ℕ)) ∧
    0 < wrap a.threadsPerCore ∧ wrap a.threadsPerCore ≤ t.threadsPerCore

/-- Both reject the configuration, or both find the same places on `n` nodes. -/
structure Agrees (n : ℕ) (t : Topology) (request : Request) (plan : PlanScript) : Prop where
  slots : ∀ i b, batchScript t i plan = some b →
    ∃ slots, configurationSlots (List.replicate n ⟨t.sockets, t.coresPerSocket, t.threadsPerCore⟩) request = some slots ∧
      (slots : ℤ) = n * capacity t plan
  rejects : configurationSlots (List.replicate n ⟨t.sockets, t.coresPerSocket, t.threadsPerCore⟩) request = none ↔
    ∀ i, batchScript t i plan = none

/-- There are no blanks around the numbers. -/
def Trimmed (request : Request) : Prop :=
  Lines.strip request.cores = request.cores ∧ Lines.strip request.threads = request.threads

instance (request : Request) : Decidable (Trimmed request) := by
  unfold Trimmed
  infer_instance

/-! ### Numbers -/

variable {t : Text} {n : ℕ}

theorem positive_pos (h : positive t = some n) : 0 < n := by
  unfold positive at h
  obtain ⟨⟨hdigits, hhead⟩, h⟩ := Option.ite_none_right_eq_some.1 h
  obtain rfl := Option.some.inj h
  unfold isDigits at hdigits
  rw [Bool.and_eq_true] at hdigits
  cases t with
  | nil => cases hdigits.1
  | cons c t =>
    have hc := List.all_eq_true.1 hdigits.2 c List.mem_cons_self
    have hne : c ≠ '0' := fun heq => hhead (congrArg some heq)
    have hlt : 0 < c.toNat - '0'.toNat := by
      simp only [Char.isDigit, Bool.and_eq_true, decide_eq_true_eq] at hc
      have hge : '0'.toNat ≤ c.toNat := hc.1
      have hneq : c.toNat ≠ '0'.toNat := fun heq => hne (Char.toNat_inj.1 heq)
      omega
    rw [number_cons]
    exact Nat.add_pos_left (Nat.mul_pos (Nat.pow_pos (by decide)) hlt) _

/-- A text without blanks. -/
theorem strip_of_not_blank (h : ∀ c ∈ t, Lines.isSpace c = false) : Lines.strip t = t := by
  have hdrop : t.dropWhile Lines.isSpace = t := by
    cases t with
    | nil => rfl
    | cons c t => rw [List.dropWhile_cons_of_neg (by rw [h c List.mem_cons_self]; exact Bool.false_ne_true)]
  unfold Lines.strip
  rw [hdrop, List.rdropWhile_eq_self_iff]
  intro hne
  rw [h _ (List.getLast_mem hne)]
  exact Bool.false_ne_true

theorem isSpace_of_isDigit {c : Char} (h : c.isDigit = true) : Lines.isSpace c = false := by
  simp only [Char.isDigit, Bool.and_eq_true, decide_eq_true_eq] at h
  have hge : '0'.toNat ≤ c.toNat := h.1
  have hle : c.toNat ≤ '9'.toNat := h.2
  have h0 : '0'.toNat = 48 := rfl
  have h9 : '9'.toNat = 57 := rfl
  unfold Lines.isSpace
  rw [decide_eq_false_iff_not]
  simp only [List.mem_cons, List.not_mem_nil, or_false]
  omega

theorem strip_of_positive (h : positive t = some n) : Lines.strip t = t := by
  unfold positive isDigits at h
  obtain ⟨⟨hdigits, -⟩, -⟩ := Option.ite_none_right_eq_some.1 h
  rw [Bool.and_eq_true] at hdigits
  exact strip_of_not_blank fun c hc => isSpace_of_isDigit (List.all_eq_true.1 hdigits.2 c hc)

theorem toLower_of_isSpace {c : Char} (h : Lines.isSpace c = true) : c.toLower = c := by
  unfold Char.toLower
  rw [dif_neg]
  rintro ⟨hmin, hmax⟩
  have hge : 65 ≤ c.toNat := hmin
  have hle : c.toNat ≤ 90 := hmax
  unfold Lines.isSpace at h
  have hmem := of_decide_eq_true h
  simp only [List.mem_cons, List.not_mem_nil, or_false] at hmem
  omega

/-- The word for all cores has no blanks around it. -/
theorem strip_of_lower (h : lower t = "all".toList) : Lines.strip t = t := by
  refine strip_of_not_blank fun c hc => ?_
  by_contra hspace
  rw [Bool.not_eq_false] at hspace
  have hmem : c ∈ "all".toList := by
    rw [← h, ← toLower_of_isSpace hspace]
    exact List.mem_map_of_mem hc
  have hall : ("all".toList.all fun c => !Lines.isSpace c) = true := by decide +kernel
  have hnot := List.all_eq_true.1 hall c hmem
  rw [hspace] at hnot
  cases hnot

/-! ### What is read of a configuration -/

variable {site : Site} {host partition : Text} {request : Request} {a : Allocation}

theorem cell_row {column v : Text} (h : (column, Cell.text v) ∈ request.row) : request.row.cell column = .text v := by
  have hnodup : (request.row.map Prod.fst).Nodup := by
    show [Column.cores, Column.threadsPerCore, Column.cpus, Column.exclusiveCpu, Column.exclusiveNode].Nodup
    decide +kernel
  unfold Row.cell
  rw [Dict.get_of_mem hnodup h]
  rfl

theorem written_row {column v : Text} (h : (column, Cell.text v) ∈ request.row) : request.row.written column = v := by
  unfold Row.written
  rw [cell_row h]
  rfl

theorem orText_row (request : Request) : request.row.orText Column.threadsPerCore ['1'] = request.threads := by
  have hmem : (Column.threadsPerCore, Cell.text request.threadsPerCore) ∈ request.row := by simp [Request.row]
  unfold Row.orText Request.threads
  rw [cell_row hmem, written_row hmem]
  by_cases hnil : request.threadsPerCore = []
  · rw [if_pos hnil, hnil]
    rfl
  · rw [if_neg hnil]
    exact if_pos (decide_eq_true hnil)

/-- What `read_pairs` has accepted. -/
structure Accepts (site : Site) (host partition : Text) (request : Request) (a : Allocation) : Prop where
  cores : readCores site host partition request.row = some a.cores
  threads : positive (Lines.strip request.threads) = some a.threadsPerCore
  cpus : a.cpus = 0
  exclusiveCpu : boolean request.exclusiveCpu = some a.exclusiveCpu
  exclusiveNode : boolean request.exclusiveNode = some a.exclusiveNode

theorem accepts_of_readAllocation (h : readAllocation site host partition request = some a) :
    Accepts site host partition request a := by
  have hcpu : request.row.written Column.exclusiveCpu = request.exclusiveCpu := written_row (by simp [Request.row])
  have hnode : request.row.written Column.exclusiveNode = request.exclusiveNode := written_row (by simp [Request.row])
  unfold readAllocation at h
  rw [orText_row, hcpu, hnode] at h
  obtain ⟨cores, hc, h⟩ := Option.bind_eq_some_iff.1 h
  obtain ⟨threads, ht, h⟩ := Option.bind_eq_some_iff.1 h
  obtain ⟨cpus, hcpus, h⟩ := Option.bind_eq_some_iff.1 h
  obtain ⟨dedicatedCpu, he, h⟩ := Option.bind_eq_some_iff.1 h
  obtain ⟨dedicatedNode, hn, h⟩ := Option.bind_eq_some_iff.1 h
  obtain rfl := Option.some.inj h
  have hauto : readCpus request.row = some 0 := by
    unfold readCpus
    have hvalue : request.row.written Column.cpus = "auto".toList := written_row (by simp [Request.row])
    rw [hvalue]
    decide +kernel
  exact ⟨hc, ht, Option.some.inj (hcpus.symm.trans hauto), he, hn⟩

/-! ### Places on a node -/

section Places

variable {t : Topology} {plan : PlanScript} {batch : List Task} {i : ℕ}

/-- The sockets that the cluster assigns to each pair. -/
def resolved (t : Topology) (a : Allocation) : ℤ :=
  if a.exclusiveCpu then div (a.cores + t.coresPerSocket - 1) t.coresPerSocket else t.sockets

theorem largest_map_const {β : Type} {f : β → ℕ} {k : ℕ} {l : List β} (hne : l ≠ []) (h : ∀ x ∈ l, f x = k) :
    largest (l.map f) = k := by
  have hmap : l.map f = l.map fun _ => k := List.map_congr_left h
  rw [hmap]
  clear hmap h
  unfold largest
  induction l with
  | nil => exact absurd rfl hne
  | cons x l ih =>
    rw [List.map_cons, List.foldr_cons]
    by_cases hl : l = []
    · rw [hl]
      exact Nat.max_zero k
    · rw [ih hl, max_self]

/-- The most of equal numbers. -/
theorem mostCpus_map_const {β : Type} {l : List β} (hne : l ≠ []) (k : ℤ) :
    mostCpus (l.map fun _ => k) = if wrap k ≤ 0 then 0 else k := by
  have hstay : ∀ l : List β, (l.map fun _ => k).foldl (fun most cpus => if wrap cpus ≤ wrap most then most else cpus) k = k := by
    intro l
    induction l with
    | nil => rfl
    | cons x l ih => rw [List.map_cons, List.foldl_cons, if_pos le_rfl, ih]
  unfold mostCpus
  obtain ⟨x, l, rfl⟩ := List.exists_cons_of_ne_nil hne
  induction l generalizing x with
  | nil =>
    show (if wrap k ≤ wrap 0 then 0 else k) = _
    rw [ShellArith.wrap_zero]
  | cons y l ih =>
    rw [List.map_cons, List.foldl_cons, ShellArith.wrap_zero]
    split
    · next h =>
      rw [ih y (List.cons_ne_nil y l), if_pos h]
    · exact hstay (y :: l)

/-- The plan of a batch of one configuration. -/
structure Uniform (t : Topology) (a : Allocation) (plan : PlanScript) : Prop where
  exclusiveCpu : plan.exclusiveCpu = a.exclusiveCpu
  maxCores : plan.maxCores = a.cores
  maxThreads : plan.maxThreadsPerCore = a.threadsPerCore
  maxCpus : mostCpus (resolveCpus t plan) = if wrap (resolved t a) ≤ 0 then 0 else resolved t a

theorem uniform_planScript (hne : batch ≠ []) (h : ∀ task ∈ batch, task.toAllocation = a) (hcpus : a.cpus = 0) (j : ℕ) :
    Uniform t a (planScript j batch) := by
  have hexclusive : (planScript j batch).exclusiveCpu = a.exclusiveCpu := by
    obtain ⟨task, batch, rfl⟩ := List.exists_cons_of_ne_nil hne
    show (task :: batch).any (fun task => task.exclusiveCpu) = a.exclusiveCpu
    cases ha : a.exclusiveCpu with
    | true =>
      rw [List.any_eq_true]
      exact ⟨task, List.mem_cons_self, by rw [h task List.mem_cons_self, ha]⟩
    | false =>
      rw [List.any_eq_false]
      intro x hx
      rw [h x hx, ha]
      exact Bool.false_ne_true
  refine ⟨hexclusive, ?_, ?_, ?_⟩
  · exact largest_map_const hne fun task htask => by rw [h task htask]
  · exact largest_map_const hne fun task htask => by rw [h task htask]
  · have hresolved : resolveCpus t (planScript j batch) = batch.map fun _ => resolved t a := by
      unfold resolveCpus
      rw [hexclusive]
      show List.zipWith _ (batch.map fun task => task.cores) (batch.map fun task => task.cpus) = _
      rw [List.zipWith_map, List.zipWith_self]
      refine List.map_congr_left fun task htask => ?_
      rw [h task htask, hcpus, Nat.cast_zero, if_pos ShellArith.wrap_zero]
      rfl
    rw [hresolved, mostCpus_map_const hne]

/-- Rounded up to sockets, the cores fit exactly where they fit. -/
theorem sockets_le_iff {c s k : ℕ} (hk : 0 < k) : (c + k - 1) / k ≤ s ↔ c ≤ s * k := by
  rw [← Nat.lt_succ_iff, Nat.div_lt_iff_lt_mul hk, Nat.succ_mul]
  omega

theorem le_sockets_mul {c k : ℕ} (hk : 0 < k) : c ≤ (c + k - 1) / k * k := (sockets_le_iff hk).1 le_rfl

/-- The places on a node, as the estimate computes them. -/
def places (t : Topology) (a : Allocation) : ℕ :=
  if a.exclusiveCpu then t.sockets / ((a.cores + t.coresPerSocket - 1) / t.coresPerSocket)
  else t.sockets * t.coresPerSocket / a.cores

theorem places_pos_iff (hper : 0 < t.coresPerSocket) (hcores : 0 < a.cores) :
    0 < places t a ↔ a.cores ≤ t.sockets * t.coresPerSocket := by
  have hpos {m k : ℕ} (hk : 0 < k) : 0 < m / k ↔ k ≤ m := Nat.div_pos_iff.trans (and_iff_right hk)
  unfold places
  cases a.exclusiveCpu with
  | true =>
    have hsockets : 0 < (a.cores + t.coresPerSocket - 1) / t.coresPerSocket :=
      Nat.div_pos (by omega) hper
    rw [if_pos rfl, hpos hsockets, sockets_le_iff hper]
  | false => rw [if_neg Bool.false_ne_true, hpos hcores]

/-- Where memory does not matter. -/
theorem capacity_eq (hmemory : coreCapacity t plan ≤ memoryCapacity t plan) : capacity t plan = coreCapacity t plan := by
  unfold capacity
  unfold coreCapacity memoryCapacity at hmemory
  unfold coreCapacity
  dsimp only at hmemory ⊢
  split
  · next hexclusive =>
    rw [if_pos hexclusive] at hmemory
    rw [min_right_comm, min_eq_left hmemory]
  · next hexclusive =>
    rw [if_neg hexclusive] at hmemory
    exact min_eq_left hmemory

/-! ### What the shell reads -/

theorem wrap_resolved (hexclusive : a.exclusiveCpu = true) : wrap (resolved t a) = resolved t a := by
  unfold resolved
  rw [if_pos hexclusive, ShellArith.wrap_div]

/-- Cores that fit, rounded up to sockets. -/
theorem resolved_of_read (hper : 0 < t.coresPerSocket) (ht : t.Small) (hexclusive : a.exclusiveCpu = true) {c : ℕ}
    (hc : wrap a.cores = c) (hle : c ≤ t.sockets * t.coresPerSocket) :
    resolved t a = ((c + t.coresPerSocket - 1) / t.coresPerSocket : ℕ) := by
  have hbound := ht.cores_lt
  have hcores := ht.coresPerSocket
  have hlt : c + t.coresPerSocket - 1 < 2 ^ 63 := by omega
  have hwrap : wrap (a.cores + t.coresPerSocket - 1) = wrap ((c + t.coresPerSocket - 1 : ℕ) : ℤ) := by
    rw [add_sub_assoc, ← ShellArith.wrap_wrap_add, hc]
    congr 1
    omega
  unfold resolved
  rw [if_pos hexclusive, ShellArith.div_congr hwrap rfl]
  exact ShellArith.div_natCast hlt (by omega)

/-- Without cores, there are no sockets. -/
theorem resolved_nonpos (hper : 0 < t.coresPerSocket) (ht : t.Small) (hexclusive : a.exclusiveCpu = true)
    (hc : wrap a.cores ≤ 0) : resolved t a ≤ 0 := by
  have hcores := ht.coresPerSocket
  have hfits := ShellArith.fits_wrap a.cores
  unfold ShellArith.Fits at hfits
  unfold resolved
  rw [if_pos hexclusive]
  refine ShellArith.div_nonpos ?_ (by omega)
  rw [add_sub_assoc, ← ShellArith.wrap_wrap_add, ShellArith.wrap_of_fits ⟨by omega, by omega⟩]
  omega

/-- Of whole sockets, the planner finds those that hold the cores. -/
theorem mostCpus_of_read (hper : 0 < t.coresPerSocket) (ht : t.Small) (h : Uniform t a plan)
    (hexclusive : a.exclusiveCpu = true) {c : ℕ} (hpos : 0 < c) (hc : wrap a.cores = c)
    (hle : c ≤ t.sockets * t.coresPerSocket) :
    mostCpus (resolveCpus t plan) = ((c + t.coresPerSocket - 1) / t.coresPerSocket : ℕ) ∧
      0 < (c + t.coresPerSocket - 1) / t.coresPerSocket ∧ (c + t.coresPerSocket - 1) / t.coresPerSocket ≤ t.sockets := by
  have hsockets : 0 < (c + t.coresPerSocket - 1) / t.coresPerSocket := Nat.div_pos (by omega) hper
  refine ⟨?_, hsockets, (sockets_le_iff hper).mpr hle⟩
  rw [h.maxCpus, wrap_resolved hexclusive, resolved_of_read hper ht hexclusive hc hle,
    if_neg (not_le.mpr (Int.natCast_pos.mpr hsockets))]

/-- The planner accepts the cores that fit as the shell reads them. -/
theorem cores_accepted_iff (hper : 0 < t.coresPerSocket) (ht : t.Small) (h : Uniform t a plan) :
    (0 < coreCapacity t plan ∧ FitsSockets t (mostCpus (resolveCpus t plan)) plan.maxCores) ↔
      0 < wrap a.cores ∧ wrap a.cores ≤ (t.sockets * t.coresPerSocket : ℕ) := by
  have hnode : t.sockets * t.coresPerSocket < 2 ^ 63 := ht.cores_lt.trans (by decide)
  have hsockets : t.sockets < 2 ^ 63 := ht.sockets.trans (by decide)
  unfold coreCapacity FitsSockets Plan.slotCores
  rw [h.exclusiveCpu, h.maxCores, ← Nat.cast_mul, ShellArith.wrap_natCast hsockets]
  cases hexclusive : a.exclusiveCpu with
  | true =>
    simp only [if_true]
    rw [lt_min_iff, ShellArith.div_pos_iff hnode, ShellArith.div_pos_iff hsockets, ShellArith.wrap_wrap]
    constructor
    · rintro ⟨⟨⟨-, hslot⟩, hpos, -⟩, -, hcores⟩
      refine ⟨?_, hcores.trans hslot⟩
      by_contra hnone
      have hresolved := resolved_nonpos hper ht hexclusive (not_lt.mp hnone)
      rw [h.maxCpus, wrap_resolved hexclusive, if_pos hresolved, ShellArith.wrap_zero] at hpos
      exact lt_irrefl 0 hpos
    · rintro ⟨hpos, hle⟩
      obtain ⟨c, hc⟩ := Int.eq_ofNat_of_zero_le hpos.le
      rw [hc] at hpos hle
      obtain ⟨hmost, hone, hmostle⟩ := mostCpus_of_read hper ht h hexclusive (Int.natCast_pos.mp hpos) hc (Int.ofNat_le.mp hle)
      have hslot := Nat.mul_le_mul_right t.coresPerSocket hmostle
      rw [hmost, hc, ← Nat.cast_mul, ShellArith.wrap_natCast (hslot.trans_lt hnode),
        ShellArith.wrap_natCast (hmostle.trans_lt hsockets)]
      refine ⟨⟨⟨?_, Int.ofNat_le.mpr hslot⟩, Int.natCast_pos.mpr hone, Int.ofNat_le.mpr hmostle⟩, Int.ofNat_le.mpr hmostle,
        Int.ofNat_le.mpr (le_sockets_mul hper)⟩
      exact Int.natCast_pos.mpr (Nat.mul_pos hone hper)
  | false =>
    have hmost : mostCpus (resolveCpus t plan) = t.sockets := by
      have hresolved : resolved t a = t.sockets := by
        unfold resolved
        rw [hexclusive]
        exact if_neg Bool.false_ne_true
      rw [h.maxCpus, hresolved, ShellArith.wrap_natCast hsockets]
      split <;> omega
    simp only [Bool.false_eq_true, if_false]
    rw [ShellArith.div_pos_iff hnode, hmost, ShellArith.wrap_natCast hsockets, ← Nat.cast_mul, ShellArith.wrap_natCast hnode]
    exact ⟨fun hall => hall.1, fun hall => ⟨hall, le_rfl, hall.2⟩⟩

/-- Cores that fit as they are written get the places of the estimate. -/
theorem coreCapacity_eq_places (hper : 0 < t.coresPerSocket) (ht : t.Small) (hcores : 0 < a.cores)
    (hle : a.cores ≤ t.sockets * t.coresPerSocket) (h : Uniform t a plan) : coreCapacity t plan = places t a := by
  have hnode : t.sockets * t.coresPerSocket < 2 ^ 63 := ht.cores_lt.trans (by decide)
  have hsockets : t.sockets < 2 ^ 63 := ht.sockets.trans (by decide)
  have hread : wrap a.cores = a.cores := ShellArith.wrap_natCast (hle.trans_lt hnode)
  unfold coreCapacity places Plan.slotCores
  rw [h.exclusiveCpu, h.maxCores, ← Nat.cast_mul]
  cases hexclusive : a.exclusiveCpu with
  | true =>
    obtain ⟨hmost, hone, hmostle⟩ := mostCpus_of_read hper ht h hexclusive hcores hread hle
    have hslot := Nat.mul_le_mul_right t.coresPerSocket hmostle
    simp only [if_true]
    rw [hmost, ← Nat.cast_mul, ShellArith.wrap_natCast (hslot.trans_lt hnode),
      ShellArith.div_natCast hnode (hslot.trans_lt hnode), ShellArith.div_natCast hsockets (hmostle.trans_lt hsockets),
      Nat.mul_div_mul_right _ _ hper, min_self]
  | false =>
    simp only [Bool.false_eq_true, if_false]
    exact ShellArith.div_natCast hnode (hle.trans_lt hnode)

theorem batchScript_eq_none : batchScript t i plan = none ↔ ¬ (FitsThreads t plan.maxThreadsPerCore ∧
    0 < capacity t plan ∧ FitsSockets t (mostCpus (resolveCpus t plan)) plan.maxCores) := by
  rw [← Option.not_isSome_iff_eq_none, Plan.isSome_batchScript]

/-- The batch is planned exactly where the request fits, as the shell reads it. -/
theorem batchScript_eq_none_iff (hper : 0 < t.coresPerSocket) (ht : t.Small) (h : Uniform t a plan)
    (hmemory : coreCapacity t plan ≤ memoryCapacity t plan) : batchScript t i plan = none ↔ ¬ FitsRead t a := by
  have hthreads : FitsThreads t a.threadsPerCore ↔ 0 < wrap a.threadsPerCore ∧ wrap a.threadsPerCore ≤ t.threadsPerCore := by
    unfold FitsThreads
    rw [ShellArith.wrap_natCast (ht.threadsPerCore.trans (by decide))]
    exact Iff.rfl
  rw [batchScript_eq_none, h.maxThreads, capacity_eq hmemory, cores_accepted_iff hper ht h, hthreads, not_iff_not]
  exact and_comm

end Places

/-! ### The estimate of a configuration -/

section Slots

variable {t : Topology} {nodes : List Node} {k : ℕ}

theorem sum_map_replicate {β : Type} (f : β → ℕ) (k : ℕ) (x : β) : ((List.replicate k x).map f).sum = k * f x := by
  rw [List.map_replicate, List.sum_replicate, smul_eq_mul]

/-- The cores that are read, without blanks. -/
theorem readCores_eq (htopology : site.topology host partition = some (t.sockets, t.coresPerSocket))
    (hnode : boolean request.exclusiveNode = some false) (hstrip : Lines.strip request.cores = request.cores)
    {cores : ℕ} (h : readCores site host partition request.row = some cores) :
    (lower request.cores = "all".toList ∧ cores = t.coresPerSocket ∧ boolean request.exclusiveCpu = some true) ∨
      lower request.cores ≠ "all".toList ∧ positive request.cores = some cores := by
  have hwritten : request.row.written Column.cores = request.cores := written_row (by simp [Request.row])
  have hcpu : request.row.written Column.exclusiveCpu = request.exclusiveCpu := written_row (by simp [Request.row])
  have hexclusive : request.row.written Column.exclusiveNode = request.exclusiveNode := written_row (by simp [Request.row])
  unfold readCores at h
  rw [hwritten, hstrip, hcpu, hexclusive, htopology, hnode] at h
  by_cases hall : lower request.cores = "all".toList
  · rw [if_pos hall] at h
    obtain ⟨dedicated, hdedicated, h⟩ := Option.bind_eq_some_iff.1 h
    cases dedicated with
    | false => cases h
    | true =>
      have hcores : t.coresPerSocket * 1 = cores := Option.some.inj h
      rw [Nat.mul_one] at hcores
      exact .inl ⟨hall, hcores.symm, hdedicated⟩
  · rw [if_neg hall] at h
    exact .inr ⟨hall, h⟩

theorem cores_pos (hper : 0 < t.coresPerSocket)
    (htopology : site.topology host partition = some (t.sockets, t.coresPerSocket))
    (hnode : boolean request.exclusiveNode = some false) {cores : ℕ}
    (h : readCores site host partition request.row = some cores) : 0 < cores := by
  have hexclusive : request.row.written Column.exclusiveNode = request.exclusiveNode := written_row (by simp [Request.row])
  unfold readCores at h
  rw [hexclusive, htopology, hnode] at h
  split at h
  · obtain ⟨_, _, h⟩ := Option.bind_eq_some_iff.1 h
    obtain ⟨_, _, h⟩ := Option.bind_eq_some_iff.1 h
    have hone : t.coresPerSocket * 1 = cores := Option.some.inj h
    rw [← hone, Nat.mul_one]
    exact hper
  · exact positive_pos h

/-- The places of a configuration without blanks. -/
theorem configurationSlots_of_trimmed (haccepts : Accepts site host partition request a) (hnode : a.exclusiveNode = false)
    (htopology : site.topology host partition = some (t.sockets, t.coresPerSocket)) (htrimmed : Trimmed request) :
    configurationSlots (List.replicate k ⟨t.sockets, t.coresPerSocket, t.threadsPerCore⟩) request =
      if a.cores ≤ t.sockets * t.coresPerSocket ∧ a.threadsPerCore ≤ t.threadsPerCore ∧ k * places t a ≠ 0 then
        some (k * places t a)
      else none := by
  have hfree : boolean request.exclusiveNode = some false := hnode ▸ haccepts.exclusiveNode
  have hthreads : positive request.threads = some a.threadsPerCore := by
    have h := haccepts.threads
    rwa [htrimmed.2] at h
  -- the cores are the planned ones
  have hcores : ∃ cores, requestedCores request = some cores ∧
      coresOn cores false ⟨t.sockets, t.coresPerSocket, t.threadsPerCore⟩ = a.cores ∧
        (cores = none → a.exclusiveCpu = true) := by
    unfold requestedCores
    rcases readCores_eq htopology hfree htrimmed.1 haccepts.cores with ⟨hall, hcores, hdedicated⟩ | ⟨hall, hcores⟩
    · refine ⟨none, if_pos hall, ?_, fun _ => ?_⟩
      · rw [hcores]
        exact Nat.mul_one _
      · exact Option.some.inj (haccepts.exclusiveCpu.symm.trans hdedicated)
    · exact ⟨some a.cores, by rw [if_neg hall, hcores]; rfl, rfl, fun hnone => by cases hnone⟩
  obtain ⟨cores, hrequested, hon, hguard⟩ := hcores
  have hslots : nodeSlots cores a.threadsPerCore false a.exclusiveCpu ⟨t.sockets, t.coresPerSocket, t.threadsPerCore⟩ =
      if a.cores ≤ t.sockets * t.coresPerSocket ∧ a.threadsPerCore ≤ t.threadsPerCore then places t a else 0 := by
    unfold nodeSlots places
    rw [hon]
    dsimp only
    by_cases hfits : a.cores ≤ t.sockets * t.coresPerSocket ∧ a.threadsPerCore ≤ t.threadsPerCore
    · rw [if_pos hfits, if_neg (by omega), if_neg Bool.false_ne_true]
    · rw [if_neg hfits, if_pos (by omega)]
  unfold configurationSlots
  rw [hrequested, hthreads, hfree, haccepts.exclusiveCpu]
  show (guard _ >>= fun _ => guard _ >>= fun _ => some _) = _
  rw [sum_map_replicate, hslots]
  unfold guard
  rw [if_pos hguard]
  show ((if _ then some () else none) >>= fun _ => some _) = _
  by_cases hfits : a.cores ≤ t.sockets * t.coresPerSocket ∧ a.threadsPerCore ≤ t.threadsPerCore
  · rw [if_pos hfits]
    by_cases hzero : k * places t a ≠ 0
    · rw [if_pos hzero, if_pos ⟨hfits.1, hfits.2, hzero⟩]
      rfl
    · rw [if_neg hzero, if_neg fun h => hzero h.2.2]
      rfl
  · rw [if_neg hfits, Nat.mul_zero, if_neg (fun h => h rfl), if_neg fun h => hfits ⟨h.1, h.2.1⟩]
    rfl

/-- A configuration with blanks is rejected. -/
theorem configurationSlots_of_not_trimmed (h : ¬ Trimmed request) : configurationSlots nodes request = none := by
  by_contra hsome
  obtain ⟨slots, hslots⟩ := Option.ne_none_iff_exists'.1 hsome
  unfold configurationSlots at hslots
  obtain ⟨cores, hcores, hslots⟩ := Option.bind_eq_some_iff.1 hslots
  obtain ⟨threads, hthreads, -⟩ := Option.bind_eq_some_iff.1 hslots
  refine h ⟨?_, strip_of_positive hthreads⟩
  unfold requestedCores at hcores
  split at hcores
  · next hall => exact strip_of_lower hall
  · obtain ⟨n, hn, -⟩ := Option.map_eq_some_iff.1 hcores
    exact strip_of_positive hn

end Slots

/-! ### The suggestion -/

theorem configurationSlots_pos {nodes : List Node} {slots : ℕ} (h : configurationSlots nodes request = some slots) :
    0 < slots := by
  unfold configurationSlots at h
  obtain ⟨_, _, h⟩ := Option.bind_eq_some_iff.1 h
  obtain ⟨_, _, h⟩ := Option.bind_eq_some_iff.1 h
  obtain ⟨_, _, h⟩ := Option.bind_eq_some_iff.1 h
  obtain ⟨_, _, h⟩ := Option.bind_eq_some_iff.1 h
  obtain ⟨_, _, h⟩ := Option.bind_eq_some_iff.1 h
  obtain ⟨_, hguard, h⟩ := Option.bind_eq_some_iff.1 h
  obtain rfl := Option.some.inj h
  unfold guard at hguard
  split at hguard
  · next hne => exact Nat.pos_of_ne_zero hne
  · cases hguard

/-- So many batches of the suggested size are at most twice as many as run at once. -/
theorem batches_le {requests : List Request} {total : ℕ} {maximum : Text} {nodes : List Node} {e : Estimate}
    (h : estimate requests total maximum nodes = some e) :
    (total + e.batchSize - 1) / e.batchSize ≤ 2 * e.maximumParallelism := by
  unfold estimate at h
  obtain ⟨-, -, h⟩ := Option.bind_eq_some_iff.1 h
  obtain ⟨capacities, hcapacities, h⟩ := Option.bind_eq_some_iff.1 h
  obtain ⟨hardware, hhardware, h⟩ := Option.bind_eq_some_iff.1 h
  obtain ⟨outstanding, houtstanding, h⟩ := Option.bind_eq_some_iff.1 h
  obtain rfl := Option.some.inj h
  dsimp only
  have hpos : 0 < hardware := by
    obtain ⟨request, -, hslots⟩ := Gather.exists_of_mem_mapM hcapacities (List.min?_mem hhardware)
    exact configurationSlots_pos hslots
  have hparallel : 0 < 2 * min hardware outstanding :=
    Nat.mul_pos Nat.two_pos (lt_min hpos (positive_pos houtstanding))
  have hsize : 0 < max 1 ((total + 2 * min hardware outstanding - 1) / (2 * min hardware outstanding)) :=
    lt_of_lt_of_le Nat.one_pos (le_max_left _ _)
  rw [sockets_le_iff hsize, Nat.mul_comm]
  calc total ≤ (total + 2 * min hardware outstanding - 1) / (2 * min hardware outstanding) * (2 * min hardware outstanding) :=
        le_sockets_mul hparallel
    _ ≤ _ := Nat.mul_le_mul_right _ (le_max_right _ _)

/-- Cores that fit are read as they are written. -/
theorem fitsRead_of_fits {t : Topology} (ht : t.Small) (hcores : 0 < a.cores) (hthreads : 0 < a.threadsPerCore) (h : Fits t a) :
    FitsRead t a := by
  have hcoresRead := ShellArith.wrap_natCast (h.1.trans_lt (ht.cores_lt.trans (by decide)))
  have hthreadsRead := ShellArith.wrap_natCast (h.2.trans_lt (ht.threadsPerCore.trans (by decide)))
  unfold FitsRead
  rw [hcoresRead, hthreadsRead]
  exact ⟨⟨Int.natCast_pos.mpr hcores, Int.ofNat_le.mpr h.1⟩, Int.natCast_pos.mpr hthreads, Int.ofNat_le.mpr h.2⟩

/-- The estimate agrees with the planner exactly where the request does not fit as the shell reads it, so that both reject
it, or fits as it is written, without blanks around the numbers; and the suggested size leads to at most twice as many
batches as run at once. -/
theorem estimate_agrees_iff {t : Topology} {n : ℕ} (hn : 0 < n) (hper : 0 < t.coresPerSocket) (ht : t.Small)
    (htopology : site.topology host partition = some (t.sockets, t.coresPerSocket))
    (hread : readAllocation site host partition request = some a) (hnode : a.exclusiveNode = false)
    {batch : List Task} (hne : batch ≠ []) (hbatch : ∀ task ∈ batch, task.toAllocation = a) (j : ℕ)
    (hmemory : coreCapacity t (planScript j batch) ≤ memoryCapacity t (planScript j batch)) :
    (Agrees n t request (planScript j batch) ↔ ¬ FitsRead t a ∨ Trimmed request ∧ Fits t a) ∧
      ∀ requests total maximum nodes e, estimate requests total maximum nodes = some e →
        (total + e.batchSize - 1) / e.batchSize ≤ 2 * e.maximumParallelism := by
  refine ⟨?_, fun requests total maximum nodes e he => batches_le he⟩
  have haccepts := accepts_of_readAllocation hread
  have hthreads : 0 < a.threadsPerCore := positive_pos haccepts.threads
  have hcores : 0 < a.cores := cores_pos hper htopology (hnode ▸ haccepts.exclusiveNode) haccepts.cores
  have huniform := uniform_planScript (t := t) hne hbatch haccepts.cpus j
  have hnone (i : ℕ) : batchScript t i (planScript j batch) = none ↔ ¬ FitsRead t a :=
    batchScript_eq_none_iff hper ht huniform hmemory
  -- the estimate goes by the numbers as they are written
  have hestimate : Trimmed request ∧ Fits t a →
      configurationSlots (List.replicate n ⟨t.sockets, t.coresPerSocket, t.threadsPerCore⟩) request = some (n * places t a) := by
    rintro ⟨htrimmed, hfits⟩
    have hplaces : 0 < places t a := (places_pos_iff hper hcores).2 hfits.1
    rw [configurationSlots_of_trimmed haccepts hnode htopology htrimmed,
      if_pos ⟨hfits.1, hfits.2, (Nat.mul_pos hn hplaces).ne'⟩]
  have hrejected : ¬ (Trimmed request ∧ Fits t a) →
      configurationSlots (List.replicate n ⟨t.sockets, t.coresPerSocket, t.threadsPerCore⟩) request = none := by
    intro hnot
    by_cases htrimmed : Trimmed request
    · rw [configurationSlots_of_trimmed haccepts hnode htopology htrimmed, if_neg fun h => hnot ⟨htrimmed, h.1, h.2.1⟩]
    · exact configurationSlots_of_not_trimmed htrimmed
  constructor
  · intro hagrees
    by_contra hnot
    rw [not_or, not_not] at hnot
    have hrejects := hagrees.rejects.1 (hrejected hnot.2)
    exact (hnone 0).1 (hrejects 0) hnot.1
  · intro hcondition
    by_cases hfits : Trimmed request ∧ Fits t a
    · have hfitsRead := fitsRead_of_fits ht hcores hthreads hfits.2
      refine ⟨fun i b _ => ⟨_, hestimate hfits, ?_⟩, ?_⟩
      · rw [capacity_eq hmemory, coreCapacity_eq_places hper ht hcores hfits.2.1 huniform, Nat.cast_mul]
      · rw [hestimate hfits]
        exact iff_of_false (Option.some_ne_none _) fun hall => (hnone 0).1 (hall 0) hfitsRead
    · have hnotRead : ¬ FitsRead t a := hcondition.resolve_right hfits
      refine ⟨fun i b hb => ?_, ?_⟩
      · rw [(hnone i).2 hnotRead] at hb
        cases hb
      · exact iff_of_true (hrejected hfits) fun i => (hnone i).2 hnotRead

/-- Two cores for each call, with a blank before the number. -/
def blankRequest : Request := ⟨" 2".toList, ['1'], [], []⟩

def twoSockets : Topology := ⟨2, 4, 2, 64000⟩

theorem small_twoSockets : twoSockets.Small := ⟨by decide, by decide, by decide⟩

def clusterSite : Site where
  __ := sampleSite []
  topology _ _ := some (2, 4)

def twoCores : Allocation := ⟨2, 1, 0, false, false⟩

def twoCoresTask : Task :=
  { twoCores with solver := [], solverRoot := [], command := [], wcLimit := 1, cpuLimit := 1, memLimit := 1, taskId := 0 }

theorem estimate_agrees_iff_sample : readAllocation clusterSite [] [] blankRequest = some twoCores ∧
    (Agrees 3 twoSockets blankRequest (planScript 0 [twoCoresTask]) ↔
      ¬ FitsRead twoSockets twoCores ∨ Trimmed blankRequest ∧ Fits twoSockets twoCores) :=
  have hread : readAllocation clusterSite [] [] blankRequest = some twoCores := by decide +kernel
  have htopology : clusterSite.topology [] [] = some (twoSockets.sockets, twoSockets.coresPerSocket) := rfl
  ⟨hread, (estimate_agrees_iff (by decide) (by decide) small_twoSockets htopology hread rfl (List.cons_ne_nil twoCoresTask [])
    (fun task htask => List.mem_singleton.1 htask ▸ rfl) 0 (by decide +kernel)).1⟩

/-- The estimate rejects what the cluster accepts. -/
theorem blankRequest_disagrees : readAllocation clusterSite [] [] blankRequest = some twoCores ∧
    ¬ Agrees 3 twoSockets blankRequest (planScript 0 [twoCoresTask]) := by
  refine ⟨by decide +kernel, fun h => ?_⟩
  have hrejects : configurationSlots (List.replicate 3 ⟨2, 4, 2⟩) blankRequest = none := by decide +kernel
  have hplanned : batchScript twoSockets 0 (planScript 0 [twoCoresTask]) ≠ none := by decide +kernel
  exact hplanned (h.rejects.1 hrejects 0)

end Workflow
end Slurmy
