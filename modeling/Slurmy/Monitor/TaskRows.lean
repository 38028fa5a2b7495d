import Slurmy.Lib.Dict
import Slurmy.Lib.Lines
import Slurmy.Lib.StableSort
import Slurmy.Text

/-!
# The rows of the task page

What `app.py` shows for the solver-problem pairs of a job.

* `JobSnapshot`: the parts of a snapshot that the rows are made of;
* `unfinishedCall`: why there is no result;
* `callOutcome`: the outcome that the filter selects by;
* `taskRow`: a row.
-/

namespace Slurmy
namespace TaskPages

/-! ### Snapshots -/

structure TaskDefinition where
  solver : Text
  problem : Text
  command : Text
  limiterCommand : Text
  solverRoot : Text

/-- Times are in seconds. -/
structure ResultRecord where
  complete : Bool
  status : Text
  returnCode : Text
  wallSeconds : Option ℚ
  cpuSeconds : Option ℚ
  maxMemoryKib : Option ℚ
  archive : Text
  szsStatus : Text
  szsOutput : Text

structure BatchProgress where
  batchId : ℕ
  state : Text
  taskId : Option ℕ
  startedEpoch : Option ℚ

structure SlurmRecord where
  displayId : Text
  arrayJobId : Text
  arrayTaskId : Text
  state : Text
  location : Text
  source : Text

/-- A snapshot. The progress of a call is filed under its own task. -/
structure JobSnapshot where
  createdEpoch : ℚ
  metadataBatchSize : ℕ
  results : List (ℕ × ResultRecord)
  tasks : List (ℕ × TaskDefinition)
  progress : List (ℕ × BatchProgress)
  callProgress : List (ℕ × BatchProgress)
  taskId_callProgress : ∀ id p, Dict.get callProgress id = some p → p.taskId = some id
  taskBatches : List (ℕ × ℕ)
  submissionOffsets : List (Text × ℕ)
  submittedBatches : List ℕ
  submissionState : Text
  controllerState : Text
  slurm : List SlurmRecord
  logs : List (Text × Text)

def JobSnapshot.batchSize (job : JobSnapshot) : ℕ := if job.metadataBatchSize = 0 then 1 else job.metadataBatchSize

/-! ### Texts -/

def upper (t : Text) : Text := t.map Char.toUpper

def lower (t : Text) : Text := t.map Char.toLower

/-- `t.split()[0]`, which fails on a blank text. -/
def firstWord (t : Text) : Option Text :=
  let word := (t.dropWhile Lines.isSpace).takeWhile fun c => !Lines.isSpace c
  if word = [] then none else some word

/-- `t.replace('-', ' ')`. -/
def spaced (t : Text) : Text := t.map fun c => if c = '-' then ' ' else c

def capitalize : Text → Text
  | [] => []
  | c :: t => c.toUpper :: lower t

/-! ### Unfinished calls -/

/-- `batch_allocations`: the record of a batch, one of the queue if there is any. -/
def batchAllocations (job : JobSnapshot) : List (ℕ × SlurmRecord) :=
  (StableSort.sortBy (fun record : SlurmRecord => decide (record.source ≠ "queue".toList)) job.slurm).foldl
    (fun d record =>
      if isDigits record.arrayTaskId then
        let batch := (Dict.get job.submissionOffsets record.arrayJobId).getD 0 + number record.arrayTaskId
        if (Dict.get d batch).isNone then Dict.put d batch record else d
      else d) []

/-- The state, whether the call will run, the reason and the log. -/
structure Explanation where
  state : Text
  willRun : Text
  reason : Text
  log : Text

/-- The last line of a log that is not blank, 240 characters of it. -/
def excerpt (log : Text) : Text :=
  (((Lines.splitlines log).reverse.map Lines.strip).find? (· ≠ [])).getD [] |>.take 240

def logSuffix (log : Text) : Text :=
  if excerpt log = [] then [] else " Last SLURM log line: ".toList ++ excerpt log

/-- The labels of the final states of SLURM. -/
def endedLabel (code : Text) : Text :=
  (Dict.get [("COMPLETED".toList, "result missing".toList), ("TIMEOUT".toList, "batch timed out".toList),
    ("OUT_OF_MEMORY".toList, "batch out of memory".toList), ("NODE_FAIL".toList, "node failed".toList),
    ("CANCELLED".toList, "batch cancelled".toList), ("FAILED".toList, "batch failed".toList),
    ("PREEMPTED".toList, "batch preempted".toList)] code).getD ("batch ".toList ++ lower code)

def isRunning (progress : Option BatchProgress) : Bool := progress.any fun p => p.state = "running".toList

/-- With a record of the queue. -/
def queuedCall (batch : ℕ) (progress : Option BatchProgress) (record : SlurmRecord) (log : Text) : Option Explanation := do
  let code ← firstWord (upper record.state)
  if code = "RUNNING".toList ∨ code = "COMPLETING".toList then
    if isRunning progress then
      return ⟨"running".toList, "Running".toList, "Solver-problem pair started in SLURM batch ".toList ++ decimal batch ++
        "; no result saved yet.".toList, log⟩
    else
      return ⟨"batch starting".toList, "Yes".toList, "SLURM batch ".toList ++ decimal batch ++ " is ".toList ++ lower code ++
        ", but this solver-problem pair has not recorded a start yet.".toList ++ logSuffix log, log⟩
  else
    return ⟨"queued".toList, "Yes".toList, "SLURM batch ".toList ++ decimal batch ++ " is ".toList ++ lower code ++
      ": ".toList ++ record.location ++ ".".toList ++ logSuffix log, log⟩

/-- With a record of the accounting. -/
def endedCall (batch : ℕ) (record : SlurmRecord) (log : Text) : Option Explanation := do
  let word ← firstWord (upper record.state)
  let code := word.rdropWhile (· = '+')
  return ⟨endedLabel code, "No".toList, "SLURM batch ".toList ++ decimal batch ++ " ended as ".toList ++ code ++
    ", but this solver-problem pair has no saved result.".toList ++ logSuffix log ++
    " See its batch log for details.".toList, log⟩

/-- Without a record. -/
def unrecordedCall (now : ℚ) (job : JobSnapshot) (batch : ℕ) (progress : Option BatchProgress) : Explanation :=
  match progress.filter fun p => p.state ≠ "running".toList with
  | some p =>
      ⟨"result missing".toList, "No".toList, "Solver-problem pair recorded ".toList ++ p.state ++
        ", but no result was saved. SLURM no longer reports batch ".toList ++ decimal batch ++ ".".toList, []⟩
  | none =>
      if batch ∉ job.submittedBatches ∧ job.submittedBatches ≠ [] then
        if job.submissionState = "submitting".toList ∧ job.controllerState ≠ "inactive".toList then
          ⟨"awaiting submission".toList, "Yes".toList, "Batch ".toList ++ decimal batch ++
            " is waiting for a free SLURM submission slot.".toList, []⟩
        else
          ⟨"not submitted".toList, "No".toList, "Batch ".toList ++ decimal batch ++
            " was planned but has no SLURM submission. Submission may have stopped partway through.".toList, []⟩
      else if job.submissionOffsets = [] ∧ job.slurm.isEmpty then
        if now - job.createdEpoch < 180 then
          ⟨"preparing submission".toList, "Unknown".toList,
            "No SLURM submission recorded yet; preparation may still be underway.".toList, []⟩
        else ⟨"not submitted".toList, "No".toList, "No SLURM submission was recorded for this job.".toList, []⟩
      else
        ⟨"scheduler status unknown".toList, "Unknown".toList,
          "No current or historical SLURM record is available for batch ".toList ++ decimal batch ++
            "; cannot tell whether it will run.".toList, []⟩

/-- `unfinished_call`; it fails on a record without a state. -/
def unfinishedCall (now : ℚ) (job : JobSnapshot) (id : ℕ) (progress : Option BatchProgress) : Option Explanation :=
  if job.submissionState = "stopped".toList then
    some ⟨"stopped".toList, "After resume".toList,
      "This job was stopped. Resume it to run this unfinished solver-problem pair.".toList, []⟩
  else
    let batch := ((Dict.get job.taskBatches id).or (progress.map BatchProgress.batchId)).getD (id / job.batchSize)
    match Dict.get (batchAllocations job) batch with
    | none => some (unrecordedCall now job batch progress)
    | some record =>
        let log := (Dict.get job.logs ("slurm_".toList ++ record.arrayJobId ++ '_' :: record.arrayTaskId ++
          ".out".toList)).getD []
        if record.source = "queue".toList then queuedCall batch progress record log else endedCall batch record log

/-! ### Outcomes -/

/-- `call_outcome`: the label and where it comes from. -/
def callOutcome (casefold : Text → Text) : Option ResultRecord → Text × Text
  | none => ("Not finished".toList, [])
  | some result =>
      let szs := Lines.strip result.szsStatus
      if result.status = "solver-error".toList ∧ casefold szs ∈
          ["error".toList, "oserror".toList, "inputerror".toList, "syntaxerror".toList, "semanticerror".toList,
            "typeerror".toList, "usageerror".toList] then
        ("Solver error".toList, "execution".toList)
      else if szs ≠ [] then (szs, "solver".toList)
      else
        ((Dict.get [("ok".toList, "OK".toList), ("time-limit".toList, "Time limit".toList),
            ("counter-satisfiable".toList, "CounterSatisfiable".toList), ("memory-limit".toList, "Memory limit".toList)]
            result.status).getD (capitalize (spaced result.status)),
          if result.status ∈ ["time-limit".toList, "memory-limit".toList, "resource-limiter-error".toList] then
            "resource limiter".toList
          else if result.status ∈ ["worker-error".toList, "interrupted".toList] then "controller".toList
          else "execution".toList)

/-! ### Rows -/

structure Row where
  id : ℕ
  finished : Bool
  solver : Text
  problem : Text
  command : Text
  limiterCommand : Text
  directory : Text
  state : Text
  wall : Option ℚ
  cpu : Option ℚ
  memory : Option ℚ
  returnCode : Text
  executionStatus : Text
  szsStatus : Text
  szsOutput : Text
  willRun : Text
  reason : Text
  diagnostic : Text
  diagnosticAvailable : Bool
  node : Text
  slurmId : Text
  output : Bool
  deriving Inhabited

/-- The state of a call with a result. -/
def finishedState (result : ResultRecord) : Text :=
  if result.status ∈ ["resource-limiter-error".toList, "worker-error".toList, "interrupted".toList] then
    spaced result.status
  else if result.status = "error".toList ∧ result.szsStatus = [] then "execution error".toList
  else if result.szsStatus = [] then spaced result.status
  else result.szsStatus

/-- The progress of a call, which older jobs keep with the batch. -/
def progressOf (job : JobSnapshot) (id : ℕ) : Option BatchProgress :=
  (Dict.get job.callProgress id).or
    ((Dict.get job.progress (id / job.batchSize)).filter fun legacy => legacy.taskId = some id)

/-- The state, the explanation and the time of a call. -/
def callState (now : ℚ) (job : JobSnapshot) (id : ℕ) : Option (Explanation × Option ℚ) :=
  match Dict.get job.results id with
  | some result => some (⟨finishedState result, [], [], []⟩, result.wallSeconds)
  | none => do
      let progress := progressOf job id
      let explanation ← unfinishedCall now job id progress
      return (explanation,
        if isRunning progress ∧ explanation.state = "running".toList then
          (progress.bind BatchProgress.startedEpoch).bind fun started =>
            if started = 0 then none else some (max 0 (now - started))
        else none)

/-- A row of `task_rows`, at the time `now`. -/
def taskRow (now : ℚ) (job : JobSnapshot) (id : ℕ) : Option Row := do
  let (explanation, wall) ← callState now job id
  let definition := Dict.get job.tasks id
  let result := Dict.get job.results id
  let allocation := Dict.get (batchAllocations job) ((Dict.get job.taskBatches id).getD (id / job.batchSize))
  return {
    id := id
    finished := result.any ResultRecord.complete
    solver := definition.elim [] TaskDefinition.solver
    problem := definition.elim [] TaskDefinition.problem
    command := definition.elim [] TaskDefinition.command
    limiterCommand := definition.elim [] TaskDefinition.limiterCommand
    directory := definition.elim [] TaskDefinition.solverRoot
    state := explanation.state
    wall := wall
    cpu := result.bind ResultRecord.cpuSeconds
    memory := (result.bind ResultRecord.maxMemoryKib).map (· * 1024)
    returnCode := result.elim [] ResultRecord.returnCode
    executionStatus := result.elim [] ResultRecord.status
    szsStatus := result.elim [] ResultRecord.szsStatus
    szsOutput := result.elim [] ResultRecord.szsOutput
    willRun := explanation.willRun
    reason := explanation.reason
    diagnostic := explanation.log
    diagnosticAvailable := result.isNone && allocation.isSome
    node := (allocation.filter fun record => "RUNNING".toList.isPrefixOf (upper record.state) ||
      "COMPLETING".toList.isPrefixOf (upper record.state)).elim [] SlurmRecord.location
    slurmId := allocation.elim [] SlurmRecord.displayId
    output := result.any fun result => result.archive ≠ [] }

end TaskPages
end Slurmy
