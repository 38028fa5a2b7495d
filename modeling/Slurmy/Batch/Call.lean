import Slurmy.Batch.Results
import Slurmy.Lib.Lines
import Slurmy.Lib.ShellArith
import Slurmy.Monitor.TaskRows

/-!
# What `call.sh` makes of a call

When the limiter has ended, `call.sh` looks at its exit status, at the files of `runsolver` and at the logs, and decides
on the status of the pair.

* `Evidence`: what it looks at;
* `Evidence.child`, `Evidence.code`, `Evidence.timedOut`, `Evidence.memoryOut`, `Evidence.szs`: what it finds there;
* `Status`, `Evidence.status`: the decision;
* `Call`, `Call.row`: the row that is published.

The exit status is a text of digits, which `((…))` reads as bash reads numbers.  The measured times and sizes are texts.
-/

namespace Slurmy
namespace Batch

open TaskPages (lower)

inductive Status
  | ok
  | interrupted
  | memoryLimit
  | timeLimit
  | workerError
  | resourceLimiterError
  | solverError
  | counterSatisfiable
  deriving DecidableEq

def Status.text : Status → Text
  | .ok => "ok".toList
  | .interrupted => "interrupted".toList
  | .memoryLimit => "memory-limit".toList
  | .timeLimit => "time-limit".toList
  | .workerError => "worker-error".toList
  | .resourceLimiterError => "resource-limiter-error".toList
  | .solverError => "solver-error".toList
  | .counterSatisfiable => "counter-satisfiable".toList

/-- `complete`, which is set together with the status. -/
def Status.complete : Status → Bool
  | .interrupted | .workerError => false
  | _ => true

/-- What there is when the limiter has ended; `logs` are those of the three logs that exist, in the order of `sed`. -/
structure Evidence where
  interrupted : Bool
  limiterCode : ℕ
  watcher : Option Text
  var : Option Text
  logs : List Text

/-! ### Texts -/

/-- `[[:space:]]`. -/
def isBlank (c : Char) : Bool := decide (c = ' ') || decide (9 ≤ c.toNat ∧ c.toNat ≤ 13)

/-- `[A-Za-z0-9_-]`. -/
def isWordChar (c : Char) : Bool := c.isAlphanum || c = '_' || c = '-'

/-- `$(…)` takes the newlines at the end away. -/
def chomp (t : Text) : Text := (t.reverse.dropWhile fun c => decide (c = '\n')).reverse

/-- `s/^start[[:space:]]*//p`. -/
def afterStart (start line : Text) : Option Text :=
  if start.isPrefixOf line then some ((line.drop start.length).dropWhile isBlank) else none

/-- `awk -F= '$1==key {print $2}'`. -/
def varOf (key t : Text) : Text :=
  chomp (Lines.unlines ((lines t).filterMap fun line =>
    if (line.splitOn '=').getD 0 [] = key then some ((line.splitOn '=').getD 1 []) else none))

/-- `[[:space:]]+`, and what comes after it. -/
def afterBlanks : Text → Option Text
  | c :: t => if isBlank c then some (t.dropWhile isBlank) else none
  | [] => none

/-- `[A-Za-z][A-Za-z0-9_-]*`. -/
def wordAt : Text → Option Text
  | c :: t => if c.isAlpha then some (c :: t.takeWhile isWordChar) else none
  | [] => none

/-- The word that comes after these words, each with blanks behind it. -/
def wordAfter : List Text → Text → Option Text
  | [], t => wordAt t
  | w :: ws, t => (if w.isPrefixOf t then afterBlanks (t.drop w.length) else none).bind (wordAfter ws)

/-- `s/.*words[[:space:]]+([A-Za-z][A-Za-z0-9_-]*).*/\1/p`; the first star takes as much as it can. -/
def lastWordAfter (words : List Text) (line : Text) : Option Text := (line.tails.filterMap (wordAfter words)).getLast?

namespace Evidence

variable (e : Evidence)

/-! ### What is found -/

def child : Text :=
  match e.watcher with
  | some t => ((lines t).filterMap (afterStart "Child status:".toList)).getLast?.getD []
  | none => []

/-- `code`. -/
def code : Text := if isDigits e.child then e.child else decimal e.limiterCode

/-- `(( … ))` about `code`; a number that cannot be read is an error, and the test fails. -/
def test (p : ℤ → Bool) : Bool := (ShellArith.value e.code).any p

def timedOut : Text := (e.var.map (varOf "TIMEOUT".toList)).getD "false".toList

/-- The watcher says that the memory was exceeded. -/
def memoryExceeded : Bool :=
  (e.watcher.map fun t => (lines t).any fun line =>
    line.tails.any fun tail => "Maximum memory exceeded:".toList.isPrefixOf tail).getD false

def memoryOut : Text :=
  if e.memoryExceeded then "true".toList else (e.var.map (varOf "MEMOUT".toList)).getD "false".toList

def found (words : List Text) : Text := ((e.logs.flatMap lines).filterMap (lastWordAfter words)).getLast?.getD []

/-- `szs_status`. -/
def szs : Text := e.found ["SZS".toList, "status".toList]

/-- `szs_output`. -/
def szsOutput : Text := e.found ["SZS".toList, "output".toList, "end".toList]

/-! ### The decision -/

/-- `^(error|oserror|…)$`. -/
def errorWords : List Text :=
  ["error".toList, "oserror".toList, "inputerror".toList, "syntaxerror".toList, "semanticerror".toList,
    "typeerror".toList, "usageerror".toList]

def status : Status :=
  if e.interrupted then .interrupted
  else if e.memoryOut = "true".toList then .memoryLimit
  else if e.timedOut = "true".toList then .timeLimit
  else if lower e.szs = "timeout".toList then .timeLimit
  else if e.test fun n => n = 124 || n = 137 then .workerError
  else if e.limiterCode ≠ 0 ∧ e.child = [] then .resourceLimiterError
  else if e.test (128 ≤ ·) then .solverError
  else if lower e.szs = "countersatisfiable".toList then .counterSatisfiable
  else if lower e.szs ∈ errorWords then .solverError
  else if e.szs ≠ [] then .ok
  else if e.test (· ≠ 0) then .solverError
  else .ok

/-- The solver was killed by a signal, and no limit explains it. -/
def Crashed : Prop := e.status = .solverError ∧ e.test (128 ≤ ·) = true

instance : Decidable e.Crashed := by
  unfold Crashed
  infer_instance

end Evidence

/-! ### Rows -/

/-- A call that has ended; `ended` is `date +%s`. -/
structure Call where
  evidence : Evidence
  taskId : ℕ
  taskKey : Text
  batchId : ℕ
  slurmId : Text
  ended : ℕ
  wall : Text
  cpu : Text
  user : Text
  system : Text
  cpuUsage : Text
  maxVm : Text
  memory : Text

namespace Call

variable (c : Call)

def archive : Text :=
  "batch_".toList ++ decimal c.batchId ++ "_task_".toList ++ padded 9 c.taskId ++ '_' :: c.taskKey ++ '_' :: c.slurmId ++
    '_' :: decimal c.ended ++ ".tar.gz".toList

/-- `${text:-false}`. -/
def orFalse (text : Text) : Text := if text = [] then "false".toList else text

/-- `result_row`. -/
def row : ResultRow where
  taskId := c.taskId
  complete := c.evidence.status.complete
  rest := [c.evidence.status.text, c.evidence.code, c.wall, c.cpu, c.user, c.system, c.cpuUsage, c.maxVm, c.memory,
    orFalse c.evidence.timedOut, orFalse c.evidence.memoryOut, c.taskKey, c.archive, c.evidence.szs, c.evidence.szsOutput]
  length_rest := rfl

end Call

/-! ### Words -/

section Words

variable {e : Evidence}

theorem wordAt_word {t w : Text} (h : wordAt t = some w) : ∀ c ∈ w, isWordChar c = true := by
  cases t with
  | nil => cases h
  | cons c t =>
    obtain ⟨halpha, ⟨⟩⟩ := Option.ite_none_right_eq_some.mp h
    intro c' hc'
    rcases List.mem_cons.mp hc' with rfl | hc'
    · simp [isWordChar, Char.isAlphanum, halpha]
    · exact List.mem_takeWhile_imp hc'

theorem wordAfter_word {words : List Text} {t w : Text} (h : wordAfter words t = some w) :
    ∀ c ∈ w, isWordChar c = true := by
  induction words generalizing t with
  | nil => exact wordAt_word h
  | cons word words ih =>
    obtain ⟨t', -, h⟩ := Option.bind_eq_some_iff.mp h
    exact ih h

/-- What is found in the logs is a word. -/
theorem Evidence.found_word (e : Evidence) (words : List Text) : ∀ c ∈ e.found words, isWordChar c = true := by
  unfold Evidence.found
  cases hlast : ((e.logs.flatMap lines).filterMap (lastWordAfter words)).getLast? with
  | none => exact fun c hc => absurd hc List.not_mem_nil
  | some w =>
    obtain ⟨line, -, hline⟩ := List.mem_filterMap.mp (List.mem_of_mem_getLast? hlast)
    obtain ⟨t, -, ht⟩ := List.mem_filterMap.mp (List.mem_of_mem_getLast? hline)
    exact wordAfter_word ht

theorem Evidence.isDigits_code (e : Evidence) : isDigits e.code = true := by
  unfold Evidence.code
  split_ifs with h
  · exact h
  · exact isDigits_decimal _

/-- What is large for bash is large in decimal. -/
theorem Evidence.le_number (h : e.test (128 ≤ ·) = true) : 128 ≤ number e.code := by
  obtain ⟨v, hv, hle⟩ := (Option.any_eq_true _ _).mp h
  have hnumber : v ≤ (number e.code : ℤ) := ShellArith.value_le hv
  have hle : 128 ≤ v := of_decide_eq_true hle
  omega

/-- Where the status `solver-error` comes from. -/
theorem Evidence.solverError_cases (h : e.status = .solverError) : lower e.szs ≠ "timeout".toList ∧
    (e.test (128 ≤ ·) = true ∨ lower e.szs ≠ "countersatisfiable".toList ∧
      (lower e.szs ∈ Evidence.errorWords ∨ e.szs = [])) := by
  -- the tests in the order of the script
  unfold Evidence.status at h
  by_cases hinterrupted : e.interrupted = true
  · rw [if_pos hinterrupted] at h
    cases h
  rw [if_neg hinterrupted] at h
  by_cases hmemory : e.memoryOut = "true".toList
  · rw [if_pos hmemory] at h
    cases h
  rw [if_neg hmemory] at h
  by_cases htime : e.timedOut = "true".toList
  · rw [if_pos htime] at h
    cases h
  rw [if_neg htime] at h
  by_cases htimeout : lower e.szs = "timeout".toList
  · rw [if_pos htimeout] at h
    cases h
  rw [if_neg htimeout] at h
  by_cases hworker : e.test (fun n => n = 124 || n = 137) = true
  · rw [if_pos hworker] at h
    cases h
  rw [if_neg hworker] at h
  by_cases hlimiter : e.limiterCode ≠ 0 ∧ e.child = []
  · rw [if_pos hlimiter] at h
    cases h
  rw [if_neg hlimiter] at h
  by_cases hcode : e.test (128 ≤ ·) = true
  · exact ⟨htimeout, .inl hcode⟩
  rw [if_neg hcode] at h
  by_cases hcounter : lower e.szs = "countersatisfiable".toList
  · rw [if_pos hcounter] at h
    cases h
  rw [if_neg hcounter] at h
  by_cases hword : lower e.szs ∈ Evidence.errorWords
  · exact ⟨htimeout, .inr ⟨hcounter, .inl hword⟩⟩
  rw [if_neg hword] at h
  by_cases hszs : e.szs ≠ []
  · rw [if_pos hszs] at h
    cases h
  exact ⟨htimeout, .inr ⟨hcounter, .inr (not_not.mp hszs)⟩⟩

end Words

/-- A solver that is killed by a signal after it has found a counter-model. -/
example : (Evidence.mk false 0 (some "Child status: 139\n".toList) (some "TIMEOUT=false\nMEMOUT=false\n".toList)
    ["% SZS status Theorem for a\n% SZS status CounterSatisfiable for b\n".toList]).status = .solverError := by decide +kernel

/-- An exit status with a leading zero is octal. -/
example : (Evidence.mk false 0 (some "Child status: 0174\n".toList) none []).status = .workerError := by decide +kernel

end Batch
end Slurmy
