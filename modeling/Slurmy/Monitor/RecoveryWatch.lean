import Mathlib.Algebra.Order.Group.Defs
import Slurmy.Lib.Product
import Slurmy.Text

/-!
# The recovery watch

`RecoveryWatch` of the web app: which jobs it has seen lose all their workers, and when it asks for
another attempt.

* `Entry`, `Slot`, `Watch`: the record and the block of each job;
* `Slot.observe`, `Slot.idleCandidate`: what the two calls do with one job;
* `Call`, `Watch.call`: the calls, and what they return;
* `Sight`, `Slot.step`, `call_eq_run`: a call is a run of the family of all jobs;
* `Seen`, `Slot.seen`: what can be observed of one job in such a run.

Times are numbers of an ordered group.
-/

namespace Slurmy
namespace Monitor

/-! ### The watch -/

/-- The parameters of the watch. -/
structure Limits (τ : Type*) where
  idleSeconds : τ
  retrySeconds : τ
  maxAttempts : ℕ

/-- The record of a job. -/
structure Entry (τ : Type*) where
  completed : ℕ
  attempts : ℕ
  idle : Option τ
  retry : τ
  deriving DecidableEq

/-- What the watch knows of one job: its record, and whether it is in `blocked`. -/
structure Slot (τ : Type*) where
  entry : Option (Entry τ)
  blocked : Bool
  deriving DecidableEq

/-- The host and the job ID. -/
abbrev Key := Text × Text

/-- The watch, job by job. -/
abbrev Watch (τ : Type*) := Key → Slot τ

/-- `RecoveryWatch()`. -/
def Watch.new {τ : Type*} : Watch τ := fun _ => ⟨none, false⟩

/-- The values of `JobSnapshot.state` that the watch tells apart. -/
inductive JobState
  | stopped
  | incomplete
  | other
  deriving DecidableEq

inductive ControllerState
  | active
  | inactive
  | unknown
  deriving DecidableEq

/-- A job of a full snapshot. -/
structure JobSnapshot where
  jobId : Text
  state : JobState
  completed : ℕ
  taskCount : ℕ
  controllerState : ControllerState
  submitting : Bool
  activeRecords : Bool
  queueAvailable : Bool
  deriving DecidableEq

/-- A job of an activity check. -/
structure ActivityRow where
  jobId : Text
  stopped : Bool
  /-- `row.get('exists') is False` -/
  missing : Bool
  active : Bool
  controllerState : ControllerState
  deriving DecidableEq

/-- `host + ':' + job_id in busy`. -/
def isBusy (busy : List Text) (host jobId : Text) : Bool := host ++ ':' :: jobId ∈ busy

section Calls

variable {τ : Type*} [AddCommGroup τ] [LinearOrder τ]

/-- `bool(job.active_records) or controller == 'active'`. -/
def JobSnapshot.active (job : JobSnapshot) : Bool :=
  job.activeRecords || job.controllerState = .active

/-- The job is stopped or finished, and its record is dropped. -/
def JobSnapshot.over (job : JobSnapshot) : Bool :=
  job.state = .stopped || job.taskCount ≤ job.completed

/-- The job has nobody working on it, and nobody about to. -/
def JobSnapshot.idle (job : JobSnapshot) (busy : Bool) : Bool :=
  job.queueAvailable && !job.active && job.controllerState = .inactive &&
    job.state = .incomplete && !busy

/-- The record that `observe` goes on with. -/
def JobSnapshot.record (job : JobSnapshot) (entry : Option (Entry τ)) : Option (Entry τ) :=
  let entry := if job.active || job.submitting then some (entry.getD ⟨job.completed, 0, none, 0⟩)
    else entry
  entry.map fun e =>
    if e.completed < job.completed then { e with completed := job.completed, attempts := 0 } else e

/-- The record is due for another attempt. -/
def Entry.due (c : Limits τ) (e : Entry τ) (since now : τ) : Bool :=
  c.idleSeconds ≤ now - since && e.retry ≤ now && e.attempts < c.maxAttempts

/-- `observe` for one job that is not blocked: the record, and whether the job is returned. -/
def JobSnapshot.watch (c : Limits τ) (job : JobSnapshot) (busy : Bool) (now : τ)
    (entry : Option (Entry τ)) : Option (Entry τ) × Bool :=
  if job.over then (none, false)
  else
    match job.record entry with
    | none => (none, false)
    | some e =>
        if job.idle busy then
          let since := e.idle.getD now
          if e.due c since now then
            (some { e with
              attempts := e.attempts + 1
              retry := now + c.retrySeconds
              idle := some now }, true)
          else (some { e with idle := some since }, false)
        else (some { e with idle := none }, false)

/-- The body of the loop of `observe`. -/
def Slot.observe (c : Limits τ) (s : Slot τ) (job : JobSnapshot) (busy : Bool) (now : τ) :
    Slot τ × Bool :=
  if s.blocked then (s, false)
  else
    let r := job.watch c busy now s.entry
    ({ s with entry := r.1 }, r.2)

/-- The body of the loop of `idle_candidates`. -/
def Slot.idleCandidate (c : Limits τ) (s : Slot τ) (row : ActivityRow) (queueAvailable busy : Bool)
    (now : τ) : Slot τ × Bool :=
  match s.entry with
  | none => (s, false)
  | some e =>
      if s.blocked then (s, false)
      else if !queueAvailable || busy then ({ s with entry := some { e with idle := none } }, false)
      else if row.stopped || row.missing then ({ s with entry := none }, false)
      else if row.active || row.controllerState ≠ .inactive then
        ({ s with entry := some { e with idle := none } }, false)
      else
        let since := e.idle.getD now
        ({ s with entry := some { e with idle := some since } }, e.due c since now)

/-- `stop`. -/
def Slot.stop (_ : Slot τ) : Slot τ := ⟨none, true⟩

/-- `resume`. -/
def Slot.resume (_ : Slot τ) : Slot τ := ⟨some ⟨0, 0, none, 0⟩, false⟩

/-- `observe`: the watch, and the jobs to retry. -/
def Watch.observe (c : Limits τ) (host : Text) (busy : List Text) (now : τ) :
    Watch τ → List JobSnapshot → Watch τ × List JobSnapshot
  | w, [] => (w, [])
  | w, job :: jobs =>
      let r := (w (host, job.jobId)).observe c job (isBusy busy host job.jobId) now
      let later := Watch.observe c host busy now (Function.update w (host, job.jobId) r.1) jobs
      (later.1, if r.2 then job :: later.2 else later.2)

/-- `idle_candidates`: the watch, and the IDs of the jobs to look at. -/
def Watch.idleCandidates (c : Limits τ) (host : Text) (queueAvailable : Bool) (busy : List Text)
    (now : τ) : Watch τ → List ActivityRow → Watch τ × List Text
  | w, [] => (w, [])
  | w, row :: rows =>
      let r := (w (host, row.jobId)).idleCandidate c row queueAvailable
        (isBusy busy host row.jobId) now
      let later := Watch.idleCandidates c host queueAvailable busy now
        (Function.update w (host, row.jobId) r.1) rows
      (later.1, if r.2 then row.jobId :: later.2 else later.2)

/-- A call of a method of the watch. -/
inductive Call (τ : Type*)
  | observe (host : Text) (jobs : List JobSnapshot) (busy : List Text) (now : τ)
  | idleCandidates (host : Text) (rows : List ActivityRow) (queueAvailable : Bool)
      (busy : List Text) (now : τ)
  | stop (host jobId : Text)
  | resume (host jobId : Text)

/-- The watch after a call, and the jobs that `observe` returns, with the time of the call. -/
def Watch.call (c : Limits τ) (w : Watch τ) : Call τ → Watch τ × List (Key × τ)
  | .observe host jobs busy now =>
      let r := w.observe c host busy now jobs
      (r.1, r.2.map fun job => ((host, job.jobId), now))
  | .idleCandidates host rows queueAvailable busy now =>
      ((w.idleCandidates c host queueAvailable busy now rows).1, [])
  | .stop host jobId => (Function.update w (host, jobId) (w (host, jobId)).stop, [])
  | .resume host jobId => (Function.update w (host, jobId) (w (host, jobId)).resume, [])

/-- The watch after a list of calls. -/
def Watch.calls (c : Limits τ) : Watch τ → List (Call τ) → Watch τ
  | w, [] => w
  | w, call :: calls => Watch.calls c (w.call c call).1 calls

/-- The times at which `observe` returns the job. -/
def Watch.returnTimes (c : Limits τ) (key : Key) : Watch τ → List (Call τ) → List τ
  | _, [] => []
  | w, call :: calls =>
      ((w.call c call).2.filter fun r => r.1 = key).map Prod.snd ++
        Watch.returnTimes c key (w.call c call).1 calls

/-- The time of a call that has one. -/
def Call.time : Call τ → Option τ
  | .observe _ _ _ now | .idleCandidates _ _ _ _ now => some now
  | _ => none

/-! ### One job -/

/-- What a call says about one job. -/
inductive Sight (τ : Type*)
  | snapshot (job : JobSnapshot) (busy : Bool) (now : τ)
  | row (row : ActivityRow) (queueAvailable busy : Bool) (now : τ)
  | stop
  | resume

def Slot.next (c : Limits τ) (s : Slot τ) : Sight τ → Slot τ
  | .snapshot job busy now => (s.observe c job busy now).1
  | .row row queueAvailable busy now => (s.idleCandidate c row queueAvailable busy now).1
  | .stop => s.stop
  | .resume => s.resume

/-- The machine of one job. -/
def Slot.step (c : Limits τ) (s : Slot τ) (x : Sight τ) : Option (Slot τ) := some (s.next c x)

/-- The machine of all jobs. -/
def Watch.step (c : Limits τ) : Watch τ → Key × Sight τ → Option (Watch τ) :=
  Machine.productStep fun _ => Slot.step c

/-- What a call says, job by job. -/
def Call.sights : Call τ → List (Key × Sight τ)
  | .observe host jobs busy now =>
      jobs.map fun job => ((host, job.jobId), .snapshot job (isBusy busy host job.jobId) now)
  | .idleCandidates host rows queueAvailable busy now =>
      rows.map fun row =>
        ((host, row.jobId), .row row queueAvailable (isBusy busy host row.jobId) now)
  | .stop host jobId => [((host, jobId), .stop)]
  | .resume host jobId => [((host, jobId), .resume)]

/-- What the calls say about one job. -/
def sightsOf (key : Key) (calls : List (Call τ)) : List (Sight τ) :=
  Machine.eventsOf key (calls.flatMap Call.sights)

/-- An observation of a job: its time, whether it shows the job idle, whether the call returns the
job, and whether the job is blocked. -/
structure Seen (τ : Type*) where
  time : τ
  idle : Bool
  returned : Bool
  blocked : Bool
  deriving DecidableEq

/-- The row shows a job that nobody works on. -/
def ActivityRow.idle (row : ActivityRow) (queueAvailable busy : Bool) : Bool :=
  queueAvailable && !busy && !row.stopped && !row.missing && !row.active &&
    row.controllerState = .inactive

/-- What can be observed of one job in a step of its machine. -/
def Slot.seen (c : Limits τ) (s : Slot τ) : Sight τ → List (Seen τ)
  | .snapshot job busy now =>
      [⟨now, !job.over && job.idle busy, (s.observe c job busy now).2, s.blocked⟩]
  | .row row queueAvailable busy now => [⟨now, row.idle queueAvailable busy, false, s.blocked⟩]
  | .stop | .resume => []

/-- The observations of a job in the calls. -/
def seenOf (c : Limits τ) (key : Key) (w : Watch τ) (calls : List (Call τ)) : List (Seen τ) :=
  Machine.trace (Slot.step c) (Slot.seen c) (w key) (sightsOf key calls)

/-! ### A call is a run -/

variable {c : Limits τ} {key : Key}

/-- The observation of a job in a step of the machine of all jobs. -/
def watchSeen (c : Limits τ) (key : Key) (w : Watch τ) (x : Key × Sight τ) : List (Seen τ) :=
  if x.1 = key then (w key).seen c x.2 else []

/-- The times of the observations that return the job. -/
def returned (log : List (Seen τ)) : List τ := (log.filter Seen.returned).map Seen.time

omit [AddCommGroup τ] [LinearOrder τ] in
theorem returned_append (log log' : List (Seen τ)) :
    returned (log ++ log') = returned log ++ returned log' := by
  simp [returned]

theorem trace_cons (w : Watch τ) (x : Key × Sight τ) (xs : List (Key × Sight τ)) :
    Machine.trace (Watch.step c) (watchSeen c key) w (x :: xs) =
      watchSeen c key w x ++ Machine.trace (Watch.step c) (watchSeen c key)
        (Function.update w x.1 ((w x.1).next c x.2)) xs := rfl

theorem returned_snapshot (w : Watch τ) (host : Text) (job : JobSnapshot) (busy : Bool) (now : τ) :
    returned (watchSeen c key w ((host, job.jobId), .snapshot job busy now)) =
      if (host, job.jobId) = key ∧ ((w (host, job.jobId)).observe c job busy now).2 = true then [now]
      else [] := by
  by_cases hkey : (host, job.jobId) = key
  · subst hkey
    cases hret : ((w (host, job.jobId)).observe c job busy now).2 <;>
      simp [watchSeen, Slot.seen, returned, hret]
  · simp [watchSeen, returned, hkey]

/-- A call of `observe` is a run of the machine of all jobs, and returns what is observed there. -/
theorem observe_eq_run (key : Key) (host : Text) (busy : List Text) (now : τ) (w : Watch τ)
    (jobs : List JobSnapshot) :
    Machine.run (Watch.step c) w (Call.observe host jobs busy now).sights =
        some (w.observe c host busy now jobs).1 ∧
      returned (Machine.trace (Watch.step c) (watchSeen c key) w
          (Call.observe host jobs busy now).sights) =
        (((w.observe c host busy now jobs).2.map fun job => ((host, job.jobId), now)).filter
          fun r => r.1 = key).map Prod.snd := by
  induction jobs generalizing w with
  | nil => exact ⟨rfl, rfl⟩
  | cons job jobs ih =>
    obtain ⟨hrun, htrace⟩ := ih (Function.update w (host, job.jobId)
      ((w (host, job.jobId)).observe c job (isBusy busy host job.jobId) now).1)
    refine ⟨hrun, ?_⟩
    simp only [Call.sights, List.map_cons] at htrace ⊢
    rw [trace_cons, returned_append, returned_snapshot]
    simp only [Slot.next]
    rw [htrace]
    simp only [Watch.observe]
    by_cases hkey : (host, job.jobId) = key
    · subst hkey
      cases hret : ((w (host, job.jobId)).observe c job (isBusy busy host job.jobId) now).2 <;>
        simp
    · cases hret : ((w (host, job.jobId)).observe c job (isBusy busy host job.jobId) now).2 <;>
        simp [hkey]

theorem idleCandidates_eq_run (key : Key) (host : Text) (queueAvailable : Bool) (busy : List Text) (now : τ)
    (w : Watch τ) (rows : List ActivityRow) :
    Machine.run (Watch.step c) w (Call.idleCandidates host rows queueAvailable busy now).sights =
        some (w.idleCandidates c host queueAvailable busy now rows).1 ∧
      returned (Machine.trace (Watch.step c) (watchSeen c key) w
          (Call.idleCandidates host rows queueAvailable busy now).sights) = [] := by
  induction rows generalizing w with
  | nil => exact ⟨rfl, rfl⟩
  | cons row rows ih =>
    obtain ⟨hrun, htrace⟩ := ih (Function.update w (host, row.jobId)
      ((w (host, row.jobId)).idleCandidate c row queueAvailable
        (isBusy busy host row.jobId) now).1)
    refine ⟨hrun, ?_⟩
    simp only [Call.sights, List.map_cons] at htrace ⊢
    rw [trace_cons, returned_append]
    simp only [Slot.next]
    rw [htrace]
    by_cases hkey : (host, row.jobId) = key <;> simp [watchSeen, Slot.seen, returned, hkey]

/-- Every call is a run of the machine of all jobs, and returns what is observed there. -/
theorem call_eq_run (key : Key) (w : Watch τ) (call : Call τ) :
    Machine.run (Watch.step c) w call.sights = some (w.call c call).1 ∧
      returned (Machine.trace (Watch.step c) (watchSeen c key) w call.sights) =
        ((w.call c call).2.filter fun r => r.1 = key).map Prod.snd := by
  cases call with
  | observe host jobs busy now => exact observe_eq_run key host busy now w jobs
  | idleCandidates host rows queueAvailable busy now =>
    exact idleCandidates_eq_run key host queueAvailable busy now w rows
  | stop host jobId | resume host jobId =>
    refine ⟨rfl, ?_⟩
    rw [Call.sights, trace_cons]
    by_cases hkey : (host, jobId) = key <;>
      simp [Machine.trace, watchSeen, Slot.seen, returned, hkey, Watch.call]

theorem calls_eq_run (key : Key) (w : Watch τ) (calls : List (Call τ)) :
    Machine.run (Watch.step c) w (calls.flatMap Call.sights) = some (w.calls c calls) ∧
      returned (Machine.trace (Watch.step c) (watchSeen c key) w (calls.flatMap Call.sights)) =
        w.returnTimes c key calls := by
  induction calls generalizing w with
  | nil => exact ⟨rfl, rfl⟩
  | cons call calls ih =>
    obtain ⟨hrun, htrace⟩ := call_eq_run (c := c) key w call
    obtain ⟨hruns, htraces⟩ := ih (w.call c call).1
    rw [List.flatMap_cons, Machine.run_append, hrun, Machine.trace_append hrun, returned_append,
      htrace, htraces]
    exact ⟨hruns, rfl⟩

/-- The slot of a job after the calls. -/
theorem run_sightsOf (key : Key) (w : Watch τ) (calls : List (Call τ)) :
    Machine.run (Slot.step c) (w key) (sightsOf key calls) = some (w.calls c calls key) :=
  Machine.run_component (calls_eq_run key w calls).1 key

/-- `observe` returns the job when an observation of it says so. -/
theorem returned_seenOf (w : Watch τ) (calls : List (Call τ)) :
    returned (seenOf c key w calls) = w.returnTimes c key calls := by
  rw [← (calls_eq_run key w calls).2, seenOf, sightsOf,
    ← Machine.trace_component (calls_eq_run key w calls).1 key]
  rfl

omit [AddCommGroup τ] [LinearOrder τ] in
theorem sightsOf_append (key : Key) (calls calls' : List (Call τ)) :
    sightsOf key (calls ++ calls') = sightsOf key calls ++ sightsOf key calls' := by
  simp [sightsOf, Machine.eventsOf, List.flatMap_append, List.filterMap_append]

end Calls

end Monitor
end Slurmy
