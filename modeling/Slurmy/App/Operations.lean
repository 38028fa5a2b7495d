import Slurmy.Lib.Machine
import Slurmy.Text

/-!
# The operations of the web app

`operation` of `app.py`: a request joins an operation, is refused, or is accepted into the table of
operations under the app's lock, and a thread then waits for earlier operations and runs a subprocess.

* `Label`, `Operation`, `State`: the table, with how far each thread is;
* `Answer`, `State.answer`: what becomes of a request;
* `Operation.advance`, `State.next`: the requests and the threads, in any order.

A key is the place in the table.  The clock is in milliseconds.
-/

namespace Slurmy
namespace Operations

inductive Label
  | sync
  | syncVerbose
  | syncStarexec
  | stop
  | resume
  | cancel
  | delete
  /-- `make prepare` -/
  | prepare
  /-- `make prepare-submit` -/
  | prepareAndDispatch
  /-- `make submit` -/
  | dispatchPrepared
  deriving DecidableEq

/-- The label that the table holds. -/
def Label.text : Label → Text
  | sync => "sync".toList
  | syncVerbose => "sync_verbose".toList
  | syncStarexec => "sync_starexec".toList
  | stop => "stop".toList
  | resume => "resume".toList
  | cancel => "cancel".toList
  | delete => "delete".toList
  | prepare => "prepare SLURM submission".toList
  | prepareAndDispatch => "prepare and dispatch SLURM job".toList
  | dispatchPrepared => "dispatch prepared SLURM job".toList

/-- `active_label`. -/
def Label.active : Label → Text
  | sync => "download".toList
  | syncVerbose => "verbose download".toList
  | syncStarexec => "StarExec download".toList
  | label => label.text

/-- The labels beside which a stop is accepted. -/
def Label.yields : Label → Bool
  | sync | syncVerbose | syncStarexec | resume => true
  | _ => false

/-- The field `state`. -/
inductive Status
  | running
  | done
  | failed
  deriving DecidableEq

/-- How far `run` is. -/
inductive Pc
  /-- in the table, without a thread -/
  | created
  /-- `log.open('w')` -/
  | opening
  /-- the loop over the dependencies that are left; without a deadline before the message is written -/
  | waiting (dependencies : List ℕ) (deadline : Option ℕ)
  /-- `python_environment` -/
  | entering
  /-- `subprocess.run` -/
  | subprocess
  /-- the subprocess has ended -/
  | returned (code : ℤ)
  /-- the table says so -/
  | updated
  /-- `except Exception` -/
  | raised
  /-- `cache.invalidate()` -/
  | invalidating
  | ended
  deriving DecidableEq

structure Operation where
  label : Label
  scope : Text
  status : Status
  code : Option ℤ
  started : ℕ
  dependencies : List ℕ
  pc : Pc
  deriving DecidableEq

/-- `shuttingDown` is `app.config['SHUTTING_DOWN']`. -/
structure State where
  operations : List Operation
  now : ℕ
  shuttingDown : Bool
  deriving DecidableEq

inductive Event
  | tick (d : ℕ)
  /-- the section of `operation` under the lock -/
  | request (label : Label) (scope : Text)
  /-- the section of `shutdown` under the lock -/
  | shutdown
  /-- the next step of an operation does what it should -/
  | step (key : ℕ)
  /-- its subprocess ends -/
  | exits (key : ℕ) (code : ℤ)
  /-- its next step raises an exception -/
  | raises (key : ℕ)
  deriving DecidableEq

inductive Answer
  /-- the operation that is running already -/
  | joined (key : ℕ)
  | accepted (dependencies : List ℕ)
  /-- 409 -/
  | aborted (message : Text)
  deriving DecidableEq

namespace State

def initial : State := ⟨[], 0, false⟩

variable (s : State)

def isRunning (key : ℕ) : Bool := s.operations[key]?.any fun op => op.status = .running

/-- The running operation `key` of the scope. -/
def isActive (scope : Text) (key : ℕ) : Bool :=
  s.operations[key]?.any fun op => op.scope = scope && op.status = .running

def hasLabel (label : Label) (key : ℕ) : Bool := s.operations[key]?.any fun op => op.label = label

/-- The running operations of the scope. -/
def active (scope : Text) : List ℕ := (List.range s.operations.length).filter (s.isActive scope)

/-- `abort` because of the first of the active operations, if there is one. -/
def wait : List ℕ → Answer
  | [] => .accepted []
  | key :: _ =>
      let label := (s.operations[key]?.map fun op => op.label.active).getD []
      .aborted ("Wait for the active ".toList ++ label ++ " operation to finish.".toList)

/-- What becomes of a request. -/
def answer (label : Label) (scope : Text) : Answer :=
  if s.shuttingDown then .aborted "The server is stopping. Reopen the app to continue.".toList
  else
    match label with
    | .delete =>
        match (s.active scope).find? (s.hasLabel .delete) with
        | some key => .joined key
        | none => .accepted (s.active scope)
    | .stop =>
        match (s.active scope).find? (s.hasLabel .stop) with
        | some key => .joined key
        | none => s.wait ((s.active scope).filter fun key => !s.operations[key]?.any fun op => op.label.yields)
    | _ => s.wait (s.active scope)

end State

namespace Operation

/-- The next step of the thread, where `busy` says which operations are running. -/
def advance (now : ℕ) (busy : ℕ → Bool) (op : Operation) : Option Operation :=
  match op.pc with
  | .created => some { op with pc := .opening }
  | .opening => some { op with pc := .waiting op.dependencies none }
  | .waiting [] _ => some { op with pc := .entering }
  | .waiting (key :: keys) none => some { op with pc := .waiting (key :: keys) (some (now + 300000)) }
  | .waiting (key :: keys) (some deadline) =>
      if busy key then
        -- the previous operation has not finished
        if deadline ≤ now then some { op with pc := .raised } else some op
      else some { op with pc := .waiting keys none }
  | .entering => some { op with pc := .subprocess }
  | .subprocess => none
  | .returned code => some { op with pc := .updated, status := if code = 0 then .done else .failed, code := some code }
  | .updated => some { op with pc := .invalidating }
  | .raised => some { op with pc := .invalidating, status := .failed, code := some (-1) }
  | .invalidating => some { op with pc := .ended }
  | .ended => none

/-- The next step raises an exception.  `subprocess.run` first kills the subprocess and waits for it. -/
def raise (op : Operation) : Option Operation :=
  match op.pc with
  | .created => some { op with pc := .ended }
  | .raised => some { op with pc := .ended }
  | .invalidating => some { op with pc := .ended }
  | .ended => none
  | _ => some { op with pc := .raised }

def exit (code : ℤ) (op : Operation) : Option Operation :=
  match op.pc with
  | .subprocess => some { op with pc := .returned code }
  | _ => none

end Operation

namespace State

variable (s : State)

/-- The operation `key` takes a step. -/
def move (key : ℕ) (f : Operation → Option Operation) : Option State :=
  match s.operations[key]?.bind f with
  | some op => some { s with operations := s.operations.set key op }
  | none => none

def next : Event → Option State
  | .tick d => some { s with now := s.now + d }
  | .request label scope =>
      match s.answer label scope with
      | .accepted dependencies =>
          some { s with operations := s.operations ++ [⟨label, scope, .running, none, s.now, dependencies, .created⟩] }
      | _ => some s
  | .shutdown =>
      if s.operations.any fun op => op.status = .running then some s else some { s with shuttingDown := true }
  | .step key => s.move key (Operation.advance s.now s.isRunning)
  | .exits key code => s.move key (Operation.exit code)
  | .raises key => s.move key Operation.raise

end State

end Operations
end Slurmy
