import Slurmy.Delete.Script
import Slurmy.Lib.LinkTree
import Slurmy.Lib.Machine
import Slurmy.Site.Scripts
import Slurmy.Text

/-!
# Deletions that are cut off and replayed

Any number of runs of `remote_delete.sh` and `remote_stop.sh` for one job, on the files of the user.
A run can be killed anywhere; the `rm` of a killed run can die with it or go on.

* `Layout`: where the jobs and the locks of the deletions lie, and the paths that the scripts use;
* `deleteEffect`, `stopEffect`: what the commands of the two scripts do to the files;
* `StopPlace`, `Proc`, `State`, `Event`, `State.step`: the machine.
-/

namespace Slurmy
namespace Delete

open LinkTree

/-- `[[ "$1" =~ ^[A-Za-z0-9][A-Za-z0-9._-]*$ ]]` -/
def isDeletable (t : Text) : Bool := isJobId t && t.head?.any Char.isAlphanum

/-! ### Paths -/

/-- The directories `$HOME/slurmy/jobs` and `$HOME/slurmy`, with the locks of the deletions in the
second. -/
structure Layout where
  jobs : List Text
  slurmy : List Text
  locks_not_jobs : ¬ slurmy ++ [".delete-locks".toList] <+: jobs
  jobs_not_locks : ¬ jobs <+: slurmy ++ [".delete-locks".toList]

namespace Layout

variable (L : Layout) (id : Text)

/-- `$job` -/
def job : List Text := L.jobs ++ [id]

/-- `$locks` -/
def locks : List Text := L.slurmy ++ [".delete-locks".toList]

/-- `$locks/$1.lock` -/
def lockFile : List Text := L.locks ++ [id ++ ".lock".toList]

/-- `$locks/$1.deleting` -/
def marker : List Text := L.locks ++ [id ++ ".deleting".toList]

/-- `$job/.stopped` -/
def stopped : List Text := L.job id ++ [".stopped".toList]

/-- `$job/.submit-controller.lock` -/
def submitLock : List Text := L.job id ++ [".submit-controller.lock".toList]

/-- `$job/submission.state` -/
def submissionState : List Text := L.job id ++ ["submission.state".toList]

end Layout

/-- The files of the user, with their contents. -/
abbrev Files := Tree Text Text

/-! ### Processes -/

/-- The places in `remote_stop.sh`. -/
inductive StopPlace
  /-- the test of the job ID -/
  | arguments
  /-- `[[ -e "$job" || -L "$job" ]]` -/
  | present
  /-- `[[ -d "$job" && ! -L "$job" ]]` -/
  | directory
  /-- from the first `: > "$job/.stopped"` on -/
  | main (pc : Site.StopPc)
  | exited (rc : ℕ)
  deriving DecidableEq

inductive Proc
  | delete (pc : DeletePc)
  /-- the `rm -rf -- "$job"` of a killed run -/
  | rm
  | stop (place : StopPlace)
  | gone
  deriving DecidableEq

/-- The process has `$locks/$1.lock` open and locked. -/
def Proc.holdsDelete : Proc → Bool
  | .delete pc => pc.holdsDelete
  | .rm => true
  | _ => false

/-- The process has `.submit-controller.lock` open and locked. -/
def Proc.holdsSubmit : Proc → Bool
  | .delete pc => pc.holdsSubmit
  | .rm => true
  | _ => false

/-- The process has ended with this status. -/
def Proc.exit? : Proc → Option ℕ
  | .delete (.exited rc) | .stop (.exited rc) | .stop (.main (.exited rc)) => some rc
  | _ => none

/-- The files, the active allocations of the job, whether a controller of the job has its lock, and
the processes. -/
structure State where
  files : Files
  allocations : List ℕ
  controller : Bool
  procs : List Proc

inductive Event
  | spawnDelete
  | spawnStop
  /-- the next command of a script, or the end of an `rm`, and whether it succeeds -/
  | script (i : ℕ) (ok : Bool)
  /-- an `rm` removes what is at `q` -/
  | unlink (i : ℕ) (q : List Text)
  /-- a process is killed; its `rm` may go on -/
  | kill (i : ℕ) (survives : Bool)
  /-- allocations and controllers of the job come and go -/
  | environment (allocations : List ℕ) (controller : Bool)
  /-- one of them writes a file in the job directory -/
  | write (q : List Text) (c : Text)

/-- A killed process. -/
def Proc.killed (survives : Bool) : Proc → Proc
  | .delete .remove | .rm => if survives then .rm else .gone
  | _ => .gone

namespace State

variable (L : Layout) (id : Text) (s : State)

/-- `.submit-controller.lock` can be locked. -/
def submitFree : Bool := !s.controller && s.procs.all fun p => !p.holdsSubmit

/-- `[[ -e "$job" || -L "$job" ]]` -/
def present : Bool := s.files.hasAny (L.job id) || s.files.hasLink (L.job id)

/-- `[[ -d "$job" && ! -L "$job" ]]` -/
def directory : Bool := s.files.hasDir (L.job id) && !s.files.hasLink (L.job id)

def deleteView : DeleteView where
  valid := isDeletable id
  present := s.present L id
  locksLinked := s.files.hasLink L.locks
  lockLinked := s.files.hasLink (L.lockFile id) || s.files.hasLink (L.marker id)
  deleteFree := s.procs.all fun p => !p.holdsDelete
  directory := s.directory L id
  marked := s.files.hasFile (L.stopped id) || s.files.hasFile (L.marker id)
  submitFree := s.submitFree
  allocated := s.allocations ≠ []

/-- What the commands of `remote_stop.sh` see after its first tests. -/
def stopView : Site.View where
  files := ⟨s.files.hasFile (L.stopped id), .absent, none, ⟨false, [], [], []⟩⟩
  allocations := s.allocations
  submitFree := s.submitFree
  launchFree := true
  recoveryFree := true

end State

/-- What a command of `remote_delete.sh` does to the files, `none` when it cannot succeed. -/
def deleteEffect (L : Layout) (id : Text) (t : Files) : DeletePc → Option Files
  | .mkdir => t.makeDir L.locks
  | .openDelete => t.create (L.lockFile id) []
  | .openSubmit => t.create (L.submitLock id) []
  | .mark => t.create (L.marker id) []
  | .remove => t.remove (L.job id)
  | .unmark => t.unlink (L.marker id)
  | _ => some t

def isBlank (c : Char) : Bool := c = ' ' || c = '\t'

/-- `accepted` and `total` after `read -r _ accepted total`. -/
def readCounts (t : Text) : Text × Text :=
  let rest (t : Text) : Text := (t.dropWhile fun c => !isBlank c).dropWhile isBlank
  let second := rest ((before '\n' t).dropWhile isBlank)
  (second.takeWhile fun c => !isBlank c, (rest second).rdropWhile isBlank)

/-- `${t:-0}` -/
def orZero (t : Text) : Text := if t = [] then ['0'] else t

/-- The line that `remote_stop.sh` writes to `submission.state` after reading it. -/
def stoppedLine (old : Option (Node Text Text)) : Text :=
  let counts := match old with
    | some (.file c) => readCounts c
    | _ => ([], [])
  "stopped ".toList ++ orZero counts.1 ++ ' ' :: orZero counts.2 ++ ['\n']

example : stoppedLine (some (.file "submitting 3 17\n".toList)) = "stopped 3 17\n".toList := by decide

/-- What a command of `remote_stop.sh` does to the files. -/
def stopEffect (L : Layout) (id : Text) (t : Files) : StopPlace → Option Files
  | .main .start | .main (.mark _) => t.create (L.stopped id) []
  | .main (.lockTest _) => t.touch (L.submitLock id) []
  | .main .report => t.create (L.submissionState id) (stoppedLine (t.stat (L.submissionState id)))
  | _ => some t

namespace StopPlace

/-- Where `remote_stop.sh` goes when its next command fails. -/
def failed : StopPlace → StopPlace
  | main pc => main pc.failed
  | exited rc => exited rc
  | _ => exited 1

/-- Where it goes when its next command succeeds, or its next test is made. -/
def next (L : Layout) (id : Text) (s : State) : StopPlace → Option StopPlace
  | arguments => some (if isDeletable id then present else exited 2)
  | present => some (if s.present L id then directory else exited 0)
  | directory => some (if s.directory L id then main .start else exited 2)
  | main pc => (pc.next (s.stopView L id)).map fun r => main r.2
  | exited _ => none

end StopPlace

namespace State

variable (L : Layout) (id : Text)

def set (s : State) (i : ℕ) (p : Proc) : State := { s with procs := s.procs.set i p }

/-- A command that leads to `next` has this effect, or fails and leads to `failed`. -/
def command (s : State) (i : ℕ) (ok : Bool) (effect : Option Files) (next : Option Proc)
    (failed : Proc) : Option State :=
  if ok then
    next.map fun p =>
      match effect with
      | some t => { s with files := t }.set i p
      | none => s.set i failed
  else some (s.set i failed)

def step (s : State) : Event → Option State
  | .spawnDelete => some { s with procs := s.procs ++ [.delete .arguments] }
  | .spawnStop => some { s with procs := s.procs ++ [.stop .arguments] }
  | .script i ok =>
      match s.procs[i]? with
      | some (.delete pc) =>
          s.command i ok (deleteEffect L id s.files pc)
            ((pc.next (s.deleteView L id)).map .delete) (.delete pc.failed)
      | some (.stop place) =>
          s.command i ok (stopEffect L id s.files place) ((place.next L id s).map .stop)
            (.stop place.failed)
      | some .rm => s.command i ok (s.files.remove (L.job id)) (some .gone) .gone
      | _ => none
  | .unlink i q =>
      match s.procs[i]? with
      | some (.delete .remove) | some .rm =>
          if L.job id <+: q ∧ q ≠ L.job id then some { s with files := s.files.cut q } else none
      | _ => none
  | .kill i survives => (s.procs[i]?).map fun p => s.set i (p.killed survives)
  | .environment allocations controller =>
      some { s with allocations := allocations, controller := controller }
  | .write q c =>
      if (s.allocations ≠ [] ∨ s.controller) ∧ s.directory L id ∧ L.job id <+: q ∧ q ≠ L.job id ∧
          s.files.plain q ∧ s.files q.dropLast = some .dir then
        some { s with files := Function.update s.files q (some (.file c)) }
      else none

/-- Before the first run. -/
def start (t : Files) : State := ⟨t, [], false, []⟩

/-- SLURM has no allocation of the job, no controller has its lock, and no run of `remote_delete.sh`
or its `rm` is under way. -/
def quiet (s : State) : Bool :=
  s.allocations = [] && !s.controller && s.procs.all fun p => !p.holdsDelete

end State

end Delete
end Slurmy
