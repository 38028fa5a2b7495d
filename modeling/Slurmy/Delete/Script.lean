import Mathlib.Tactic

/-!
# The deletion script

`remote_delete.sh` as a machine over its program counter.

* `DeletePc`, `DeleteView`: the places in the script, and what its tests can see;
* `DeletePc.next`, `DeletePc.failed`: where a command leads that succeeds, or fails;
* `DeletePc.holdsDelete`, `DeletePc.holdsSubmit`: the locks it has there.
-/

namespace Slurmy
namespace Delete

/-- The places in the script, each named for what happens next. -/
inductive DeletePc
  /-- the test of the job ID -/
  | arguments
  /-- the first test for the job path -/
  | present
  /-- `[[ ! -L "$locks" ]]` -/
  | locks
  /-- `mkdir -p -m 700 -- "$locks"` -/
  | mkdir
  /-- `[[ ! -L "$locks/$1.lock" && ! -L "$locks/$1.deleting" ]]` -/
  | lockLinks
  /-- `exec 8> "$locks/$1.lock"` -/
  | openDelete
  /-- `flock -w 60 8` -/
  | lockDelete
  /-- the second test for the job path -/
  | presentAgain
  /-- the test for a stopped job directory, or one whose deletion has begun -/
  | stoppedTest
  /-- `exec 9> "$job/.submit-controller.lock"` -/
  | openSubmit
  /-- `flock -w 60 9` -/
  | lockSubmit
  /-- `squeue` -/
  | queue
  /-- `: > "$locks/$1.deleting"` -/
  | mark
  /-- `rm -rf -- "$job"` -/
  | remove
  /-- `rm -f -- "$locks/$1.deleting"` -/
  | unmark
  /-- the message that the files are deleted -/
  | report
  | exited (rc : ℕ)
  deriving DecidableEq

/-- What the tests of the script see. -/
structure DeleteView where
  /-- `[[ "${1:-}" =~ ^[A-Za-z0-9][A-Za-z0-9._-]*$ ]]` -/
  valid : Bool
  /-- `[[ -e "$job" || -L "$job" ]]` -/
  present : Bool
  /-- `[[ -L "$locks" ]]` -/
  locksLinked : Bool
  /-- `[[ -L "$locks/$1.lock" || -L "$locks/$1.deleting" ]]` -/
  lockLinked : Bool
  /-- the file open as 8 can be locked -/
  deleteFree : Bool
  /-- `[[ -d "$job" && ! -L "$job" ]]` -/
  directory : Bool
  /-- `[[ -f "$job/.stopped" || -f "$locks/$1.deleting" ]]` -/
  marked : Bool
  /-- the file open as 9 can be locked -/
  submitFree : Bool
  /-- `squeue` lists an allocation of the job -/
  allocated : Bool

namespace DeletePc

/-- Where the script goes when its next command fails. -/
def failed : DeletePc → DeletePc
  | lockDelete => exited 75
  | lockSubmit | queue => exited 3
  | exited rc => exited rc
  | _ => exited 1

/-- Where the script goes when its next command succeeds, or its next test is made.  Commands that
wait for a lock cannot succeed while it is held. -/
def next (v : DeleteView) : DeletePc → Option DeletePc
  | arguments => some (if v.valid then present else exited 2)
  | present => some (if v.present then locks else exited 0)
  | locks => some (if v.locksLinked then exited 2 else mkdir)
  | mkdir => some lockLinks
  | lockLinks => some (if v.lockLinked then exited 2 else openDelete)
  | openDelete => some lockDelete
  | lockDelete => if v.deleteFree then some presentAgain else none
  | presentAgain => some (if v.present then stoppedTest else exited 0)
  | stoppedTest => some (if v.directory && v.marked then openSubmit else exited 2)
  | openSubmit => some lockSubmit
  | lockSubmit => if v.submitFree then some queue else none
  | queue => some (if v.allocated then exited 3 else mark)
  | mark => some remove
  | remove => some unmark
  | unmark => some report
  | report => some (exited 0)
  | exited _ => none

/-- The script has `$locks/$1.lock` open and locked. -/
def holdsDelete : DeletePc → Bool
  | presentAgain | stoppedTest | openSubmit | lockSubmit | queue | mark | remove | unmark
  | report => true
  | _ => false

/-- The script has `.submit-controller.lock` open and locked. -/
def holdsSubmit : DeletePc → Bool
  | queue | mark | remove | unmark | report => true
  | _ => false

end DeletePc

end Delete
end Slurmy
