import Slurmy.Submission.Controller

/-!
# The scripts around the controller

`remote_recover.sh`, `remote_resume.sh` and `remote_dispatch.sh` start controllers; `remote_stop.sh`
ends them.  Each is a machine over its program counter; what a command sees of the rest of the site
is its `View`.

* `Kind`: what started a launcher: automatic recovery (which continues into resume and dispatch), a
  user's Resume (which continues into dispatch), or a dispatch;
* `LaunchPc.step`, `StopPc.step`: one command of a script, which can also fail;
* `LaunchPc.Armed`, `armed_step`: the places after which a launcher no longer respects a stop marker
  that is already there.
-/

namespace Slurmy
namespace Site

open Submission

/-- What started a launcher. -/
inductive Kind
  | auto
  | resume
  | dispatch
  deriving DecidableEq

/-- `RESUME_INCOMPLETE` of the controllers it launches. -/
def Kind.incomplete : Kind → Bool
  | .dispatch => false
  | _ => true

/-- What a command of a script can see: the files, the active allocations of the job, and whether
each lock file can be locked. -/
structure View where
  files : JobFiles
  allocations : List ℕ
  submitFree : Bool
  launchFree : Bool
  recoveryFree : Bool

/-! ### Launchers -/

/-- The places in the launchers, each named for what happens next. -/
inductive LaunchPc
  /-- recovery: `flock -n 7` -/
  | recoverLock
  /-- recovery: the test for `.stopped` -/
  | recoverTest
  /-- recovery: `squeue` -/
  | recoverQueue
  /-- recovery: `flock -n "$job/.submit-controller.lock" true` -/
  | recoverController
  /-- recovery: `: > "$job/.stopped"` -/
  | recoverMark
  /-- resume: the test for `.stopped` -/
  | resumeTest
  /-- resume: the test for `submission_context.sh` -/
  | resumeContext
  /-- resume: `squeue` -/
  | resumeQueue
  /-- resume: `flock -n "$job/.submit-controller.lock" true` -/
  | resumeController
  /-- resume: `source ./submission_context.sh` -/
  | resumeSource
  /-- resume: `rm -- .stopped`, the saved context being set or not -/
  | resumeRemove (saved : Bool)
  /-- resume: the temporary dispatcher is written and run with the saved context -/
  | resumeDispatch (saved : Bool)
  /-- dispatch: `flock 8` -/
  | dispatchLock
  /-- dispatch: `flock -n .submit-controller.lock true` -/
  | dispatchController
  /-- dispatch: the test for `.stopped` -/
  | dispatchTest
  /-- dispatch: `submission.state`, and the lock file of the controller -/
  | dispatchState
  /-- dispatch: `nohup setsid … remote_submit.sh` -/
  | dispatchLaunch
  /-- dispatch: the wait for a controller that fails at once -/
  | dispatchWait
  | done (rc : ℕ)
  deriving DecidableEq

def Kind.start : Kind → LaunchPc
  | .auto => .recoverLock
  | .resume => .resumeTest
  | .dispatch => .dispatchLock

/-- Where a launcher goes when its next command fails. -/
def LaunchPc.failed : LaunchPc → LaunchPc
  | .recoverLock | .recoverController | .dispatchController => .done 0
  | .resumeTest | .resumeContext => .done 2
  | .done rc => .done rc
  | _ => .done 1

/-- The next command of a launcher succeeds: the files, and where the launcher goes.  Commands that
wait for a lock or need it free cannot succeed while it is held. -/
def LaunchPc.next (v : View) : LaunchPc → Option (JobFiles × LaunchPc)
  | .recoverLock => if v.recoveryFree then some (v.files, .recoverTest) else none
  | .recoverTest => some (v.files, if v.files.stopped then .done 0 else .recoverQueue)
  | .recoverQueue => some (v.files, if v.allocations = [] then .recoverController else .done 0)
  | .recoverController => if v.submitFree then some (v.files, .recoverMark) else none
  | .recoverMark => some ({ v.files with stopped := true }, .resumeTest)
  | .resumeTest => some (v.files, if v.files.stopped then .resumeContext else .done 2)
  | .resumeContext =>
      some (v.files, if v.files.context = .absent then .done 2 else .resumeQueue)
  | .resumeQueue => some (v.files, if v.allocations = [] then .resumeController else .done 1)
  | .resumeController => if v.submitFree then some (v.files, .resumeSource) else none
  | .resumeSource => some (v.files, .resumeRemove (v.files.context = .written))
  | .resumeRemove saved =>
      some (if v.files.stopped then ({ v.files with stopped := false }, .resumeDispatch saved)
        else (v.files, .done 1))
  | .resumeDispatch saved => some (v.files, if saved then .dispatchLock else .done 1)
  | .dispatchLock => if v.launchFree then some (v.files, .dispatchController) else none
  | .dispatchController => if v.submitFree then some (v.files, .dispatchTest) else none
  | .dispatchTest => some (v.files, if v.files.stopped then .done 1 else .dispatchState)
  | .dispatchState => some (v.files, .dispatchLaunch)
  | .dispatchLaunch => some (v.files, .dispatchWait)
  | .dispatchWait => some (v.files, .done 0)
  | .done _ => none

/-- One command of a launcher, with its success. -/
def LaunchPc.step (v : View) (pc : LaunchPc) (ok : Bool) : Option (JobFiles × LaunchPc) :=
  if ok then pc.next v else some (v.files, pc.failed)

/-- The command launches a controller. -/
def LaunchPc.launches (pc : LaunchPc) (ok : Bool) : Bool := ok && pc = .dispatchLaunch

/-- The launcher holds `.dispatch-launch.lock`. -/
def LaunchPc.holdsLaunch : LaunchPc → Bool
  | .dispatchController | .dispatchTest | .dispatchState | .dispatchLaunch | .dispatchWait => true
  | _ => false

/-- The launcher, started by recovery, holds `.auto-recovery.lock`. -/
def LaunchPc.holdsRecovery : LaunchPc → Bool
  | .recoverLock | .done _ => false
  | _ => true

/-- The launcher has passed its test for the stop marker, or will take it away. -/
def LaunchPc.armed : LaunchPc → Bool
  | .recoverLock | .recoverTest | .dispatchLock | .dispatchController | .dispatchTest
  | .dispatchWait | .done _ => false
  | _ => true

theorem LaunchPc.armed_failed (pc : LaunchPc) : pc.failed.armed = false := by
  cases pc <;> rfl

/-- Under the stop marker, a launcher that is not armed stays so, keeps the marker and launches
nothing. -/
theorem LaunchPc.armed_step {v : View} {pc pc' : LaunchPc} {ok : Bool} {f : JobFiles}
    (hstep : pc.step v ok = some (f, pc')) (hstop : v.files.stopped = true)
    (harmed : pc.armed = false) :
    f.stopped = true ∧ pc'.armed = false ∧ pc.launches ok = false := by
  unfold LaunchPc.step at hstep
  cases ok with
  | false =>
    cases hstep
    exact ⟨hstop, pc.armed_failed, rfl⟩
  | true =>
    rw [if_pos rfl] at hstep
    cases pc with
    | recoverLock | dispatchLock | dispatchController =>
      obtain ⟨-, heq⟩ := Option.ite_none_right_eq_some.1 hstep
      cases heq
      exact ⟨hstop, rfl, rfl⟩
    | recoverTest | dispatchTest =>
      obtain ⟨rfl, rfl⟩ := Prod.mk.inj (Option.some.inj hstep)
      rw [if_pos hstop]
      exact ⟨hstop, rfl, rfl⟩
    | dispatchWait => cases hstep; exact ⟨hstop, rfl, rfl⟩
    | done => cases hstep
    | _ => cases harmed

/-! ### Stop -/

/-- The places in `remote_stop.sh`. -/
inductive StopPc
  /-- the first `: > "$job/.stopped"` -/
  | start
  /-- the `: > "$job/.stopped"` of a check -/
  | mark (attempt : ℕ)
  /-- `squeue` -/
  | snapshot (attempt : ℕ)
  /-- `scancel` of these allocations -/
  | cancel (attempt : ℕ) (ids : List ℕ)
  /-- `flock -n "$job/.submit-controller.lock" true` after an empty snapshot -/
  | lockTest (attempt : ℕ)
  /-- the message that the job is stopped -/
  | report
  | exited (rc : ℕ)
  deriving DecidableEq

/-- After a check that has not confirmed the stop. -/
def StopPc.again (attempt : ℕ) : StopPc := if attempt < 30 then .mark (attempt + 1) else .exited 1

/-- Where `remote_stop.sh` goes when its next command fails. -/
def StopPc.failed : StopPc → StopPc
  | .cancel attempt _ | .lockTest attempt => again attempt
  | .exited rc => .exited rc
  | _ => .exited 1

/-- The next command of `remote_stop.sh` succeeds. -/
def StopPc.next (v : View) : StopPc → Option (JobFiles × StopPc)
  | .start => some ({ v.files with stopped := true }, .mark 1)
  | .mark attempt => some ({ v.files with stopped := true }, .snapshot attempt)
  | .snapshot attempt =>
      some (v.files, if v.allocations = [] then .lockTest attempt else .cancel attempt v.allocations)
  | .cancel attempt _ => some (v.files, again attempt)
  | .lockTest _ => if v.submitFree then some (v.files, .report) else none
  | .report => some (v.files, .exited 0)
  | .exited _ => none

def StopPc.step (v : View) (pc : StopPc) (ok : Bool) : Option (JobFiles × StopPc) :=
  if ok then pc.next v else some (v.files, pc.failed)

/-- What a step of `remote_stop.sh` does: it goes on to the next command, back to the marker, or gives up. -/
inductive StopPc.Steps (v : View) : StopPc → Bool → JobFiles → StopPc → Prop
  | start : Steps v .start true { v.files with stopped := true } (.mark 1)
  | mark (attempt : ℕ) : Steps v (.mark attempt) true { v.files with stopped := true } (.snapshot attempt)
  | idle (attempt : ℕ) (h : v.allocations = []) : Steps v (.snapshot attempt) true v.files (.lockTest attempt)
  | busy (attempt : ℕ) (h : v.allocations ≠ []) :
      Steps v (.snapshot attempt) true v.files (.cancel attempt v.allocations)
  | free (attempt : ℕ) (h : v.submitFree = true) : Steps v (.lockTest attempt) true v.files .report
  | report : Steps v .report true v.files (.exited 0)
  | back (pc : StopPc) (ok : Bool) (attempt : ℕ) : Steps v pc ok v.files (.mark attempt)
  | fail (pc : StopPc) (ok : Bool) : Steps v pc ok v.files (.exited 1)
  | exited (rc : ℕ) : Steps v (.exited rc) false v.files (.exited rc)

theorem StopPc.steps_again {v : View} {pc : StopPc} {ok : Bool} (attempt : ℕ) :
    pc.Steps v ok v.files (again attempt) := by
  unfold again
  split_ifs
  · exact .back pc ok _
  · exact .fail pc ok

theorem StopPc.steps_of_step {v : View} {pc pc' : StopPc} {ok : Bool} {f : JobFiles}
    (h : pc.step v ok = some (f, pc')) : pc.Steps v ok f pc' := by
  unfold StopPc.step at h
  cases ok with
  | false =>
    cases h
    cases pc with
    | cancel | lockTest => exact steps_again _
    | exited rc => exact .exited rc
    | start | mark | snapshot | report => exact .fail _ _
  | true =>
    rw [if_pos rfl] at h
    cases pc with
    | start => cases h; exact .start
    | mark attempt => cases h; exact .mark attempt
    | snapshot attempt =>
      obtain ⟨rfl, rfl⟩ := Prod.mk.inj (Option.some.inj h)
      split_ifs with hempty
      · exact .idle attempt hempty
      · exact .busy attempt hempty
    | cancel => cases h; exact steps_again _
    | lockTest attempt =>
      obtain ⟨hfree, heq⟩ := Option.ite_none_right_eq_some.1 h
      cases heq
      exact .free attempt hfree
    | report => cases h; exact .report
    | exited => cases h

/-- `remote_stop.sh` never takes the marker away. -/
theorem StopPc.stopped_step {v : View} {pc pc' : StopPc} {ok : Bool} {f : JobFiles}
    (hstep : pc.step v ok = some (f, pc')) (hstop : v.files.stopped = true) : f.stopped = true := by
  cases steps_of_step hstep with
  | start | mark => rfl
  | idle | busy | free | report | back | fail | exited => exact hstop

end Site
end Slurmy
