import Slurmy.Lib.Machine
import Slurmy.Site.Scripts

/-!
# The stop marker after automatic recovery

One run of `remote_recover.sh` with `remote_resume.sh` behind it, command by command, each with any
outcome; the run can also be cut off after any command.

* `Outcome`, `Recovery`, `Recovery.step`: what the next command finds, and the run;
* `recoverPath`, `resumePath`: the commands up to the one that sets the marker, and from there to the
  one that takes it away;
* `passes`: the commands of a path succeed and find what the script needs to go on;
* `marker_kept_iff`: when a run that starts no controller leaves the marker as it was.
-/

namespace Slurmy
namespace Site

open Submission

/-- What a command finds, and whether it succeeds. -/
structure Outcome where
  ok : Bool
  allocations : List ℕ
  submitFree : Bool
  launchFree : Bool
  recoveryFree : Bool
  deriving DecidableEq

/-- The places in the combined script: the checks before recovery takes its lock, and then those of
the launcher. -/
inductive RecoveryPc
  /-- the test of the argument -/
  | argument
  /-- the test for the job directory -/
  | directory
  /-- `exec 7> "$job/.auto-recovery.lock"` -/
  | lockFile
  | launcher (pc : LaunchPc)
  deriving DecidableEq

/-- A run: the files, the place, and whether a controller has been started. -/
structure Recovery where
  files : JobFiles
  pc : RecoveryPc
  launched : Bool

/-- The run before its first command. -/
def Recovery.start (files : JobFiles) : Recovery := ⟨files, .argument, false⟩

/-- The next command of the combined script, with this outcome. -/
def Recovery.step (r : Recovery) (o : Outcome) : Option Recovery :=
  match r.pc with
  | .argument => some { r with pc := if o.ok then .directory else .launcher (.done 2) }
  | .directory => some { r with pc := if o.ok then .lockFile else .launcher (.done 2) }
  | .lockFile =>
      some { r with pc := if o.ok then .launcher .recoverLock else .launcher (.done 1) }
  | .launcher pc =>
      (pc.step ⟨r.files, o.allocations, o.submitFree, o.launchFree, o.recoveryFree⟩ o.ok).map
        fun next => ⟨next.1, .launcher next.2, r.launched || pc.launches o.ok⟩

/-! ### The paths -/

/-- The commands up to `: > "$job/.stopped"`. -/
def recoverPath : List RecoveryPc :=
  [.argument, .directory, .lockFile, .launcher .recoverLock, .launcher .recoverTest,
    .launcher .recoverQueue, .launcher .recoverController, .launcher .recoverMark]

/-- The commands after it up to `rm -- .stopped`. -/
def resumePath (c : Context) : List RecoveryPc :=
  [.launcher .resumeTest, .launcher .resumeContext, .launcher .resumeQueue,
    .launcher .resumeController, .launcher .resumeSource, .launcher (.resumeRemove (c = .written))]

/-- The command succeeds, and its answer lets the script go on. -/
def passesCommand (c : Context) (pc : RecoveryPc) (o : Outcome) : Bool :=
  o.ok && match pc with
    | .launcher .recoverQueue | .launcher .resumeQueue => o.allocations = []
    | .launcher .resumeContext => c ≠ .absent
    | _ => true

/-- All commands of the path are run and passed. -/
def passes (c : Context) : List RecoveryPc → List Outcome → Bool
  | [], _ => true
  | _ :: _, [] => false
  | pc :: path, o :: os => passesCommand c pc o && passes c path os

/-- Where a passed command leads, when the marker is as the script expects it. -/
def RecoveryPc.following (c : Context) : RecoveryPc → RecoveryPc
  | .argument => .directory
  | .directory => .lockFile
  | .lockFile => .launcher .recoverLock
  | .launcher .recoverLock => .launcher .recoverTest
  | .launcher .recoverTest => .launcher .recoverQueue
  | .launcher .recoverQueue => .launcher .recoverController
  | .launcher .recoverController => .launcher .recoverMark
  | .launcher .recoverMark => .launcher .resumeTest
  | .launcher .resumeTest => .launcher .resumeContext
  | .launcher .resumeContext => .launcher .resumeQueue
  | .launcher .resumeQueue => .launcher .resumeController
  | .launcher .resumeController => .launcher .resumeSource
  | .launcher .resumeSource => .launcher (.resumeRemove (c = .written))
  | pc => pc

/-- The script can no longer change the marker. -/
def RecoveryPc.settled : RecoveryPc → Bool
  | .launcher (.resumeDispatch _) | .launcher .dispatchLock | .launcher .dispatchController
  | .launcher .dispatchTest | .launcher .dispatchState | .launcher .dispatchLaunch
  | .launcher .dispatchWait | .launcher (.done _) => true
  | _ => false

/-- The commands of the path from `pc` on. -/
def restFrom (pc : RecoveryPc) (path : List RecoveryPc) : List RecoveryPc :=
  path.dropWhile fun other => other ≠ pc

/-! ### One command -/

section Step

variable {files : JobFiles} {pc : LaunchPc} {launched : Bool} {r t : Recovery} {o : Outcome}

theorem launcher_step
    (h : (⟨files, .launcher pc, launched⟩ : Recovery).step o = some t) :
    ∃ f pc', pc.step ⟨files, o.allocations, o.submitFree, o.launchFree, o.recoveryFree⟩ o.ok =
        some (f, pc') ∧ t = ⟨f, .launcher pc', launched || pc.launches o.ok⟩ := by
  obtain ⟨⟨f, pc'⟩, hstep, rfl⟩ := Option.map_eq_some_iff.1 h
  exact ⟨f, pc', hstep, rfl⟩

/-- A settled script leaves the files alone. -/
theorem settled_step (h : r.step o = some t) (hpc : r.pc.settled = true) :
    t.files = r.files ∧ t.pc.settled = true := by
  obtain ⟨files, pc, launched⟩ := r
  obtain ⟨ok, allocations, submitFree, launchFree, recoveryFree⟩ := o
  cases pc with
  | argument | directory | lockFile => cases hpc
  | launcher pc =>
    obtain ⟨f, pc', hstep, rfl⟩ := launcher_step h
    cases ok with
    | false =>
      obtain ⟨rfl, rfl⟩ := Prod.mk.inj (Option.some.inj hstep)
      exact ⟨rfl, by cases pc <;> rfl⟩
    | true =>
      rw [LaunchPc.step, if_pos rfl] at hstep
      cases pc with
      | resumeDispatch saved =>
        obtain ⟨rfl, rfl⟩ := Prod.mk.inj (Option.some.inj hstep)
        cases saved <;> exact ⟨rfl, rfl⟩
      | dispatchLock | dispatchController =>
        obtain ⟨-, heq⟩ := Option.ite_none_right_eq_some.1 hstep
        cases heq
        exact ⟨rfl, rfl⟩
      | dispatchTest =>
        obtain ⟨rfl, rfl⟩ := Prod.mk.inj (Option.some.inj hstep)
        refine ⟨rfl, ?_⟩
        dsimp only
        split_ifs <;> rfl
      | dispatchState | dispatchLaunch | dispatchWait =>
        cases hstep
        exact ⟨rfl, rfl⟩
      | done => cases hstep
      | _ => cases hpc

/-- A command that is not passed ends the script, and the files stay what they are. -/
theorem step_of_not_passes (h : r.step o = some t)
    (hpass : passesCommand r.files.context r.pc o = false) :
    t.files = r.files ∧ t.pc.settled = true := by
  obtain ⟨files, pc, launched⟩ := r
  obtain ⟨ok, allocations, submitFree, launchFree, recoveryFree⟩ := o
  cases ok with
  | false =>
    cases pc with
    | launcher pc =>
      obtain ⟨f, pc', hstep, rfl⟩ := launcher_step h
      obtain ⟨rfl, rfl⟩ := Prod.mk.inj (Option.some.inj hstep)
      exact ⟨rfl, by cases pc <;> rfl⟩
    | _ => cases h; exact ⟨rfl, rfl⟩
  | true =>
    cases pc with
    | launcher pc =>
      obtain ⟨f, pc', hstep, rfl⟩ := launcher_step h
      rw [LaunchPc.step, if_pos rfl] at hstep
      cases pc with
      | recoverQueue | resumeQueue =>
        have hne : allocations ≠ [] := by simpa [passesCommand] using hpass
        obtain ⟨rfl, rfl⟩ := Prod.mk.inj (Option.some.inj hstep)
        rw [if_neg hne]
        exact ⟨rfl, rfl⟩
      | resumeContext =>
        have habsent : files.context = .absent := by simpa [passesCommand] using hpass
        obtain ⟨rfl, rfl⟩ := Prod.mk.inj (Option.some.inj hstep)
        rw [if_pos habsent]
        exact ⟨rfl, rfl⟩
      | _ => simp [passesCommand] at hpass
    | _ => simp [passesCommand] at hpass

/-- What a passed command does before the marker is set, and when it is set. -/
theorem recover_step (h : r.step o = some t) (hmem : r.pc ∈ recoverPath)
    (hstop : r.files.stopped = false) (hpass : passesCommand r.files.context r.pc o = true) :
    t.pc = r.pc.following r.files.context ∧
      t.files = { r.files with stopped := decide (r.pc = .launcher .recoverMark) } := by
  obtain ⟨⟨stopped, context, submission, results⟩, pc, launched⟩ := r
  obtain ⟨ok, allocations, submitFree, launchFree, recoveryFree⟩ := o
  obtain rfl : stopped = false := hstop
  have hok : ok = true := by
    simp only [passesCommand, Bool.and_eq_true] at hpass
    exact hpass.1
  subst hok
  simp only [recoverPath, List.mem_cons, List.not_mem_nil, or_false] at hmem
  rcases hmem with rfl | rfl | rfl | rfl | rfl | rfl | rfl | rfl
  case inr.inr.inr.inl | inr.inr.inr.inr.inr.inr.inl =>
    obtain ⟨f, pc', hstep, rfl⟩ := launcher_step h
    obtain ⟨-, heq⟩ := Option.ite_none_right_eq_some.1 hstep
    cases heq
    exact ⟨rfl, rfl⟩
  case inr.inr.inr.inr.inr.inl =>
    have hnil : allocations = [] := by simpa [passesCommand] using hpass
    obtain ⟨f, pc', hstep, rfl⟩ := launcher_step h
    obtain ⟨rfl, rfl⟩ := Prod.mk.inj (Option.some.inj hstep)
    subst hnil
    exact ⟨rfl, rfl⟩
  all_goals
    cases h
    exact ⟨rfl, rfl⟩

/-- What a passed command does while the marker of the recovery is there. -/
theorem resume_step (h : r.step o = some t) (hmem : r.pc ∈ resumePath r.files.context)
    (hstop : r.files.stopped = true) (hpass : passesCommand r.files.context r.pc o = true) :
    (r.pc = .launcher (.resumeRemove (r.files.context = .written)) ∧ t.files.stopped = false ∧
        t.pc.settled = true) ∨
      (r.pc ≠ .launcher (.resumeRemove (r.files.context = .written)) ∧ t.files = r.files ∧
        t.pc = r.pc.following r.files.context) := by
  obtain ⟨⟨stopped, context, submission, results⟩, pc, launched⟩ := r
  obtain ⟨ok, allocations, submitFree, launchFree, recoveryFree⟩ := o
  obtain rfl : stopped = true := hstop
  have hok : ok = true := by
    simp only [passesCommand, Bool.and_eq_true] at hpass
    exact hpass.1
  subst hok
  replace hmem : pc ∈ resumePath context := hmem
  simp only [resumePath, List.mem_cons, List.not_mem_nil, or_false] at hmem
  rcases hmem with rfl | rfl | rfl | rfl | rfl | rfl
  · cases h
    exact .inr ⟨by simp, rfl, rfl⟩
  · have hcontext : context ≠ .absent := by simpa [passesCommand] using hpass
    obtain ⟨f, pc', hstep, rfl⟩ := launcher_step h
    obtain ⟨rfl, rfl⟩ := Prod.mk.inj (Option.some.inj hstep)
    rw [if_neg hcontext]
    exact .inr ⟨by simp, rfl, rfl⟩
  · have hnil : allocations = [] := by simpa [passesCommand] using hpass
    obtain ⟨f, pc', hstep, rfl⟩ := launcher_step h
    obtain ⟨rfl, rfl⟩ := Prod.mk.inj (Option.some.inj hstep)
    subst hnil
    exact .inr ⟨by simp, rfl, rfl⟩
  · obtain ⟨f, pc', hstep, rfl⟩ := launcher_step h
    obtain ⟨-, heq⟩ := Option.ite_none_right_eq_some.1 hstep
    cases heq
    exact .inr ⟨by simp, rfl, rfl⟩
  · cases h
    exact .inr ⟨by simp, rfl, rfl⟩
  · cases h
    exact .inl ⟨rfl, rfl, rfl⟩

end Step

/-! ### A whole run -/

section Run

variable {r t : Recovery} {os : List Outcome}

theorem files_of_settled (hrun : Machine.run Recovery.step r os = some t)
    (hpc : r.pc.settled = true) : t.files = r.files := by
  have hinv := Machine.invariant (I := fun s => s.files = r.files ∧ s.pc.settled = true)
    (fun s o s' hI hstep => ?_) ⟨rfl, hpc⟩ hrun
  · exact hinv.1
  · obtain ⟨hfiles, hsettled⟩ := settled_step hstep hI.2
    exact ⟨hfiles.trans hI.1, hsettled⟩

theorem restFrom_resume {c : Context} {pc : RecoveryPc} (hmem : pc ∈ resumePath c) :
    restFrom pc (resumePath c) = pc ::
      if pc = .launcher (.resumeRemove (c = .written)) then []
      else restFrom (pc.following c) (resumePath c) := by
  simp only [resumePath, List.mem_cons, List.not_mem_nil, or_false] at hmem
  rcases hmem with rfl | rfl | rfl | rfl | rfl | rfl <;> cases c <;> rfl

theorem restFrom_recover {pc : RecoveryPc} (hmem : pc ∈ recoverPath) (c : Context) :
    restFrom pc recoverPath = pc ::
      if pc = .launcher .recoverMark then [] else restFrom (pc.following c) recoverPath := by
  simp only [recoverPath, List.mem_cons, List.not_mem_nil, or_false] at hmem
  rcases hmem with rfl | rfl | rfl | rfl | rfl | rfl | rfl | rfl <;> rfl

theorem following_mem_resume {c : Context} {pc : RecoveryPc} (hmem : pc ∈ resumePath c)
    (hlast : pc ≠ .launcher (.resumeRemove (c = .written))) : pc.following c ∈ resumePath c := by
  simp only [resumePath, List.mem_cons, List.not_mem_nil, or_false] at hmem
  rcases hmem with rfl | rfl | rfl | rfl | rfl | rfl
  case inr.inr.inr.inr.inr => exact absurd rfl hlast
  all_goals simp [resumePath, RecoveryPc.following]

theorem following_mem_recover {pc : RecoveryPc} (hmem : pc ∈ recoverPath)
    (hlast : pc ≠ .launcher .recoverMark) (c : Context) : pc.following c ∈ recoverPath := by
  simp only [recoverPath, List.mem_cons, List.not_mem_nil, or_false] at hmem
  rcases hmem with rfl | rfl | rfl | rfl | rfl | rfl | rfl | rfl
  case inr.inr.inr.inr.inr.inr.inr => exact absurd rfl hlast
  all_goals simp [recoverPath, RecoveryPc.following]

/-- The marker that recovery has set stays unless the commands up to `rm` are all passed. -/
theorem stopped_after_resume (hmem : r.pc ∈ resumePath r.files.context)
    (hstop : r.files.stopped = true) (hrun : Machine.run Recovery.step r os = some t) :
    t.files.stopped = !passes r.files.context (restFrom r.pc (resumePath r.files.context)) os := by
  induction os generalizing r with
  | nil =>
    cases hrun
    rw [restFrom_resume hmem, passes, hstop]
    rfl
  | cons o os ih =>
    obtain ⟨s, hstep, hrun⟩ := Machine.run_cons_some.1 hrun
    rw [restFrom_resume hmem, passes]
    cases hpass : passesCommand r.files.context r.pc o with
    | false =>
      obtain ⟨hfiles, hsettled⟩ := step_of_not_passes hstep hpass
      rw [files_of_settled hrun hsettled, hfiles, hstop]
      rfl
    | true =>
      rcases resume_step hstep hmem hstop hpass with
        ⟨hpc, hgone, hsettled⟩ | ⟨hpc, hfiles, hnext⟩
      · rw [files_of_settled hrun hsettled, hgone, if_pos hpc]
        rfl
      · rw [if_neg hpc, Bool.true_and, ← hnext, ← hfiles]
        apply ih _ _ hrun
        · rw [hnext, hfiles]
          exact following_mem_resume hmem hpc
        · rw [hfiles, hstop]

/-- Without a marker before, one is left behind exactly if recovery sets it and the commands up to
`rm` are not all passed. -/
theorem stopped_after_recover (hmem : r.pc ∈ recoverPath) (hstop : r.files.stopped = false)
    (hrun : Machine.run Recovery.step r os = some t) :
    t.files.stopped = (passes r.files.context (restFrom r.pc recoverPath) os &&
      !passes r.files.context (restFrom r.pc recoverPath ++ resumePath r.files.context) os) := by
  induction os generalizing r with
  | nil =>
    cases hrun
    rw [restFrom_recover hmem t.files.context, hstop]
    rfl
  | cons o os ih =>
    obtain ⟨s, hstep, hrun⟩ := Machine.run_cons_some.1 hrun
    rw [restFrom_recover hmem r.files.context, List.cons_append, passes, passes]
    cases hpass : passesCommand r.files.context r.pc o with
    | false =>
      obtain ⟨hfiles, hsettled⟩ := step_of_not_passes hstep hpass
      rw [files_of_settled hrun hsettled, hfiles, hstop]
      rfl
    | true =>
      obtain ⟨hnext, hfiles⟩ := recover_step hstep hmem hstop hpass
      have hcontext : s.files.context = r.files.context := by rw [hfiles]
      by_cases hpc : r.pc = .launcher .recoverMark
      · have hmark : s.files.stopped = true := by
          rw [hfiles]
          exact decide_eq_true hpc
        have hresume : s.pc = .launcher .resumeTest := by rw [hnext, hpc]; rfl
        have hlater := stopped_after_resume (by rw [hresume]; simp [resumePath]) hmark hrun
        rw [hlater, if_pos hpc, hresume, hcontext]
        rfl
      · have hsame : s.files.stopped = false := by
          rw [hfiles]
          exact decide_eq_false hpc
        have hlater := ih (by rw [hnext]; exact following_mem_recover hmem hpc _) hsame hrun
        rw [hlater, if_neg hpc, hnext, hcontext]
        rfl

/-- A marker that is there stays: recovery ends at its test for it. -/
theorem stopped_of_stopped (hmem : r.pc ∈ recoverPath.take 5) (hstop : r.files.stopped = true)
    (hrun : Machine.run Recovery.step r os = some t) : t.files.stopped = true := by
  have hinv := Machine.invariant
    (I := fun s => s.files.stopped = true ∧ (s.pc ∈ recoverPath.take 5 ∨ s.pc.settled = true))
    (fun s o s' hI hstep => ?_) ⟨hstop, .inl hmem⟩ hrun
  · exact hinv.1
  obtain ⟨hs, hpc⟩ := hI
  rcases hpc with hpc | hpc
  · cases hpass : passesCommand s.files.context s.pc o with
    | false =>
      obtain ⟨hfiles, hsettled⟩ := step_of_not_passes hstep hpass
      rw [hfiles]
      exact ⟨hs, .inr hsettled⟩
    | true =>
      obtain ⟨⟨stopped, context, submission, results⟩, pc, launched⟩ := s
      obtain ⟨ok, allocations, submitFree, launchFree, recoveryFree⟩ := o
      obtain rfl : stopped = true := hs
      have hok : ok = true := by
        simp only [passesCommand, Bool.and_eq_true] at hpass
        exact hpass.1
      subst hok
      replace hpc : pc ∈ recoverPath.take 5 := hpc
      simp only [recoverPath, List.take_succ_cons, List.take_zero, List.mem_cons,
        List.not_mem_nil, or_false] at hpc
      rcases hpc with rfl | rfl | rfl | rfl | rfl
      case inr.inr.inr.inl =>
        obtain ⟨f, pc', hlock, rfl⟩ := launcher_step hstep
        obtain ⟨-, heq⟩ := Option.ite_none_right_eq_some.1 hlock
        cases heq
        exact ⟨rfl, .inl (by simp [recoverPath])⟩
      case inr.inr.inr.inr =>
        cases hstep
        exact ⟨rfl, .inr rfl⟩
      all_goals
        cases hstep
        exact ⟨rfl, .inl (by simp [recoverPath])⟩
  · obtain ⟨hfiles, hsettled⟩ := settled_step hstep hpc
    rw [hfiles]
    exact ⟨hs, .inr hsettled⟩

/-- A controller is started only by a settled script, past its last test for the marker. -/
structure Recovery.Sound (r : Recovery) : Prop where
  tested : r.pc = .launcher .dispatchState ∨ r.pc = .launcher .dispatchLaunch →
    r.files.stopped = false
  launched : r.launched = true → r.files.stopped = false ∧ r.pc.settled = true

theorem tested_step {o : Outcome} (hs : r.Sound) (h : r.step o = some t)
    (hpc : t.pc = .launcher .dispatchState ∨ t.pc = .launcher .dispatchLaunch) :
    t.files.stopped = false := by
  obtain ⟨files, pc, launched⟩ := r
  obtain ⟨ok, allocations, submitFree, launchFree, recoveryFree⟩ := o
  cases pc with
  | argument | directory | lockFile =>
    cases h
    cases ok <;> simp at hpc
  | launcher pc =>
    obtain ⟨f, pc', hstep, rfl⟩ := launcher_step h
    simp only [RecoveryPc.launcher.injEq] at hpc
    cases ok with
    | false =>
      obtain ⟨rfl, rfl⟩ := Prod.mk.inj (Option.some.inj hstep)
      cases pc <;> simp [LaunchPc.failed] at hpc
    | true =>
      rw [LaunchPc.step, if_pos rfl] at hstep
      cases pc with
      | dispatchTest =>
        obtain ⟨rfl, rfl⟩ := Prod.mk.inj (Option.some.inj hstep)
        dsimp only at hpc ⊢
        cases hstop : files.stopped with
        | true => simp [hstop] at hpc
        | false => rfl
      | dispatchState =>
        obtain ⟨rfl, rfl⟩ := Prod.mk.inj (Option.some.inj hstep)
        exact hs.tested (.inl rfl)
      | recoverLock | recoverController | resumeController | dispatchLock | dispatchController =>
        obtain ⟨-, heq⟩ := Option.ite_none_right_eq_some.1 hstep
        cases heq
        simp at hpc
      | done => cases hstep
      | resumeRemove saved =>
        have heq := Option.some.inj hstep
        split_ifs at heq <;> (cases heq; simp at hpc)
      | resumeDispatch saved =>
        obtain ⟨-, rfl⟩ := Prod.mk.inj (Option.some.inj hstep)
        cases saved <;> simp at hpc
      | recoverTest | recoverQueue | resumeTest | resumeContext | resumeQueue =>
        obtain ⟨-, rfl⟩ := Prod.mk.inj (Option.some.inj hstep)
        dsimp only at hpc
        split_ifs at hpc <;> simp at hpc
      | _ =>
        obtain ⟨-, rfl⟩ := Prod.mk.inj (Option.some.inj hstep)
        simp at hpc

theorem Recovery.Sound.step {o : Outcome} (hs : r.Sound) (h : r.step o = some t) : t.Sound := by
  refine ⟨tested_step hs h, fun hlaunched => ?_⟩
  by_cases hbefore : r.launched = true
  · obtain ⟨hstop, hpc⟩ := hs.launched hbefore
    obtain ⟨hfiles, hsettled⟩ := settled_step h hpc
    rw [hfiles]
    exact ⟨hstop, hsettled⟩
  · -- the command has started a controller
    obtain ⟨files, pc, launched⟩ := r
    cases pc with
    | argument | directory | lockFile =>
      cases h
      exact absurd hlaunched hbefore
    | launcher pc =>
      have hlaunch : pc.launches o.ok = true := by
        obtain ⟨f, pc', -, rfl⟩ := launcher_step h
        have hnot : launched = false := by simpa using hbefore
        simpa [hnot] using hlaunched
      have hpc : pc = .dispatchLaunch := by
        simp only [LaunchPc.launches, Bool.and_eq_true, decide_eq_true_eq] at hlaunch
        exact hlaunch.2
      subst hpc
      obtain ⟨hfiles, hsettled⟩ := settled_step h rfl
      rw [hfiles]
      exact ⟨hs.tested (.inr rfl), hsettled⟩

end Run

/-- **The marker.** A run of automatic recovery that starts no controller leaves the stop marker as
it was, exactly if it was there before, or recovery does not get as far as setting it, or the
commands from there to `rm` are all passed. -/
theorem marker_kept_iff {files : JobFiles} {os : List Outcome} {t : Recovery}
    (hrun : Machine.run Recovery.step (.start files) os = some t) :
    (t.launched = false → t.files.stopped = files.stopped) ↔
      (files.stopped = true ∨ passes files.context recoverPath os = false ∨
        passes files.context (recoverPath ++ resumePath files.context) os = true) := by
  have hsound : t.Sound := by
    refine Machine.invariant (I := Recovery.Sound) (fun s o s' hs hstep => hs.step hstep) ?_ hrun
    constructor
    · rintro (h | h) <;> cases h
    · intro h
      cases h
  cases hstop : files.stopped with
  | true =>
    have hkept := stopped_of_stopped (r := .start files) (by simp [Recovery.start, recoverPath])
      hstop hrun
    simp [hkept]
  | false =>
    have hend := stopped_after_recover (r := .start files)
      (by simp [Recovery.start, recoverPath]) hstop hrun
    have hrest : restFrom (Recovery.start files).pc recoverPath = recoverPath := rfl
    rw [hrest] at hend
    rw [hend]
    constructor
    · intro hkept
      by_contra hleak
      have hmark : t.files.stopped = true := by
        rw [hend]
        simpa [Recovery.start] using hleak
      have hnone : t.launched = false := by
        by_contra hlaunched
        have hgone := (hsound.launched (by simpa using hlaunched)).1
        rw [hmark] at hgone
        cases hgone
      rw [← hend, hmark] at hkept
      cases hkept hnone
    · rintro (h | h | h) -
      · cases h
      · simp [Recovery.start, h]
      · simp [Recovery.start, h]

/-- Recovery marks the job, and resume finds no `submission_context.sh`. -/
theorem marker_leaked :
    (Machine.run Recovery.step (.start ⟨false, .absent, none, ⟨true, [], [], []⟩⟩)
      (List.replicate 10 ⟨true, [], true, true, true⟩)).map
        (fun t => (t.pc, t.launched, t.files.stopped)) =
      some (.launcher (.done 2), false, true) := by decide +kernel

/-- The dispatcher finds a controller. -/
theorem marker_kept_iff_dispatch :
    ∃ t, Machine.run Recovery.step (.start ⟨false, .written, none, ⟨true, [], [], []⟩⟩)
        (List.replicate 16 ⟨true, [], true, true, true⟩ ++ [⟨false, [], false, true, true⟩]) =
          some t ∧ t.pc = .launcher (.done 0) ∧
      (t.launched = false → t.files.stopped = false) := by
  have hrun : (Machine.run Recovery.step (.start ⟨false, .written, none, ⟨true, [], [], []⟩⟩)
      (List.replicate 16 ⟨true, [], true, true, true⟩ ++ [⟨false, [], false, true, true⟩])).map
        (fun t => t.pc) = some (.launcher (.done 0)) := by decide +kernel
  obtain ⟨t, ht, hpc⟩ := Option.map_eq_some_iff.1 hrun
  refine ⟨t, ht, hpc, (marker_kept_iff ht).2 (.inr (.inr ?_))⟩
  decide +kernel

end Site
end Slurmy
