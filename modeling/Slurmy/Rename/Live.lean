import Slurmy.Monitor.RecoveryWatch
import Slurmy.Rename.History
import Slurmy.Site.Idle

/-!
# Renaming among controllers

One run of `remote_rename_job.sh`, by hand or for the rename request of the web app, on the site of
the job.

* `Stage`, `State`, `Event`, `State.step`: the machine; the app decides from a snapshot that may be
  old, the script from a queue query;
* `moves`: the directory is moved, there or back;
* `observed`: nobody holds the controller's lock at the queue query, and nobody takes it before the
  last `mv`;
* `moved_idle`: then the directory is moved only without a controller and without an allocation;
* `moved_live`: neither check looks at the lock in time.
-/

namespace Slurmy
namespace Rename
namespace Live

variable {ν : Type*} [DecidableEq ν]

/-! ### The machine -/

inductive Stage (ν : Type*)
  /-- the request of the web app, before it looks at its snapshot -/
  | request (oldId newId : ν)
  /-- the app has refused the request -/
  | refused
  | script (r : Run ν)
  deriving DecidableEq

/-- The site of the job, the app's snapshot of the job, and the rename. -/
structure State (ν : Type*) where
  site : Site.State
  snapshot : Option Monitor.JobSnapshot
  stage : Stage ν

inductive Event
  | site (e : Site.Event)
  /-- the app replaces its snapshot -/
  | refresh (job : Monitor.JobSnapshot)
  /-- `rename_job` looks at the snapshot, and at the app's running operations -/
  | check (busy : Bool)
  /-- the next command of the script, and whether it succeeds -/
  | next (ok : Bool)

/-- What a snapshot that is taken now says about the queue and the controller's lock.  The state of
the submission is what the file says. -/
def fetched (s : Site.State) (job : Monitor.JobSnapshot) : Bool :=
  job.activeRecords = (job.queueAvailable && s.queue ≠ []) &&
    match job.controllerState with
    | .active => !s.view.submitFree
    | .inactive => s.view.submitFree
    | .unknown => true

/-- The first test of `rename_job`. -/
def refuses (job : Monitor.JobSnapshot) : Bool :=
  job.activeRecords || job.submitting && job.controllerState ≠ .inactive

/-- The IDs differ, so that there is something to move. -/
def renames (r : Run ν) : Bool := r.oldId ≠ r.newId

/-- Where the script goes when its next command succeeds. -/
def proceed (s : Site.State) : RenamePc → Option RenamePc
  | .arguments => some .source
  | .source => some .target
  | .target => some .queue
  | .queue => some (if s.queue = [] then .move else .exited 4)
  | .move => some .metadata
  | .metadata => some .print
  | .rollback => some (.exited 5)
  | .print => some (.exited 0)
  | .exited _ => none

def State.step (job : Submission.Job) (s : State ν) : Event → Option (State ν)
  -- also when the directory has its new name: its processes are in it, and others start under that name
  | .site e => (s.site.step job e).map fun t => { s with site := t }
  | .refresh j => if fetched s.site j then some { s with snapshot := some j } else none
  | .check busy =>
      match s.stage, s.snapshot with
      | .request oldId newId, some j =>
          some { s with
            stage := if refuses j || busy then .refused else .script ⟨oldId, newId, .arguments⟩ }
      | _, _ => none
  | .next ok =>
      match s.stage with
      | .script r =>
          (if ok then proceed s.site r.pc else some r.pc.failed).map fun pc =>
            { s with stage := .script { r with pc := pc } }
      | _ => none

/-- The step is one of the two `mv`. -/
def moves (s : State ν) : Event → Bool
  | .next true =>
      match s.stage with
      | .script r => renames r && (r.pc = .move || r.pc = .rollback)
      | _ => false
  | _ => false

/-- The script has found the queue empty, and may still move the directory. -/
def mayMove : RenamePc → Bool
  | .move | .metadata | .rollback => true
  | _ => false

/-- The rename has not begun. -/
def Stage.starting : Stage ν → Bool
  | .request .. => true
  | .script r => r.pc = .arguments
  | .refused => false

/-- When the queue query of the script lists nothing, nobody holds the controller's lock and no
request is undecided; and no controller takes its lock between the query and the last `mv`. -/
def observed (s : State ν) (e : Event) : Bool :=
  match s.stage, e with
  | .script r, .next true =>
      !renames r || r.pc ≠ .queue || s.site.queue ≠ [] ||
        s.site.view.submitFree && s.site.pending = []
  | .script r, .site e => !renames r || !mayMove r.pc || !Site.takesLock s.site e
  | _, _ => true

/-! ### From the query to the last `mv` -/

/-- While the script may move the directory, the site is idle. -/
def Cleared (s : State ν) : Prop :=
  ∀ r, s.stage = .script r → renames r = true → mayMove r.pc = true → Site.Idle s.site

section Steps

variable {job : Submission.Job} {s t : State ν}

theorem cleared_of_starting (h : s.stage.starting = true) : Cleared s := by
  intro r hr _ hpc
  rw [hr] at h
  rw [of_decide_eq_true h] at hpc
  cases hpc

/-- The queue query. -/
theorem idle_of_observed {r : Run ν} (hr : s.stage = .script r) (hrenames : renames r = true)
    (hpc : r.pc = .queue) (hqueue : s.site.queue = [])
    (hobserved : observed s (.next true) = true) : Site.Idle s.site := by
  have hboth : s.site.view.submitFree = true ∧ s.site.pending = [] := by
    simpa [observed, hr, hrenames, hpc, hqueue] using hobserved
  exact ⟨hqueue, hboth.2, Site.submitFree_iff.1 hboth.1⟩

theorem Cleared.site (h : Cleared s) {e : Site.Event} (hobserved : observed s (.site e) = true)
    {site : Site.State} (hstep : s.site.step job e = some site) :
    Cleared { s with site := site } := by
  intro r hr hrenames hmay
  have hr' : s.stage = .script r := hr
  have htakes : Site.takesLock s.site e = false := by
    simpa [observed, hr', hrenames, hmay] using hobserved
  exact (h r hr' hrenames hmay).step htakes hstep

/-- A failed command leads to a `mv` only after the first one. -/
theorem mayMove_of_failed {pc : RenamePc} (h : mayMove pc.failed = true) : mayMove pc = true := by
  cases pc with
  | metadata => rfl
  | _ => cases h

/-- The script gets to its `mv` only by the query. -/
theorem mayMove_of_proceed {site : Site.State} {pc pc' : RenamePc} (h : proceed site pc = some pc')
    (hmay : mayMove pc' = true) : mayMove pc = true ∨ pc = .queue ∧ site.queue = [] := by
  cases pc with
  | queue =>
    obtain rfl := Option.some.inj h
    split_ifs at hmay with hqueue
    · exact .inr ⟨rfl, hqueue⟩
    · cases hmay
  | move => exact .inl rfl
  | arguments | source | target | metadata | rollback | print =>
    obtain rfl := Option.some.inj h
    cases hmay
  | exited rc => cases h

theorem Cleared.next (h : Cleared s) {ok : Bool} (hobserved : observed s (.next ok) = true) {r : Run ν}
    {pc : RenamePc} (hr : s.stage = .script r)
    (hpc : (if ok then proceed s.site r.pc else some r.pc.failed) = some pc) :
    Cleared { s with stage := .script { r with pc := pc } } := by
  rintro r' hr' hrenames hmay
  cases hr'
  show Site.Idle s.site
  cases ok with
  | false =>
    obtain rfl := Option.some.inj hpc
    exact h r hr hrenames (mayMove_of_failed hmay)
  | true =>
    rcases mayMove_of_proceed hpc hmay with hmay | ⟨hquery, hqueue⟩
    · exact h r hr hrenames hmay
    · exact idle_of_observed hr hrenames hquery hqueue hobserved

theorem Cleared.step (h : Cleared s) {e : Event} (hobserved : observed s e = true)
    (hstep : s.step job e = some t) : Cleared t := by
  cases e with
  | site e =>
    obtain ⟨site, hsite, rfl⟩ := Option.map_eq_some_iff.1 hstep
    exact h.site hobserved hsite
  | refresh j =>
    obtain ⟨-, heq⟩ := Option.ite_none_right_eq_some.1 hstep
    cases heq
    exact h
  | check busy =>
    simp only [State.step] at hstep
    split at hstep
    · cases hstep
      rintro r hr _ hmove
      have hr : (if refuses _ || busy then .refused else .script _) = Stage.script r := hr
      split_ifs at hr
      cases hr
      cases hmove
    · cases hstep
  | next ok =>
    simp only [State.step] at hstep
    split at hstep
    · next r hr =>
      obtain ⟨pc, hpc, rfl⟩ := Option.map_eq_some_iff.1 hstep
      exact h.next hobserved hr hpc
    · cases hstep

end Steps

/-- **No rename under a live controller.**  The script runs, by hand or for the app, among
dispatches, recoveries, stops, controllers and allocations of the job.  If nobody holds the
controller's lock when its queue query lists nothing, no request is undecided then, and no
controller takes its lock from there on, the directory is moved to its new name, and back when the
metadata cannot be written, only at moments when nobody holds the lock and SLURM has no allocation
of the job. -/
theorem moved_idle (job : Submission.Job) (s₀ s : State ν) (es : List Event) (e : Event)
    (hstart : s₀.stage.starting = true)
    (hobserved : Machine.Along (State.step job) (fun s e => observed s e = true) s₀ es)
    (hrun : Machine.run (State.step job) s₀ es = some s) (hmoves : moves s e = true) :
    s.site.view.submitFree = true ∧ s.site.queue = [] := by
  have hcleared : Cleared s := Machine.invariant_along
    (fun _ _ _ hs hc => hs.step hc) (cleared_of_starting hstart) hobserved hrun
  unfold moves at hmoves
  split at hmoves
  · split at hmoves
    · next r hr =>
      obtain ⟨hrenames, hpc⟩ := Bool.and_eq_true_iff.1 hmoves
      have hmay : mayMove r.pc = true := by
        rcases Bool.or_eq_true_iff.1 hpc with hmove | hrollback
        · rw [of_decide_eq_true hmove]
          rfl
        · rw [of_decide_eq_true hrollback]
          rfl
      have hidle := hcleared r hr hrenames hmay
      exact ⟨Site.submitFree_iff.2 hidle.free, hidle.queue⟩
    · cases hmoves
  · cases hmoves

/-- A finished job, and a request of the app to rename it. -/
def finished : State Bool :=
  ⟨.fresh ⟨false, .written, some (Submission.table []), ⟨true, [], [], []⟩⟩, none, .request false true⟩

/-- The snapshot of a finished job. -/
def snapshot : Monitor.JobSnapshot := ⟨['a'], .other, 1, 1, .inactive, false, false, true⟩

/-- A controller that is started during the rename and ends before the query; the metadata cannot be
written, and the directory is to be moved back. -/
theorem moved_idle_finished :
    let job : Submission.Job := ⟨1, [[0]], by decide⟩
    let es : List Event := [Event.refresh snapshot, .check false, .site (.spawnLauncher .dispatch)] ++
      List.replicate 5 (Event.site (.script 0 true)) ++
      [Event.site (.move 1 .next), .next true, .site (.move 1 .abort), .site (.move 1 .next)] ++
      List.replicate 4 (Event.next true) ++ [.next false]
    ∃ s, Machine.run (State.step job) finished es = some s ∧ moves s (.next true) = true ∧
      s.site.view.submitFree = true ∧ s.site.queue = [] := by
  intro job es
  have hobserved : Machine.Along (State.step job) (fun s e => observed s e = true) finished es := by
    decide +kernel
  have hlast : (Machine.run (State.step job) finished es).map (fun s => moves s (.next true)) =
      some true := by decide +kernel
  obtain ⟨s, hrun, hmoves⟩ := Option.map_eq_some_iff.1 hlast
  exact ⟨s, hrun, hmoves, moved_idle job finished s es (.next true) rfl hobserved hrun hmoves⟩

/-- The app has just seen the job finished.  Then the job is dispatched again; its controller holds
the lock, has submitted nothing yet, and loses its directory. -/
theorem moved_live :
    ¬ ∀ (job : Submission.Job) (s₀ s : State Bool) (es : List Event) (e : Event),
      s₀.stage.starting = true → Machine.run (State.step job) s₀ es = some s → moves s e = true →
      s.site.view.submitFree = true ∧ s.site.queue = [] := by
  intro hall
  let job : Submission.Job := ⟨1, [[0]], by decide⟩
  let es : List Event := [Event.refresh snapshot, .check false, .site (.spawnLauncher .dispatch)] ++
    List.replicate 5 (Event.site (.script 0 true)) ++ [Event.site (.move 1 .next)] ++
    List.replicate 4 (Event.next true)
  have hlast : (Machine.run (State.step job) finished es).map
      (fun s => (moves s (.next true), s.site.view.submitFree)) = some (true, false) := by
    decide +kernel
  obtain ⟨s, hrun, hs⟩ := Option.map_eq_some_iff.1 hlast
  obtain ⟨hmoves, hheld⟩ := Prod.mk.inj hs
  have hfree := (hall job finished s es (.next true) rfl hrun hmoves).1
  rw [hheld] at hfree
  cases hfree

end Live
end Rename
end Slurmy
