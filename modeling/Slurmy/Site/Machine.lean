import Slurmy.Lib.Machine
import Slurmy.Site.Scripts

/-!
# One job on the cluster

All processes that act on one job directory, and SLURM: controllers with their coordinators, the
scripts that start them, `remote_stop.sh`, the active allocations, and `sbatch` requests that nobody
waits for any more.

* `Call`: what has become of the coordinator's `sbatch`; `Call.answers` is what it can then print;
* `Proc`, `Site`, `Event`, `Site.step`: the machine.  A lock is held by the processes that have its
  descriptor open, so that a process that is killed releases its locks.  A coordinator inherits the
  descriptor of `.submit-controller.lock` from its controller and outlives it.
* `Steps`, `Site.steps_of_step`: everything that one step can do.

`squeue` lists exactly the active allocations.  Cancelled allocations leave the queue when they end.
-/

namespace Slurmy
namespace Site

open Submission

/-! ### Coordinators -/

/-- What has become of the `sbatch` of a coordinator. -/
inductive Call
  /-- it has not been run (yet) -/
  | asked
  /-- SLURM has the request -/
  | sent
  | accepted (id : ℕ)
  | refused
  deriving DecidableEq

/-- What the coordinator can answer: an acceptance only of the ID that SLURM has given, a request to
wait only without an acceptance, and an error at any time.  While `sbatch` runs there is no answer. -/
def Call.answers : Call → Reply → Bool
  | .sent, _ => false
  | _, .failed => true
  | .asked, .wait | .refused, .wait => true
  | .accepted id, .accepted t => t.1 = decimal id
  | _, _ => false

/-- The request can still be accepted. -/
def Call.undecided : Call → Bool
  | .asked | .sent => true
  | _ => false

/-! ### Processes -/

inductive Proc
  /-- `remote_submit.sh`, with the state of its coordinator where there is one -/
  | controller (kind : Kind) (pc : Pc) (call : Call)
  /-- the coordinator of a killed controller, asked about batch `b` -/
  | orphan (kind : Kind) (b : ℕ) (call : Call)
  | launcher (kind : Kind) (pc : LaunchPc)
  | stop (pc : StopPc)
  | gone
  deriving DecidableEq

namespace Proc

/-- The process has `.submit-controller.lock` open and locked. -/
def holdsSubmit : Proc → Bool
  | .controller _ .lock _ | .controller _ (.exited _) _ => false
  | .controller .. | .orphan .. => true
  | _ => false

/-- The process has `.dispatch-launch.lock` open and locked. -/
def holdsLaunch : Proc → Bool
  | .launcher _ pc => pc.holdsLaunch
  | _ => false

/-- The process has `.auto-recovery.lock` open and locked: recovery, and all that it has started. -/
def holdsRecovery : Proc → Bool
  | .launcher .auto pc => pc.holdsRecovery
  | .controller .auto (.exited _) _ => false
  | .controller .auto _ _ | .orphan .auto _ _ => true
  | _ => false

/-- The running coordinator: the batch it is about, and the state of its `sbatch`. -/
def call? : Proc → Option (ℕ × Call)
  | .controller _ (.calling _ b) call => some (b, call)
  | .orphan _ b call => some (b, call)
  | _ => none

def withCall : Proc → Call → Proc
  | .controller kind pc _, call => .controller kind pc call
  | .orphan kind b _, call => .orphan kind b call
  | p, _ => p

/-- After the coordinator has ended without a readable answer. -/
def unanswered : Proc → Proc
  | .controller kind _ _ => .controller kind (.exiting 1) .asked
  | _ => .gone

end Proc

/-- A coordinator belongs to a controller that waits for it, or has been left behind. -/
theorem call?_eq_some {p : Proc} {b : ℕ} {call : Call} (h : p.call? = some (b, call)) :
    (∃ kind l, p = .controller kind (.calling l b) call) ∨ ∃ kind, p = .orphan kind b call := by
  cases p with
  | controller kind pc c => cases pc <;> cases h; exact .inl ⟨kind, _, rfl⟩
  | orphan kind b c => cases h; exact .inr ⟨kind, rfl⟩
  | launcher | stop | gone => cases h

/-! ### The site -/

/-- An active SLURM allocation of the job, with its `SLURMY_BATCH_ID`. -/
structure Alloc where
  id : ℕ
  batch : ℕ
  deriving DecidableEq

/-- The job directory, the active allocations of the job, the batches of the requests whose `sbatch`
has gone, the next SLURM ID, and the processes. -/
structure State where
  files : JobFiles
  queue : List Alloc
  pending : List ℕ
  nextId : ℕ
  procs : List Proc

/-- What SLURM and the environment of the processes do, and which process takes its next step. -/
inductive Event
  | spawnLauncher (kind : Kind)
  | spawnStop
  /-- the next command of a script, and whether it succeeds -/
  | script (i : ℕ) (ok : Bool)
  | move (i : ℕ) (m : Move)
  /-- a coordinator runs `sbatch` -/
  | send (i : ℕ)
  | accept (i : ℕ)
  | refuse (i : ℕ)
  /-- a coordinator ends while its request is undecided -/
  | lose (i : ℕ)
  | kill (i : ℕ)
  | taskEnds (id : ℕ)
  /-- SLURM decides about a request whose `sbatch` has gone -/
  | late (b : ℕ) (accepted : Bool)
  | results (r : ResultFiles)

namespace State

def view (s : State) : View where
  files := s.files
  allocations := s.queue.map Alloc.id
  submitFree := s.procs.all fun p => !p.holdsSubmit
  launchFree := s.procs.all fun p => !p.holdsLaunch
  recoveryFree := s.procs.all fun p => !p.holdsRecovery

def set (s : State) (i : ℕ) (p : Proc) : State := { s with procs := s.procs.set i p }

/-- SLURM accepts batch `b`. -/
def accepted (s : State) (b : ℕ) : State :=
  { s with queue := s.queue ++ [⟨s.nextId, b⟩], nextId := s.nextId + 1 }

/-- The controller can make the move: its lock is free when it takes it, its coordinator can give
this answer, and signals are handled after the coordinator has ended. -/
def allows (s : State) (pc : Pc) (call : Call) (m : Move) : Bool :=
  match pc, m with
  | .lock, .next => s.view.submitFree
  | .calling .., .reply rc out => call.answers (parseReply rc out)
  | .calling .., .abort => false
  | _, _ => true

/-- The effect on the site when the coordinator of process `i` is in this state. -/
def called (s : State) (i : ℕ) (p : Proc) (b : ℕ) : Call → Event → Option State
  | .asked, .send _ => some (s.set i (p.withCall .sent))
  | .sent, .accept _ => some ((s.accepted b).set i (p.withCall (.accepted s.nextId)))
  | .sent, .refuse _ => some (s.set i (p.withCall .refused))
  | .sent, .lose _ => some ({ s with pending := s.pending ++ [b] }.set i p.unanswered)
  | _, _ => none

/-- A step of the coordinator of process `i`. -/
def coordinator (s : State) (i : ℕ) (e : Event) : Option State :=
  match s.procs[i]? with
  | some p =>
      match p.call? with
      | some (b, call) => s.called i p b call e
      | none => none
  | none => none

/-- The controllers started by a command of a launcher. -/
def launched (kind : Kind) (launches : Bool) : List Proc :=
  if launches then [.controller kind .lock .asked] else []

def step (job : Job) (s : State) : Event → Option State
  | .spawnLauncher kind => some { s with procs := s.procs ++ [.launcher kind kind.start] }
  | .spawnStop => some { s with procs := s.procs ++ [.stop .start] }
  | .script i ok =>
      match s.procs[i]? with
      | some (.launcher kind pc) =>
          (pc.step s.view ok).map fun r =>
            { s with
              files := r.1
              procs := s.procs.set i (.launcher kind r.2) ++ launched kind (pc.launches ok) }
      | some (.stop pc) =>
          (pc.step s.view ok).map fun r => { s with files := r.1 }.set i (.stop r.2)
      | _ => none
  | .move i m =>
      match s.procs[i]? with
      | some (.controller kind pc call) =>
          if s.allows pc call m then
            (pc.step job kind.incomplete s.files m).map fun r =>
              { s with files := r.1 }.set i (.controller kind r.2 .asked)
          else none
      | _ => none
  | .send i => s.coordinator i (.send i)
  | .accept i => s.coordinator i (.accept i)
  | .refuse i => s.coordinator i (.refuse i)
  | .lose i => s.coordinator i (.lose i)
  | .kill i =>
      match s.procs[i]? with
      | some (.controller kind (.calling _ b) call) => some (s.set i (.orphan kind b call))
      | some (.orphan _ b .sent) => some ({ s with pending := s.pending ++ [b] }.set i .gone)
      | some _ => some (s.set i .gone)
      | none => none
  | .taskEnds id => some { s with queue := s.queue.filter fun a => a.id ≠ id }
  | .late b accept =>
      if b ∈ s.pending then
        let s := { s with pending := s.pending.erase b }
        some (if accept then s.accepted b else s)
      else none
  | .results r => some { s with files := { s.files with results := r } }

end State

/-! ### Inversion -/

theorem submitFree_iff {s : State} :
    s.view.submitFree = true ↔ ∀ p ∈ s.procs, p.holdsSubmit = false := by
  simp [State.view]

/-- Everything that one step can do. -/
inductive Steps (job : Job) (s : State) : Event → State → Prop
  | spawnedLauncher (kind : Kind) :
      Steps job s (.spawnLauncher kind) { s with procs := s.procs ++ [.launcher kind kind.start] }
  | spawnedStop : Steps job s .spawnStop { s with procs := s.procs ++ [.stop .start] }
  | launcher (i : ℕ) (ok : Bool) (kind : Kind) (pc pc' : LaunchPc) (f : JobFiles) :
      s.procs[i]? = some (.launcher kind pc) → pc.step s.view ok = some (f, pc') →
      Steps job s (.script i ok)
        { s with
          files := f
          procs := s.procs.set i (.launcher kind pc') ++ State.launched kind (pc.launches ok) }
  | stop (i : ℕ) (ok : Bool) (pc pc' : StopPc) (f : JobFiles) :
      s.procs[i]? = some (.stop pc) → pc.step s.view ok = some (f, pc') →
      Steps job s (.script i ok) ({ s with files := f }.set i (.stop pc'))
  | moved (i : ℕ) (m : Move) (kind : Kind) (pc pc' : Pc) (call : Call) (f : JobFiles) :
      s.procs[i]? = some (.controller kind pc call) → s.allows pc call m = true →
      Moves job kind.incomplete s.files pc m f pc' →
      Steps job s (.move i m) ({ s with files := f }.set i (.controller kind pc' .asked))
  | sent (i : ℕ) (p : Proc) (b : ℕ) : s.procs[i]? = some p → p.call? = some (b, .asked) →
      Steps job s (.send i) (s.set i (p.withCall .sent))
  | accepted (i : ℕ) (p : Proc) (b : ℕ) : s.procs[i]? = some p → p.call? = some (b, .sent) →
      Steps job s (.accept i) ((s.accepted b).set i (p.withCall (.accepted s.nextId)))
  | refused (i : ℕ) (p : Proc) (b : ℕ) : s.procs[i]? = some p → p.call? = some (b, .sent) →
      Steps job s (.refuse i) (s.set i (p.withCall .refused))
  | lost (i : ℕ) (p : Proc) (b : ℕ) : s.procs[i]? = some p → p.call? = some (b, .sent) →
      Steps job s (.lose i) ({ s with pending := s.pending ++ [b] }.set i p.unanswered)
  | orphaned (i : ℕ) (kind : Kind) (l : Loop) (b : ℕ) (call : Call) :
      s.procs[i]? = some (.controller kind (.calling l b) call) →
      Steps job s (.kill i) (s.set i (.orphan kind b call))
  | orphanLost (i : ℕ) (kind : Kind) (b : ℕ) : s.procs[i]? = some (.orphan kind b .sent) →
      Steps job s (.kill i) ({ s with pending := s.pending ++ [b] }.set i .gone)
  | killed (i : ℕ) (p : Proc) : s.procs[i]? = some p → Steps job s (.kill i) (s.set i .gone)
  | ended (id : ℕ) :
      Steps job s (.taskEnds id) { s with queue := s.queue.filter fun a => a.id ≠ id }
  | lateAccepted (b : ℕ) : b ∈ s.pending →
      Steps job s (.late b true) ({ s with pending := s.pending.erase b }.accepted b)
  | lateRefused (b : ℕ) : b ∈ s.pending →
      Steps job s (.late b false) { s with pending := s.pending.erase b }
  | published (r : ResultFiles) :
      Steps job s (.results r) { s with files := { s.files with results := r } }

theorem State.coordinator_eq_some {s t : State} {i : ℕ} {e : Event}
    (h : s.coordinator i e = some t) :
    ∃ p b call, s.procs[i]? = some p ∧ p.call? = some (b, call) ∧ s.called i p b call e = some t := by
  unfold State.coordinator at h
  cases hp : s.procs[i]? with
  | none => rw [hp] at h; cases h
  | some p =>
    rw [hp] at h
    cases hc : p.call? with
    | none => simp only [hc] at h; cases h
    | some c =>
      simp only [hc] at h
      exact ⟨p, c.1, c.2, rfl, hc, h⟩

/-- The inversion of a step. -/
theorem State.steps_of_step {job : Job} {s t : State} {e : Event} (h : s.step job e = some t) :
    Steps job s e t := by
  cases e with
  | spawnLauncher kind => cases h; exact .spawnedLauncher kind
  | spawnStop => cases h; exact .spawnedStop
  | script i ok =>
    simp only [State.step] at h
    split at h
    · next kind pc hp =>
      obtain ⟨⟨f, pc'⟩, hpc, rfl⟩ := Option.map_eq_some_iff.1 h
      exact .launcher i ok kind pc pc' f hp hpc
    · next pc hp =>
      obtain ⟨⟨f, pc'⟩, hpc, rfl⟩ := Option.map_eq_some_iff.1 h
      exact .stop i ok pc pc' f hp hpc
    · cases h
  | move i m =>
    simp only [State.step] at h
    split at h
    · next kind pc call hp =>
      obtain ⟨hallow, h⟩ := Option.ite_none_right_eq_some.1 h
      obtain ⟨⟨f, pc'⟩, hpc, rfl⟩ := Option.map_eq_some_iff.1 h
      exact .moved i m kind pc pc' call f hp hallow (Pc.moves_of_step hpc)
    · cases h
  | send i =>
    obtain ⟨p, b, call, hp, hc, h⟩ := State.coordinator_eq_some h
    cases call <;> cases h
    exact .sent i p b hp hc
  | accept i =>
    obtain ⟨p, b, call, hp, hc, h⟩ := State.coordinator_eq_some h
    cases call <;> cases h
    exact .accepted i p b hp hc
  | refuse i =>
    obtain ⟨p, b, call, hp, hc, h⟩ := State.coordinator_eq_some h
    cases call <;> cases h
    exact .refused i p b hp hc
  | lose i =>
    obtain ⟨p, b, call, hp, hc, h⟩ := State.coordinator_eq_some h
    cases call <;> cases h
    exact .lost i p b hp hc
  | kill i =>
    simp only [State.step] at h
    split at h
    · next kind l b call hp => cases h; exact .orphaned i kind l b call hp
    · next kind b hp => cases h; exact .orphanLost i kind b hp
    · next p _ _ hp => cases h; exact .killed i p hp
    · cases h
  | taskEnds id => cases h; exact .ended id
  | late b accept =>
    obtain ⟨hb, h⟩ := Option.ite_none_right_eq_some.1 h
    cases accept with
    | true => cases h; exact .lateAccepted b hb
    | false => cases h; exact .lateRefused b hb
  | results r => cases h; exact .published r

end Site
end Slurmy
