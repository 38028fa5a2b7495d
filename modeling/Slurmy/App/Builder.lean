import Slurmy.Lib.Machine
import Slurmy.Workflow.Save

/-!
# Cancelling a save

`builder_stream` and `cancel_builder` of `app.py`: a thread saves a workflow, and its progress can be cancelled
until it commits.

* `Step`, `Work`: what the thread does;
* `State`, `Event`, `State.next`: the thread, the requests to cancel, and the end of the response;
* `Sound`: what the thread has still to do, before and after it commits;
* `cancel_linearizable`: over runs.
-/

namespace Slurmy
namespace Builder

open Disk Saving

/-! ### The thread -/

/-- The phases that `specification` reports. -/
inductive Phase
  | phase
  | calls
  | batches
  | paths
  | scanning
  | indexed
  | extracting
  | extracted
  deriving DecidableEq

inductive Step
  /-- `progress` in `specification` -/
  | progress (phase : Phase)
  /-- `progress('committing', …)` -/
  | commit
  /-- the manifest is read -/
  | read
  /-- a file operation, with what the `except` clause does after it -/
  | file (op : Op Text UInt8) (undo : List (Op Text UInt8))
  deriving DecidableEq

/-- The streaming `save`, with `created`, and `rename_and_save` to another name; the phases are those that
`specification` happens to report. -/
inductive Work
  | save (phases : List Phase) (destination : Path) (created : Bool) (files : List (FileName × Bytes))
  | moveAndSave (phases : List Phase) (source destination : Path) (files : List (FileName × Bytes))

/-- What is done after the commit. -/
def Work.writes : Work → List Step
  | save _ destination created files =>
      (if created then [.file (.mkdirs destination.dropLast) [], .file (.mkdir destination) []] else []) ++
        (saveOps destination files).map fun op => .file op (if created then [.rmtree destination] else [])
  | moveAndSave _ source destination files =>
      .read :: .file (.rename source destination) [] ::
        (saveOps destination files).map fun op => .file op [.rename destination source]

def Work.phases : Work → List Phase
  | save phases _ _ _ | moveAndSave phases _ _ _ => phases

/-- What the thread does, one step after the other. -/
def Work.steps (work : Work) : List Step := work.phases.map .progress ++ .commit :: work.writes

/-- The last message of the response. -/
inductive Outcome
  | result
  | cancelled
  | error
  deriving DecidableEq

inductive Pc
  /-- `with guard` -/
  | waiting (todo : List Step)
  | running (todo : List Step)
  /-- in `progress`, with the lock, after the check -/
  | inside (commits : Bool) (todo : List Step)
  /-- in the `except` clause -/
  | undoing (ops : List (Op Text UInt8))
  | ended (outcome : Outcome)
  /-- the message is in the queue -/
  | posted
  /-- the operation is no longer registered -/
  | gone
  deriving DecidableEq

/-- `written` are the file operations so far, the last one maybe without success. -/
structure State where
  pc : Pc
  cancel : Bool
  committing : Bool
  registered : Bool
  outcome : Option Outcome
  streaming : Bool
  written : List (Op Text UInt8)
  deriving DecidableEq

inductive Event
  /-- the thread's next step does what it should -/
  | work
  /-- the thread's next step raises an exception of its own -/
  | fails
  /-- the section of `cancel_builder` under the lock -/
  | cancel
  /-- the response ends, after its last message or since the client is gone -/
  | close
  deriving DecidableEq

def Event.isThread : Event → Bool
  | work | fails => true
  | cancel | close => false

namespace State

def initial (work : Work) : State := ⟨.waiting work.steps, false, false, true, none, true, []⟩

variable (s : State)

/-- `cancelled` in the answer to a request. -/
def answer : Bool := s.registered && !s.committing

/-- The thread's next step. -/
def advance : Option State :=
  match s.pc with
  | .waiting todo => some { s with pc := .running todo }
  | .running (.progress _ :: todo) => some { s with pc := if s.cancel then .ended .cancelled else .inside false todo }
  | .running (.commit :: todo) => some { s with pc := if s.cancel then .ended .cancelled else .inside true todo }
  | .running (.read :: todo) => some { s with pc := .running todo }
  | .running (.file op _ :: todo) => some { s with pc := .running todo, written := s.written ++ [op] }
  | .running [] => some { s with pc := .ended .result }
  | .inside commits todo => some { s with pc := .running todo, committing := s.committing || commits }
  | .undoing [] => some { s with pc := .ended .error }
  | .undoing (op :: ops) => some { s with pc := .undoing ops, written := s.written ++ [op] }
  | .ended outcome => some { s with pc := .posted, outcome := some outcome }
  | .posted => some { s with pc := .gone, registered := false }
  | .gone => none

/-- The thread's next step raises an exception. -/
def raise : Option State :=
  match s.pc with
  | .running (.file op undo :: _) => some { s with pc := .undoing undo, written := s.written ++ [op] }
  | .running _ => some { s with pc := .ended .error }
  | .undoing (op :: _) => some { s with pc := .ended .error, written := s.written ++ [op] }
  | _ => none

/-- The thread has the lock. -/
def isLocked : Bool :=
  match s.pc with
  | .inside _ _ => true
  | _ => false

def next : Event → Option State
  | .work => s.advance
  | .fails => s.raise
  | .cancel => if s.isLocked then none else some { s with cancel := s.cancel || s.answer }
  | .close => if s.streaming then some { s with cancel := true, streaming := false } else none

end State

/-! ### What is still to do -/

/-- The steps after the commit. -/
def Step.writes : Step → Bool
  | progress _ | commit => false
  | read | file _ _ => true

/-- Nothing but what comes after the commit. -/
def Committed (todo : List Step) : Prop := ∀ step ∈ todo, step.writes = true

/-- The commit comes first. -/
def Uncommitted (todo : List Step) : Prop :=
  ∃ (phases : List Phase) (rest : List Step), todo = phases.map Step.progress ++ .commit :: rest ∧ Committed rest

theorem committed_map {ops : List (Op Text UInt8)} {undo : List (Op Text UInt8)} :
    Committed (ops.map fun op => .file op undo) := by
  intro step hstep
  obtain ⟨op, -, rfl⟩ := List.mem_map.mp hstep
  rfl

theorem committed_writes (work : Work) : Committed work.writes := by
  intro step hstep
  cases work with
  | save phases destination created files =>
    rcases List.mem_append.mp hstep with hstep | hstep
    · split_ifs at hstep
      · rcases List.mem_cons.mp hstep with rfl | hstep
        · rfl
        · rw [List.mem_singleton.mp hstep]
          rfl
      · cases hstep
    · exact committed_map step hstep
  | moveAndSave phases source destination files =>
    rcases List.mem_cons.mp hstep with rfl | hstep
    · rfl
    · rcases List.mem_cons.mp hstep with rfl | hstep
      · rfl
      · exact committed_map step hstep

theorem uncommitted_steps (work : Work) : Uncommitted work.steps :=
  ⟨work.phases, work.writes, rfl, committed_writes work⟩

/-- Before the commit there is a phase, or the commit itself. -/
theorem Uncommitted.cons {step : Step} {todo : List Step} (h : Uncommitted (step :: todo)) :
    ((∃ p, step = .progress p) ∧ Uncommitted todo) ∨ (step = .commit ∧ Committed todo) := by
  obtain ⟨phases, rest, heq, hrest⟩ := h
  cases phases with
  | nil =>
    obtain ⟨rfl, rfl⟩ := List.cons.inj heq
    exact .inr ⟨rfl, hrest⟩
  | cons phase phases =>
    obtain ⟨rfl, rfl⟩ := List.cons.inj heq
    exact .inl ⟨⟨phase, rfl⟩, phases, rest, rfl, hrest⟩

/-- How far the thread is, before and after the commit. -/
def Pc.Sound (committing : Bool) : Pc → Prop
  | waiting todo | running todo => if committing then Committed todo else Uncommitted todo
  | inside commits todo => committing = false ∧ if commits then Committed todo else Uncommitted todo
  | undoing _ => committing = true
  | ended outcome => outcome = .cancelled → committing = false
  | posted | gone => True

structure Sound (s : State) : Prop where
  pc : s.pc.Sound s.committing
  written : s.committing = false → s.written = []
  early : s.pc ≠ .posted → s.pc ≠ .gone → s.outcome = none
  outcome : s.outcome = some .cancelled → s.committing = false

theorem initial_sound (work : Work) : Sound (.initial work) :=
  ⟨uncommitted_steps work, fun _ => rfl, fun _ _ => rfl, fun h => nomatch h⟩

variable {s t : State} {e : Event}

/-- A step before the last message. -/
theorem Sound.goes (h : Sound s) {pc : Pc} (hearly : s.pc ≠ .posted ∧ s.pc ≠ .gone) {committing : Bool}
    {written : List (Op Text UInt8)} (hpc : pc.Sound committing) (hwritten : committing = false → written = []) :
    Sound { s with pc := pc, committing := committing, written := written } := by
  have hnone : s.outcome = none := h.early hearly.1 hearly.2
  refine ⟨hpc, hwritten, fun _ _ => hnone, fun heq => ?_⟩
  exact absurd (hnone.symm.trans heq) (Option.some_ne_none _).symm

theorem Sound.advance (h : Sound s) (hstep : s.advance = some t) : Sound t := by
  obtain ⟨pc, cancel, committing, registered, outcome, streaming, written⟩ := s
  have hpc := h.pc
  have hwritten := h.written
  cases pc with
  | waiting todo =>
    cases hstep
    exact h.goes ⟨nofun, nofun⟩ hpc hwritten
  | running todo =>
    cases todo with
    | nil =>
      cases hstep
      exact h.goes ⟨nofun, nofun⟩ nofun hwritten
    | cons step todo =>
      cases committing with
      | true =>
        have hall : Committed (step :: todo) := hpc
        have htodo : Committed todo := fun st hst => hall st (List.mem_cons_of_mem _ hst)
        have hwrites := hall step List.mem_cons_self
        cases step with
        | progress p => cases hwrites
        | commit => cases hwrites
        | read =>
          cases hstep
          exact h.goes ⟨nofun, nofun⟩ htodo hwritten
        | file op undo =>
          cases hstep
          exact h.goes ⟨nofun, nofun⟩ htodo nofun
      | false =>
        have huncommitted : Uncommitted (step :: todo) := hpc
        rcases huncommitted.cons with ⟨⟨p, rfl⟩, htodo⟩ | ⟨rfl, htodo⟩
        · cases hstep
          refine h.goes ⟨nofun, nofun⟩ ?_ hwritten
          cases cancel with
          | true => exact fun _ => rfl
          | false => exact ⟨rfl, htodo⟩
        · cases hstep
          refine h.goes ⟨nofun, nofun⟩ ?_ hwritten
          cases cancel with
          | true => exact fun _ => rfl
          | false => exact ⟨rfl, htodo⟩
  | inside commits todo =>
    cases hstep
    obtain ⟨rfl, htodo⟩ := hpc
    exact h.goes ⟨nofun, nofun⟩ htodo fun _ => hwritten rfl
  | undoing ops =>
    have hcommitted : committing = true := hpc
    subst hcommitted
    cases ops with
    | nil =>
      cases hstep
      exact h.goes ⟨nofun, nofun⟩ nofun hwritten
    | cons op ops =>
      cases hstep
      exact h.goes ⟨nofun, nofun⟩ rfl nofun
  | ended outcome' =>
    cases hstep
    exact ⟨trivial, hwritten, fun hne => absurd rfl hne, fun heq => hpc (Option.some.inj heq)⟩
  | posted =>
    cases hstep
    exact ⟨trivial, hwritten, fun _ hne => absurd rfl hne, h.outcome⟩
  | gone => cases hstep

theorem Sound.raise (h : Sound s) (hstep : s.raise = some t) : Sound t := by
  obtain ⟨pc, cancel, committing, registered, outcome, streaming, written⟩ := s
  have hpc := h.pc
  have hwritten := h.written
  cases pc with
  | running todo =>
    cases todo with
    | nil =>
      cases hstep
      exact h.goes ⟨nofun, nofun⟩ nofun hwritten
    | cons step todo =>
      cases step with
      | file op undo =>
        cases committing with
        | true =>
          cases hstep
          exact h.goes ⟨nofun, nofun⟩ rfl nofun
        | false =>
          -- a file operation comes after the commit
          have huncommitted : Uncommitted (.file op undo :: todo) := hpc
          rcases huncommitted.cons with ⟨⟨p, hp⟩, -⟩ | ⟨hcommit, -⟩
          · cases hp
          · cases hcommit
      | _ =>
        cases hstep
        exact h.goes ⟨nofun, nofun⟩ nofun hwritten
  | undoing ops =>
    have hcommitted : committing = true := hpc
    subst hcommitted
    cases ops with
    | nil => cases hstep
    | cons op ops =>
      cases hstep
      exact h.goes ⟨nofun, nofun⟩ nofun nofun
  | _ => cases hstep

theorem Sound.step (h : Sound s) (hstep : s.next e = some t) : Sound t := by
  cases e with
  | work => exact h.advance hstep
  | fails => exact h.raise hstep
  | cancel =>
    simp only [State.next] at hstep
    split_ifs at hstep
    cases hstep
    exact ⟨h.pc, h.written, h.early, h.outcome⟩
  | close =>
    simp only [State.next] at hstep
    split_ifs at hstep
    cases hstep
    exact ⟨h.pc, h.written, h.early, h.outcome⟩

/-! ### A cancel that is answered -/

/-- The save is cancelled, and does not commit any more. -/
structure Doomed (s : State) : Prop where
  sound : Sound s
  cancel : s.cancel = true
  committing : s.committing = false
  unlocked : s.isLocked = false

theorem Doomed.step (h : Doomed s) (hstep : s.next e = some t) : Doomed t := by
  have hsound := h.sound.step hstep
  obtain ⟨pc, cancel, committing, registered, outcome, streaming, written⟩ := s
  obtain ⟨hs, rfl, rfl, hunlocked⟩ := h
  have hpc := hs.pc
  cases e with
  | work =>
    cases pc with
    | running todo =>
      cases todo with
      | nil => cases hstep; exact ⟨hsound, rfl, rfl, rfl⟩
      | cons step todo =>
        have huncommitted : Uncommitted (step :: todo) := hpc
        rcases huncommitted.cons with ⟨⟨p, rfl⟩, -⟩ | ⟨rfl, -⟩
        · cases hstep
          exact ⟨hsound, rfl, rfl, rfl⟩
        · cases hstep
          exact ⟨hsound, rfl, rfl, rfl⟩
    | inside commits todo => cases hunlocked
    | undoing ops => cases hpc
    | gone => cases hstep
    | _ =>
      cases hstep
      exact ⟨hsound, rfl, rfl, rfl⟩
  | fails =>
    cases pc with
    | running todo =>
      cases todo with
      | nil => cases hstep; exact ⟨hsound, rfl, rfl, rfl⟩
      | cons step todo =>
        cases step <;> cases hstep <;> exact ⟨hsound, rfl, rfl, rfl⟩
    | undoing ops => cases hpc
    | _ => cases hstep
  | cancel =>
    simp only [State.next] at hstep
    split_ifs at hstep
    cases hstep
    exact ⟨hsound, rfl, rfl, hunlocked⟩
  | close =>
    simp only [State.next] at hstep
    split_ifs at hstep
    cases hstep
    exact ⟨hsound, rfl, rfl, hunlocked⟩

/-! ### A save that writes -/

/-- After the commit the thread does the same whatever the requests are. -/
theorem Sound.advance_committed (h : Sound s) (hcommitting : s.committing = true) (hstep : s.advance = some t)
    (c o : Bool) : { s with cancel := c, streaming := o }.advance = some { t with cancel := c, streaming := o } ∧
      t.committing = true := by
  obtain ⟨pc, cancel, committing, registered, outcome, streaming, written⟩ := s
  cases hcommitting
  have hpc := h.pc
  cases pc with
  | running todo =>
    cases todo with
    | nil => cases hstep; exact ⟨rfl, rfl⟩
    | cons step todo =>
      have hwrites : step.writes = true := hpc step List.mem_cons_self
      cases step with
      | progress p => cases hwrites
      | commit => cases hwrites
      | _ => cases hstep; exact ⟨rfl, rfl⟩
  | inside commits todo => cases hpc.1
  | undoing ops => cases ops <;> cases hstep <;> exact ⟨rfl, rfl⟩
  | gone => cases hstep
  | _ => cases hstep; exact ⟨rfl, rfl⟩

theorem raise_committed (hcommitting : s.committing = true) (hstep : s.raise = some t) (c o : Bool) :
    { s with cancel := c, streaming := o }.raise = some { t with cancel := c, streaming := o } ∧
      t.committing = true := by
  obtain ⟨pc, cancel, committing, registered, outcome, streaming, written⟩ := s
  cases hcommitting
  cases pc with
  | running todo =>
    cases todo with
    | nil => cases hstep; exact ⟨rfl, rfl⟩
    | cons step todo => cases step <;> cases hstep <;> exact ⟨rfl, rfl⟩
  | undoing ops =>
    cases ops with
    | nil => cases hstep
    | cons op ops => cases hstep; exact ⟨rfl, rfl⟩
  | _ => cases hstep

/-- A request, or the end of the response, changes two flags. -/
theorem next_request (hrequest : e.isThread = false) (hstep : s.next e = some t) :
    t = { s with cancel := t.cancel, streaming := t.streaming } := by
  cases e with
  | work => cases hrequest
  | fails => cases hrequest
  | cancel =>
    simp only [State.next] at hstep
    split_ifs at hstep
    cases hstep
    rfl
  | close =>
    simp only [State.next] at hstep
    split_ifs at hstep
    cases hstep
    rfl

/-- The thread goes on as if there were no requests. -/
theorem Sound.run_committed {es : List Event} (h : Sound s) (hcommitting : s.committing = true)
    (hrun : Machine.run State.next s es = some t) (c o : Bool) :
    Machine.run State.next { s with cancel := c, streaming := o } (es.filter Event.isThread) =
      some { t with cancel := c, streaming := o } ∧ t.committing = true := by
  induction es generalizing s with
  | nil =>
    cases hrun
    exact ⟨rfl, hcommitting⟩
  | cons e es ih =>
    obtain ⟨m, hm, hrest⟩ := Machine.run_cons_some.mp hrun
    have hsound := h.step hm
    cases hthread : e.isThread with
    | true =>
      have hsame : { s with cancel := c, streaming := o }.next e = some { m with cancel := c, streaming := o } ∧
          m.committing = true := by
        cases e with
        | work => exact h.advance_committed hcommitting hm c o
        | fails => exact raise_committed hcommitting hm c o
        | cancel => cases hthread
        | close => cases hthread
      obtain ⟨htail, hend⟩ := ih hsound hsame.2 hrest
      rw [List.filter_cons_of_pos hthread]
      exact ⟨Machine.run_cons_some.mpr ⟨_, hsame.1, htail⟩, hend⟩
    | false =>
      have hflags := next_request hthread hm
      rw [hflags] at hsound hrest
      obtain ⟨htail, hend⟩ := ih hsound hcommitting hrest
      rw [List.filter_cons_of_neg (by rw [hthread]; exact Bool.false_ne_true)]
      exact ⟨htail, hend⟩

/-- A save that is cancelled with success never writes; and one that has begun to write is not cancelled with
success, and does what it would do without requests. -/
theorem cancel_linearizable {work : Work} {es es' : List Event}
    (hs : Machine.run State.next (.initial work) es = some s) :
    (s.answer = true → Machine.run State.next s (.cancel :: es') = some t → t.written = []) ∧
    (s.written ≠ [] → Machine.run State.next s es' = some t →
      t.answer = false ∧ t.outcome ≠ some .cancelled ∧
        ∃ t', Machine.run State.next s (es'.filter Event.isThread) = some t' ∧ t'.pc = t.pc ∧
          t'.written = t.written ∧ t'.outcome = t.outcome) := by
  have hsound : Sound s := Machine.invariant (fun _ _ _ h hstep => h.step hstep) (initial_sound work) hs
  constructor
  · intro hanswer hrun
    obtain ⟨m, hm, hrest⟩ := Machine.run_cons_some.mp hrun
    have hsoundm := hsound.step hm
    have hcommitting : s.committing = false := by
      unfold State.answer at hanswer
      simp only [Bool.and_eq_true, Bool.not_eq_true'] at hanswer
      exact hanswer.2
    have hdoomed : Doomed m := by
      simp only [State.next] at hm
      split_ifs at hm with hlocked
      cases hm
      refine ⟨hsoundm, ?_, hcommitting, eq_false_of_ne_true hlocked⟩
      rw [hanswer]
      exact Bool.or_true _
    have hend : Doomed t := Machine.invariant (fun _ _ _ h hstep => h.step hstep) hdoomed hrest
    exact hend.sound.written hend.committing
  · intro hwritten hrun
    have hcommitting : s.committing = true := by
      cases hcommitting : s.committing with
      | true => rfl
      | false => exact absurd (hsound.written hcommitting) hwritten
    have hsoundt : Sound t := Machine.invariant (fun _ _ _ h hstep => h.step hstep) hsound hrun
    obtain ⟨hsame, hend⟩ := hsound.run_committed hcommitting hrun s.cancel s.streaming
    refine ⟨?_, ?_, _, hsame, rfl, rfl, rfl⟩
    · unfold State.answer
      rw [hend]
      exact Bool.and_false _
    · intro houtcome
      have hnot := hsoundt.outcome houtcome
      rw [hend] at hnot
      cases hnot

/-- A cancel before the commit. -/
theorem cancel_linearizable_early : ∃ t, Machine.run State.next
    (.initial (.save [.phase] [['w']] false [(.jobpairs, [1])]))
    ([Event.work, Event.work, Event.work] ++ [Event.cancel, Event.work, Event.work, Event.work]) = some t ∧
      t.written = [] ∧ t.outcome = some .cancelled := by
  let work : Work := .save [.phase] [['w']] false [(.jobpairs, [1])]
  let s : State := ⟨.running (.commit :: work.writes), false, false, true, none, true, []⟩
  have hs : Machine.run State.next (.initial work) [Event.work, Event.work, Event.work] = some s := rfl
  have ht : Machine.run State.next s [Event.cancel, Event.work, Event.work, Event.work] =
      some ⟨.gone, true, false, false, some .cancelled, true, []⟩ := rfl
  exact ⟨_, Machine.run_append_some.mpr ⟨s, hs, ht⟩, (cancel_linearizable hs).1 rfl ht, rfl⟩

end Builder
end Slurmy
