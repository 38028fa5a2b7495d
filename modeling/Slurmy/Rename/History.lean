import Mathlib.Data.List.Basic
import Mathlib.Tactic
import Slurmy.Lib.Machine

/-!
# The history of a renamed job

`remote_rename_job.sh` moves the job directory and then rewrites `job_id` and `previous_job_ids` in
its `metadata.json`.

* `RenamePc`, `Run`: one run of the script;
* `Job`, `Event`, `Job.step`: the directory with its metadata, the runs on it one after the other,
  the controller that names the job before its first batch, and its allocations;
* `previousIds`, `attributed`: the job to which `parse_snapshot` gives a SLURM record;
* `isolated`: no run ends between its `mv` and the new metadata;
* `history_complete`: then the metadata name every directory under which the job has had allocations;
* `history_lost`: a run that is killed there loses one.
-/

namespace Slurmy
namespace Rename

variable {ν : Type*} [DecidableEq ν]

/-! ### The script -/

/-- The places in `remote_rename_job.sh`, each named for what happens next. -/
inductive RenamePc
  /-- the test of the two job IDs -/
  | arguments
  /-- the test for the directory -/
  | source
  /-- the test that nothing has the new name -/
  | target
  /-- `squeue` lists no allocation of the directory -/
  | queue
  /-- `mv -- "$source_dir" "$target_dir"` -/
  | move
  /-- the script that replaces `metadata.json` -/
  | metadata
  /-- `mv -- "$target_dir" "$source_dir"` -/
  | rollback
  /-- the new ID is printed -/
  | print
  | exited (rc : ℕ)
  deriving DecidableEq

/-- A run: its arguments, and its place. -/
structure Run (ν : Type*) where
  oldId : ν
  newId : ν
  pc : RenamePc
  deriving DecidableEq

/-- The end of a command. -/
inductive Outcome
  | ok
  | fail
  /-- the metadata script has replaced the file, and fails then -/
  | late
  deriving DecidableEq

/-- Where a run goes when its next command fails. -/
def RenamePc.failed : RenamePc → RenamePc
  | .arguments | .source => .exited 2
  | .target => .exited 3
  | .queue => .exited 4
  | .metadata => .rollback
  | .exited rc => .exited rc
  | .move | .rollback | .print => .exited 1

/-- `previous_job_ids` after a rename. -/
def extendHistory (oldId newId : ν) (history : List ν) : List ν :=
  if oldId ≠ newId ∧ oldId ∉ history then history ++ [oldId] else history

/-! ### The job -/

/-- The directory's name, `job_id` and `previous_job_ids` of its metadata, whether `submission.csv`
exists, the names under which the job has had allocations, and the latest run. -/
structure Job (ν : Type*) where
  dir : ν
  jobId : Option ν
  history : List ν
  submitted : Bool
  ran : List ν
  run : Option (Run ν)

/-- A job as it is committed. -/
def Job.committed (dir : ν) : Job ν := ⟨dir, none, [], false, [], none⟩

inductive Event (ν : Type*)
  /-- a run of the script, after the one before has ended -/
  | start (oldId newId : ν)
  /-- the next command of the run -/
  | next (o : Outcome)
  | kill
  /-- the first controller writes the metadata -/
  | assign
  /-- the first controller creates `submission.csv` -/
  | submit
  /-- an allocation of the job starts, in its directory -/
  | allocate

/-- The next command succeeds. -/
def Job.succeed (s : Job ν) (r : Run ν) : Option (Job ν) :=
  let go (s : Job ν) (pc : RenamePc) : Option (Job ν) := some { s with run := some { r with pc := pc } }
  match r.pc with
  | .arguments => go s .source
  | .source => if s.dir = r.oldId then go s .target else none
  | .target => go s .queue
  | .queue => go s .move
  | .move => go { s with dir := r.newId } .metadata
  | .metadata =>
      go { s with jobId := some r.newId, history := extendHistory r.oldId r.newId s.history } .print
  | .rollback => go { s with dir := r.oldId } (.exited 5)
  | .print => go s (.exited 0)
  | .exited _ => none

/-- The next command of the run ends like this. -/
def Job.next (s : Job ν) (r : Run ν) : Outcome → Option (Job ν)
  | .ok => s.succeed r
  | .fail => some { s with run := some { r with pc := r.pc.failed } }
  | .late =>
      if r.pc = .metadata then
        some
          { s with
            jobId := some r.newId
            history := extendHistory r.oldId r.newId s.history
            run := some { r with pc := .rollback } }
      else none

/-- No run is under way. -/
def Job.quiet (s : Job ν) : Bool :=
  match s.run with
  | some ⟨_, _, .exited _⟩ | none => true
  | _ => false

def Job.step (s : Job ν) : Event ν → Option (Job ν)
  | .start oldId newId =>
      if s.quiet then some { s with run := some ⟨oldId, newId, .arguments⟩ } else none
  | .next o => s.run.bind fun r => s.next r o
  | .kill => some { s with run := none }
  | .assign => if s.submitted then none else some { s with jobId := some s.dir }
  | .submit => if s.jobId.isSome then some { s with submitted := true } else none
  | .allocate => if s.submitted then some { s with ran := s.dir :: s.ran } else none

/-! ### The reader -/

/-- `previous_ids` of `parse_snapshot`: the entries in the order in which they are written. -/
def previousIds (jobs : List (ν × List ν)) : List (ν × ν) :=
  jobs.flatMap fun job => job.2.map fun old => (old, job.1)

/-- `previous_ids.get(name, name)`, where a later entry has replaced an earlier one. -/
def attributed (jobs : List (ν × List ν)) (name : ν) : ν :=
  ((previousIds jobs).reverse.lookup name).getD name

/-! ### The condition -/

/-- The directory has its new name, and the metadata the old one. -/
def Run.split (r : Run ν) : Bool :=
  r.oldId ≠ r.newId && (r.pc = .metadata || r.pc = .rollback)

/-- The run does not end, and no controller acts on the job in a way that the run undoes, while the
directory has its new name and the metadata the old one. -/
def isolated (s : Job ν) (e : Event ν) : Bool :=
  match s.run with
  | none => true
  | some r =>
      !r.split ||
        match e with
        | .kill => s.jobId = none
        | .next .fail => r.pc = .metadata || s.jobId = none
        | .next .late => false
        | .next .ok => r.pc = .metadata || (r.newId ∉ s.ran || r.newId ∈ s.history)
        | .assign => false
        | _ => true

/-! ### The invariant -/

/-- The run under way is between its `mv` and the new metadata. -/
def Job.split (s : Job ν) : Bool := s.run.any Run.split

/-- Where the directory is while a run is under way. -/
def Run.Placed (r : Run ν) (s : Job ν) : Prop :=
  match r.pc with
  | .target | .queue | .move => s.dir = r.oldId
  | .metadata | .rollback => s.dir = r.newId
  | .print | .exited 0 => s.jobId.isSome = true
  | _ => True

/-- The metadata against the directory and its past. -/
structure Inv (s : Job ν) : Prop where
  submitted : s.submitted = true → s.jobId.isSome = true
  ran : s.ran ≠ [] → s.submitted = true
  placed : ∀ r, s.run = some r → r.Placed s
  whole : s.split = false →
    (∀ j, s.jobId = some j → j = s.dir) ∧ ∀ n ∈ s.ran, n = s.dir ∨ n ∈ s.history
  apart : ∀ r, s.run = some r → r.split = true →
    (∀ j, s.jobId = some j → j = r.oldId) ∧
      ∀ n ∈ s.ran, n = r.oldId ∨ n ∈ s.history ∨ n = r.newId

theorem inv_committed (dir : ν) : Inv (Job.committed dir) := by
  constructor <;> simp [Job.committed]

/-- A job without a `job_id` has had no allocation. -/
theorem Inv.ran_eq_nil {s : Job ν} (h : Inv s) (hnone : s.jobId = none) : s.ran = [] := by
  by_contra hran
  have hsome := h.submitted (h.ran hran)
  rw [hnone] at hsome
  cases hsome

theorem mem_extendHistory {oldId newId n : ν} {history : List ν} :
    n ∈ extendHistory oldId newId history ↔ n ∈ history ∨ oldId ≠ newId ∧ n = oldId := by
  unfold extendHistory
  split_ifs with h
  · simp [h.1]
  · constructor
    · exact .inl
    · rintro (hn | ⟨hne, rfl⟩)
      · exact hn
      · by_contra hnot
        exact h ⟨hne, hnot⟩

/-- Steps that only move the place of a run, outside the window. -/
theorem Inv.go {s : Job ν} (h : Inv s) (hwhole : s.split = false) {run : Option (Run ν)}
    (hsplit : ∀ r, run = some r → r.split = false)
    (hplaced : ∀ r, run = some r → r.Placed { s with run := run }) :
    Inv { s with run := run } := by
  constructor
  · exact h.submitted
  · exact h.ran
  · exact hplaced
  · intro
    exact h.whole hwhole
  · intro r hr htrue
    rw [hsplit r hr] at htrue
    cases htrue

section Steps

variable {s t : Job ν} {r : Run ν}

theorem split_of_run (hrun : s.run = some r) : s.split = r.split := by
  simp [Job.split, hrun]

/-- The commands before the `mv`. -/
theorem Inv.before (h : Inv s) (hrun : s.run = some r) {pc : RenamePc}
    (hpc : r.pc ≠ .metadata ∧ r.pc ≠ .rollback) (hnext : pc ≠ .metadata ∧ pc ≠ .rollback)
    (hplaced : Run.Placed { r with pc := pc } { s with run := some { r with pc := pc } }) :
    Inv { s with run := some { r with pc := pc } } := by
  apply h.go
  · rw [split_of_run hrun]
    simp [Run.split, hpc]
  · rintro r' hr'
    cases hr'
    simp [Run.split, hnext]
  · rintro r' hr'
    cases hr'
    exact hplaced

theorem isolated_next {o : Outcome} (hrun : s.run = some r) (hsplit : r.split = true)
    (hiso : isolated s (.next o) = true) :
    match o with
    | .fail => r.pc = .metadata ∨ s.jobId = none
    | .late => False
    | .ok => r.pc = .metadata ∨ r.newId ∉ s.ran ∨ r.newId ∈ s.history := by
  simp only [isolated, hrun, hsplit, Bool.not_true, Bool.false_or] at hiso
  cases o with
  | fail | ok => simpa using hiso
  | late => cases hiso

/-- The `mv`. -/
theorem Inv.moved (h : Inv s) (hrun : s.run = some r) (hpc : r.pc = .move) :
    Inv { s with dir := r.newId, run := some { r with pc := .metadata } } := by
  have hwhole := h.whole (by rw [split_of_run hrun]; simp [Run.split, hpc])
  have hdir : s.dir = r.oldId := by
    have hplaced := h.placed r hrun
    simpa only [Run.Placed, hpc] using hplaced
  rw [hdir] at hwhole
  constructor
  · exact h.submitted
  · exact h.ran
  · rintro r' hr'
    cases hr'
    rfl
  · intro hsplit
    have hsame : r.oldId = r.newId := by
      simpa [Job.split, Run.split] using hsplit
    rw [hsame] at hwhole
    exact hwhole
  · rintro r' hr' -
    cases hr'
    refine ⟨hwhole.1, fun n hn => ?_⟩
    rcases hwhole.2 n hn with hn | hn
    · exact .inl hn
    · exact .inr (.inl hn)

/-- The metadata are replaced. -/
theorem Inv.replaced (h : Inv s) (hrun : s.run = some r) (hpc : r.pc = .metadata) {pc : RenamePc}
    (hnext : pc = .print ∨ pc = .rollback ∧ r.split = false) :
    Inv { s with
      jobId := some r.newId
      history := extendHistory r.oldId r.newId s.history
      run := some { r with pc := pc } } := by
  have hdir : s.dir = r.newId := by
    have hplaced := h.placed r hrun
    simpa only [Run.Placed, hpc] using hplaced
  have hran : ∀ n ∈ s.ran, n = s.dir ∨ n ∈ extendHistory r.oldId r.newId s.history := by
    intro n hn
    rw [mem_extendHistory]
    by_cases hne : r.oldId = r.newId
    · have hwhole := h.whole (by rw [split_of_run hrun]; simp [Run.split, hne])
      rcases hwhole.2 n hn with hn | hn
      · exact .inl hn
      · exact .inr (.inl hn)
    · have hapart := h.apart r hrun (by simp [Run.split, hne, hpc])
      rcases hapart.2 n hn with hn | hn | hn
      · exact .inr (.inr ⟨hne, hn⟩)
      · exact .inr (.inl hn)
      · exact .inl (hn.trans hdir.symm)
  have hsplit : ({ r with pc := pc } : Run ν).split = false := by
    rcases hnext with rfl | ⟨rfl, hr⟩
    · simp [Run.split]
    · simpa [Run.split, hpc] using hr
  constructor
  · intro
    rfl
  · exact h.ran
  · rintro r' hr'
    cases hr'
    rcases hnext with rfl | ⟨rfl, -⟩
    · rfl
    · exact hdir
  · intro
    refine ⟨?_, hran⟩
    rintro j hj
    cases hj
    exact hdir.symm
  · rintro r' hr' htrue
    cases hr'
    rw [hsplit] at htrue
    cases htrue

/-- The metadata script fails before it has replaced anything. -/
theorem Inv.unreplaced (h : Inv s) (hrun : s.run = some r) (hpc : r.pc = .metadata) :
    Inv { s with run := some { r with pc := .rollback } } := by
  have hsplit : ({ r with pc := .rollback } : Run ν).split = r.split := by
    simp [Run.split, hpc]
  constructor
  · exact h.submitted
  · exact h.ran
  · rintro r' hr'
    cases hr'
    have hplaced := h.placed r hrun
    simpa only [Run.Placed, hpc] using hplaced
  · intro hwhole
    refine h.whole ?_
    rw [split_of_run hrun, ← hsplit]
    exact hwhole
  · rintro r' hr' htrue
    cases hr'
    rw [hsplit] at htrue
    exact h.apart r hrun htrue

/-- The rollback. -/
theorem Inv.rolledBack (h : Inv s) (hrun : s.run = some r) (hpc : r.pc = .rollback)
    (hiso : isolated s (.next .ok) = true) :
    Inv { s with dir := r.oldId, run := some { r with pc := .exited 5 } } := by
  have hdir : s.dir = r.newId := by
    have hplaced := h.placed r hrun
    simpa only [Run.Placed, hpc] using hplaced
  constructor
  · exact h.submitted
  · exact h.ran
  · rintro r' hr'
    cases hr'
    trivial
  · intro
    by_cases hne : r.oldId = r.newId
    · have hwhole := h.whole (by rw [split_of_run hrun]; simp [Run.split, hne])
      rw [hdir, ← hne] at hwhole
      exact hwhole
    · have hsplit : r.split = true := by simp [Run.split, hne, hpc]
      obtain ⟨hid, hran⟩ := h.apart r hrun hsplit
      refine ⟨hid, fun n hn => ?_⟩
      rcases hran n hn with hn' | hn' | rfl
      · exact .inl hn'
      · exact .inr hn'
      · rcases isolated_next hrun hsplit hiso with hmeta | hnot | hmem
        · rw [hpc] at hmeta
          cases hmeta
        · exact absurd hn hnot
        · exact .inr hmem
  · rintro r' hr' htrue
    cases hr'
    simp [Run.split] at htrue

/-- A run ends in the window only when there is no `job_id` yet. -/
theorem Inv.ended (h : Inv s) {run : Option (Run ν)} (hquiet : ∀ r, run = some r → r.pc = .exited 1)
    (hiso : s.split = true → s.jobId = none) : Inv { s with run := run } := by
  constructor
  · exact h.submitted
  · exact h.ran
  · rintro r hr
    simp only [Run.Placed, hquiet r hr]
  · intro
    cases hsplit : s.split with
    | false => exact h.whole hsplit
    | true =>
      have hnone := hiso hsplit
      constructor
      · intro j hj
        rw [hnone] at hj
        cases hj
      · intro n hn
        rw [h.ran_eq_nil hnone] at hn
        cases hn
  · rintro r hr htrue
    simp [Run.split, hquiet r hr] at htrue

theorem Inv.next {o : Outcome} (h : Inv s) (hrun : s.run = some r)
    (hiso : isolated s (.next o) = true) (hnext : s.next r o = some t) : Inv t := by
  cases o with
  | ok =>
    have hgo : s.succeed r = some t := hnext
    unfold Job.succeed at hgo
    cases hpc : r.pc with
    | arguments =>
      rw [hpc] at hgo
      cases hgo
      exact h.before hrun (by simp [hpc]) (by simp) trivial
    | source =>
      rw [hpc] at hgo
      obtain ⟨hdir, hgo⟩ := Option.ite_none_right_eq_some.1 hgo
      cases hgo
      exact h.before hrun (by simp [hpc]) (by simp) hdir
    | target | queue =>
      rw [hpc] at hgo
      cases hgo
      refine h.before hrun (by simp [hpc]) (by simp) ?_
      have hplaced := h.placed r hrun
      simpa only [Run.Placed, hpc] using hplaced
    | move =>
      rw [hpc] at hgo
      cases hgo
      exact h.moved hrun hpc
    | metadata =>
      rw [hpc] at hgo
      cases hgo
      exact h.replaced hrun hpc (.inl rfl)
    | rollback =>
      rw [hpc] at hgo
      cases hgo
      exact h.rolledBack hrun hpc hiso
    | print =>
      rw [hpc] at hgo
      cases hgo
      refine h.before hrun (by simp [hpc]) (by simp) ?_
      have hplaced := h.placed r hrun
      simpa only [Run.Placed, hpc] using hplaced
    | exited rc =>
      rw [hpc] at hgo
      cases hgo
  | fail =>
    cases hnext
    cases hpc : r.pc with
    | metadata => exact h.unreplaced hrun hpc
    | rollback =>
      refine h.ended (fun r' hr' => by cases hr'; rfl) fun hsplit => ?_
      rw [split_of_run hrun] at hsplit
      rcases isolated_next hrun hsplit hiso with hmeta | hnone
      · rw [hpc] at hmeta
        cases hmeta
      · exact hnone
    | exited rc =>
      have hplaced : Run.Placed { r with pc := .exited rc }
          { s with run := some { r with pc := .exited rc } } := by
        have hplaced := h.placed r hrun
        simpa only [Run.Placed, hpc] using hplaced
      exact h.before hrun (by simp [hpc]) (by simp [RenamePc.failed]) hplaced
    | _ => exact h.before hrun (by simp [hpc]) (by simp [RenamePc.failed]) trivial
  | late =>
    obtain ⟨hpc, hgo⟩ := Option.ite_none_right_eq_some.1 hnext
    cases hgo
    have hsplit : r.split = false := by
      by_contra hne
      exact isolated_next hrun (by simpa using hne) hiso
    exact h.replaced hrun hpc (.inr ⟨rfl, hsplit⟩)

theorem split_eq_false_of_quiet (h : s.quiet = true) : s.split = false := by
  obtain ⟨dir, jobId, history, submitted, ran, run⟩ := s
  rcases run with _ | ⟨oldId, newId, pc⟩
  · rfl
  · cases pc with
    | exited rc => simp [Job.split, Run.split]
    | _ => cases h

theorem Inv.step {e : Event ν} (h : Inv s) (hiso : isolated s e = true) (hstep : s.step e = some t) :
    Inv t := by
  cases e with
  | start oldId newId =>
    obtain ⟨hquiet, heq⟩ := Option.ite_none_right_eq_some.1 hstep
    cases heq
    apply h.go (split_eq_false_of_quiet hquiet)
    · rintro r hr
      cases hr
      simp [Run.split]
    · rintro r hr
      cases hr
      trivial
  | next o =>
    obtain ⟨r, hrun, hnext⟩ := Option.bind_eq_some_iff.1 hstep
    exact h.next hrun hiso hnext
  | kill =>
    cases hstep
    refine h.ended (fun r hr => by cases hr) fun hsplit => ?_
    obtain ⟨r, hrun, hr⟩ := (Option.any_eq_true _ _).1 hsplit
    simpa [isolated, hrun, hr] using hiso
  | assign =>
    obtain ⟨hsub, heq⟩ := Option.ite_none_left_eq_some.1 hstep
    cases heq
    have hran : s.ran = [] := by
      by_contra hran
      exact hsub (h.ran hran)
    constructor
    · intro
      rfl
    · exact h.ran
    · intro r hr
      have hplaced := h.placed r hr
      unfold Run.Placed at hplaced ⊢
      split at hplaced <;> first | exact hplaced | rfl
    · intro
      refine ⟨?_, fun n hn => ?_⟩
      · rintro j hj
        cases hj
        rfl
      · rw [hran] at hn
        cases hn
    · intro r hr hsplit
      replace hr : s.run = some r := hr
      simp [isolated, hr, hsplit] at hiso
  | submit =>
    obtain ⟨hid, heq⟩ := Option.ite_none_right_eq_some.1 hstep
    cases heq
    exact ⟨fun _ => hid, fun _ => rfl, h.placed, h.whole, h.apart⟩
  | allocate =>
    obtain ⟨hsub, heq⟩ := Option.ite_none_right_eq_some.1 hstep
    cases heq
    constructor
    · exact h.submitted
    · intro
      exact hsub
    · exact h.placed
    · intro hsplit
      obtain ⟨hid, hran⟩ := h.whole hsplit
      refine ⟨hid, fun n hn => ?_⟩
      rcases List.mem_cons.1 hn with rfl | hn
      · exact .inl rfl
      · exact hran n hn
    · intro r hr hsplit
      obtain ⟨hid, hran⟩ := h.apart r hr hsplit
      refine ⟨hid, fun n hn => ?_⟩
      rcases List.mem_cons.1 hn with rfl | hn
      · -- in the window the directory has the new name
        have hplaced := h.placed r hr
        simp only [Run.split, Bool.and_eq_true, Bool.or_eq_true, decide_eq_true_eq] at hsplit
        rcases hsplit.2 with hpc | hpc <;>
          (simp only [Run.Placed, hpc] at hplaced; exact .inr (.inr hplaced))
      · exact hran n hn

end Steps

/-! ### The history -/

/-- What holds of a job with no run under way. -/
structure Attributed (s : Job ν) : Prop where
  named : ∀ n ∈ s.ran, s.jobId = some n ∨ n ∈ s.history
  current : ∀ j, s.jobId = some j → j = s.dir
  completed : ∀ r, s.run = some r → r.pc = .exited 0 → s.jobId = some s.dir
  attributed : ∀ before after : List (ν × List ν),
    (∀ job ∈ before ++ after, ∀ n ∈ s.ran, n ∉ job.2) →
      ∀ n ∈ s.ran, attributed (before ++ (s.dir, s.history) :: after) n = s.dir

/-- The reader gives a name of the job's to the job, when no other job's history has it. -/
theorem attributed_eq {before after : List (ν × List ν)} {dir n : ν} {history : List ν}
    (hothers : ∀ job ∈ before ++ after, n ∉ job.2) (hn : n = dir ∨ n ∈ history) :
    attributed (before ++ (dir, history) :: after) n = dir := by
  have hmem : ∀ job, (n, job) ∈ previousIds (before ++ (dir, history) :: after) → job = dir := by
    intro job hjob
    obtain ⟨entry, hentry, hold⟩ := List.mem_flatMap.1 hjob
    obtain ⟨old, hmem, heq⟩ := List.mem_map.1 hold
    cases heq
    rcases List.mem_append.1 hentry with hbefore | hrest
    · exact absurd hmem (hothers entry (List.mem_append_left _ hbefore))
    · rcases List.mem_cons.1 hrest with rfl | hafter
      · rfl
      · exact absurd hmem (hothers entry (List.mem_append_right _ hafter))
  unfold attributed
  cases hlookup : (previousIds (before ++ (dir, history) :: after)).reverse.lookup n with
  | some job =>
    obtain ⟨l, l', hsplit, -⟩ := List.lookup_eq_some_iff.1 hlookup
    have hin : (n, job) ∈ (previousIds (before ++ (dir, history) :: after)).reverse := by
      rw [hsplit]
      simp
    exact hmem job (List.mem_reverse.1 hin)
  | none =>
    rcases hn with rfl | hn
    · rfl
    · rw [List.lookup_eq_none_iff] at hlookup
      have hin : (n, dir) ∈ (previousIds (before ++ (dir, history) :: after)).reverse := by
        rw [List.mem_reverse]
        refine List.mem_flatMap.2 ⟨(dir, history), by simp, ?_⟩
        exact List.mem_map.2 ⟨n, hn, rfl⟩
      have hne := hlookup _ hin
      simp at hne

theorem Inv.attributed {s : Job ν} (h : Inv s) (hquiet : s.quiet = true) : Attributed s := by
  obtain ⟨hid, hran⟩ := h.whole (split_eq_false_of_quiet hquiet)
  constructor
  · intro n hn
    have hne : s.ran ≠ [] := List.ne_nil_of_mem hn
    obtain ⟨j, hj⟩ := Option.isSome_iff_exists.1 (h.submitted (h.ran hne))
    rcases hran n hn with rfl | hn
    · exact .inl (hid j hj ▸ hj)
    · exact .inr hn
  · exact hid
  · intro r hr hpc
    have hplaced := h.placed r hr
    simp only [Run.Placed, hpc] at hplaced
    obtain ⟨j, hj⟩ := Option.isSome_iff_exists.1 hplaced
    rw [hj, hid j hj]
  · intro before after hothers n hn
    exact attributed_eq (fun job hjob => hothers job hjob n hn) (hran n hn)

/-- **The history.** In every run whose steps are isolated, whenever no rename is under way the
metadata name every directory under which the job has had allocations. -/
theorem history_complete {dir : ν} {es : List (Event ν)} {t : Job ν}
    (hiso : Machine.Along Job.step (fun s e => isolated s e = true) (Job.committed dir) es)
    (hrun : Machine.run Job.step (Job.committed dir) es = some t) (hquiet : t.quiet = true) :
    Attributed t :=
  (Machine.invariant_along (fun _ _ _ h hc hstep => Inv.step h hc hstep) (inv_committed dir) hiso
    hrun).attributed hquiet

/-! ### Runs -/

/-- The events of a run that succeeds. -/
def renameTo (oldId newId : ν) : List (Event ν) :=
  .start oldId newId :: List.replicate 7 (.next .ok)

/-- The events of a run that is killed after its `mv`. -/
def renameKilled (oldId newId : ν) : List (Event ν) :=
  .start oldId newId :: List.replicate 5 (.next .ok) ++ [.kill]

/-- The first controller of a job, and its first allocation. -/
def firstBatch : List (Event ν) := [.assign, .submit, .allocate]

/-- A rename whose metadata script fails, one that succeeds, and one more allocation. -/
theorem history_complete_twice :
    ∃ t, Machine.run Job.step (Job.committed 1) (firstBatch ++ (.start 1 2 ::
        List.replicate 5 (.next .ok) ++ [.next .fail, .next .ok]) ++ renameTo 1 3 ++
          [.allocate]) = some t ∧
      t.ran = [3, 1] ∧ t.dir = 3 ∧ t.history = [1] ∧ Attributed t := by
  have hrun : (Machine.run Job.step (Job.committed 1) (firstBatch ++ (.start 1 2 ::
      List.replicate 5 (.next .ok) ++ [.next .fail, .next .ok]) ++ renameTo 1 3 ++
        [.allocate])).map (fun t => (t.ran, t.dir, t.history, t.quiet)) =
      some ([3, 1], 3, [1], true) := by decide +kernel
  obtain ⟨t, ht, hobs⟩ := Option.map_eq_some_iff.1 hrun
  obtain ⟨hran, hobs⟩ := Prod.mk.inj hobs
  obtain ⟨hdir, hobs⟩ := Prod.mk.inj hobs
  obtain ⟨hhistory, hquiet⟩ := Prod.mk.inj hobs
  exact ⟨t, ht, hran, hdir, hhistory, history_complete (by decide +kernel) ht hquiet⟩

/-- A run that is killed after its `mv`, and one that succeeds: the first name is lost. -/
theorem history_lost :
    ∃ t : Job ℕ, Machine.run Job.step (Job.committed 1) (firstBatch ++ renameKilled 1 2 ++
        renameTo 2 3) = some t ∧
      t.run = some ⟨2, 3, .exited 0⟩ ∧ t.ran = [1] ∧ t.jobId = some 3 ∧ t.history = [2] ∧
      attributed [(t.dir, t.history)] 1 ≠ t.dir ∧ ¬ Attributed t := by
  have hrun : (Machine.run Job.step (Job.committed 1) (firstBatch ++ renameKilled 1 2 ++
      renameTo 2 3)).map (fun t => (t.run, t.ran, t.jobId, t.history, t.dir)) =
      some (some ⟨2, 3, .exited 0⟩, [1], some 3, [2], 3) := by decide +kernel
  obtain ⟨t, ht, hobs⟩ := Option.map_eq_some_iff.1 hrun
  obtain ⟨hrun', hobs⟩ := Prod.mk.inj hobs
  obtain ⟨hran, hobs⟩ := Prod.mk.inj hobs
  obtain ⟨hid, hobs⟩ := Prod.mk.inj hobs
  obtain ⟨hhistory, hdir⟩ := Prod.mk.inj hobs
  refine ⟨t, ht, hrun', hran, hid, hhistory, ?_, fun hattributed => ?_⟩
  · rw [hdir, hhistory]
    decide
  · have hnamed := hattributed.named 1 (by rw [hran]; exact List.mem_singleton_self 1)
    rw [hid, hhistory] at hnamed
    exact absurd hnamed (by decide)

end Rename
end Slurmy
