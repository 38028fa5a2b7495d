import Mathlib.Data.List.ReduceOption
import Slurmy.Lib.Machine
import Slurmy.Coordinator.Attempt

/-!
# Admission over runs of the coordinator

Attempts of any set of jobs, one at a time (`submit.lock`), each reading exactly the user's active
tasks, interleaved with the ends of tasks, the passing of time (which expires leases), releases and
tasks that others submit.  SLURM's decision about a submitted task and the reply that reaches the
coordinator are independent: a reply can be lost.

* `Cluster`, `step`: the machine;
* `activeTasks_le_window`: a job stays within the largest window it has asked for;
* `total_le_ceiling`: the total stays within a ceiling known to every attempt;
* `admission_safety`: what an attempt has checked when it calls `sbatch`, and both bounds.
-/

namespace Slurmy
namespace Coordinator

/-- An active task: its SLURM ID (`%i`, which has no bar) and its working directory (`%Z`). -/
structure Task where
  id : Text
  directory : Text
  noBar : '|' ∉ id
  deriving DecidableEq

/-- The line of the task in the output of `squeue -o '%i|%Z'`. -/
def Task.line (t : Task) : Text := t.id ++ '|' :: t.directory

/-- The directory of a Slurmy job. -/
def jobDirectory (cfg : Config) (job : Text) : Text := cfg.root ++ '/' :: job

/-- The number of active tasks of a job. -/
def activeTasks (cfg : Config) (job : Text) (queue : List Task) : ℕ :=
  queue.countP fun t => jobOf cfg.root t.directory = some job

/-- The clock, the coordinator's files and the user's active tasks. -/
structure Cluster where
  now : ℚ
  store : Store
  queue : List Task

/-- What the commands run by an attempt answer: `outage` is the failure of `squeue`, and `taskId` the
ID under which SLURM accepts the task handed to `sbatch`, if it does. -/
structure Replies where
  sacctmgr : Option (List Text)
  outage : Option Text
  sbatch : SbatchResult
  taskId : Option {id : Text // '|' ∉ id}

inductive Event
  | attempt (req : Request) (replies : Replies)
  | taskEnds (i : ℕ)
  | foreign (t : Task)
  | wait (d : ℚ)
  | release (job : Text)

/-- What an attempt made now reads, its snapshot of the queue being exact. -/
def Cluster.environment (c : Cluster) (replies : Replies) : Environment where
  now := c.now
  sacctmgr := replies.sacctmgr
  squeue := match replies.outage with
    | some message => .error message
    | none => .ok (c.queue.map Task.line)
  sbatch := replies.sbatch

/-- The numbers compared by an attempt made now. -/
def Cluster.decision (c : Cluster) (cfg : Config) (req : Request) (replies : Replies) : Admission :=
  Coordinator.decision cfg (c.environment replies) req c.store (c.queue.map Task.line)

/-- An attempt made now calls `sbatch`. -/
def Cluster.submits (c : Cluster) (cfg : Config) (req : Request) (replies : Replies) : Bool :=
  callsSbatch cfg (c.environment replies) req c.store

/-- The task that SLURM accepts from an attempt. -/
def submitted (cfg : Config) (req : Request) (replies : Replies) : List Task :=
  (replies.taskId.map fun id => ⟨id.1, jobDirectory cfg req.jobId, id.2⟩).toList

def step (cfg : Config) (c : Cluster) : Event → Option Cluster
  | .attempt req replies =>
      if isJobId req.jobId ∧ 0 < req.requested then
        some { c with
          store := (attempt cfg (c.environment replies) req c.store).2
          queue := if c.submits cfg req replies then c.queue ++ submitted cfg req replies else c.queue }
      else none
  | .taskEnds i => some { c with queue := c.queue.eraseIdx i }
  | .foreign t =>
      if jobOf cfg.root t.directory = none then some { c with queue := c.queue ++ [t] } else none
  | .wait d => if 0 ≤ d then some { c with now := c.now + d } else none
  | .release job =>
      some { c with store := { c.store with leases :=
        ⟨c.store.leases.files.filter fun l => l.jobId ≠ job,
          (List.filter_sublist.map _).nodup c.store.leases.nodup⟩ } }

/-! ### The snapshot is exact -/

theorem queueSnapshot_line (root : Text) (queue : List Task) :
    queueSnapshot root (queue.map Task.line) =
      { total := queue.length
        other := ((queue.map fun t => jobOf root t.directory).filter Option.isNone).length
        own := (queue.map fun t => jobOf root t.directory).reduceOption } := by
  have hkeep : (queue.map Task.line).filter (fun line => !(strip line).isEmpty) =
      queue.map Task.line := by
    refine List.filter_eq_self.2 fun line hline => ?_
    obtain ⟨t, -, rfl⟩ := List.mem_map.1 hline
    have hne : strip t.line ≠ [] := strip_ne_nil (c := '|') (by simp [Task.line]) (by decide)
    simpa [List.isEmpty_iff] using hne
  have hjobs : (queue.map Task.line).map (fun line => jobOf root (after '|' line)) =
      queue.map fun t => jobOf root t.directory := by
    rw [List.map_map]
    exact List.map_congr_left fun t _ => by simp [Task.line, after_append t.noBar]
  simp only [queueSnapshot, hkeep, hjobs, List.length_map]

theorem count_reduceOption {α : Type*} [DecidableEq α] [BEq α] [LawfulBEq α] (a : α) (l : List (Option α)) :
    l.reduceOption.count a = l.countP (· = some a) := by
  induction l with
  | nil => rfl
  | cons o l ih =>
    cases o with
    | none => simp [List.reduceOption_cons_of_none, ih]
    | some b =>
      by_cases hb : b = a <;> simp [List.reduceOption_cons_of_some, ih, hb]

theorem total_decision (c : Cluster) (cfg : Config) (req : Request) (replies : Replies) :
    (c.decision cfg req replies).total = c.queue.length := by
  simp [Cluster.decision, decision, admission, queueSnapshot_line]

theorem current_decision (c : Cluster) (cfg : Config) (req : Request) (replies : Replies) :
    (c.decision cfg req replies).current = activeTasks cfg req.jobId c.queue := by
  simp only [Cluster.decision, decision, admission, queueSnapshot_line]
  rw [count_reduceOption, List.countP_map]
  rfl

/-- What an attempt has checked when it calls `sbatch`. -/
theorem submits_spec {c : Cluster} {cfg : Config} {req : Request} {replies : Replies}
    (h : c.submits cfg req replies = true) :
    activeTasks cfg req.jobId c.queue < (c.decision cfg req replies).target ∧
      ∀ C, (c.decision cfg req replies).ceiling = some C → (c.queue.length : ℤ) < C := by
  have hadm : (c.decision cfg req replies).admits = true := by
    cases ho : replies.outage with
    | some m => simp [Cluster.submits, callsSbatch, Cluster.environment, ho] at h
    | none =>
      simp only [Cluster.submits, callsSbatch, Cluster.environment, ho] at h
      simpa [Cluster.decision, Cluster.environment, ho] using h
  obtain ⟨hcur, hceil⟩ := admits_iff.1 hadm
  rw [current_decision] at hcur
  rw [total_decision] at hceil
  exact ⟨hcur, hceil⟩

/-! ### One step -/

theorem jobOf_jobDirectory (cfg : Config) {job : Text} (h : isJobId job = true) :
    jobOf cfg.root (jobDirectory cfg job) = some job := by
  have hsplit : jobDirectory cfg job = (cfg.root ++ ['/']) ++ job := by simp [jobDirectory]
  have hpre : (cfg.root ++ ['/']).isPrefixOf (jobDirectory cfg job) = true := by
    rw [hsplit, List.isPrefixOf_iff_prefix]
    exact List.prefix_append _ _
  have hdrop : (jobDirectory cfg job).drop (cfg.root.length + 1) = job := by
    rw [hsplit, show cfg.root.length + 1 = (cfg.root ++ ['/']).length by simp, List.drop_left]
  simp [jobOf, hpre, hdrop, h]

theorem activeTasks_append (cfg : Config) (job : Text) (q r : List Task) :
    activeTasks cfg job (q ++ r) = activeTasks cfg job q + activeTasks cfg job r :=
  List.countP_append

/-- A task accepted from an attempt counts for the caller alone. -/
theorem activeTasks_submitted (cfg : Config) {req : Request} (hreq : req.Valid) (replies : Replies)
    (job : Text) :
    activeTasks cfg job (submitted cfg req replies) ≤ if job = req.jobId then 1 else 0 := by
  cases hid : replies.taskId with
  | none => simp [submitted, hid, activeTasks]
  | some id =>
    by_cases hj : job = req.jobId
    · simp only [submitted, hid, hj, if_true, activeTasks]
      exact List.countP_le_length
    · have hne : req.jobId ≠ job := fun h => hj h.symm
      simp [submitted, hid, activeTasks, jobOf_jobDirectory cfg hreq.1, hj, hne]

theorem length_submitted (cfg : Config) (req : Request) (replies : Replies) :
    (submitted cfg req replies).length ≤ 1 := by
  cases hid : replies.taskId <;> simp [submitted, hid]

/-- The effect of a step on the queue, as far as it can add tasks. -/
theorem step_cases {cfg : Config} {c d : Cluster} {e : Event} (h : step cfg c e = some d) :
    (∃ req replies, e = .attempt req replies ∧ req.Valid ∧ c.submits cfg req replies = true ∧
        d.queue = c.queue ++ submitted cfg req replies) ∨
      (∃ t, e = .foreign t ∧ jobOf cfg.root t.directory = none ∧ d.queue = c.queue ++ [t]) ∨
      d.queue.Sublist c.queue := by
  cases e with
  | attempt req replies =>
    simp only [step] at h
    split_ifs at h with hreq hsub
    · cases h; exact .inl ⟨req, replies, rfl, hreq, hsub, rfl⟩
    · cases h; exact .inr (.inr (List.Sublist.refl _))
  | taskEnds i => cases h; exact .inr (.inr (List.eraseIdx_sublist _ _))
  | foreign t =>
    simp only [step] at h
    split_ifs at h with ht
    cases h
    exact .inr (.inl ⟨t, rfl, ht, rfl⟩)
  | wait x =>
    simp only [step] at h
    split_ifs at h
    cases h
    exact .inr (.inr (List.Sublist.refl _))
  | release job => cases h; exact .inr (.inr (List.Sublist.refl _))

/-! ### The window of a job -/

/-- The window that `job` asked for last, `W` when it has not asked. -/
def window (job : Text) : ℕ → List Event → ℕ
  | W, [] => W
  | W, .attempt req _ :: es => window job (if req.jobId = job then req.requested else W) es
  | W, _ :: es => window job W es

/-- `job` never asks for a smaller window than before, the first one being `W`. -/
def NeverLowered (job : Text) : ℕ → List Event → Prop
  | _, [] => True
  | W, .attempt req _ :: es =>
      if req.jobId = job then W ≤ req.requested ∧ NeverLowered job req.requested es
      else NeverLowered job W es
  | W, _ :: es => NeverLowered job W es

/-- One step keeps a job within its window. -/
theorem activeTasks_step {cfg : Config} {job : Text} {c d : Cluster} {e : Event} {W : ℕ}
    (h : step cfg c e = some d) (hW : activeTasks cfg job c.queue ≤ W)
    (hn : NeverLowered job W [e]) : activeTasks cfg job d.queue ≤ window job W [e] := by
  rcases step_cases h with ⟨req, replies, rfl, hreq, hsub, hq⟩ | ⟨t, rfl, ht, hq⟩ | hq
  · have hnew := activeTasks_submitted cfg hreq replies job
    rw [hq, activeTasks_append]
    by_cases hj : req.jobId = job
    · subst hj
      have hlt := (submits_spec hsub).1
      have htar : (c.decision cfg req replies).target ≤ req.requested :=
        target_le_requested cfg _ hreq _ _
      simp only [window, if_true] at hnew ⊢
      omega
    · simp only [window, hj, if_false, if_neg (Ne.symm hj)] at hnew ⊢
      omega
  · rw [hq, activeTasks_append]
    have hnone : activeTasks cfg job [t] = 0 := by simp [activeTasks, ht]
    simpa [window, hnone] using hW
  · have hle : activeTasks cfg job d.queue ≤ W := (hq.countP_le).trans hW
    cases e with
    | attempt req replies =>
      by_cases hj : req.jobId = job
      · simp only [NeverLowered, window, hj, if_true] at hn ⊢
        omega
      · simpa [window, hj] using hle
    | taskEnds | foreign | wait | release => exact hle

theorem window_cons (job : Text) (W : ℕ) (e : Event) (es : List Event) :
    window job W (e :: es) = window job (window job W [e]) es := by
  cases e <;> rfl

theorem neverLowered_cons (job : Text) (W : ℕ) (e : Event) (es : List Event) :
    NeverLowered job W (e :: es) ↔
      NeverLowered job W [e] ∧ NeverLowered job (window job W [e]) es := by
  cases e with
  | attempt req replies =>
    by_cases hj : req.jobId = job <;> simp [NeverLowered, window, hj]
  | taskEnds | foreign | wait | release => simp [NeverLowered, window]

/-- A job whose window is never lowered never has more active tasks than its window. -/
theorem activeTasks_le_window {cfg : Config} {job : Text} {W : ℕ} {c d : Cluster} {es : List Event}
    (hW : activeTasks cfg job c.queue ≤ W) (hn : NeverLowered job W es)
    (hrun : Machine.run (step cfg) c es = some d) : activeTasks cfg job d.queue ≤ window job W es := by
  induction es generalizing c W with
  | nil => cases hrun; exact hW
  | cons e es ih =>
    obtain ⟨m, hm, hrun⟩ := Machine.run_cons_some.1 hrun
    obtain ⟨hn₁, hn₂⟩ := (neverLowered_cons job W e es).1 hn
    rw [window_cons]
    exact ih (activeTasks_step hm hW hn₁) hn₂ hrun

/-! ### The total -/

/-- Nobody else submits, and every attempt knows the ceiling `C`. -/
def KnownCeiling (cfg : Config) (C : ℕ) (c : Cluster) : Event → Prop
  | .attempt req replies => (c.decision cfg req replies).ceiling = some (C : ℤ)
  | .foreign _ => False
  | _ => True

theorem total_step {cfg : Config} {C : ℕ} {c d : Cluster} {e : Event}
    (hC : c.queue.length ≤ C) (hk : KnownCeiling cfg C c e) (h : step cfg c e = some d) :
    d.queue.length ≤ C := by
  rcases step_cases h with ⟨req, replies, rfl, -, hsub, hq⟩ | ⟨t, rfl, -, -⟩ | hq
  · have hlt := (submits_spec hsub).2 C hk
    have hnew := length_submitted cfg req replies
    rw [hq, List.length_append]
    omega
  · exact hk.elim
  · exact hq.length_le.trans hC

/-- With a constant known ceiling and no other submitter the total never exceeds it. -/
theorem total_le_ceiling {cfg : Config} {C : ℕ} {c d : Cluster} {es : List Event}
    (hC : c.queue.length ≤ C) (hk : Machine.Along (step cfg) (KnownCeiling cfg C) c es)
    (hrun : Machine.run (step cfg) c es = some d) : d.queue.length ≤ C :=
  Machine.invariant_along (I := fun c => c.queue.length ≤ C)
    (fun _ _ _ hC hk h => total_step hC hk h) hC hk hrun

/-- **Admission safety.**  An attempt calls `sbatch` only below its fair target, which is at most
the requested window, and below the ceiling it computed; hence the windows and a constant known
ceiling are respected over every run. -/
theorem admission_safety (cfg : Config) :
    (∀ (c : Cluster) (req : Request) (replies : Replies), req.Valid →
      c.submits cfg req replies = true →
        activeTasks cfg req.jobId c.queue < (c.decision cfg req replies).target ∧
          (c.decision cfg req replies).target ≤ req.requested ∧
          ∀ C, (c.decision cfg req replies).ceiling = some C → (c.queue.length : ℤ) < C) ∧
    (∀ (job : Text) (W : ℕ) (c d : Cluster) (es : List Event),
      activeTasks cfg job c.queue ≤ W → NeverLowered job W es →
        Machine.run (step cfg) c es = some d → activeTasks cfg job d.queue ≤ window job W es) ∧
    (∀ (C : ℕ) (c d : Cluster) (es : List Event),
      c.queue.length ≤ C → Machine.Along (step cfg) (KnownCeiling cfg C) c es →
        Machine.run (step cfg) c es = some d → d.queue.length ≤ C) := by
  refine ⟨fun c req replies hreq hsub => ?_, fun job W c d es hW hn hrun => ?_,
    fun C c d es hC hk hrun => ?_⟩
  · obtain ⟨hcur, hceil⟩ := submits_spec hsub
    exact ⟨hcur, target_le_requested cfg _ hreq _ _, hceil⟩
  · exact activeTasks_le_window hW hn hrun
  · exact total_le_ceiling hC hk hrun

/-- Job `a` asks twice for a window of one task: the second attempt waits. -/
theorem admission_safety_window_one :
    let cfg : Config := ⟨['u'], ['/', 'j']⟩
    let req : Request := ⟨['a'], 1⟩
    let replies : Replies := ⟨none, none, .exited 0 ['7'] [], some ⟨['7'], by decide⟩⟩
    let c : Cluster := ⟨1000, ⟨⟨[], List.nodup_nil⟩, ⟨none, some 1000, none, none, none⟩⟩, []⟩
    ∃ d, Machine.run (step cfg) c [.attempt req replies, .attempt req replies] = some d ∧
      activeTasks cfg ['a'] d.queue = 1 ∧ activeTasks cfg ['a'] d.queue ≤ 1 := by
  intro cfg req replies c
  refine ⟨_, rfl, by decide +kernel, ?_⟩
  exact (admission_safety cfg).2.1 ['a'] 0 c _ [.attempt req replies, .attempt req replies]
    (by decide) (by simp [NeverLowered, req]) rfl

end Coordinator
end Slurmy
