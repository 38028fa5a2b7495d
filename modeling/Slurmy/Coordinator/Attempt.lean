import Slurmy.Text
import Slurmy.Coordinator.FairTargets

/-!
# One attempt of the submit coordinator

`main` of `submit_coordinator.py` for the action `attempt`.  It runs under `submit.lock`: it renews
the caller's lease, drops the dead ones, reads the queue, computes the ceiling and the caller's fair
target, and calls `sbatch` when both leave room.

* `Leases`, `CapacityRecord`: the stored files; `Leases` holds one file for each job;
* `queueSnapshot`: the counts taken from `squeue -o '%i|%Z'`;
* `ceiling`, `available`, `admission`: the decision;
* `attempt`: the printed answer and the files left behind.

The replies of `squeue`, `sacctmgr` and `sbatch` and the clock are inputs (`Environment`).
-/

namespace Slurmy
namespace Coordinator

/-- `LEASE_SECONDS`. -/
def leaseSeconds : ℚ := 45

/-- `OBSERVATION_SECONDS`. -/
def observationSeconds : ℚ := 300

/-- `LIMIT_ERRORS`. -/
def limitErrors : List Text :=
  ["AssocMaxSubmitJobLimit", "AssocGrpSubmitJobsLimit", "QOSMaxSubmitJobPerUserLimit",
    "QOSMaxSubmitJobPerAccountLimit", "QOSGrpSubmitJobLimit", "QOSGrpSubmitJobsLimit",
    "job submit limit", "maximum number of submitted jobs"].map String.toList

/-! ### Stored files -/

/-- A file of `submitters/`. -/
structure Lease where
  jobId : Text
  requested : ℕ
  updated : ℚ
  deriving DecidableEq

/-- The directory `submitters/`: the file of a job is named after it. -/
structure Leases where
  files : List Lease
  nodup : (files.map Lease.jobId).Nodup

/-- `submit-capacity.json`; `none` is an absent key (or a `null`). -/
structure CapacityRecord where
  reported : Option ℤ
  checked : Option ℚ
  observed : Option ℤ
  observedAt : Option ℚ
  turn : Option ℤ
  deriving DecidableEq

/-- What the coordinator keeps between attempts. -/
structure Store where
  leases : Leases
  capacity : CapacityRecord

/-- The files after `save_json(lease, …)`: the job's file is replaced, or added. -/
def saveFiles (lease : Lease) (files : List Lease) : List Lease :=
  if lease.jobId ∈ files.map Lease.jobId then
    files.map fun old => if old.jobId = lease.jobId then lease else old
  else files ++ [lease]

theorem map_jobId_saveFiles (lease : Lease) (files : List Lease) :
    (saveFiles lease files).map Lease.jobId =
      if lease.jobId ∈ files.map Lease.jobId then files.map Lease.jobId
      else files.map Lease.jobId ++ [lease.jobId] := by
  unfold saveFiles
  split_ifs with h
  · rw [List.map_map]
    refine List.map_congr_left fun old _ => ?_
    simp only [Function.comp_apply]
    split_ifs with he
    · exact he.symm
    · rfl
  · simp

/-- `save_json(lease, …)`. -/
def Leases.save (d : Leases) (lease : Lease) : Leases where
  files := saveFiles lease d.files
  nodup := by
    rw [map_jobId_saveFiles]
    split_ifs with h
    · exact d.nodup
    · exact List.nodup_append_comm.1 (by simpa using ⟨by simpa using h, d.nodup⟩)

/-- A record that the scan of `submitters/` keeps: not expired, with a valid job ID. -/
def Lease.live (now : ℚ) (lease : Lease) : Bool :=
  decide (now - lease.updated ≤ leaseSeconds) && isJobId lease.jobId

/-- The scan unlinks every other file. -/
def Leases.keepLive (d : Leases) (now : ℚ) : Leases where
  files := d.files.filter (Lease.live now)
  nodup := (List.filter_sublist.map _).nodup d.nodup

/-- The keys of `demands`. -/
def Leases.names (d : Leases) : List Text := (d.files.filter fun l => 0 < l.requested).map Lease.jobId

/-- `demands[name]`, `0` for a name that is not a key. -/
def Leases.demand (d : Leases) (name : Text) : ℕ :=
  ((d.files.find? fun l => l.jobId = name).map Lease.requested).getD 0

/-! ### The queue -/

/-- The result of `queue_snapshot`; `own` has an entry for each line of a Slurmy job, so that the
code's `own[name]` is `own.count name`. -/
structure Snapshot where
  total : ℕ
  other : ℕ
  own : List Text
  deriving DecidableEq

/-- The Slurmy job of a working directory, if it is one directly below `jobs_root`. -/
def jobOf (root directory : Text) : Option Text :=
  if (root ++ ['/']).isPrefixOf directory then
    let name := directory.drop (root.length + 1)
    if isJobId name then some name else none
  else none

/-- `queue_snapshot` on the output lines of `squeue`. -/
def queueSnapshot (root : Text) (lines : List Text) : Snapshot :=
  let lines := lines.filter fun line => !(strip line).isEmpty
  let jobs := lines.map fun line => jobOf root (after '|' line)
  { total := lines.length
    other := (jobs.filter Option.isNone).length
    own := jobs.reduceOption }

/-! ### The decision -/

/-- `reported_limit`: the least positive `MaxSubmitJobs` among the lines of the user. -/
def reportedLimit (user : Text) (lines : Option (List Text)) : Option ℤ :=
  let limits := (lines.getD []).filterMap fun line =>
    let last := (before '|' line.reverse).reverse
    if before '|' line = user ∧ isDigits last ∧ 0 < number last then some (number last : ℤ) else none
  limits.min?

/-- The result of `command(["sbatch", …])`. -/
inductive SbatchResult
  | unconfirmed (exc : Text)
  | exited (returncode : ℤ) (stdout stderr : Text)
  deriving DecidableEq

/-- What an attempt reads from outside: the clock and the replies of the commands it runs (`none`
and `error` for a failed or timed-out command). -/
structure Environment where
  now : ℚ
  sacctmgr : Option (List Text)
  squeue : Except Text (List Text)
  sbatch : SbatchResult

/-- The arguments of `attempt`: job ID and requested window. -/
structure Request where
  jobId : Text
  requested : ℕ
  deriving DecidableEq

/-- `main` accepts the arguments. -/
def Request.Valid (req : Request) : Prop := isJobId req.jobId = true ∧ 0 < req.requested

/-- The user and `str(jobs_root)`. -/
structure Config where
  user : Text
  root : Text

/-- The reported limit is read again after `OBSERVATION_SECONDS`. -/
def CapacityRecord.refresh (c : CapacityRecord) (cfg : Config) (env : Environment) : CapacityRecord :=
  if env.now - c.checked.getD 0 > observationSeconds then
    { c with reported := reportedLimit cfg.user env.sacctmgr, checked := some env.now }
  else c

/-- `observed`, unless its observation has expired. -/
def CapacityRecord.liveObserved (c : CapacityRecord) (now : ℚ) : Option ℤ :=
  if now - c.observedAt.getD 0 < observationSeconds then c.observed else none

/-- `min(known) if known else None`. -/
def CapacityRecord.ceiling (c : CapacityRecord) (now : ℚ) : Option ℤ :=
  ([c.reported, c.liveObserved now].filterMap fun v => v.filter (0 < ·)).min?

/-- `active_without_submitter`. -/
def withoutSubmitter (d : Leases) (snap : Snapshot) : ℕ :=
  (snap.own.filter fun name => name ∉ d.names).length

/-- `available`. -/
def available (d : Leases) (snap : Snapshot) (ceiling : Option ℤ) : ℤ :=
  match ceiling with
  | some c => c - snap.other - withoutSubmitter d snap
  | none => (d.names.map d.demand).sum

/-- The numbers an attempt compares. -/
structure Admission where
  current : ℕ
  target : ℕ
  total : ℕ
  ceiling : Option ℤ
  deriving DecidableEq

/-- The comparison that precedes `sbatch`. -/
def Admission.admits (a : Admission) : Bool :=
  decide (a.current < a.target) && decide (∀ c ∈ a.ceiling, (a.total : ℤ) < c)

/-- `current`, `target`, `total` and `ceiling` of an attempt. -/
def admission (req : Request) (d : Leases) (snap : Snapshot) (c : CapacityRecord) (now : ℚ) :
    Admission :=
  let ceiling := c.ceiling now
  { current := snap.own.count req.jobId
    target :=
      if req.jobId ∈ d.names then
        fairTargets d.demand d.names (available d snap ceiling) (c.turn.getD 0) req.jobId
      else req.requested
    total := snap.total
    ceiling := ceiling }

/-! ### The answer -/

/-- What an attempt prints. -/
inductive Answer
  | unreadable (message : Text)
  | fairShare (a : Admission)
  | unconfirmed (exc : Text)
  | unrecognized (message : Text)
  | accepted (slurmId : Text) (a : Admission)
  | rejectedEmpty (message : Text)
  | limited (total : ℕ) (observed : ℤ) (message : Text)
  | rejected (message : Text)
  deriving DecidableEq

/-- The word before the first bar of the printed line. -/
inductive Kind
  | accepted
  | wait
  | error
  deriving DecidableEq

def Answer.kind : Answer → Kind
  | .accepted .. => .accepted
  | .unreadable .. | .fairShare .. | .limited .. => .wait
  | .unconfirmed .. | .unrecognized .. | .rejectedEmpty .. | .rejected .. => .error

/-- The exit status. -/
def Answer.status (a : Answer) : ℕ := if a.kind = .error then 2 else 0

/-- The printed line. -/
def Answer.line : Answer → Text
  | .unreadable message =>
      "WAIT|Cannot read SLURM queue; submission paused until a successful query: ".toList ++ message
  | .fairShare a =>
      "WAIT|".toList ++ decimal a.current ++ " active for this job; fair share ".toList ++
        decimal a.target ++ "; ".toList ++ decimal a.total ++ " user jobs; ".toList ++
        match a.ceiling with
        | some c => "reported/observed limit ".toList ++ decimal c.toNat
        | none => "limit not reported".toList
  | .unconfirmed exc =>
      "ERROR|Could not confirm sbatch acceptance: ".toList ++ exc ++
        ". Inspect SLURM before retrying.".toList
  | .unrecognized message => "ERROR|sbatch returned an unrecognized ID: ".toList ++ message
  | .accepted slurmId a =>
      "ACCEPTED|".toList ++ slurmId ++ '|' :: decimal (a.current + 1) ++ '/' :: decimal a.target ++
        " fair share; ".toList ++ decimal (a.total + 1) ++ " user jobs".toList ++
        match a.ceiling with
        | some c => "; submit limit ".toList ++ decimal c.toNat
        | none => []
  | .rejectedEmpty message =>
      "ERROR|SLURM rejected submission with no queued jobs: ".toList ++ message
  | .limited total observed message =>
      "WAIT|SLURM rejected submission at ".toList ++ decimal total ++
        " user jobs; observed ceiling ".toList ++ decimal observed.toNat ++
        " (expires in five minutes): ".toList ++ message
  | .rejected message => "ERROR|sbatch rejected submission: ".toList ++ message

/-- `token.casefold() in message.casefold()` for some token of `LIMIT_ERRORS` (ASCII messages). -/
def isLimitError (message : Text) : Bool :=
  limitErrors.any fun token => decide (token.map Char.toLower <:+: message.map Char.toLower)

/-- `message`: the output of `sbatch` on one line. -/
def sbatchMessage (stdout stderr : Text) : Text := oneLine (strip (stdout ++ '\n' :: stderr))

/-- The observation merged with the stored one after a limit rejection. -/
def mergeObserved (total : ℕ) (prior : Option ℤ) : ℤ :=
  match prior with
  | some p => if 0 < p then min (total : ℤ) p else total
  | none => total

/-- The part of an attempt after the comparison: `sbatch` and what becomes of its reply. -/
def submit (env : Environment) (a : Admission) (c : CapacityRecord) : Answer × CapacityRecord :=
  match env.sbatch with
  | .unconfirmed exc => (.unconfirmed exc, c)
  | .exited returncode stdout stderr =>
      let message := sbatchMessage stdout stderr
      if returncode = 0 then
        let slurmId := before ';' (strip stdout)
        if isDigits slurmId then
          (.accepted slurmId a, { c with turn := some (c.turn.getD 0 + 1) })
        else (.unrecognized message, c)
      else if isLimitError message then
        if a.total = 0 then (.rejectedEmpty message, c)
        else
          let observed := mergeObserved a.total c.observed
          (.limited a.total observed message,
            { c with observed := some observed, observedAt := some env.now })
      else (.rejected message, c)

/-- The leases after the scan, the caller's own one renewed. -/
def renewed (env : Environment) (req : Request) (d : Leases) : Leases :=
  (d.save ⟨req.jobId, req.requested, env.now⟩).keepLive env.now

/-- The numbers compared by an attempt that read `lines` from `squeue`. -/
def decision (cfg : Config) (env : Environment) (req : Request) (s : Store) (lines : List Text) :
    Admission :=
  admission req (renewed env req s.leases) (queueSnapshot cfg.root lines)
    (s.capacity.refresh cfg env) env.now

/-- `main` for `attempt`: the answer, and the files left behind. -/
def attempt (cfg : Config) (env : Environment) (req : Request) (s : Store) : Answer × Store :=
  let leases := renewed env req s.leases
  match env.squeue with
  | .error message => (.unreadable (oneLine message), { s with leases := leases })
  | .ok lines =>
      let capacity := s.capacity.refresh cfg env
      let a := decision cfg env req s lines
      if a.admits then
        let r := submit env a capacity
        (r.1, ⟨leases, r.2⟩)
      else (.fairShare a, ⟨leases, capacity⟩)

/-- The attempt runs `sbatch`. -/
def callsSbatch (cfg : Config) (env : Environment) (req : Request) (s : Store) : Bool :=
  match env.squeue with
  | .error _ => false
  | .ok lines => (decision cfg env req s lines).admits

theorem submit_ne_fairShare (env : Environment) (a b : Admission) (c : CapacityRecord) :
    (submit env a c).1 ≠ .fairShare b := by
  unfold submit
  split
  · exact Answer.noConfusion
  · dsimp only
    split_ifs <;> exact Answer.noConfusion

/-- An attempt goes on to `sbatch` exactly when the numbers that it compares leave room. -/
theorem callsSbatch_iff (cfg : Config) (env : Environment) (req : Request) (s : Store) :
    callsSbatch cfg env req s = true ↔ ∃ lines, env.squeue = .ok lines ∧
      attempt cfg env req s =
        ((submit env (decision cfg env req s lines) (s.capacity.refresh cfg env)).1,
          ⟨renewed env req s.leases,
            (submit env (decision cfg env req s lines) (s.capacity.refresh cfg env)).2⟩) := by
  unfold callsSbatch attempt
  cases env.squeue with
  | error message => simp
  | ok lines =>
    cases hadmits : (decision cfg env req s lines).admits with
    | true => simp [hadmits]
    | false =>
      -- the answer of an attempt that is held back is none that follows `sbatch`
      simpa [hadmits] using fun h => absurd h.symm (submit_ne_fairShare env _ _ _)

/-! ### The caller's lease -/

theorem mem_saveFiles (lease : Lease) (files : List Lease) : lease ∈ saveFiles lease files := by
  unfold saveFiles
  split_ifs with h
  · obtain ⟨old, hold, he⟩ := List.mem_map.1 h
    exact List.mem_map.2 ⟨old, hold, if_pos he⟩
  · simp

/-- The lease of a job is the one its file holds. -/
theorem Leases.demand_of_mem {d : Leases} {l : Lease} (hl : l ∈ d.files) :
    d.demand l.jobId = l.requested := by
  cases hf : d.files.find? fun l' => l'.jobId = l.jobId with
  | none => exact absurd (List.find?_eq_none.1 hf l hl) (by simp)
  | some l' =>
    have hid : l'.jobId = l.jobId := by simpa using List.find?_some hf
    have heq : l' = l := List.inj_on_of_nodup_map d.nodup (List.mem_of_find?_eq_some hf) hl hid
    simp [Leases.demand, hf, heq]

theorem Leases.nodup_names (d : Leases) : d.names.Nodup :=
  (List.filter_sublist.map _).nodup d.nodup

theorem Leases.mem_names {d : Leases} {name : Text} :
    name ∈ d.names ↔ ∃ l ∈ d.files, 0 < l.requested ∧ l.jobId = name := by
  simp [Leases.names, and_assoc]

theorem live_renewed (env : Environment) {req : Request} (h : req.Valid) :
    (⟨req.jobId, req.requested, env.now⟩ : Lease).live env.now = true := by
  simp [Lease.live, h.1, leaseSeconds]

/-- The caller is among the jobs that share the capacity, with the window it asks for. -/
theorem mem_renewed (env : Environment) {req : Request} (h : req.Valid) (d : Leases) :
    (⟨req.jobId, req.requested, env.now⟩ : Lease) ∈ (renewed env req d).files :=
  List.mem_filter.2 ⟨mem_saveFiles _ _, live_renewed env h⟩

theorem jobId_mem_names (env : Environment) {req : Request} (h : req.Valid) (d : Leases) :
    req.jobId ∈ (renewed env req d).names :=
  Leases.mem_names.2 ⟨_, mem_renewed env h d, h.2, rfl⟩

theorem demand_renewed (env : Environment) {req : Request} (h : req.Valid) (d : Leases) :
    (renewed env req d).demand req.jobId = req.requested :=
  Leases.demand_of_mem (mem_renewed env h d)

/-- The fair target never exceeds the requested window. -/
theorem target_le_requested (cfg : Config) (env : Environment) {req : Request} (h : req.Valid)
    (s : Store) (lines : List Text) : (decision cfg env req s lines).target ≤ req.requested := by
  simp only [decision, admission, if_pos (jobId_mem_names env h s.leases)]
  exact (fairTargets_le _).trans (demand_renewed env h s.leases).le

theorem admits_iff {a : Admission} :
    a.admits = true ↔ a.current < a.target ∧ ∀ c, a.ceiling = some c → (a.total : ℤ) < c := by
  simp [Admission.admits]

end Coordinator
end Slurmy
