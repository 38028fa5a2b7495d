import Slurmy.Lib.Machine
import Slurmy.Lib.PosixPath
import Slurmy.Monitor.Summaries
import Mathlib.Algebra.Order.Floor.Ring
import Mathlib.Data.Rat.Floor

/-!
# Incremental refreshes

The snapshot of a large job is refreshed incrementally: the cluster sends only the index files and the metadata that
have changed since a minute before the last snapshot, and the rest is taken from there.

* `Setup`, `State`: the job on the cluster, the snapshot of the monitor, and the collection that is under way;
* `since`, `Answer`, `parseJob`, `merge`: what is asked for, what is sent, what is read of it, and the merge;
* `step`: results that are published, and a collection file by file.  Along with every collection goes one that asks
  for everything at the same moments, `full`;
* `State.Inv`: what the snapshot has seen of every index file is there, or it was published since;
* `merged_eq_full`: an incremental refresh gives the same job as a full one, but for SLURM records of former IDs;
* `shown_current`: a result that was indexed before the last collection is shown.

A file gets its time stamp when it is written and its name at most `delay` seconds later.  All machines have one clock,
and a collection takes less than a minute, even with the delay.  `SnapshotCache` runs one collection of a job at a time.
The job starts with `results/index/.ready`, its `call.sh` has the watcher, and its directory does not move; logs are left
out, and so is `results/index-legacy`, which no script writes.
-/

namespace Slurmy
namespace Incremental

open Batch (ResultRow tableOf)
open TaskPages (ResultRecord TaskDefinition SlurmRecord)
open Summaries (Counts normalizeSzsResult summarizeResults detailedResults recordOf)
open Export (latestRows)

/-! ### Snapshots of a job -/

structure Metadata where
  taskCount : ℕ
  plannedBatchTasks : List (List ℕ)
  previousJobIds : List Text
  deriving DecidableEq

def Metadata.taskBatches (m : Metadata) : List (ℕ × ℕ) :=
  Dict.putAll [] (m.plannedBatchTasks.zipIdx.flatMap fun p => p.1.map fun task => (task, p.2))

/-- A snapshot of the job. -/
structure Job where
  metadata : Option Metadata
  taskBatches : List (ℕ × ℕ)
  counts : Counts
  results : List (ℕ × ResultRecord)
  tasks : List (ℕ × TaskDefinition)
  slurm : List SlurmRecord

/-- What a collection sends of the job; the files with results have numbers. -/
structure Answer where
  metadata : Option Metadata
  tables : List (ℕ × List ResultRow)
  manifest : Option (List (ℕ × TaskDefinition))

/-- A pair that only its result is known of. -/
def unknownTask : TaskDefinition := ⟨"Unknown solver".toList, [], [], [], []⟩

/-- `PurePosixPath(workdir).name`. -/
def workName (workdir : Text) : Text := (PosixPath.parse workdir).name

/-- The record of a job with this work directory is one of the job. -/
def belongs (jobId : Text) (previous : List Text) (workdir : Text) : Bool :=
  decide ((if workName workdir ∈ previous then jobId else workName workdir) = jobId)

/-- `parse_snapshot`, for the job that is shown in detail; the SLURM records come with their work directories. -/
def parseJob (asFloat : Text → Option ℚ) (jobId : Text) (answer : Answer) (records : List (Text × SlurmRecord)) :
    Option Job :=
  (detailedResults asFloat (answer.tables.map fun t => tableOf t.2)).map fun results =>
    { metadata := answer.metadata
      taskBatches := (answer.metadata.map Metadata.taskBatches).getD []
      counts := summarizeResults results
      results := results
      tasks := results.foldl (fun tasks p =>
        if p.1 ∈ tasks.map Prod.fst then tasks else Dict.put tasks p.1 unknownTask) (answer.manifest.getD [])
      slurm := (records.filter fun p =>
        belongs jobId ((answer.metadata.map Metadata.previousJobIds).getD []) p.1).map Prod.snd }

/-- The merge of the former snapshot into an incremental one. -/
def merge (old current : Job) : Job :=
  let results := Dict.putAll old.results current.results
  { metadata := if current.metadata = none then old.metadata else current.metadata
    taskBatches := if current.metadata = none then old.taskBatches else current.taskBatches
    counts := summarizeResults results
    results := results
    tasks := old.tasks
    slurm := current.slurm }

/-! ### The job on the cluster and its monitor -/

/-- What does not change; `asFloat` reads a number. -/
structure Setup where
  jobId : Text
  manifest : List (ℕ × TaskDefinition)
  batchOf : ℕ → ℕ
  batches : ℕ
  delay : ℚ
  delay_nonneg : 0 ≤ delay
  asFloat : Text → Option ℚ

/-- A file that is replaced as a whole: its contents, the time of the last write, and the time of the replacement. -/
structure Stamped (α : Type) where
  value : α
  stamp : ℚ
  published : ℚ

/-- The snapshot that the monitor holds.  It is `job`, from the time `fetched`; the rest is about the collection that
it comes from: when it started, what a full one would have given, the files that one would have read, whether the
metadata was sent, and the SLURM records. -/
structure Cached where
  job : Job
  fetched : ℚ
  start : ℚ
  full : Job
  seen : List (ℕ × List ResultRow)
  resent : Bool
  records : List (Text × SlurmRecord)

/-- `since`, as `fetch` hands it on. -/
def Cached.since (c : Cached) : Option ℤ :=
  if 10000 < (c.job.metadata.map Metadata.taskCount).getD 0 ∧ c.job.tasks ≠ [] then some (max 0 ⌊c.fetched - 60⌋)
  else none

/-- The files with results: the index of each batch, or the individual results. -/
inductive Source
  | index
  | raw
  deriving DecidableEq

/-- How far a collection is; `since` stands only if the index was ready when the files were selected. -/
inductive Phase
  | metadata
  | choose
  | select (source : Source)
  | files (source : Source) (since : Option ℤ) (examined : List ℕ)
  | slurm

/-- A collection, which started from the snapshot `old`.  It sends `answer`; without `since` it would send `full`. -/
structure Collection where
  start : ℚ
  old : Option Cached
  phase : Phase
  answer : Answer
  full : Answer

def Collection.since (k : Collection) : Option ℤ := k.old.bind Cached.since

structure State where
  now : ℚ
  raw : ℕ → Option ResultRow
  index : ℕ → Option (Stamped (List ResultRow))
  ready : Bool
  metadata : Stamped Metadata
  cached : Option Cached
  collection : Option Collection

inductive Event
  | wait (seconds : ℚ)
  /-- `call.sh` publishes an individual result -/
  | publishResult (row : ResultRow)
  /-- `call.sh` publishes the index of the batch -/
  | publishIndex (row : ResultRow) (stamp : ℚ)
  /-- `call.sh` could not write the index, and removes `.ready` -/
  | unready
  | describe (m : Metadata) (stamp : ℚ)
  | start
  | readMetadata
  | chooseFiles
  | selectFiles
  | readFile (k : ℕ)
  | readManifest
  | finish (records : List (Text × SlurmRecord))
  /-- a collection fails -/
  | drop
  /-- the snapshot is no longer held -/
  | forget

def Setup.tasks (cfg : Setup) : List ℕ := cfg.manifest.map Prod.fst

/-- A file with this time stamp can be moved to its place now. -/
def Setup.fresh (cfg : Setup) (now stamp : ℚ) : Bool := decide (0 < stamp ∧ stamp ≤ now ∧ now ≤ stamp + cfg.delay)

/-- The rows of an index after `call.sh` has replaced a row. -/
def newRows (rows : List ResultRow) (row : ResultRow) : List ResultRow :=
  rows.filter (fun r => decide (r.taskId ≠ row.taskId)) ++ [row]

def State.rows (s : State) : Source → ℕ → Option (List ResultRow)
  | .index, b => (s.index b).map Stamped.value
  | .raw, task => (s.raw task).map fun row => [row]

/-- `find -newermt`. -/
def State.newer (s : State) : Source → Option ℤ → ℕ → Bool
  | .index, some since, b => (s.index b).any fun f => decide ((since : ℚ) < f.stamp)
  | _, _, _ => true

/-- The numbers of the files there can be. -/
def Setup.numbers (cfg : Setup) : Source → List ℕ
  | .index => List.range cfg.batches
  | .raw => cfg.tasks

/-- The next section of a collection. -/
def advance (cfg : Setup) (s : State) (k : Collection) : Event → Option Collection
  | .readMetadata =>
      match k.phase with
      | .metadata =>
          let changed := match k.since with
            | some since => !s.ready || decide (since ≤ ⌊s.metadata.stamp⌋)
            | none => true
          some { k with
            phase := .choose
            answer := { k.answer with metadata := if changed then some s.metadata.value else none }
            full := { k.full with metadata := some s.metadata.value } }
      | _ => none
  | .chooseFiles =>
      match k.phase with
      | .choose => some { k with phase := .select (if s.ready then .index else .raw) }
      | _ => none
  | .selectFiles =>
      match k.phase with
      | .select source => some { k with phase := .files source (if s.ready then k.since else none) [] }
      | _ => none
  | .readFile n =>
      match k.phase with
      | .files source since examined =>
          if n ∈ examined then none
          else match s.rows source n with
            | none => some { k with phase := .files source since (n :: examined) }
            | some rows => some { k with
                phase := .files source since (n :: examined)
                answer := { k.answer with
                  tables := if s.newer source since n then k.answer.tables ++ [(n, rows)] else k.answer.tables }
                full := { k.full with tables := k.full.tables ++ [(n, rows)] } }
      | _ => none
  | .readManifest =>
      match k.phase with
      | .files source _ examined =>
          if ∀ n ∈ cfg.numbers source, n ∈ examined then
            some { k with
              phase := .slurm
              answer := { k.answer with
                manifest := if k.since.isSome && s.ready then none else some cfg.manifest }
              full := { k.full with manifest := some cfg.manifest } }
          else none
      | _ => none
  | _ => none

/-- The snapshot at the end of a collection. -/
def Collection.cached (cfg : Setup) (k : Collection) (now : ℚ) (records : List (Text × SlurmRecord)) :
    Option Cached :=
  (parseJob cfg.asFloat cfg.jobId k.answer records).bind fun current =>
    (parseJob cfg.asFloat cfg.jobId k.full records).map fun full =>
      { job := match k.old with
          | some old => if old.since.isSome then merge old.job current else current
          | none => current
        fetched := now
        start := k.start
        full := full
        seen := k.full.tables
        resent := k.answer.metadata.isSome
        records := records }

def step (cfg : Setup) (s : State) : Event → Option State
  | .wait seconds => if 0 ≤ seconds then some { s with now := s.now + seconds } else none
  | .publishResult row =>
      if row.taskId ∈ cfg.tasks ∧ cfg.batchOf row.taskId < cfg.batches then
        some { s with raw := Function.update s.raw row.taskId (some row) }
      else none
  | .publishIndex row stamp =>
      if s.raw row.taskId = some row ∧ cfg.fresh s.now stamp then
        let rows := ((s.index (cfg.batchOf row.taskId)).map Stamped.value).getD []
        some { s with
          index := Function.update s.index (cfg.batchOf row.taskId) (some ⟨newRows rows row, stamp, s.now⟩) }
      else none
  | .unready => some { s with ready := false }
  | .describe m stamp => if cfg.fresh s.now stamp then some { s with metadata := ⟨m, stamp, s.now⟩ } else none
  | .start =>
      match s.collection with
      | none => some { s with collection := some ⟨s.now, s.cached, .metadata, ⟨none, [], none⟩, ⟨none, [], none⟩⟩ }
      | some _ => none
  | .finish records =>
      s.collection.bind fun k =>
        match k.phase with
        | .slurm =>
            if s.now - k.start + cfg.delay < 60 then
              (k.cached cfg s.now records).map fun c => { s with cached := some c, collection := none }
            else none
        | _ => none
  | .drop => some { s with collection := none }
  | .forget => some { s with cached := none }
  | e => s.collection.bind fun k => (advance cfg s k e).map fun k => { s with collection := some k }

/-- A job without results. -/
def State.initial (m : Metadata) (now : ℚ) : State :=
  ⟨now, fun _ => none, fun _ => none, true, ⟨m, now, now⟩, none, none⟩

/-! ### Rows and results -/

def ids (rows : List ResultRow) : List ℕ := rows.map ResultRow.taskId

/-- The row of a pair that counts. -/
def rowOf (rows : List ResultRow) (id : ℕ) : Option ResultRow := Dict.get (latestRows rows) id

theorem latestRows_eq (rows : List ResultRow) : latestRows rows = Dict.putAll [] (rows.map fun r => (r.taskId, r)) := by
  rw [latestRows, Dict.putAll, List.foldl_map]

theorem rowOf_append (rows rows' : List ResultRow) (id : ℕ) :
    rowOf (rows ++ rows') id = (rowOf rows' id).or (rowOf rows id) := by
  simp only [rowOf, latestRows_eq, Dict.get_putAll, List.map_append, List.reverse_append, Dict.get_append, Option.or_assoc]
  rfl

theorem rowOf_ne_none {rows : List ResultRow} {id : ℕ} : rowOf rows id ≠ none ↔ id ∈ ids rows := by
  have hkeys : id ∈ (Dict.putAll [] (rows.map fun r => (r.taskId, r))).map Prod.fst ↔
      id ∈ ([] : List (ℕ × ResultRow)).map Prod.fst ∨ id ∈ (rows.map fun r => (r.taskId, r)).map Prod.fst :=
    Dict.mem_keys_putAll id
  rw [Dict.mem_keys, ← latestRows_eq] at hkeys
  rw [← Option.isSome_iff_ne_none]
  refine hkeys.trans ?_
  rw [List.map_map]
  simp [ids, Function.comp_def]

/-- Tables whose rows belong to their numbers. -/
structure Owned (key : ℕ → ℕ) (tables : List (ℕ × List ResultRow)) : Prop where
  nodup : (tables.map Prod.fst).Nodup
  owner : ∀ t ∈ tables, ∀ r ∈ t.2, key r.taskId = t.1

section Owners

variable {key : ℕ → ℕ} {tables : List (ℕ × List ResultRow)}

theorem Owned.sublist {tables' : List (ℕ × List ResultRow)} (h : Owned key tables) (hsub : tables'.Sublist tables) :
    Owned key tables' where
  nodup := (hsub.map Prod.fst).nodup h.nodup
  owner t ht := h.owner t (hsub.subset ht)

/-- The row of a pair comes from the table that it belongs to. -/
theorem Owned.rowOf_tables (h : Owned key tables) (id : ℕ) :
    rowOf (tables.flatMap Prod.snd) id = (Dict.get tables (key id)).bind fun rows => rowOf rows id := by
  induction tables with
  | nil => rfl
  | cons t tables ih =>
    have hnodup := h.nodup
    rw [List.map_cons, List.nodup_cons] at hnodup
    have hrest : Owned key tables := h.sublist (List.sublist_cons_self t tables)
    rw [List.flatMap_cons, rowOf_append, ih hrest, Dict.get_cons]
    by_cases hkey : key id = t.1
    · have hnone : Dict.get tables (key id) = none := Dict.get_eq_none fun p hp heq =>
        hnodup.1 (hkey ▸ heq ▸ List.mem_map_of_mem hp)
      rw [if_pos hkey, hnone, Option.bind_none, Option.none_or, Option.bind_some]
    · have hnone : rowOf t.2 id = none := by
        by_contra hne
        obtain ⟨r, hr, rfl⟩ := List.mem_map.mp (rowOf_ne_none.mp hne)
        exact hkey (h.owner t List.mem_cons_self r hr)
      rw [if_neg hkey, hnone, Option.or_none]

end Owners

/-- The result of a row. -/
def resultOf (asFloat : Text → Option ℚ) (r : ResultRow) : ResultRecord := normalizeSzsResult (recordOf asFloat r)

section Parse

variable {asFloat : Text → Option ℚ} {jobId : Text} {answer : Answer} {records : List (Text × SlurmRecord)} {job : Job}
  {key : ℕ → ℕ}

theorem results_parseJob (h : parseJob asFloat jobId answer records = some job) :
    job.results = Dict.mapValues (resultOf asFloat) (latestRows (answer.tables.flatMap Prod.snd)) := by
  have htables : answer.tables.map (fun t => tableOf t.2) = (answer.tables.map Prod.snd).map tableOf := by
    rw [List.map_map]
    rfl
  unfold parseJob at h
  rw [htables] at h
  obtain ⟨results, hresults, rfl⟩ := Option.map_eq_some_iff.mp h
  rw [List.flatMap_def]
  exact Summaries.detailedResults_eq hresults

theorem get_results (h : parseJob asFloat jobId answer records = some job) (howned : Owned key answer.tables) (id : ℕ) :
    Dict.get job.results id =
      ((Dict.get answer.tables (key id)).bind fun rows => rowOf rows id).map (resultOf asFloat) := by
  rw [results_parseJob h, ← howned.rowOf_tables]
  exact Dict.lookup_mapValues _ _ _

theorem nodup_results (h : parseJob asFloat jobId answer records = some job) : (job.results.map Prod.fst).Nodup := by
  rw [results_parseJob h, latestRows_eq, Dict.mapValues, List.map_map]
  exact Dict.nodup_keys_putAll (d := []) List.nodup_nil _

/-- The other parts of the snapshot. -/
theorem parts_parseJob (h : parseJob asFloat jobId answer records = some job) :
    job.metadata = answer.metadata ∧ job.taskBatches = (answer.metadata.map Metadata.taskBatches).getD [] ∧
      job.counts = summarizeResults job.results ∧
      job.slurm = (records.filter fun p =>
        belongs jobId ((answer.metadata.map Metadata.previousJobIds).getD []) p.1).map Prod.snd ∧
      job.tasks = job.results.foldl (fun tasks p =>
        if p.1 ∈ tasks.map Prod.fst then tasks else Dict.put tasks p.1 unknownTask) (answer.manifest.getD []) := by
  obtain ⟨results, -, rfl⟩ := Option.map_eq_some_iff.mp h
  exact ⟨rfl, rfl, rfl, rfl, rfl⟩

/-- The manifest has all tasks. -/
theorem tasks_eq {manifest : List (ℕ × TaskDefinition)} {results : List (ℕ × ResultRecord)}
    (h : ∀ p ∈ results, p.1 ∈ manifest.map Prod.fst) :
    results.foldl (fun tasks p => if p.1 ∈ tasks.map Prod.fst then tasks else Dict.put tasks p.1 unknownTask) manifest =
      manifest := by
  induction results with
  | nil => rfl
  | cons p results ih =>
    rw [List.forall_mem_cons] at h
    rw [List.foldl_cons, if_pos h.1, ih h.2]

/-- The counts depend on the results only. -/
theorem counts_congr {results results' : List (ℕ × ResultRecord)} (h : results.Perm results') :
    (summarizeResults results).completed = (summarizeResults results').completed ∧
      (∀ status, Counter.count (summarizeResults results).statusCounts status =
        Counter.count (summarizeResults results').statusCounts status) ∧
      ∀ status, Counter.count (summarizeResults results).unresolvedCounts status =
        Counter.count (summarizeResults results').unresolvedCounts status := by
  have hflip : (fun (c : List (Text × ℤ)) (p : ℕ × ResultRecord) =>
      if p.2.complete then c else Counter.add c p.2.status 1) =
      fun c p => if !p.2.complete then Counter.add c p.2.status 1 else c := by
    funext c p
    cases p.2.complete <;> rfl
  refine ⟨?_, fun status => ?_, fun status => ?_⟩
  · exact congrArg Nat.cast (h.filter _).length_eq
  · dsimp only [summarizeResults]
    rw [← List.foldl_filter, ← List.foldl_filter, Counter.count_ones, Counter.count_ones, ((h.filter _).filter _).length_eq]
  · dsimp only [summarizeResults]
    rw [hflip, ← List.foldl_filter, ← List.foldl_filter, Counter.count_ones, Counter.count_ones,
      ((h.filter _).filter _).length_eq]

end Parse

/-! ### Invariants -/

section Invariants

variable (cfg : Setup)

def Setup.key : Source → ℕ → ℕ
  | .index, id => cfg.batchOf id
  | .raw, id => id

/-- The snapshot is that of a full collection, with the same results in another order.  The SLURM records are those of
a full collection if and only if the metadata was sent, or none of them has a former ID. -/
structure Cached.Agrees (c : Cached) (jobId : Text) : Prop where
  metadata : c.job.metadata = c.full.metadata
  taskBatches : c.job.taskBatches = c.full.taskBatches
  tasks : c.job.tasks = c.full.tasks
  results : ∀ id, Dict.get c.job.results id = Dict.get c.full.results id
  completed : c.job.counts.completed = c.full.counts.completed
  statuses : ∀ status, Counter.count c.job.counts.statusCounts status = Counter.count c.full.counts.statusCounts status
  unresolved : ∀ status,
    Counter.count c.job.counts.unresolvedCounts status = Counter.count c.full.counts.unresolvedCounts status
  slurm : c.job.slurm = c.full.slurm ↔ c.resent = true ∨ ∀ p ∈ c.records,
    workName p.1 ∈ (c.full.metadata.map Metadata.previousJobIds).getD [] → workName p.1 = jobId

/-- The files of the job. -/
structure Files (s : State) : Prop where
  raw : ∀ id row, s.raw id = some row → row.taskId = id ∧ id ∈ cfg.tasks ∧ cfg.batchOf id < cfg.batches
  index : ∀ b f, s.index b = some f → b < cfg.batches ∧
    ∀ row ∈ f.value, cfg.batchOf row.taskId = b ∧ s.raw row.taskId ≠ none
  indexTime : ∀ b f, s.index b = some f → 0 < f.stamp ∧ f.published ≤ f.stamp + cfg.delay
  metadataTime : 0 < s.metadata.stamp ∧ s.metadata.published ≤ s.metadata.stamp + cfg.delay

/-- What can happen to the job while time passes. -/
structure Later (s t : State) : Prop where
  now : s.now ≤ t.now
  raw : ∀ id, s.raw id ≠ none → t.raw id ≠ none
  index : ∀ b f, s.index b = some f → ∃ g, t.index b = some g ∧ ids f.value ⊆ ids g.value
  same : ∀ b g, t.index b = some g → s.index b = some g ∨ s.now ≤ g.published
  ready : s.ready = false → t.ready = false
  metadata : t.metadata = s.metadata ∨ s.now ≤ t.metadata.published

/-- The snapshot has all that was in the index files of the collection, and what it has not seen of them has been
published since. -/
structure Seen (s : State) (c : Cached) : Prop where
  owned : Owned cfg.batchOf c.seen
  results : ∀ id, Dict.get c.job.results id =
    ((Dict.get c.seen (cfg.batchOf id)).bind fun rows => rowOf rows id).map (resultOf cfg.asFloat)
  kept : ∀ b rows, Dict.get c.seen b = some rows → ∃ f, s.index b = some f ∧ ids rows ⊆ ids f.value
  current : ∀ b f, s.index b = some f → Dict.get c.seen b = some f.value ∨ c.start ≤ f.published

structure Known (s : State) (c : Cached) : Prop where
  agrees : c.Agrees cfg.jobId
  nodup : (c.job.results.map Prod.fst).Nodup
  raw : ∀ id, Dict.get c.job.results id ≠ none → s.raw id ≠ none
  tasks : c.job.tasks = cfg.manifest
  metadata : c.full.metadata = some s.metadata.value ∨ c.start ≤ s.metadata.published
  taskBatches : c.full.taskBatches = (c.full.metadata.map Metadata.taskBatches).getD []
  time : c.fetched - c.start + cfg.delay < 60
  start : c.start ≤ s.now
  seen : s.ready = true → Seen cfg s c

/-- The metadata of a collection. -/
structure Described (s : State) (k : Collection) : Prop where
  read : k.full.metadata = some s.metadata.value ∨ k.start ≤ s.metadata.published
  isSome : k.full.metadata ≠ none
  sent : k.answer.metadata = k.full.metadata ∨ k.answer.metadata = none ∧
    ∃ old, k.old = some old ∧ old.since.isSome = true ∧ old.full.metadata = k.full.metadata

/-- The files of a collection, as far as it has come. -/
structure Reading (s : State) (k : Collection) (source : Source) (since : Option ℤ) (examined : List ℕ) : Prop where
  unready : source = .raw → s.ready = false
  asked : since = none ∨ since = k.since ∧ source = .index
  owned : Owned (cfg.key source) k.full.tables
  sublist : k.answer.tables.Sublist k.full.tables
  mem_examined : ∀ t ∈ k.full.tables, t.1 ∈ examined
  all : since = none → k.answer.tables = k.full.tables
  sent : ∀ b rows, Dict.get k.full.tables b = some rows → Dict.get k.answer.tables b = some rows ∨
    source = .index ∧ ∃ old, k.old = some old ∧ Dict.get old.seen b = some rows
  raw : ∀ t ∈ k.full.tables, ∀ r ∈ t.2, s.raw r.taskId ≠ none
  kept : ∀ old, k.old = some old → ∀ id, Dict.get old.job.results id ≠ none → cfg.key source id ∈ examined →
    ∃ rows, Dict.get k.full.tables (cfg.key source id) = some rows ∧ id ∈ ids rows
  old : source = .index → ∀ old, k.old = some old → Seen cfg s old
  index : source = .index → ∀ b rows, Dict.get k.full.tables b = some rows →
    ∃ f, s.index b = some f ∧ ids rows ⊆ ids f.value
  current : source = .index → ∀ b ∈ examined, ∀ f, s.index b = some f →
    Dict.get k.full.tables b = some f.value ∨ k.start ≤ f.published

def Answer.empty : Answer := ⟨none, [], none⟩

/-- How far a collection has come. -/
def Phase.Holds (s : State) (k : Collection) : Phase → Prop
  | .metadata => k.answer = Answer.empty ∧ k.full = Answer.empty
  | .choose => Described s k ∧ k.answer.tables = [] ∧ k.full.tables = []
  | .select source => Described s k ∧ k.answer.tables = [] ∧ k.full.tables = [] ∧
      (source = .raw → s.ready = false) ∧ (source = .index → ∀ old, k.old = some old → Seen cfg s old)
  | .files source since examined => Described s k ∧ Reading cfg s k source since examined
  | .slurm => Described s k ∧ k.full.manifest = some cfg.manifest ∧ (k.since = none → k.answer.manifest = some cfg.manifest) ∧
      ∃ source since examined, Reading cfg s k source since examined ∧ ∀ n ∈ cfg.numbers source, n ∈ examined

structure Going (s : State) (k : Collection) : Prop where
  start : k.start ≤ s.now
  old : ∀ old, k.old = some old → Known cfg s old
  phase : k.phase.Holds cfg s k

structure State.Inv (s : State) : Prop where
  files : Files cfg s
  cached : ∀ c, s.cached = some c → Known cfg s c
  collection : ∀ k, s.collection = some k → Going cfg s k

end Invariants

/-! ### Time passes -/

section Passing

variable {cfg : Setup} {s t : State} {c : Cached} {k : Collection} {source : Source} {since : Option ℤ}
  {examined : List ℕ}

theorem Later.of_eq (hnow : t.now = s.now) (hraw : t.raw = s.raw) (hindex : t.index = s.index)
    (hready : t.ready = s.ready) (hmetadata : t.metadata = s.metadata) : Later s t where
  now := hnow.ge
  raw id h := by rwa [hraw]
  index b f hf := ⟨f, by rwa [hindex], List.Subset.refl _⟩
  same b g hg := .inl (by rwa [hindex] at hg)
  ready h := by rwa [hready]
  metadata := .inl hmetadata

theorem Seen.later (h : Seen cfg s c) (hst : Later s t) (hstart : c.start ≤ s.now) : Seen cfg t c where
  owned := h.owned
  results := h.results
  kept b rows hrows := by
    obtain ⟨f, hf, hids⟩ := h.kept b rows hrows
    obtain ⟨g, hg, hids'⟩ := hst.index b f hf
    exact ⟨g, hg, List.Subset.trans hids hids'⟩
  current b g hg := by
    rcases hst.same b g hg with hg | hnow
    · exact h.current b g hg
    · exact .inr (hstart.trans hnow)

theorem Known.later (h : Known cfg s c) (hst : Later s t) : Known cfg t c where
  agrees := h.agrees
  nodup := h.nodup
  raw id hid := hst.raw id (h.raw id hid)
  tasks := h.tasks
  metadata := by
    rcases hst.metadata with heq | hnow
    · rw [heq]
      exact h.metadata
    · exact .inr (h.start.trans hnow)
  taskBatches := h.taskBatches
  time := h.time
  start := h.start.trans hst.now
  seen hready := by
    refine (h.seen ?_).later hst h.start
    cases hs : s.ready with
    | true => rfl
    | false => rw [hst.ready hs] at hready; cases hready

theorem Described.later (h : Described s k) (hst : Later s t) (hstart : k.start ≤ s.now) : Described t k where
  read := by
    rcases hst.metadata with heq | hnow
    · rw [heq]
      exact h.read
    · exact .inr (hstart.trans hnow)
  isSome := h.isSome
  sent := h.sent

theorem Reading.later (h : Reading cfg s k source since examined) (hst : Later s t) (hstart : k.start ≤ s.now)
    (hold : ∀ old, k.old = some old → Known cfg s old) : Reading cfg t k source since examined where
  unready hraw := hst.ready (h.unready hraw)
  asked := h.asked
  owned := h.owned
  sublist := h.sublist
  mem_examined := h.mem_examined
  all := h.all
  sent := h.sent
  raw u hu r hr := hst.raw _ (h.raw u hu r hr)
  kept := h.kept
  old hindex old ho := (h.old hindex old ho).later hst (hold old ho).start
  index hindex b rows hrows := by
    obtain ⟨f, hf, hids⟩ := h.index hindex b rows hrows
    obtain ⟨g, hg, hids'⟩ := hst.index b f hf
    exact ⟨g, hg, List.Subset.trans hids hids'⟩
  current hindex b hb g hg := by
    rcases hst.same b g hg with hg | hnow
    · exact h.current hindex b hb g hg
    · exact .inr (hstart.trans hnow)

theorem Going.later (h : Going cfg s k) (hst : Later s t) : Going cfg t k where
  start := h.start.trans hst.now
  old old ho := (h.old old ho).later hst
  phase := by
    have hphase := h.phase
    cases hk : k.phase with
    | metadata =>
      rw [hk] at hphase
      exact hphase
    | choose =>
      rw [hk] at hphase
      exact ⟨hphase.1.later hst h.start, hphase.2⟩
    | select source =>
      rw [hk] at hphase
      obtain ⟨hdescribed, hanswer, hfull, hraw, hindex⟩ := hphase
      exact ⟨hdescribed.later hst h.start, hanswer, hfull, fun hs => hst.ready (hraw hs),
        fun hs old ho => (hindex hs old ho).later hst (h.old old ho).start⟩
    | files source since examined =>
      rw [hk] at hphase
      exact ⟨hphase.1.later hst h.start, hphase.2.later hst h.start h.old⟩
    | slurm =>
      rw [hk] at hphase
      obtain ⟨hdescribed, hfull, hanswer, source, since, examined, hreading, hall⟩ := hphase
      exact ⟨hdescribed.later hst h.start, hfull, hanswer, source, since, examined,
        hreading.later hst h.start h.old, hall⟩

end Passing

/-! ### Events of the job -/

section Events

variable {cfg : Setup} {s t : State}

theorem mem_ids_newRows {rows : List ResultRow} {row : ResultRow} (id : ℕ) :
    id ∈ ids (newRows rows row) ↔ id ∈ ids rows ∨ id = row.taskId := by
  unfold ids newRows
  rw [List.map_append, List.mem_append, List.map_singleton, List.mem_singleton, List.mem_map, List.mem_map]
  constructor
  · rintro (⟨r, hr, rfl⟩ | hid)
    · exact .inl ⟨r, (List.mem_filter.mp hr).1, rfl⟩
    · exact .inr hid
  · rintro (⟨r, hr, rfl⟩ | hid)
    · by_cases heq : r.taskId = row.taskId
      · exact .inr heq
      · exact .inl ⟨r, List.mem_filter.mpr ⟨hr, decide_eq_true heq⟩, rfl⟩
    · exact .inr hid

/-- What the job does while no collection takes a step. -/
def Event.ofJob : Event → Bool
  | .wait _ | .publishResult _ | .publishIndex _ _ | .unready | .describe _ _ => true
  | _ => false

/-- The index of a batch is replaced. -/
theorem later_publishIndex {row : ResultRow} {stamp : ℚ} (hstep : step cfg s (.publishIndex row stamp) = some t) :
    Later s t := by
  obtain ⟨-, ⟨⟩⟩ := Option.ite_none_right_eq_some.mp hstep
  constructor
  · exact le_rfl
  · exact fun _ h => h
  · intro b f hf
    by_cases hb : b = cfg.batchOf row.taskId
    · subst hb
      refine ⟨_, Function.update_self _ _ _, fun id hid => (mem_ids_newRows id).mpr (.inl ?_)⟩
      rwa [hf]
    · exact ⟨f, (Function.update_of_ne hb _ _).trans hf, List.Subset.refl _⟩
  · intro b g hg
    dsimp only at hg
    by_cases hb : b = cfg.batchOf row.taskId
    · rw [hb, Function.update_self] at hg
      rw [← Option.some.inj hg]
      exact .inr le_rfl
    · rw [Function.update_of_ne hb] at hg
      exact .inl hg
  · exact id
  · exact .inl rfl

theorem later_of_job {e : Event} (he : e.ofJob = true) (hstep : step cfg s e = some t) :
    Later s t ∧ t.cached = s.cached ∧ t.collection = s.collection := by
  cases e with
  | wait seconds =>
    obtain ⟨hseconds, ⟨⟩⟩ := Option.ite_none_right_eq_some.mp hstep
    refine ⟨⟨le_add_of_nonneg_right hseconds, fun _ h => h, fun b f hf => ⟨f, hf, List.Subset.refl _⟩,
      fun b g hg => .inl hg, id, .inl rfl⟩, rfl, rfl⟩
  | publishResult row =>
    obtain ⟨-, ⟨⟩⟩ := Option.ite_none_right_eq_some.mp hstep
    refine ⟨⟨le_rfl, fun id h => ?_, fun b f hf => ⟨f, hf, List.Subset.refl _⟩, fun b g hg => .inl hg, id, .inl rfl⟩,
      rfl, rfl⟩
    dsimp only
    by_cases hid : id = row.taskId
    · rw [hid, Function.update_self]
      exact Option.some_ne_none row
    · rwa [Function.update_of_ne hid]
  | publishIndex row stamp =>
    refine ⟨later_publishIndex hstep, ?_⟩
    obtain ⟨-, ⟨⟩⟩ := Option.ite_none_right_eq_some.mp hstep
    exact ⟨rfl, rfl⟩
  | unready =>
    cases hstep
    exact ⟨⟨le_rfl, fun _ h => h, fun b f hf => ⟨f, hf, List.Subset.refl _⟩, fun b g hg => .inl hg, fun _ => rfl, .inl rfl⟩,
      rfl, rfl⟩
  | describe m stamp =>
    obtain ⟨-, ⟨⟩⟩ := Option.ite_none_right_eq_some.mp hstep
    exact ⟨⟨le_rfl, fun _ h => h, fun b f hf => ⟨f, hf, List.Subset.refl _⟩, fun b g hg => .inl hg, id, .inr le_rfl⟩,
      rfl, rfl⟩
  | _ => cases he

theorem files_of_job {e : Event} (he : e.ofJob = true) (h : Files cfg s) (hstep : step cfg s e = some t) : Files cfg t := by
  cases e with
  | wait seconds =>
    obtain ⟨-, ⟨⟩⟩ := Option.ite_none_right_eq_some.mp hstep
    exact ⟨h.raw, h.index, h.indexTime, h.metadataTime⟩
  | publishResult row =>
    obtain ⟨⟨htask, hbatch⟩, ⟨⟩⟩ := Option.ite_none_right_eq_some.mp hstep
    refine ⟨fun id r hr => ?_, fun b f hf => ⟨(h.index b f hf).1, fun r hr => ?_⟩, h.indexTime, h.metadataTime⟩
    · dsimp only at hr
      by_cases hid : id = row.taskId
      · rw [hid, Function.update_self] at hr
        rw [← Option.some.inj hr, hid]
        exact ⟨rfl, htask, hbatch⟩
      · rw [Function.update_of_ne hid] at hr
        exact h.raw id r hr
    · obtain ⟨howner, hraw⟩ := (h.index b f hf).2 r hr
      refine ⟨howner, ?_⟩
      dsimp only
      by_cases hid : r.taskId = row.taskId
      · rw [hid, Function.update_self]
        exact Option.some_ne_none row
      · rwa [Function.update_of_ne hid]
  | publishIndex row stamp =>
    obtain ⟨⟨hrow, hfresh⟩, ⟨⟩⟩ := Option.ite_none_right_eq_some.mp hstep
    obtain ⟨hpos, -, hdelay⟩ := of_decide_eq_true hfresh
    refine ⟨h.raw, fun b f hf => ?_, fun b f hf => ?_, h.metadataTime⟩
    · dsimp only at hf
      by_cases hb : b = cfg.batchOf row.taskId
      · rw [hb, Function.update_self] at hf
        rw [← Option.some.inj hf]
        refine ⟨hb ▸ (h.raw _ _ hrow).2.2, fun r hr => ?_⟩
        rcases List.mem_append.mp hr with hr | hr
        · have hr := (List.mem_filter.mp hr).1
          cases hindex : s.index (cfg.batchOf row.taskId) with
          | none =>
            rw [hindex] at hr
            exact absurd hr List.not_mem_nil
          | some f =>
            rw [hindex] at hr
            rw [hb]
            exact (h.index _ f hindex).2 r hr
        · rw [List.mem_singleton.mp hr]
          refine ⟨hb.symm, ?_⟩
          dsimp only
          rw [hrow]
          exact Option.some_ne_none row
      · rw [Function.update_of_ne hb] at hf
        exact h.index b f hf
    · dsimp only at hf
      by_cases hb : b = cfg.batchOf row.taskId
      · rw [hb, Function.update_self] at hf
        rw [← Option.some.inj hf]
        exact ⟨hpos, hdelay⟩
      · rw [Function.update_of_ne hb] at hf
        exact h.indexTime b f hf
  | unready =>
    cases hstep
    exact ⟨h.raw, h.index, h.indexTime, h.metadataTime⟩
  | describe m stamp =>
    obtain ⟨hfresh, ⟨⟩⟩ := Option.ite_none_right_eq_some.mp hstep
    obtain ⟨hpos, -, hdelay⟩ := of_decide_eq_true hfresh
    exact ⟨h.raw, h.index, h.indexTime, hpos, hdelay⟩
  | _ => cases he

end Events

/-! ### Collections -/

section Collections

variable {cfg : Setup} {s : State} {c : Cached} {k k' : Collection} {source : Source} {since : Option ℤ}
  {examined : List ℕ}

/-- A file with an old time stamp was there when the former collection started. -/
theorem published_lt_start {stamp published : ℚ} (hfiles : 0 < stamp) (hdelay : published ≤ stamp + cfg.delay)
    (htime : c.fetched - c.start + cfg.delay < 60) {asked : ℤ} (hasked : c.since = some asked) (hold : stamp ≤ (asked : ℚ)) :
    published < c.start := by
  unfold Cached.since at hasked
  split_ifs at hasked
  have hasked := Option.some.inj hasked
  have hpos : (0 : ℤ) < asked := by
    have hlt : (0 : ℚ) < (asked : ℚ) := lt_of_lt_of_le hfiles hold
    exact_mod_cast hlt
  have hfloor : asked = ⌊c.fetched - 60⌋ := by
    rcases max_choice 0 ⌊c.fetched - 60⌋ with hmax | hmax
    · rw [hmax] at hasked
      omega
    · rw [← hasked, hmax]
  have hle : (asked : ℚ) ≤ c.fetched - 60 := by
    rw [hfloor]
    exact Int.floor_le _
  linarith

theorem going_start (h : s.Inv cfg) : Going cfg s ⟨s.now, s.cached, .metadata, ⟨none, [], none⟩, ⟨none, [], none⟩⟩ where
  start := le_rfl
  old := h.cached
  phase := ⟨rfl, rfl⟩

theorem going_readMetadata (hfiles : Files cfg s) (h : Going cfg s k) (hk : advance cfg s k .readMetadata = some k') :
    Going cfg s k' := by
  have hphase := h.phase
  dsimp only [advance] at hk
  split at hk
  · rename_i hmetadata
    rw [hmetadata] at hphase
    obtain ⟨hanswer, hfull⟩ := hphase
    cases hk
    refine ⟨h.start, h.old, ⟨.inl rfl, Option.some_ne_none _, ?_⟩, ?_, ?_⟩
    · dsimp only
      split_ifs with hchanged
      · exact .inl rfl
      · refine .inr ⟨rfl, ?_⟩
        cases hasked : k.since with
        | none =>
          rw [hasked] at hchanged
          exact absurd rfl hchanged
        | some asked =>
          rw [hasked, Bool.or_eq_true, not_or] at hchanged
          obtain ⟨old, hold, hsince⟩ := Option.bind_eq_some_iff.mp hasked
          have hknown := h.old old hold
          refine ⟨old, hold, by rw [hsince]; rfl, hknown.metadata.resolve_right fun hlate => ?_⟩
          have hlt : ⌊s.metadata.stamp⌋ < asked := not_le.mp fun hle => hchanged.2 (decide_eq_true hle)
          have hstamp : s.metadata.stamp ≤ (asked : ℚ) := (Int.floor_lt.mp hlt).le
          exact absurd hlate (not_le.mpr
            (published_lt_start hfiles.metadataTime.1 hfiles.metadataTime.2 hknown.time hsince hstamp))
    · rw [hanswer]
      rfl
    · rw [hfull]
      rfl
  · cases hk

theorem going_chooseFiles (h : Going cfg s k) (hk : advance cfg s k .chooseFiles = some k') : Going cfg s k' := by
  have hphase := h.phase
  dsimp only [advance] at hk
  split at hk
  · rename_i hchoose
    rw [hchoose] at hphase
    obtain ⟨hdescribed, hanswer, hfull⟩ := hphase
    cases hk
    refine ⟨h.start, h.old, ⟨hdescribed.read, hdescribed.isSome, hdescribed.sent⟩, hanswer, hfull, fun hraw => ?_,
      fun hindex old hold => (h.old old hold).seen ?_⟩
    · cases hready : s.ready with
      | true =>
        rw [hready] at hraw
        cases hraw
      | false => rfl
    · cases hready : s.ready with
      | true => rfl
      | false =>
        rw [hready] at hindex
        cases hindex
  · cases hk

theorem going_selectFiles (h : Going cfg s k) (hk : advance cfg s k .selectFiles = some k') : Going cfg s k' := by
  have hphase := h.phase
  dsimp only [advance] at hk
  split at hk
  · rename_i source hselect
    rw [hselect] at hphase
    obtain ⟨hdescribed, hanswer, hfull, hraw, hindex⟩ := hphase
    cases hk
    refine ⟨h.start, h.old, ⟨hdescribed.read, hdescribed.isSome, hdescribed.sent⟩, ?_⟩
    constructor
    · exact hraw
    · cases hready : s.ready with
      | true =>
        refine .inr ⟨rfl, ?_⟩
        cases source with
        | index => rfl
        | raw =>
          rw [hraw rfl] at hready
          cases hready
      | false => exact .inl rfl
    · dsimp only
      rw [hfull]
      exact ⟨List.nodup_nil, fun t ht => absurd ht List.not_mem_nil⟩
    · dsimp only
      rw [hfull, hanswer]
    · dsimp only
      rw [hfull]
      exact fun t ht => absurd ht List.not_mem_nil
    · dsimp only
      rw [hfull, hanswer]
      exact fun _ => rfl
    · dsimp only
      rw [hfull]
      exact fun b rows hrows => absurd hrows.symm (Option.some_ne_none rows)
    · dsimp only
      rw [hfull]
      exact fun t ht => absurd ht List.not_mem_nil
    · exact fun old _ id _ hid => absurd hid List.not_mem_nil
    · exact hindex
    · dsimp only
      rw [hfull]
      exact fun _ b rows hrows => absurd hrows.symm (Option.some_ne_none rows)
    · exact fun _ b hb => absurd hb List.not_mem_nil
  · cases hk

/-- The pairs that the former snapshot has of a file are there. -/
theorem kept_rows (hfiles : Files cfg s) (hold : Known cfg s c) (hseen : source = .index → Seen cfg s c) {n id : ℕ}
    (hid : Dict.get c.job.results id ≠ none) (hn : cfg.key source id = n) :
    ∃ rows, s.rows source n = some rows ∧ id ∈ ids rows := by
  cases source with
  | index =>
    have hseen := hseen rfl
    rw [hseen.results] at hid
    have hn : cfg.batchOf id = n := hn
    rw [hn] at hid
    cases hget : Dict.get c.seen n with
    | none =>
      rw [hget] at hid
      exact absurd rfl hid
    | some rows =>
      rw [hget, Option.bind_some] at hid
      obtain ⟨f, hf, hids⟩ := hseen.kept n rows hget
      refine ⟨f.value, by rw [State.rows, hf]; rfl, hids (rowOf_ne_none.mp fun hnone => ?_)⟩
      rw [hnone] at hid
      exact hid rfl
  | raw =>
    have hn : id = n := hn
    subst hn
    obtain ⟨row, hrow⟩ := Option.ne_none_iff_exists'.mp (hold.raw id hid)
    refine ⟨[row], by rw [State.rows, hrow]; rfl, ?_⟩
    rw [ids, List.map_singleton, List.mem_singleton, (hfiles.raw id row hrow).1]

theorem rows_owned (hfiles : Files cfg s) {n : ℕ} {rows : List ResultRow} (hrows : s.rows source n = some rows) :
    ∀ r ∈ rows, cfg.key source r.taskId = n ∧ s.raw r.taskId ≠ none := by
  intro r hr
  cases source with
  | index =>
    obtain ⟨f, hf, rfl⟩ := Option.map_eq_some_iff.mp hrows
    exact (hfiles.index n f hf).2 r hr
  | raw =>
    obtain ⟨row, hrow, rfl⟩ := Option.map_eq_some_iff.mp hrows
    rw [List.mem_singleton.mp hr]
    obtain ⟨hid, -⟩ := hfiles.raw n row hrow
    refine ⟨hid, ?_⟩
    rw [hid, hrow]
    exact Option.some_ne_none row

/-- A file that is not there. -/
theorem Reading.absent (h : Reading cfg s k source since examined) (hfiles : Files cfg s)
    (hold : ∀ old, k.old = some old → Known cfg s old) {n : ℕ} (hrows : s.rows source n = none) {phase : Phase} :
    Reading cfg s { k with phase := phase } source since (n :: examined) where
  unready := h.unready
  asked := h.asked
  owned := h.owned
  sublist := h.sublist
  mem_examined t ht := List.mem_cons_of_mem n (h.mem_examined t ht)
  all := h.all
  sent := h.sent
  raw := h.raw
  kept old ho id hid hexamined := by
    rcases List.mem_cons.mp hexamined with hn | hexamined
    · obtain ⟨rows, hsome, -⟩ := kept_rows hfiles (hold old ho) (fun hs => h.old hs old ho) hid hn
      rw [hrows] at hsome
      cases hsome
    · exact h.kept old ho id hid hexamined
  old := h.old
  index := h.index
  current hindex b hb f hf := by
    rcases List.mem_cons.mp hb with rfl | hb
    · subst hindex
      rw [State.rows, hf] at hrows
      cases hrows
    · exact h.current hindex b hb f hf

/-- A file that is read, and sent if it is newer. -/
theorem Reading.read (h : Reading cfg s k source since examined) (hfiles : Files cfg s)
    (hold : ∀ old, k.old = some old → Known cfg s old) {n : ℕ} {rows : List ResultRow} (hn : n ∉ examined)
    (hrows : s.rows source n = some rows) {phase : Phase} :
    Reading cfg s { k with
      phase := phase
      answer := { k.answer with
        tables := if s.newer source since n then k.answer.tables ++ [(n, rows)] else k.answer.tables }
      full := { k.full with tables := k.full.tables ++ [(n, rows)] } } source since (n :: examined) := by
  have hnew : Dict.get k.full.tables n = none :=
    Dict.get_eq_none fun t ht heq => hn (heq ▸ h.mem_examined t ht)
  have hget (b : ℕ) (rows' : List ResultRow) (hb : Dict.get (k.full.tables ++ [(n, rows)]) b = some rows') :
      Dict.get k.full.tables b = some rows' ∨ b = n ∧ rows' = rows := by
    rw [Dict.get_append, Dict.get_cons] at hb
    cases hfull : Dict.get k.full.tables b with
    | some rows'' =>
      rw [hfull, Option.some_or] at hb
      exact .inl hb
    | none =>
      rw [hfull, Option.none_or] at hb
      split_ifs at hb with heq
      · exact .inr ⟨heq, (Option.some.inj hb).symm⟩
      · cases hb
  have hkeep (b : ℕ) (rows' : List ResultRow) (tables : List (ℕ × List ResultRow))
      (hb : Dict.get tables b = some rows') : Dict.get (tables ++ [(n, rows)]) b = some rows' := by
    rw [Dict.get_append, hb, Option.some_or]
  have hself : Dict.get (k.full.tables ++ [(n, rows)]) n = some rows := by
    rw [Dict.get_append, hnew, Option.none_or, Dict.get_cons, if_pos rfl]
  have hnewAnswer : Dict.get k.answer.tables n = none :=
    Dict.get_eq_none fun t ht heq => hn (heq ▸ h.mem_examined t (h.sublist.subset ht))
  constructor
  · exact h.unready
  · exact h.asked
  · refine ⟨?_, fun t ht => ?_⟩
    · rw [List.map_append, List.nodup_append]
      refine ⟨h.owned.nodup, List.nodup_singleton n, fun b hb b' hb' heq => ?_⟩
      obtain ⟨t, ht, rfl⟩ := List.mem_map.mp hb
      have hb' : b' = n := List.mem_singleton.mp hb'
      exact hn (by rw [← hb', ← heq]; exact h.mem_examined t ht)
    · rcases List.mem_append.mp ht with ht | ht
      · exact h.owned.owner t ht
      · rw [List.mem_singleton.mp ht]
        exact fun r hr => (rows_owned hfiles hrows r hr).1
  · dsimp only
    split_ifs
    · exact h.sublist.append (List.Sublist.refl _)
    · exact h.sublist.trans (List.sublist_append_left _ _)
  · intro t ht
    rcases List.mem_append.mp ht with ht | ht
    · exact List.mem_cons_of_mem n (h.mem_examined t ht)
    · rw [List.mem_singleton.mp ht]
      exact List.mem_cons_self
  · intro hsince
    have hnewer : s.newer source since n = true := by
      rw [hsince]
      cases source <;> rfl
    dsimp only
    rw [if_pos hnewer, h.all hsince]
  · intro b rows' hb
    rcases hget b rows' hb with hb | ⟨rfl, rfl⟩
    · rcases h.sent b rows' hb with hsent | hsent
      · refine .inl ?_
        dsimp only
        split_ifs
        · exact hkeep b rows' _ hsent
        · exact hsent
      · exact .inr hsent
    · by_cases hnewer : s.newer source since b = true
      · refine .inl ?_
        dsimp only
        rw [if_pos hnewer, Dict.get_append, hnewAnswer, Option.none_or, Dict.get_cons, if_pos rfl]
      · -- the file is older than the former collection
        rcases h.asked with hnone | ⟨hasked, hindex⟩
        · subst hnone
          exact absurd (by cases source <;> rfl) hnewer
        · subst hindex
          obtain ⟨f, hf, rfl⟩ := Option.map_eq_some_iff.mp hrows
          cases hsince : since with
          | none =>
            rw [hsince] at hnewer
            exact absurd rfl hnewer
          | some asked =>
            rw [hsince] at hnewer hasked
            obtain ⟨old, ho, hold'⟩ := Option.bind_eq_some_iff.mp hasked.symm
            have hstamp : f.stamp ≤ (asked : ℚ) := by
              rw [State.newer, hf, Option.any_some, decide_eq_true_iff, not_lt] at hnewer
              exact hnewer
            obtain ⟨hpos, hdelay⟩ := hfiles.indexTime b f hf
            have hlt := published_lt_start hpos hdelay (hold old ho).time hold' hstamp
            exact .inr ⟨rfl, old, ho, ((h.old rfl old ho).current b f hf).resolve_right (not_le.mpr hlt)⟩
  · intro t ht
    rcases List.mem_append.mp ht with ht | ht
    · exact h.raw t ht
    · rw [List.mem_singleton.mp ht]
      exact fun r hr => (rows_owned hfiles hrows r hr).2
  · intro old ho id hid hexamined
    rcases List.mem_cons.mp hexamined with hkey | hexamined
    · obtain ⟨rows', hrows', hmem⟩ := kept_rows hfiles (hold old ho) (fun hs => h.old hs old ho) hid hkey
      rw [hrows] at hrows'
      cases hrows'
      refine ⟨rows, ?_, hmem⟩
      rw [hkey]
      exact hself
    · obtain ⟨rows', hrows', hmem⟩ := h.kept old ho id hid hexamined
      exact ⟨rows', hkeep _ _ _ hrows', hmem⟩
  · exact h.old
  · intro hindex b rows' hb
    rcases hget b rows' hb with hb | ⟨rfl, rfl⟩
    · exact h.index hindex b rows' hb
    · subst hindex
      obtain ⟨f, hf, rfl⟩ := Option.map_eq_some_iff.mp hrows
      exact ⟨f, hf, List.Subset.refl _⟩
  · intro hindex b hb f hf
    rcases List.mem_cons.mp hb with rfl | hb
    · subst hindex
      refine .inl ?_
      rw [State.rows, hf] at hrows
      cases hrows
      exact hself
    · exact (h.current hindex b hb f hf).imp_left (hkeep b _ _)

theorem going_readFile {n : ℕ} (hfiles : Files cfg s) (h : Going cfg s k) (hk : advance cfg s k (.readFile n) = some k') :
    Going cfg s k' := by
  have hphase := h.phase
  dsimp only [advance] at hk
  split at hk
  · rename_i source since examined hfilesPhase
    rw [hfilesPhase] at hphase
    obtain ⟨hdescribed, hreading⟩ := hphase
    by_cases hn : n ∈ examined
    · rw [if_pos hn] at hk
      cases hk
    · rw [if_neg hn] at hk
      cases hrows : s.rows source n with
      | none =>
        rw [hrows] at hk
        cases hk
        exact ⟨h.start, h.old, ⟨hdescribed.read, hdescribed.isSome, hdescribed.sent⟩,
          hreading.absent hfiles h.old hrows⟩
      | some rows =>
        rw [hrows] at hk
        cases hk
        exact ⟨h.start, h.old, ⟨hdescribed.read, hdescribed.isSome, hdescribed.sent⟩,
          hreading.read hfiles h.old hn hrows⟩
  · cases hk

theorem going_readManifest (h : Going cfg s k) (hk : advance cfg s k .readManifest = some k') : Going cfg s k' := by
  have hphase := h.phase
  dsimp only [advance] at hk
  split at hk
  · rename_i source since examined hfilesPhase
    rw [hfilesPhase] at hphase
    obtain ⟨hdescribed, hreading⟩ := hphase
    obtain ⟨hall, ⟨⟩⟩ := Option.ite_none_right_eq_some.mp hk
    refine ⟨h.start, h.old, ⟨hdescribed.read, hdescribed.isSome, hdescribed.sent⟩, rfl, fun hsince => ?_,
      source, since, examined, ?_, hall⟩
    · have hnone : k.since = none := hsince
      dsimp only
      rw [hnone]
      rfl
    · exact ⟨hreading.unready, hreading.asked, hreading.owned, hreading.sublist, hreading.mem_examined, hreading.all,
        hreading.sent, hreading.raw, hreading.kept, hreading.old, hreading.index, hreading.current⟩
  · cases hk

theorem going_advance (hfiles : Files cfg s) (h : Going cfg s k) {e : Event} (hk : advance cfg s k e = some k') :
    Going cfg s k' := by
  cases e with
  | readMetadata => exact going_readMetadata hfiles h hk
  | chooseFiles => exact going_chooseFiles h hk
  | selectFiles => exact going_selectFiles h hk
  | readFile n => exact going_readFile hfiles h hk
  | readManifest => exact going_readManifest h hk
  | _ => cases hk

end Collections

/-! ### The end of a collection -/

section Ends

variable {cfg : Setup} {s : State} {c old : Cached} {k : Collection} {source : Source} {since : Option ℤ}
  {examined : List ℕ} {records : List (Text × SlurmRecord)} {current full : Job}

theorem belongs_eq (jobId : Text) (previous : List Text) (workdir : Text) :
    belongs jobId previous workdir = decide (workName workdir ∈ previous ∨ workName workdir = jobId) := by
  unfold belongs
  by_cases h : workName workdir ∈ previous
  · simp [h]
  · simp [h]

/-- Without the metadata only the records of the current ID are found. -/
theorem slurm_eq_iff (jobId : Text) (previous : List Text) (records : List (Text × SlurmRecord)) :
    (records.filter fun p => belongs jobId [] p.1).map Prod.snd =
      (records.filter fun p => belongs jobId previous p.1).map Prod.snd ↔
    ∀ p ∈ records, workName p.1 ∈ previous → workName p.1 = jobId := by
  constructor
  · intro heq p hp hprevious
    have hnested : (records.filter fun p => belongs jobId [] p.1) =
        (records.filter fun p => belongs jobId previous p.1).filter fun p => belongs jobId [] p.1 := by
      rw [List.filter_filter]
      refine List.filter_congr fun p _ => ?_
      rw [belongs_eq, belongs_eq]
      by_cases h : workName p.1 = jobId
      · simp [h]
      · simp [h]
    have hlength := congrArg List.length heq
    rw [List.length_map, List.length_map, hnested, List.length_filter_eq_length_iff] at hlength
    have hone := hlength p (List.mem_filter.mpr ⟨hp, by
      rw [belongs_eq]
      exact decide_eq_true (.inl hprevious)⟩)
    rw [belongs_eq] at hone
    exact (of_decide_eq_true hone).resolve_left List.not_mem_nil
  · intro hall
    refine congrArg (List.map Prod.snd) (List.filter_congr fun p hp => ?_)
    rw [belongs_eq, belongs_eq]
    refine decide_eq_decide.mpr ⟨fun h => .inr (h.resolve_left List.not_mem_nil), fun h => .inr ?_⟩
    exact h.elim (hall p hp) id

/-- What has been seen of a pair is among the files. -/
theorem mem_numbers (hfiles : Files cfg s) {id : ℕ} (hid : s.raw id ≠ none) (source : Source) :
    cfg.key source id ∈ cfg.numbers source := by
  obtain ⟨row, hrow⟩ := Option.ne_none_iff_exists'.mp hid
  obtain ⟨-, htask, hbatch⟩ := hfiles.raw id row hrow
  cases source with
  | index => exact List.mem_range.mpr hbatch
  | raw => exact htask

/-- The results of the merge are those of the full collection. -/
theorem Reading.get_merged (h : Reading cfg s k source since examined) (hfiles : Files cfg s)
    (hall : ∀ n ∈ cfg.numbers source, n ∈ examined) (ho : k.old = some old) (hold : Known cfg s old)
    (hcurrent : parseJob cfg.asFloat cfg.jobId k.answer records = some current)
    (hfull : parseJob cfg.asFloat cfg.jobId k.full records = some full) (id : ℕ) :
    Dict.get (Dict.putAll old.job.results current.results) id = Dict.get full.results id := by
  have hkept (hid : Dict.get old.job.results id ≠ none) :
      ∃ rows, Dict.get k.full.tables (cfg.key source id) = some rows ∧ id ∈ ids rows :=
    h.kept old ho id hid (hall _ (mem_numbers hfiles (hold.raw id hid) source))
  have hanswer : Owned (cfg.key source) k.answer.tables := h.owned.sublist h.sublist
  rw [Dict.get_putAll, Dict.get_reverse (nodup_results hcurrent), get_results hcurrent hanswer,
    get_results hfull h.owned]
  have hsub {rows : List ResultRow} (hrows : Dict.get k.answer.tables (cfg.key source id) = some rows) :
      Dict.get k.full.tables (cfg.key source id) = some rows :=
    Dict.get_of_mem h.owned.nodup (h.sublist.subset (Dict.mem_of_get hrows))
  cases hget : Dict.get k.full.tables (cfg.key source id) with
  | none =>
    have hnone : Dict.get k.answer.tables (cfg.key source id) = none := by
      by_contra hne
      obtain ⟨rows, hrows⟩ := Option.ne_none_iff_exists'.mp hne
      rw [hsub hrows] at hget
      cases hget
    have hold' : Dict.get old.job.results id = none := by
      by_contra hne
      obtain ⟨rows, hrows, -⟩ := hkept hne
      rw [hget] at hrows
      cases hrows
    rw [hnone, hold']
    rfl
  | some rows =>
    cases hsent : Dict.get k.answer.tables (cfg.key source id) with
    | some rows' =>
      have heq := hsub hsent
      rw [hget] at heq
      cases heq
      rw [Option.bind_some]
      cases hrow : rowOf rows id with
      | some r => rfl
      | none =>
        rw [Option.map_none, Option.none_or]
        by_contra hne
        obtain ⟨rows', hrows', hmem⟩ := hkept hne
        rw [hget] at hrows'
        cases hrows'
        exact rowOf_ne_none.mpr hmem hrow
    | none =>
      rcases h.sent _ rows hget with hsome | ⟨hindex, old', ho', hseen⟩
      · rw [hsent] at hsome
        cases hsome
      · subst hindex
        rw [ho] at ho'
        cases ho'
        have hseen : Dict.get old.seen (cfg.batchOf id) = some rows := hseen
        rw [Option.bind_none, Option.map_none, Option.none_or, (h.old rfl old ho).results, hseen]

/-- Without a former snapshot everything is sent. -/
theorem answer_eq_full (hdescribed : Described s k) (hreading : Reading cfg s k source since examined)
    (hfull : k.full.manifest = some cfg.manifest) (hanswer : k.since = none → k.answer.manifest = some cfg.manifest)
    (hsince : k.since = none) : k.answer = k.full := by
  have hmetadata : k.answer.metadata = k.full.metadata := by
    rcases hdescribed.sent with heq | ⟨-, old, ho, hold, -⟩
    · exact heq
    · rw [Collection.since, ho, Option.bind_some] at hsince
      rw [hsince] at hold
      cases hold
  have htables : k.answer.tables = k.full.tables :=
    hreading.all (hreading.asked.elim id fun h => h.1.trans hsince)
  have hmanifest : k.answer.manifest = k.full.manifest := (hanswer hsince).trans hfull.symm
  cases hk : k.answer with
  | mk metadata tables manifest =>
    cases hk' : k.full with
    | mk metadata' tables' manifest' =>
      rw [hk, hk'] at hmetadata htables hmanifest
      dsimp only at hmetadata htables hmanifest
      rw [hmetadata, htables, hmanifest]

/-- Either the snapshot is what was sent, or it is merged. -/
theorem cached_cases (hcached : k.cached cfg s.now records = some c) :
    ∃ current full, parseJob cfg.asFloat cfg.jobId k.answer records = some current ∧
      parseJob cfg.asFloat cfg.jobId k.full records = some full ∧ c.full = full ∧ c.fetched = s.now ∧ c.start = k.start ∧
      c.seen = k.full.tables ∧ c.resent = k.answer.metadata.isSome ∧ c.records = records ∧
      (k.since = none ∧ c.job = current ∨
        ∃ old, k.old = some old ∧ old.since.isSome = true ∧ c.job = merge old.job current) := by
  obtain ⟨current, hcurrent, hcached⟩ := Option.bind_eq_some_iff.mp hcached
  obtain ⟨full, hfull, rfl⟩ := Option.map_eq_some_iff.mp hcached
  refine ⟨current, full, hcurrent, hfull, rfl, rfl, rfl, rfl, rfl, rfl, ?_⟩
  cases ho : k.old with
  | none => exact .inl ⟨by rw [Collection.since, ho]; rfl, rfl⟩
  | some old =>
    cases hsince : old.since with
    | none => exact .inl ⟨by rw [Collection.since, ho]; exact hsince, if_neg (by rw [hsince]; exact Bool.false_ne_true)⟩
    | some asked => exact .inr ⟨old, rfl, by rw [hsince]; rfl, if_pos (by rw [hsince]; rfl)⟩

/-- The tasks of a snapshot are those of the manifest. -/
theorem tasks_parseJob (hfiles : Files cfg s) {answer : Answer} {job : Job}
    (hjob : parseJob cfg.asFloat cfg.jobId answer records = some job) (hmanifest : answer.manifest = some cfg.manifest)
    (hraw : ∀ id, Dict.get job.results id ≠ none → s.raw id ≠ none) : job.tasks = cfg.manifest := by
  rw [(parts_parseJob hjob).2.2.2.2, hmanifest, Option.getD_some]
  refine tasks_eq fun p hp => ?_
  have hget := Dict.get_of_mem (nodup_results hjob) hp
  obtain ⟨row, hrow⟩ := Option.ne_none_iff_exists'.mp (hraw p.1 (by rw [hget]; exact Option.some_ne_none _))
  exact (hfiles.raw p.1 row hrow).2.1

/-- The results of the full collection have been published. -/
theorem Reading.raw_full (h : Reading cfg s k source since examined)
    (hfull : parseJob cfg.asFloat cfg.jobId k.full records = some full) {id : ℕ} (hid : Dict.get full.results id ≠ none) :
    s.raw id ≠ none := by
  rw [get_results hfull h.owned] at hid
  cases hget : Dict.get k.full.tables (cfg.key source id) with
  | none =>
    rw [hget] at hid
    exact absurd rfl hid
  | some rows =>
    rw [hget, Option.bind_some] at hid
    have hmem : id ∈ ids rows := rowOf_ne_none.mp fun hnone => hid (by rw [hnone]; rfl)
    obtain ⟨r, hr, rfl⟩ := List.mem_map.mp hmem
    exact h.raw _ (Dict.mem_of_get hget) r hr

/-- The new snapshot. -/
theorem known_cached (hfiles : Files cfg s) (h : Going cfg s k) (hphase : k.phase = .slurm)
    (htime : s.now - k.start + cfg.delay < 60) (hcached : k.cached cfg s.now records = some c) : Known cfg s c := by
  have hslurm := h.phase
  rw [hphase] at hslurm
  obtain ⟨hdescribed, hfullManifest, hanswerManifest, source, since, examined, hreading, hall⟩ := hslurm
  obtain ⟨current, full, hcurrent, hfull, hcfull, hfetched, hstart, hseen, hresent, hrecords, hjob⟩ :=
    cached_cases hcached
  obtain ⟨hmetadata, hbatches, hcounts, hslurm, -⟩ := parts_parseJob hfull
  obtain ⟨hmetadata', hbatches', -, hslurm', -⟩ := parts_parseJob hcurrent
  have htasks : full.tasks = cfg.manifest :=
    tasks_parseJob hfiles hfull hfullManifest fun id hid => hreading.raw_full hfull hid
  have hagrees : c.Agrees cfg.jobId ∧ (c.job.results.map Prod.fst).Nodup ∧ c.job.tasks = cfg.manifest := by
    rcases hjob with ⟨hsince, hjob⟩ | ⟨old, ho, hold, hjob⟩
    · have heq := answer_eq_full hdescribed hreading hfullManifest hanswerManifest hsince
      rw [heq, hfull] at hcurrent
      cases hcurrent
      rw [← hcfull] at hjob
      refine ⟨⟨by rw [hjob], by rw [hjob], by rw [hjob], fun id => by rw [hjob], by rw [hjob], fun status => by rw [hjob],
        fun status => by rw [hjob], iff_of_true (by rw [hjob]) (.inl ?_)⟩, ?_, ?_⟩
      · rw [hresent, heq, Option.isSome_iff_ne_none]
        exact hdescribed.isSome
      · rw [hjob, hcfull]
        exact nodup_results hfull
      · rw [hjob, hcfull, htasks]
    · have hknown := h.old old ho
      have hresults (id : ℕ) : Dict.get c.job.results id = Dict.get c.full.results id := by
        rw [hjob, hcfull]
        exact hreading.get_merged hfiles hall ho hknown hcurrent hfull id
      have hnodup : (c.job.results.map Prod.fst).Nodup := by
        rw [hjob]
        exact Dict.nodup_keys_putAll hknown.nodup _
      have hperm : c.job.results.Perm c.full.results :=
        Dict.perm_of_get hnodup (by rw [hcfull]; exact nodup_results hfull) hresults
      have hjobCounts : c.job.counts = summarizeResults c.job.results := by
        rw [hjob]
        rfl
      have hfullCounts : c.full.counts = summarizeResults c.full.results := by
        rw [hcfull, hcounts]
      obtain ⟨hcompleted, hstatuses, hunresolved⟩ := counts_congr hperm
      have hjobSlurm : c.job.slurm = current.slurm := by
        rw [hjob]
        rfl
      -- the metadata is sent, or it is the former one
      have hsame : c.job.metadata = c.full.metadata ∧ c.job.taskBatches = c.full.taskBatches := by
        rw [hjob, hcfull, hmetadata, hbatches, merge, hmetadata', hbatches']
        dsimp only
        rcases hdescribed.sent with heq | ⟨hnone, old', ho', -, heq⟩
        · rw [heq, if_neg hdescribed.isSome, if_neg hdescribed.isSome]
          exact ⟨rfl, rfl⟩
        · rw [ho] at ho'
          cases ho'
          rw [if_pos hnone, if_pos hnone, hknown.agrees.metadata, hknown.agrees.taskBatches, hknown.taskBatches, heq]
          exact ⟨rfl, rfl⟩
      refine ⟨⟨hsame.1, hsame.2, ?_, hresults, ?_, ?_, ?_, ?_⟩, hnodup, ?_⟩
      · rw [hjob, hcfull, htasks]
        exact hknown.tasks
      · rw [hjobCounts, hfullCounts, hcompleted]
      · rw [hjobCounts, hfullCounts]
        exact hstatuses
      · rw [hjobCounts, hfullCounts]
        exact hunresolved
      · rw [hjobSlurm, hslurm', hcfull, hslurm, hresent, hrecords, hmetadata]
        rcases hdescribed.sent with heq | ⟨hnone, -⟩
        · rw [heq]
          exact iff_of_true rfl (.inl (Option.isSome_iff_ne_none.mpr hdescribed.isSome))
        · rw [hnone]
          refine (slurm_eq_iff cfg.jobId _ records).trans (or_iff_right ?_).symm
          exact Bool.false_ne_true
      · rw [hjob]
        exact hknown.tasks
  obtain ⟨hagrees, hnodup, htasks'⟩ := hagrees
  refine ⟨hagrees, hnodup, fun id hid => ?_, htasks', ?_, ?_, ?_, ?_, fun hready => ?_⟩
  · rw [hagrees.results, hcfull] at hid
    exact hreading.raw_full hfull hid
  · rw [hcfull, hmetadata, hstart]
    exact hdescribed.read
  · rw [hcfull, hbatches, hmetadata]
  · rw [hfetched, hstart]
    exact htime
  · rw [hstart]
    exact h.start
  · have hindex : source = .index := by
      cases source with
      | index => rfl
      | raw =>
        rw [hreading.unready rfl] at hready
        cases hready
    subst hindex
    refine ⟨by rw [hseen]; exact hreading.owned, fun id => ?_, ?_, fun b f hf => ?_⟩
    · rw [hagrees.results, hcfull, hseen]
      exact get_results hfull hreading.owned id
    · rw [hseen]
      exact hreading.index rfl
    · rw [hseen, hstart]
      exact hreading.current rfl b (hall b (List.mem_range.mpr (hfiles.index b f hf).1)) f hf

end Ends

/-! ### Runs -/

section Runs

variable {cfg : Setup} {s t : State}

theorem State.Inv.of_parts (hfiles : Files cfg t) (hcached : ∀ c, t.cached = some c → Known cfg s c)
    (hcollection : ∀ k, t.collection = some k → Going cfg s k) (hst : Later s t) : t.Inv cfg where
  files := hfiles
  cached c hc := (hcached c hc).later hst
  collection k hk := (hcollection k hk).later hst

/-- A step keeps the invariant. -/
theorem State.Inv.step (h : s.Inv cfg) {e : Event} (hstep : step cfg s e = some t) : t.Inv cfg := by
  by_cases he : e.ofJob = true
  · obtain ⟨hst, hcached, hcollection⟩ := later_of_job he hstep
    refine .of_parts (files_of_job he h.files hstep) (fun c hc => ?_) (fun k hk => ?_) hst
    · rw [hcached] at hc
      exact h.cached c hc
    · rw [hcollection] at hk
      exact h.collection k hk
  · have hadvance (k : Collection) (hk : s.collection = some k) (k' : Collection)
        (hk' : advance cfg s k e = some k') : ({ s with collection := some k' } : State).Inv cfg := by
      refine .of_parts ⟨h.files.raw, h.files.index, h.files.indexTime, h.files.metadataTime⟩ h.cached
        (fun k'' hk'' => ?_) (.of_eq rfl rfl rfl rfl rfl)
      rw [← Option.some.inj hk'']
      exact going_advance h.files (h.collection k hk) hk'
    cases e with
    | start =>
      dsimp only [Incremental.step] at hstep
      split at hstep
      · cases hstep
        refine .of_parts ⟨h.files.raw, h.files.index, h.files.indexTime, h.files.metadataTime⟩ h.cached
          (fun k hk => ?_) (.of_eq rfl rfl rfl rfl rfl)
        rw [← Option.some.inj hk]
        exact going_start h
      · cases hstep
    | finish records =>
      obtain ⟨k, hk, hstep⟩ := Option.bind_eq_some_iff.mp hstep
      split at hstep
      · rename_i hphase
        obtain ⟨htime, hstep⟩ := Option.ite_none_right_eq_some.mp hstep
        obtain ⟨c, hc, rfl⟩ := Option.map_eq_some_iff.mp hstep
        refine .of_parts (s := s) ⟨h.files.raw, h.files.index, h.files.indexTime, h.files.metadataTime⟩ (fun c' hc' => ?_)
          (fun k hk => by cases hk) (.of_eq rfl rfl rfl rfl rfl)
        rw [← Option.some.inj hc']
        exact known_cached h.files (h.collection k hk) hphase htime hc
      · cases hstep
    | drop =>
      cases hstep
      exact .of_parts ⟨h.files.raw, h.files.index, h.files.indexTime, h.files.metadataTime⟩ h.cached
        (fun k hk => by cases hk) (.of_eq rfl rfl rfl rfl rfl)
    | forget =>
      cases hstep
      exact .of_parts ⟨h.files.raw, h.files.index, h.files.indexTime, h.files.metadataTime⟩ (fun c hc => by cases hc)
        h.collection (.of_eq rfl rfl rfl rfl rfl)
    | readMetadata | chooseFiles | selectFiles | readFile n | readManifest =>
      obtain ⟨k, hk, hstep⟩ := Option.bind_eq_some_iff.mp hstep
      obtain ⟨k', hk', rfl⟩ := Option.map_eq_some_iff.mp hstep
      exact hadvance k hk k' hk'
    | wait | publishResult | publishIndex | unready | describe => exact absurd rfl he

theorem State.Inv.initial {m : Metadata} {now : ℚ} (hnow : 0 < now) : (State.initial m now).Inv cfg where
  files := ⟨fun _ _ h => (by cases h), fun _ _ h => (by cases h), fun _ _ h => (by cases h), hnow,
    le_add_of_nonneg_right cfg.delay_nonneg⟩
  cached _ h := by cases h
  collection _ h := by cases h

/-- In every run. -/
theorem State.Inv.run {m : Metadata} {now : ℚ} (hnow : 0 < now) {es : List Event}
    (hrun : Machine.run (Incremental.step cfg) (State.initial m now) es = some s) : s.Inv cfg :=
  Machine.invariant (fun _ _ _ h hstep => State.Inv.step h hstep) (State.Inv.initial hnow) hrun

/-- Whatever is published while the monitor refreshes, incrementally or not, and whichever refreshes fail: the
snapshot is the one that a full collection at the same moments would have given, but for SLURM records of former IDs. -/
theorem merged_eq_full {m : Metadata} {now : ℚ} (hnow : 0 < now) {es : List Event} {c : Cached}
    (hrun : Machine.run (Incremental.step cfg) (State.initial m now) es = some s) (hc : s.cached = some c) :
    c.Agrees cfg.jobId := ((State.Inv.run hnow hrun).cached c hc).agrees

/-- While the index is ready, the snapshot has the results of every index file that has not been published since the
start of its collection. -/
theorem shown_current {m : Metadata} {now : ℚ} (hnow : 0 < now) {es : List Event} {c : Cached} {id : ℕ}
    {f : Stamped (List ResultRow)} (hrun : Machine.run (Incremental.step cfg) (State.initial m now) es = some s)
    (hc : s.cached = some c) (hready : s.ready = true) (hf : s.index (cfg.batchOf id) = some f)
    (hpublished : f.published < c.start) :
    Dict.get c.job.results id = (Dict.get (latestRows f.value) id).map fun r =>
      normalizeSzsResult (recordOf cfg.asFloat r) := by
  have hseen := ((State.Inv.run hnow hrun).cached c hc).seen hready
  rw [hseen.results, (hseen.current _ f hf).resolve_right (not_le.mpr hpublished)]
  rfl

end Runs

/-! ### A run -/

section Sample

def sampleSetup : Setup where
  jobId := "new".toList
  manifest := [(0, unknownTask), (1, unknownTask)]
  batchOf := id
  batches := 2
  delay := 1
  delay_nonneg := zero_le_one
  asFloat _ := none

/-- The job had another ID. -/
def sampleMetadata : Metadata := ⟨20000, [[0], [1]], ["old".toList]⟩

def sampleRow (task : ℕ) : ResultRow := Summaries.sampleRow task true "ok" "0" "Theorem"

/-- A record from before the renaming. -/
def sampleRecords : List (Text × SlurmRecord) :=
  [("/home/user/slurmy/jobs/old".toList, ⟨"7_0".toList, "7".toList, "0".toList, "RUNNING".toList, [], "queue".toList⟩)]

/-- A full collection, and an incremental one that finds one new file. -/
def sampleEvents : List Event :=
  [.publishResult (sampleRow 0), .publishIndex (sampleRow 0) 100, .wait 200, .start, .readMetadata, .chooseFiles,
    .selectFiles, .readFile 0, .readFile 1, .readManifest, .finish sampleRecords, .publishResult (sampleRow 1),
    .wait 100, .publishIndex (sampleRow 1) 400, .wait 5, .start, .readMetadata, .chooseFiles, .selectFiles, .readFile 1,
    .readFile 0, .readManifest, .wait 2, .finish sampleRecords]

/-- The record of the former ID is lost in the second collection. -/
theorem sample_resent : ((Machine.run (step sampleSetup) (State.initial sampleMetadata 100) sampleEvents).any fun s =>
    s.ready && s.cached.any fun c => !c.resent && decide (c.job.results.length = 2 ∧ c.job.slurm.length = 0 ∧
      c.full.slurm.length = 1) && (s.index 0).any fun f => decide (f.published < c.start)) = true := by
  decide +kernel

theorem merged_eq_full_sample : ∃ s c, Machine.run (step sampleSetup) (State.initial sampleMetadata 100) sampleEvents =
    some s ∧ s.cached = some c ∧ c.Agrees sampleSetup.jobId := by
  obtain ⟨s, hrun, hs⟩ := (Option.any_eq_true _ _).mp sample_resent
  obtain ⟨-, hs⟩ := Bool.and_eq_true_iff.mp hs
  obtain ⟨c, hc, -⟩ := (Option.any_eq_true _ _).mp hs
  exact ⟨s, c, hrun, hc, merged_eq_full (by norm_num) hrun hc⟩

theorem shown_current_sample : ∃ s c f, Machine.run (step sampleSetup) (State.initial sampleMetadata 100) sampleEvents =
    some s ∧ s.cached = some c ∧ s.index 0 = some f ∧ Dict.get c.job.results 0 =
      (Dict.get (latestRows f.value) 0).map fun r => normalizeSzsResult (recordOf sampleSetup.asFloat r) := by
  obtain ⟨s, hrun, hs⟩ := (Option.any_eq_true _ _).mp sample_resent
  obtain ⟨hready, hs⟩ := Bool.and_eq_true_iff.mp hs
  obtain ⟨c, hc, hs⟩ := (Option.any_eq_true _ _).mp hs
  obtain ⟨-, hs⟩ := Bool.and_eq_true_iff.mp hs
  obtain ⟨f, hf, hpublished⟩ := (Option.any_eq_true _ _).mp hs
  exact ⟨s, c, f, hrun, hc, hf, shown_current (by norm_num) hrun hc hready hf (of_decide_eq_true hpublished)⟩

end Sample

end Incremental
end Slurmy
