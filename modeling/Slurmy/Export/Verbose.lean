import Slurmy.Lib.Gather
import Slurmy.Export.Remote

/-!
# The complete download

`slurmy-sync.py` mirrors a job into `diagnostics`, and puts the output streams of its pairs into two
archives of its own.

* `withJobName`, `copiedName`: the names that `sync_loop` copies;
* `Stream.ofTaskName`: the members of a pair's archive that hold a stream, by their names;
* `readResultRecords`, `Left`, `repack`, `consolidate`: the two archives, which stay when an earlier download has left
  archives of the same sources;
* `ModernJob`: a job whose results are tables as `call.sh` writes them;
* `ModernJob.Agrees`, `ModernJob.Alike`: the downloads agree, and when they do.
-/

namespace Slurmy
namespace Export

/-! ### Names -/

/-- A JSON value that is this text. -/
def Value.ofText (t : Text) : Value := ⟨t, decide (t ≠ []), toInt t, t⟩

/-- `{**metadata, 'job_name': metadata.get('job_name') or fallback}`; the new entry comes first here. -/
def withJobName (metadata : Item) (fallback : Text) : Item :=
  ("job_name".toList,
    ((metadata.lookup "job_name".toList).filter Value.truthy).getD (Value.ofText fallback)) :: metadata

/-- `raw`. -/
def rawDirectory : Text := "diagnostics".toList

/-- The name before the suffixes of the archives that `sync_loop` copies. -/
def copiedName (metadata : Item) (jobId : Text) : Text := exportName (withJobName metadata jobId)

/-! ### Members of a pair's archive -/

def isHex (c : Char) : Bool :=
  c.isDigit || decide ('a' ≤ c ∧ c ≤ 'f') || decide ('A' ≤ c ∧ c ≤ 'F')

/-- `(?:^|/)task_(\d+)_[A-Fa-f0-9]+` and then `stop` at the end, or before a last newline. -/
def matchesTask (stop name : Text) : Bool :=
  let last := ((name.splitOn '/').getLast?).getD []
  let base := if last.getLast? = some '\n' then last.dropLast else last
  let inner := (base.drop 5).take (base.length - 5 - stop.length)
  "task_".toList.isPrefixOf base && stop.isSuffixOf base && decide (5 + stop.length ≤ base.length) &&
    isDigits (before '_' inner) && decide ('_' ∈ inner) && decide (after '_' inner ≠ []) &&
    (after '_' inner).all isHex

def Stream.ofTaskName (name : Text) : Option Stream :=
  if matchesTask ".solver.log".toList name then some .stdout
  else if matchesTask ".solver-stderr.log".toList name then some .stderr
  else none

/-- The contents of the members that `consolidate_solver_streams` takes for a stream of a pair. -/
def taskContents (members : List Member) (stream : Stream) : List Text :=
  (members.filter fun m => m.isFile && decide (Stream.ofTaskName m.name = some stream)).map Member.content

/-! ### `consolidate_solver_streams` -/

/-- The rows of one file; of a record only the archive is used. -/
def readRows : List Csv.Record → List (ℕ × Text) → List (ℕ × Text)
  | [], found => found
  | fields :: rows, found =>
      readRows rows
        (if 15 ≤ fields.length ∧ isDigits (fields.getD 0 []) then
          Dict.put found (number (fields.getD 0 [])) (fields.getD 14 [])
        else found)

/-- `read_result_records`, for the tables in their order. -/
def readResultRecords : List Text → List (ℕ × Text) → List (ℕ × Text)
  | [], found => found
  | text :: texts, found =>
      readResultRecords texts (match Csv.readFile Csv.fieldLimit text with
        | none => found
        | some rows => readRows rows found)

/-- `*.csv`. -/
def isCsvName (name : Text) : Bool := ".csv".toList.isSuffixOf name

def Job.resultRecords (job : Job) : List (ℕ × Text) :=
  readResultRecords
    ((job.names.filter isCsvName).filterMap fun n => (job.file n).bind Content.table?) []

/-- The pairs in the order of `sorted(records.items())`. -/
def recordedTasks (records : List (ℕ × Text)) : List ℕ := (records.map Prod.fst).insertionSort (· ≤ ·)

/-- The members of the archive of a recorded pair, none when there is no such file; `none` when it is no
archive. -/
def Job.source (job : Job) (records : List (ℕ × Text)) (task : ℕ) : Option (List Member) :=
  let name := (records.lookup task).getD []
  if isArchiveName name then
    match job.file name with
    | none => some []
    | some c => c.archive?
  else some []

/-- The name before the suffixes of the two archives, in the directory `directory`. -/
def consolidatedName (job : Job) (directory : Text) : Text :=
  exportName (withJobName (job.metadata.getD []) directory)

/-- What `consolidate_solver_streams` writes: the name before the suffixes, and the members of the two archives; `none`
when it fails. -/
def repack (job : Job) (directory : Text) : Option (Text × (Stream → List Member)) :=
  let name := consolidatedName job directory
  let definitions := job.definitions.getD []
  let records := job.resultRecords
  let archive (stream : Stream) : Option (List Member) :=
    (Gather.gather (fun task => (job.source records task).bind fun members =>
      pairMembers name (definitionOf definitions task) task stream (taskContents members stream))
      (recordedTasks records)).map (rootMember name stream :: ·)
  (archive .stdout).bind fun out => (archive .stderr).map fun err =>
    (name, fun
      | .stdout => out
      | .stderr => err)

/-- An entry of `sources`: the pair, the name of its archive, its size and the time of its last change. -/
abbrev Source := ℕ × Text × ℕ × ℕ

/-- `sources`; `stat` gives the sizes and times. -/
def Job.sources (job : Job) (stat : Text → ℕ × ℕ) : List Source :=
  (recordedTasks job.resultRecords).filterMap fun task =>
    let name := (job.resultRecords.lookup task).getD []
    if isArchiveName name && (job.file name).isSome then some (task, name, stat name) else none

/-- What an earlier download has left in the directory: archives under their names, and in `solver-streams.json` what it
has made them of.  SHA-256 is taken to be injective. -/
structure Left where
  archives : Text → Option (List Member)
  marker : Option (List Source)

/-- The archives are there, and were made of the archives of the pairs that are there now. -/
def Job.isConsolidated (job : Job) (stat : Text → ℕ × ℕ) (left : Left) (directory : Text) : Bool :=
  (left.archives ((Output.archive .stdout).file (consolidatedName job directory))).isSome &&
    (left.archives ((Output.archive .stderr).file (consolidatedName job directory))).isSome &&
    decide (left.marker = some (job.sources stat))

/-- What is there after `consolidate_solver_streams`: the name before the suffixes, and the members of the two archives;
`none` when it fails. -/
def consolidate (job : Job) (stat : Text → ℕ × ℕ) (left : Left) (directory : Text) :
    Option (Text × (Stream → List Member)) :=
  if job.isConsolidated stat left directory then
    some (consolidatedName job directory, fun stream =>
      (left.archives ((Output.archive stream).file (consolidatedName job directory))).getD [])
  else repack job directory

/-! ### Jobs -/

/-- The metadata, the manifest, the tables of results and the archives of a job, with their sizes and times. -/
structure ModernJob where
  metadata : Item
  manifest : List (Option Item)
  tables : List Text
  rows : Text → List Batch.ResultRow
  archives : Text → Option (List Member)
  stat : Text → ℕ × ℕ
  isResultName_of_mem : ∀ n ∈ tables, isResultName n = true

def ModernJob.job (j : ModernJob) : Job where
  names := j.tables
  file n :=
    if n = metadataFile then some (.metadata j.metadata)
    else if n = manifestFile then some (.manifest j.manifest)
    else if n ∈ j.tables then some (.table (Batch.tableOf (j.rows n)))
    else (j.archives n).map .archive

/-- The archives that `sync_loop` copies are those that `consolidate_solver_streams` has written, and those
of the export of the same job. -/
def ModernJob.Agrees (j : ModernJob) (left : Left) (jobId : Text) : Prop :=
  ∃ name members remoteName b, consolidate j.job j.stat left rawDirectory = some (name, members) ∧
    remoteExport j.job = some (remoteName, b) ∧
    ∀ stream, (Output.archive stream).file (copiedName j.metadata jobId) = (Output.archive stream).file name ∧
      (Output.archive stream).file name = (Output.archive stream).file remoteName ∧
      members stream = b.members stream

/-! ### The condition -/

/-- The rows of all tables, the last one of each pair. -/
def latestRows (rows : List Batch.ResultRow) : List (ℕ × Batch.ResultRow) :=
  rows.foldl (fun found r => Dict.put found r.taskId r) []

def ModernJob.latest (j : ModernJob) : List (ℕ × Batch.ResultRow) := latestRows (j.tables.flatMap j.rows)

/-- The column `archive`. -/
def archiveOf (r : Batch.ResultRow) : Text := r.fields.getD 14 []

/-- The members of the archive that the result of a pair names. -/
def ModernJob.members (j : ModernJob) (task : ℕ) : List Member :=
  match j.latest.lookup task with
  | none => []
  | some r => if isArchiveName (archiveOf r) then (j.archives (archiveOf r)).getD [] else []

/-- No field of a table is too long for Python's reader. -/
def ModernJob.Short (j : ModernJob) : Prop :=
  ∀ n ∈ j.tables, ∀ r ∈ j.rows n, ∀ f ∈ r.fields, f.length ≤ Csv.fieldLimit

/-- Both programs find the same streams in the archives of the pairs. -/
def ModernJob.Same (j : ModernJob) (definitions : List (ℤ × Item)) (count : ℕ) : Prop :=
  ∀ task stream,
    taskContents (j.members task) stream =
      (if task < count then streamContents (j.members task) stream else []) ∧
    (taskContents (j.members task) stream ≠ [] →
      (streamName (definitionOf definitions task) task stream).isSome = true)

/-- The archives that an earlier download has left are those of the pairs below `count`. -/
def ModernJob.LeftRight (j : ModernJob) (left : Left) (definitions : List (ℤ × Item)) (count : ℕ) : Prop :=
  ∀ stream, left.archives ((Output.archive stream).file (exportName j.metadata)) =
    streamMembers (exportName j.metadata) definitions count j.members stream

/-- When both downloads agree: on the names, on what they read of the tables, the manifest and the metadata, and on the
members of the archives that hold streams, or else on the archives that are there already. -/
structure ModernJob.Alike (j : ModernJob) (left : Left) (jobId : Text) : Prop where
  name : ((j.metadata.lookup "job_name".toList).any Value.truthy) = true ∨
    (safeName jobId = rawDirectory ∧ exportName j.metadata = rawDirectory)
  short : j.Short
  pairs : ∃ definitions count, definitionsOf j.manifest [] = some definitions ∧
    pairCount j.metadata definitions = some count ∧
    if j.job.isConsolidated j.stat left rawDirectory then j.LeftRight left definitions count
    else j.Same definitions count

end Export
end Slurmy
