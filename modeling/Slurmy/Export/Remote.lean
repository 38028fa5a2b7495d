import Slurmy.Lib.CsvStream
import Slurmy.Lib.Dict
import Slurmy.Batch.Results

/-!
# The export of a job

`remote_export.py` makes three files of a job: a summary of its results, and two archives with the
output streams of all solver-problem pairs.

* `Value`, `Item`: what the exporter asks of JSON values and objects; `Content`: the files of a job;
* `safeName`, `exportName`, `Output.file`, `streamName`: the names of the files and of the members;
* `records`, `definitionsOf`, `pairCount`: what is read before the first pair;
* `bundle`: the contents of the three files, from everything that has been read;
* `remoteExport`: the export of a job that stays as it is.

The summary is kept as a table, and an archive as the list of its members.
-/

namespace Slurmy
namespace Export

open Batch (resultColumns)

/-! ### Files of a job -/

/-- A JSON value, as `str`, `bool`, `int` and the writer of CSV take it. -/
structure Value where
  str : Text
  truthy : Bool
  int : Option ℤ
  cell : Text
  deriving DecidableEq

/-- A JSON object. -/
abbrev Item := List (Text × Value)

/-- `str(item.get(k₁) or item.get(k₂) or … or fallback)`. -/
def Item.strOr (item : Item) (keys : List Text) (fallback : Text) : Text :=
  ((keys.filterMap fun k => (item.lookup k).filter Value.truthy).map Value.str).headD fallback

structure Member where
  name : Text
  isFile : Bool
  content : Text
  deriving DecidableEq

/-- `metadata.json`; the lines of `manifest.jsonl`, `none` for one that is no JSON object; a table; an
archive. -/
inductive Content
  | metadata (item : Item)
  | manifest (lines : List (Option Item))
  | table (text : Text)
  | archive (members : List Member)
  deriving DecidableEq

def Content.metadata? : Content → Option Item
  | .metadata item => some item
  | _ => none

def Content.manifest? : Content → Option (List (Option Item))
  | .manifest lines => some lines
  | _ => none

def Content.table? : Content → Option Text
  | .table text => some text
  | _ => none

def Content.archive? : Content → Option (List Member)
  | .archive members => some members
  | _ => none

def metadataFile : Text := "metadata.json".toList

def manifestFile : Text := "manifest.jsonl".toList

/-- `batch_*_task_*.csv`. -/
def isResultName (name : Text) : Bool :=
  "batch_".toList.isPrefixOf name && ".csv".toList.isSuffixOf name &&
    decide ("_task_".toList <:+: (name.drop 6).take (name.length - 10))

/-- `*.tar.gz`. -/
def isTarName (name : Text) : Bool := ".tar.gz".toList.isSuffixOf name

/-- `ARCHIVE.fullmatch(name)`. -/
def isArchiveName (name : Text) : Bool := isJobId name && isTarName name && decide (7 < name.length)

/-! ### Names -/

/-- `re.sub(r'[^A-Za-z0-9._-]+', '-', value)`; `dash` after a character that was replaced. -/
def replaceRuns : Bool → Text → Text
  | _, [] => []
  | dash, c :: t =>
      if c.isAlphanum || c == '.' || c == '_' || c == '-' then c :: replaceRuns false t
      else if dash then replaceRuns true t
      else '-' :: replaceRuns true t

def isMark (c : Char) : Bool := c == '.' || c == '_' || c == '-'

/-- `safe_name`. -/
def safeName (value : Text) : Text :=
  let name := (((replaceRuns false value).dropWhile isMark).rdropWhile isMark).take 80
  if name = [] then "job".toList else name

inductive Stream
  | stdout
  | stderr
  deriving DecidableEq

def Stream.word : Stream → Text
  | .stdout => "stdout".toList
  | .stderr => "stderr".toList

inductive Output
  | summary
  | archive (stream : Stream)
  deriving DecidableEq

/-- The three files in the order of `names`. -/
def outputs : List Output := [.summary, .archive .stdout, .archive .stderr]

/-- `archive_root`. -/
def archiveRoot (name : Text) (stream : Stream) : Text := name ++ "_solver-".toList ++ stream.word

def Output.file (name : Text) : Output → Text
  | .summary => name ++ "_results-summary.csv".toList
  | .archive stream => archiveRoot name stream ++ ".tgz".toList

/-- The name that `export_names` puts before the three suffixes. -/
def exportName (metadata : Item) : Text :=
  safeName (metadata.strOr ["job_name".toList, "job_id".toList] "job".toList)

/-- `Path(t).name`. -/
def pathName (t : Text) : Text :=
  (((t.splitOn '/').filter fun part => part ≠ [] ∧ part ≠ ['.']).getLast?).getD []

/-- `stream_name`, `none` when the name of the solver is invalid. -/
def streamName (definition : Item) (task : ℕ) (stream : Stream) : Option Text :=
  let solver := (definition.strOr ["solver".toList] "solver".toList).map fun c => if c = '/' then '-' else c
  if solver = ['.'] ∨ solver = ['.', '.'] ∨ Char.ofNat 0 ∈ solver then none
  else
    some (solver ++ "___".toList ++
      pathName (definition.strOr ["problem".toList] "problem".toList) ++ "___".toList ++
      padded 9 task ++ (match stream with | .stdout => [] | .stderr => ".stderr".toList) ++ ".log".toList)

/-! ### What is read first -/

/-- The rows of one file, added to those found so far. -/
def addRows : List Csv.DictRow → List (ℕ × Csv.DictRow) → Option (List (ℕ × Csv.DictRow))
  | [], found => some found
  | row :: rows, found =>
      match (row.get? "task_id".toList).getD (some []) with
      | none => none
      | some id => addRows rows (if isDigits id then Dict.put found (number id) row else found)

/-- `records`, from the texts of the files in their order. -/
def records : List Text → List (ℕ × Csv.DictRow) → Option (List (ℕ × Csv.DictRow))
  | [], found => some found
  | text :: texts, found =>
      (Csv.dictReaderFile Csv.fieldLimit text).bind fun rows => (addRows rows found).bind (records texts)

/-- `definitions`, from the lines of the manifest. -/
def definitionsOf : List (Option Item) → List (ℤ × Item) → Option (List (ℤ × Item))
  | [], found => some found
  | line :: lines, found =>
      line.bind fun item => (item.lookup "task_id".toList).bind fun id => id.int.bind fun task =>
        definitionsOf lines (Dict.put found task item)

/-- `max(definitions, default=-1) + 1`. -/
def definedCount (definitions : List (ℤ × Item)) : ℤ :=
  match definitions.map Prod.fst with
  | [] => 0
  | k :: ks => ks.foldl max k + 1

/-- `count`, and the pairs are those of `range(count)`. -/
def pairCount (metadata : Item) (definitions : List (ℤ × Item)) : Option ℕ :=
  (match metadata.lookup "task_count".toList with
    | some v => v.int
    | none => some 0).map fun n => (max n (definedCount definitions)).toNat

/-- `definitions.get(task_id, {})`. -/
def definitionOf (definitions : List (ℤ × Item)) (task : ℕ) : Item :=
  (definitions.lookup (task : ℤ)).getD []

/-- The archive of a pair that the exporter looks for, `none` when its row names no archive; the outer
`none` when the row ends before the name. -/
def archiveName (results : List (ℕ × Csv.DictRow)) (task : ℕ) : Option (Option Text) :=
  match ((results.lookup task).getD []).get? "archive".toList with
  | none => some none
  | some none => none
  | some (some name) => some (if isArchiveName name then some name else none)

theorem archiveName_of_get {results : List (ℕ × Csv.DictRow)} {task : ℕ} {name : Text}
    (h : ((results.lookup task).getD []).get? "archive".toList = some (some name)) :
    archiveName results task = some (if isArchiveName name then some name else none) := by
  unfold archiveName
  rw [h]

/-! ### The three files -/

/-- The stream that a member of an archive holds. -/
def Stream.ofName (name : Text) : Option Stream :=
  if ".solver.log".toList.isSuffixOf name then some .stdout
  else if ".solver-stderr.log".toList.isSuffixOf name then some .stderr
  else none

/-- The contents of the members that hold the stream of a pair. -/
def streamContents (members : List Member) (stream : Stream) : List Text :=
  (members.filter fun m => m.isFile && decide (Stream.ofName m.name = some stream)).map Member.content

/-- The members of an output archive that hold these contents. -/
def pairMembers (name : Text) (definition : Item) (task : ℕ) (stream : Stream) (contents : List Text) :
    Option (List Member) :=
  contents.mapM fun content => (streamName definition task stream).map fun file =>
    ⟨archiveRoot name stream ++ '/' :: file, true, content⟩

/-- The member for the directory. -/
def rootMember (name : Text) (stream : Stream) : Member := ⟨archiveRoot name stream ++ ['/'], false, []⟩

def definitionColumns : List (Text × Text) :=
  [("solver".toList, []), ("problem".toList, []), ("command".toList, []), ("cores".toList, []),
    ("threads_per_core".toList, ['1']), ("wc_limit".toList, []), ("cpu_limit".toList, []),
    ("mem_limit".toList, [])]

/-- `EXPORT_FIELDS` between `mem_limit` and `has_solver_stdout`: the columns of a result without the task
and the two that name the archive. -/
def resultFields : List Text :=
  resultColumns.filter fun f => f ∉ ["task_id".toList, "task_key".toList, "archive".toList]

def exportFields : List Text :=
  "task_id".toList :: definitionColumns.map Prod.fst ++ resultFields ++
    ["has_solver_stdout".toList, "has_solver_stderr".toList]

def boolText (b : Bool) : Text := (if b then "true" else "false").toList

/-- The row of a pair in the summary. -/
def exportRow (definition : Item) (result : Csv.DictRow) (task : ℕ) (members : List Member) : List Text :=
  decimal task ::
    definitionColumns.map (fun f => ((definition.lookup f.1).map Value.cell).getD f.2) ++
    resultFields.map (fun f => ((result.get? f).join).getD []) ++
    [boolText (streamContents members .stdout ≠ []), boolText (streamContents members .stderr ≠ [])]

inductive ExportFile
  | table (rows : List (List Text))
  | archive (members : List Member)
  deriving DecidableEq

/-- The contents of the three files. -/
structure Bundle where
  rows : List (List Text)
  members : Stream → List Member

def Bundle.file (b : Bundle) : Output → ExportFile
  | .summary => .table b.rows
  | .archive stream => .archive (b.members stream)

/-- The members of one output archive for the pairs below `count`; `opened` are the members of the
archives of the pairs. -/
def streamMembers (name : Text) (definitions : List (ℤ × Item)) (count : ℕ)
    (opened : ℕ → List Member) (stream : Stream) : Option (List Member) :=
  ((List.range count).mapM fun task =>
    pairMembers name (definitionOf definitions task) task stream (streamContents (opened task) stream)).map
    fun parts => rootMember name stream :: parts.flatten

/-- The three files of the pairs below `count`. -/
def bundle (name : Text) (definitions : List (ℤ × Item)) (results : List (ℕ × Csv.DictRow)) (count : ℕ)
    (opened : ℕ → List Member) : Option Bundle :=
  (streamMembers name definitions count opened .stdout).bind fun out =>
    (streamMembers name definitions count opened .stderr).map fun err =>
      { rows := exportFields :: (List.range count).map fun task =>
          exportRow (definitionOf definitions task) ((results.lookup task).getD []) task (opened task)
        members := fun
          | .stdout => out
          | .stderr => err }

/-! ### A job that stays as it is -/

/-- The files of a job, those of `results` in the order of their names. -/
structure Job where
  names : List Text
  file : Text → Option Content

def Job.metadata (job : Job) : Option Item := (job.file metadataFile).bind Content.metadata?

def Job.definitions (job : Job) : Option (List (ℤ × Item)) :=
  (job.file manifestFile).bind fun c => c.manifest?.bind fun lines => definitionsOf lines []

def Job.records (job : Job) : Option (List (ℕ × Csv.DictRow)) :=
  ((job.names.filter isResultName).mapM fun n => (job.file n).bind Content.table?).bind fun texts =>
    Export.records texts []

/-- The members of the archive that the result of a pair names: none without such a file, and `none` when
it is no archive. -/
def Job.open (job : Job) (results : List (ℕ × Csv.DictRow)) (task : ℕ) : Option (List Member) :=
  (archiveName results task).bind fun name =>
    match name.bind job.file with
    | none => some []
    | some c => c.archive?

/-- The name of the export with its three files, `none` when the exporter fails. -/
def remoteExport (job : Job) : Option (Text × Bundle) :=
  job.metadata.bind fun metadata => job.definitions.bind fun definitions =>
    job.records.bind fun results => (pairCount metadata definitions).bind fun count =>
      ((List.range count).mapM (job.open results)).bind fun opened =>
        (bundle (exportName metadata) definitions results count fun task => opened.getD task []).map
          fun b => (exportName metadata, b)

end Export
end Slurmy
