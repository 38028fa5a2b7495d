import Mathlib.Data.Fintype.Basic
import Slurmy.Lib.Machine
import Slurmy.Lib.Stamps
import Slurmy.Text

/-!
# The overview cache

`REMOTE_SNAPSHOT_SCRIPT` keeps the overview of every job in a record with a signature of the job's
files.

* `Job`: the files that the overview depends on, each directory with its files;
* `collect`, `fresh`: the output of `emit_job` for a job that is not shown in detail, which looks at the
  job at six moments, and the output when the job stays as it is;
* `Reader`, `State`, `Event`, `State.step`: reads of the overview that sign the job, use the record or
  write it, while the job changes.

All changes of a job have different time stamps, and the checksum of a signature is the signature.
-/

namespace Slurmy
namespace Overview

/-! ### The job -/

/-- The paths that are signed. -/
inductive Source
  | directory
  | results
  | index
  | indexLegacy
  | metadata
  | submissionCsv
  | submissionTsv
  | submissionState
  deriving DecidableEq

instance : Fintype Source where
  elems := {.directory, .results, .index, .indexLegacy, .metadata, .submissionCsv, .submissionTsv,
    .submissionState}
  complete source := by cases source <;> decide

/-- The directory whose time stamp a removal changes. -/
def Source.parent : Source → Source
  | .index | .indexLegacy => .results
  | _ => .directory

/-- `%y`, `%z` and `%s`, in nanoseconds and bytes. -/
structure Stat where
  mtime : ℕ
  ctime : ℕ
  size : ℕ
  deriving DecidableEq

/-- The files in a directory in the order of their names; a file is the only one, without a name. -/
structure Node where
  stat : Stat
  files : List (Text × Text)
  deriving DecidableEq

abbrev Job := Source → Option Node

def Node.ctime (n : Node) : ℕ := n.stat.ctime

/-- `stat -c '%n:%y:%z:%s'`. -/
def Job.signature (j : Job) : Source → Option Stat := Stamps.signature Node.stat j

/-- `stat -c %Y "$directory"`. -/
def Job.created (j : Job) : ℕ := ((j .directory).map fun n => n.stat.mtime / 1000000000).getD 0

def Job.file (j : Job) (source : Source) (name : Text) : Option Text :=
  (j source).bind fun n => n.files.lookup name

def Job.ready (j : Job) : Bool := (j.file .index ".ready".toList).isSome

/-- The names in a directory that begin and end like this. -/
def Job.glob (j : Job) (source : Source) (start stop : Text) : List (Source × Text) :=
  match j source with
  | none => []
  | some n =>
      (n.files.filter fun f => start.isPrefixOf f.1 && stop.isSuffixOf (f.1.drop start.length)).map
        fun f => (source, f.1)

/-- The contents of the files that are still there. -/
def Job.contents (j : Job) (files : List (Source × Text)) : List Text :=
  files.filterMap fun f => j.file f.1 f.2

/-! ### `emit_job` -/

/-- `printf 'KIND\0…\0'`. -/
def record (fields : List Text) : Text := fields.flatMap fun f => f ++ [Char.ofNat 0]

/-- The two `awk` programs, and the search for `Maximum memory exceeded:` in the watcher's log of an
archive. -/
structure Programs where
  awkCsv : List Text → Text
  awkTsv : List Text → Text
  exceeded : Text → Bool

def csvResults (j : Job) : List (Source × Text) :=
  if j.ready then
    j.glob .indexLegacy "batch_".toList ".csv".toList ++ j.glob .index "batch_".toList ".csv".toList
  else j.glob .results "batch_".toList ".csv".toList

def tsvResults (j : Job) : List (Source × Text) :=
  if j.ready then []
  else j.glob .results "batch_".toList ".tsv".toList ++ j.glob .results "chunk_".toList ".tsv".toList

def legacyResults (j : Job) : List (Source × Text) :=
  if j.ready then [] else j.glob .results "chunk_".toList ".jsonl".toList

/-- `call.sh` contains this line. -/
def modernResults (j : Job) : Bool :=
  (j.file .directory "call.sh".toList).any fun text =>
    decide ("The watcher is authoritative.".toList <:+: text)

/-- `$(…)` strips the newlines at the end. -/
def substituted (t : Text) : Text := t.rdropWhile (· == '\n')

/-- The lines `candidate`, with the task and the archive. -/
def candidates (payload : Text) : List (Text × Text) :=
  (payload.splitOn '\n').filterMap fun line =>
    match (line.splitOn '\t').filter (· ≠ []) with
    | [kind, task, archive] =>
        if kind = "candidate".toList ∧ isDigits task ∧ isJobId archive ∧
            ".tar.gz".toList.isSuffixOf archive ∧ 7 < archive.length then
          some (task, archive)
        else none
    | _ => none

/-- The result of each call is in one of the files of the first list that is not empty. -/
def emitSummary (P : Programs) (job : Text) (csv tsv legacy : List (Source × Text)) (read : Job) :
    Text :=
  if csv ≠ [] then
    record ["SUMMARY".toList, job, substituted (P.awkCsv (read.contents csv)) ++ ['\n']]
  else if tsv ≠ [] then record ["SUMMARY".toList, job, P.awkTsv (read.contents tsv)]
  else if legacy ≠ [] then record ["LEGACY_RESULTS".toList, job, (read.contents legacy).flatten]
  else []

def emitFile (j : Job) (job : Text) (source : Source) (kind : Text) : Text :=
  match j.file source [] with
  | some text => record [kind, job, text]
  | none => []

def emitSubmission (j : Job) (job : Text) : Text :=
  if (j .submissionCsv).isSome then emitFile j job .submissionCsv "SUBMISSION_CSV".toList
  else emitFile j job .submissionTsv "SUBMISSION_TSV".toList

def emitOverrides (P : Programs) (j : Job) (job payload : Text) : Text :=
  (candidates payload).flatMap fun c =>
    if (j.file .results c.2).any P.exceeded then
      record ["RESULT_OVERRIDE".toList, job, c.1, "memory-limit".toList]
    else []

/-- The output, when the job is `m` as its metadata are read, `g` as the result files are listed, `a` as
they are read, and `s`, `t` and `o` as the last three parts are. A part may look at its files several times, one after
the other; these looks are taken as one moment. -/
def collect (P : Programs) (job : Text) (created : ℕ) (m g a s t o : Job) : Text :=
  let csv := csvResults g
  record ["JOB".toList, job, decimal created] ++
  emitFile m job .metadata "METADATA".toList ++
  emitSummary P job csv (tsvResults g) (legacyResults g) a ++
  emitSubmission s job ++
  emitFile t job .submissionState "SUBMISSION_STATE".toList ++
  if csv ≠ [] ∧ modernResults g = false then
    emitOverrides P o job (substituted (P.awkCsv (a.contents csv)))
  else []

/-- The output of an `emit_job` during which the job stays as it is. -/
def fresh (P : Programs) (job : Text) (j : Job) : Text := collect P job j.created j j j j j j

/-! ### Reads -/

/-- `$CACHE/$job`: the header, and the output. -/
structure Record where
  time : ℕ
  signature : Source → Option Stat
  payload : Text

inductive Phase
  /-- `created` is known -/
  | started
  /-- the job is signed -/
  | signed
  /-- the header of the record is valid -/
  | hit
  /-- `emit_job` runs -/
  | collecting
  /-- the record is printed, or written -/
  | done
  deriving DecidableEq

/-- `signedJob` is the job when it was signed, and `snapshots` are the job at the moments of
`emit_job` so far. -/
structure Reader where
  created : ℕ
  time : ℕ
  signedJob : Job
  snapshots : List Job
  phase : Phase

def Reader.signature (r : Reader) : Source → Option Stat := r.signedJob.signature

/-- The output of `emit_job`, when it is complete. -/
def Reader.payload (P : Programs) (job : Text) (r : Reader) : Option Text :=
  match r.snapshots with
  | [m, g, a, s, t, o] => some (collect P job r.created m g a s t o)
  | _ => none

/-- `clock` is the time stamp of the next change; `now` counts seconds. -/
structure State where
  job : Job
  clock : ℕ
  now : ℕ
  record : Option Record
  readers : List Reader

inductive Event
  | tick (seconds : ℕ)
  | publish (job : Job)
  /-- `created` -/
  | start
  /-- `now` and `signature` -/
  | sign (r : ℕ)
  /-- the header is read -/
  | header (r : ℕ)
  /-- `tail` of the record -/
  | print (r : ℕ)
  /-- the next moment of `emit_job` -/
  | look (r : ℕ)
  /-- `mv` -/
  | store (r : ℕ)

def State.initial (job : Job) (clock now : ℕ) : State := ⟨job, clock, now, none, []⟩

/-- The header is valid. -/
def Record.valid (rec : Record) (r : Reader) : Bool :=
  rec.signature = r.signature && r.time - rec.time < 3600 && rec.time ≤ r.time

def State.set (s : State) (i : ℕ) (r : Reader) : State := { s with readers := s.readers.set i r }

def State.step (P : Programs) (name : Text) (s : State) : Event → Option State
  | .tick seconds => some { s with now := s.now + seconds }
  | .publish job =>
      if Stamps.Published Node.ctime Source.parent s.clock s.job job then
        some { s with job := job, clock := s.clock + 1 }
      else none
  | .start =>
      some { s with
        readers := s.readers ++ [⟨s.job.created, s.now, s.job, [], .started⟩] }
  | .sign i =>
      match s.readers[i]? with
      | some r =>
          if r.phase = .started then
            some (s.set i { r with time := s.now, signedJob := s.job, phase := .signed })
          else none
      | none => none
  | .header i =>
      match s.readers[i]? with
      | some r =>
          if r.phase = .signed then
            some (s.set i { r with
              phase := if s.record.any (·.valid r) then .hit else .collecting })
          else none
      | none => none
  | .print i =>
      match s.readers[i]? with
      | some r => if r.phase = .hit then some (s.set i { r with phase := .done }) else none
      | none => none
  | .look i =>
      match s.readers[i]? with
      | some r =>
          if r.phase = .collecting ∧ r.snapshots.length < 6 then
            some (s.set i { r with snapshots := r.snapshots ++ [s.job] })
          else none
      | none => none
  | .store i =>
      match s.readers[i]? with
      | some r =>
          match r.phase, r.payload P name with
          | .collecting, some payload =>
              some { s.set i { r with phase := .done } with
                record := some ⟨r.time, r.signature, payload⟩ }
          | _, _ => none
      | none => none

/-- What a read that has found the header valid prints. -/
def State.printed (s : State) : Event → Option Text
  | .print _ => s.record.map Record.payload
  | _ => none

end Overview
end Slurmy
