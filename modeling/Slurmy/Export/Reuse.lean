import Slurmy.Lib.Machine
import Slurmy.Lib.NumberedFiles
import Slurmy.Export.Remote

/-!
# Runs of the exporter

`remote_export.py` signs the files of a job, and when its last export had the same signature it
returns the files that are there.

* `File`: a file of the job, as it was published; `Older`: the order of what is seen of a file;
* `Run`: a run of the exporter, with everything it has looked at;
* `State`, `Event`, `State.step`: runs that look at one file after the other, replace the three files
  one by one, write `.signature` and may be killed anywhere, while files are published;
* `Sound`: what a run that prints `EXPORT_FILES` should have;
* `keepsName`: the job has the same export name when the run reads its metadata as when it signed it.

All states of a file have different sizes or time stamps, and the checksum of a signature is the
signature.
-/

namespace Slurmy
namespace Export

open NumberedFiles

/-! ### Looks at a job -/

/-- The publications are numbered. -/
structure File where
  content : Content
  size : ℕ
  mtime : ℕ
  serial : ℕ
  deriving DecidableEq

/-- `(st_size, st_mtime_ns)`. -/
def File.stat (f : File) : ℕ × ℕ := (f.size, f.mtime)

/-- What was seen of a file at first, and what later. -/
def Older (first later : Option File) : Prop :=
  ∀ f, first = some f → ∃ g, later = some g ∧ f.serial ≤ g.serial

instance (first later : Option File) : Decidable (Older first later) :=
  match first, later with
  | none, _ => isTrue fun _ h => by cases h
  | some f, none => isFalse fun h => by obtain ⟨g, hg, -⟩ := h f rfl; cases hg
  | some f, some g =>
      decidable_of_iff (f.serial ≤ g.serial)
        ⟨fun h _ hf => ⟨g, rfl, Option.some.inj hf ▸ h⟩, fun h => by
          obtain ⟨_, hg, hle⟩ := h f rfl
          exact Option.some.inj hg ▸ hle⟩

abbrev Files := Dir Text File

def tableNames (d : Files) : List Text := (glob d).filter isResultName

def tarNames (d : Files) : List Text := (glob d).filter isTarName

/-- The files that are signed. -/
def isSource (n : Text) : Prop :=
  n = metadataFile ∨ n = manifestFile ∨ isResultName n = true ∨ isTarName n = true

def exportNameOf (f : Option File) : Option Text := (f.bind fun f => f.content.metadata?).map exportName

/-! ### Runs -/

inductive Phase
  /-- before the first `glob` -/
  | listTables
  /-- before the second one -/
  | listArchives
  /-- the files that are not signed yet -/
  | stat (todo : List Text)
  /-- the files exist, with this signature -/
  | reuse
  | manifest
  /-- `records` has not listed its files -/
  | listRows
  /-- the files that `records` has not read yet; after them the archives are opened -/
  | rows (todo : List Text)
  /-- the files that are not replaced yet; then comes `.signature` -/
  | replace (todo : List Output)
  | ready
  deriving DecidableEq

/-- A run that has started when the job was `base`.  `signed` are the files whose size and time are in the
signature; `metadata`, `manifest`, `rows` and `opened` have been read after that. -/
structure Run where
  id : ℕ
  base : Files
  listed : List Text
  signed : Files
  metadata : Option File
  manifest : Option File
  rows : Files
  opened : List (Option Text × Option File)
  phase : Phase

/-- The entries are in the order of `source_files`. -/
def Run.signature (r : Run) : List (Text × ℕ × ℕ) :=
  (metadataFile :: manifestFile :: (tableNames r.signed ++ tarNames r.signed)).filterMap fun n =>
    (r.signed.lookup n).map fun f => (n, f.stat)

def Run.name (r : Run) : Text := (exportNameOf r.metadata).getD []

def Run.definitions (r : Run) : Option (List (ℤ × Item)) :=
  r.manifest.bind fun f => f.content.manifest?.bind fun lines => definitionsOf lines []

def Run.results (r : Run) : Option (List (ℕ × Csv.DictRow)) :=
  ((tableNames r.rows).mapM fun n => (r.rows.lookup n).bind fun f => f.content.table?).bind fun texts =>
    records texts []

def Run.count (r : Run) : Option ℕ :=
  (r.metadata.bind fun f => f.content.metadata?).bind fun metadata =>
    r.definitions.bind fun definitions => pairCount metadata definitions

/-- The members of an archive, none when there was no archive. -/
def membersOf (o : Option File) : Option (List Member) :=
  match o with
  | none => some []
  | some f => f.content.archive?

/-- The three files of the run. -/
def Run.bundle (r : Run) : Option Bundle :=
  r.definitions.bind fun definitions => r.results.bind fun results => r.count.bind fun count =>
    (r.opened.mapM fun p => membersOf p.2).bind fun opened =>
      Export.bundle r.name definitions results count fun task => opened.getD task []

/-- The job that the run has signed. -/
def Run.signedJob (r : Run) : Job where
  names := glob r.signed
  file n := (r.signed.lookup n).map File.content

/-- The run has looked for the file `n`, and this is what it has found. -/
def Run.Sees (r : Run) (n : Text) (o : Option File) : Prop :=
  (n = metadataFile ∧ o = r.metadata) ∨ (n = manifestFile ∧ o = r.manifest) ∨
    (isResultName n = true ∧ o = r.rows.lookup n) ∨ (some n, o) ∈ r.opened

/-! ### The exports of a job -/

/-- A file in `exports`, and the run that has written it. -/
structure Stored where
  content : ExportFile
  run : ℕ
  deriving DecidableEq

/-- `past` are all publications, the last one first; `marker` is `.signature`, as the run that has written
it. -/
structure State where
  job : Files
  past : List (Text × File)
  files : Dir Text Stored
  marker : Option Run
  completed : List Run
  active : Option Run
  runs : ℕ

inductive Event
  | publish (name : Text) (content : Content) (size mtime : ℕ)
  /-- the lock is taken -/
  | start
  | listTables
  | listArchives
  | stat
  /-- the metadata are read, and the decision is made -/
  | names
  | manifest
  | listRows
  | row
  /-- the archive of the next pair -/
  | pair
  /-- the three files are complete in the staging directory -/
  | stage
  | replace
  | mark
  /-- `EXPORT_FILES` is printed -/
  | report
  /-- the run is killed, or stops with an error -/
  | kill

def State.initial : State := ⟨∅, [], ∅, none, [], none, 0⟩

def Run.start (id : ℕ) (job : Files) : Run := ⟨id, job, [], ∅, none, none, ∅, [], .listTables⟩

/-- The three files exist, and `.signature` is the signature of the run. -/
def State.unchanged (s : State) (r : Run) : Bool :=
  outputs.all (fun k => (s.files.lookup (k.file r.name)).isSome) &&
    s.marker.any fun e => e.signature = r.signature

/-- The next look of the run, or its next change. -/
def State.advance (s : State) (r : Run) : Event → Option State
  | .listTables =>
      if r.phase = .listTables then
        some { s with active := some { r with
          listed := metadataFile :: manifestFile :: tableNames s.job, phase := .listArchives } }
      else none
  | .listArchives =>
      if r.phase = .listArchives then
        some { s with active := some { r with
          listed := r.listed ++ tarNames s.job, phase := .stat (r.listed ++ tarNames s.job) } }
      else none
  | .stat =>
      match r.phase with
      | .stat (n :: todo) =>
          match s.job.lookup n with
          | some f => some { s with active := some { r with signed := r.signed.insert n f, phase := .stat todo } }
          | none => some { s with active := some { r with phase := .stat todo } }
      | _ => none
  | .names =>
      if r.phase = .stat [] ∧ (exportNameOf (s.job.lookup metadataFile)).isSome then
        let r := { r with metadata := s.job.lookup metadataFile }
        some { s with active := some { r with phase := if s.unchanged r then .reuse else .manifest } }
      else none
  | .manifest =>
      if r.phase = .manifest then
        some { s with active := some { r with manifest := s.job.lookup manifestFile, phase := .listRows } }
      else none
  | .listRows =>
      if r.phase = .listRows then some { s with active := some { r with phase := .rows (tableNames s.job) } }
      else none
  | .row =>
      match r.phase with
      | .rows (n :: todo) =>
          (s.job.lookup n).map fun f =>
            { s with active := some { r with rows := r.rows.insert n f, phase := .rows todo } }
      | _ => none
  | .pair =>
      match r.phase, r.results, r.count with
      | .rows [], some results, some count =>
          if r.opened.length < count then
            (archiveName results r.opened.length).map fun name =>
              { s with active := some { r with opened := r.opened ++ [(name, name.bind s.job.lookup)] } }
          else none
      | _, _, _ => none
  | .stage =>
      if r.phase = .rows [] ∧ r.count = some r.opened.length ∧ r.bundle.isSome then
        some { s with active := some { r with phase := .replace outputs } }
      else none
  | .replace =>
      match r.phase, r.bundle with
      | .replace (k :: todo), some b =>
          some { s with
            files := s.files.insert (k.file r.name) ⟨b.file k, r.id⟩
            active := some { r with phase := .replace todo } }
      | _, _ => none
  | .mark =>
      if r.phase = .replace [] then
        some { s with
          marker := some { r with phase := .ready }
          completed := { r with phase := .ready } :: s.completed
          active := some { r with phase := .ready } }
      else none
  | .report => if r.phase = .reuse ∨ r.phase = .ready then some { s with active := none } else none
  | .kill => some { s with active := none }
  | _ => none

def State.step (s : State) : Event → Option State
  | .publish n content size mtime =>
      let f : File := ⟨content, size, mtime, s.past.length⟩
      if s.past.any fun p => p.1 = n && p.2.stat = f.stat then none
      else some { s with job := s.job.insert n f, past := (n, f) :: s.past }
  | .start =>
      match s.active with
      | none => some { s with active := some (Run.start s.runs s.job), runs := s.runs + 1 }
      | some _ => none
  | e => s.active.bind fun r => s.advance r e

/-! ### What a run reports -/

/-- The run that prints `EXPORT_FILES` in this step. -/
def State.reports (s : State) : Option Run := s.active.filter fun r => r.phase = .reuse ∨ r.phase = .ready

/-- The three files of run `r` are those of the completed run `e`, which has seen a job at least as new as
`r` has signed. -/
structure State.ComesFrom (s : State) (r e : Run) : Prop where
  completed : e ∈ s.completed
  files : ∃ b, e.bundle = some b ∧
    ∀ k, s.files.lookup (k.file r.name) = some (Stored.mk (b.file k) e.id)
  newer : ∀ n o, e.Sees n o → Older (r.signed.lookup n) o

/-- The three files of the run are the export of the job that the run has signed after its start. -/
structure State.ReusesCurrent (s : State) (r : Run) : Prop where
  since : ∀ n, isSource n → Older (r.base.lookup n) (r.signed.lookup n)
  files : ∃ b, remoteExport r.signedJob = some (r.name, b) ∧
    ∀ k, (s.files.lookup (k.file r.name)).map Stored.content = some (b.file k)

/-- A report of run `r` is as it should be. -/
structure State.Sound (s : State) (r : Run) : Prop where
  comesFrom : ∃ e, s.ComesFrom r e
  current : r.phase = .reuse → s.ReusesCurrent r

/-- When the run reads the metadata, the job still has the export name that it had when it was signed, unless
`.signature` is another signature anyway. -/
def keepsName (s : State) : Event → Bool
  | .names =>
      match s.active with
      | some r =>
          !(s.marker.any fun e => e.signature = r.signature) ||
            decide (exportNameOf (s.job.lookup metadataFile) = exportNameOf (r.signed.lookup metadataFile))
      | none => true
  | _ => true

end Export
end Slurmy
