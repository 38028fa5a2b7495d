import Slurmy.Lib.FileTree
import Slurmy.Lib.Machine
import Slurmy.Text

/-!
# The upload of a job

`submit.sh` uploads a job in three steps, each in a connection of its own: `remote_prepare.sh`, `scp`
of the two archives, and `remote_finish_upload.sh`.

* `Package`: the two archives, with what `tar` makes of them and of truncated copies;
* `Pc.next`, `Pc.fails`, `Pc.leaves`: the commands of the steps, a command that fails, and what is
  left when the step is cut off;
* `State`, `Event`, `State.step`: the steps of one job, one at a time, over the file tree below
  `$HOME/slurmy/jobs`.

No command of the three steps creates a symbolic link, so the tests `! -L` hold.
-/

namespace Slurmy
namespace Upload

/-! ### Files -/

abbrev Bytes := List UInt8

abbrev Path := List Text

/-- The files below `$HOME/slurmy/jobs`. -/
abbrev Disk := FileTree.Tree Text Bytes

abbrev Member := FileTree.Member Text Bytes

inductive Archive
  | inputs
  | jobFiles
  deriving DecidableEq

def Archive.name : Archive → Text
  | .inputs => "inputs.tar.gz".toList
  | .jobFiles => "job-files.tar.gz".toList

/-- The names at the top of the staging directory that `remote_finish_upload.sh` uses itself. -/
def reserved : List Text :=
  ["incoming".toList, "rootfs".toList, "results".toList, "progress".toList, "logs".toList,
    ".inputs-ready".toList]

/-- The archives of `package_inputs.py`; `tar` gives the members that `tar -xzf` finds in a file, and
whether it comes to the end of a complete archive. -/
structure Package (tar : Bytes → List Member × Bool) where
  bytes : Archive → Bytes
  members : Archive → List Member
  reads : ∀ a, tar (bytes a) = (members a, true)
  /-- a truncated archive is an error -/
  truncated : ∀ a k, k < (bytes a).length → (tar ((bytes a).take k)).2 = false
  /-- of which some members are found, the last one perhaps cut short -/
  paths : ∀ a k, ∀ m ∈ (tar ((bytes a).take k)).1, ∃ m' ∈ members a, m'.path = m.path
  /-- `slurmy.py` generates other job files -/
  outside : ∀ m ∈ members .jobFiles, ∀ name ∈ reserved, m.path.head? ≠ some name

/-! ### Paths -/

section Paths

variable (job : Text)

def jobDir : Path := [job]

def staging : Path := [".staging-".toList ++ job]

def incoming : Path := staging job ++ ["incoming".toList]

def archivePath (a : Archive) : Path := incoming job ++ [a.name]

/-- Where an archive is unpacked. -/
def unpackDir : Archive → Path
  | .jobFiles => staging job
  | .inputs => staging job ++ ["rootfs".toList]

/-- The directories made by `remote_finish_upload.sh`, each after its parent. -/
def folders : List Path :=
  [staging job ++ ["rootfs".toList], staging job ++ ["results".toList],
    staging job ++ ["results".toList, "index".toList], staging job ++ ["progress".toList],
    staging job ++ ["logs".toList]]

/-- `-e "$JOB_DIR"`. -/
def present (disk : Disk) : Bool :=
  decide (job = ".".toList) || decide (job = "..".toList) || (disk (jobDir job)).isSome

/-- `-s` of an archive. -/
def nonempty (disk : Disk) (a : Archive) : Bool :=
  match disk (archivePath job a) with
  | some (.file b) => !b.isEmpty
  | some .dir => true
  | none => false

end Paths

/-! ### Programs -/

inductive Stage
  | prepare
  | copy
  | finish
  deriving DecidableEq

/-- The next command. -/
inductive Pc
  /-- the tests of `remote_prepare.sh` -/
  | prepare
  | makeIncoming (todo : List Path)
  | copying
  /-- the tests of `remote_finish_upload.sh` -/
  | finish
  | makeFolders (todo : List Path)
  /-- `tar` at work; `ok` is what it will report -/
  | unpack (a : Archive) (todo : List Member) (ok : Bool)
  | metadata
  | ready
  | inputsReady
  | publish
  | announce
  | exited (stage : Stage) (code : ℕ)
  deriving DecidableEq

def Stage.start : Stage → Pc
  | .prepare => .prepare
  | .copy => .copying
  | .finish => .finish

def Pc.stage : Pc → Stage
  | .prepare | .makeIncoming _ => .prepare
  | .copying => .copy
  | .exited stage _ => stage
  | _ => .finish

section Commands

variable {tar : Bytes → List Member × Bool} (P : Package tar) (job : Text)

/-- Go on when the command has changed the files, else exit. -/
def Pc.after (disk : Disk) (stage : Stage) (pc : Pc) : Option Disk → Disk × Pc
  | some d => (d, pc)
  | none => (disk, .exited stage 1)

/-- `tar` opens an archive. -/
def Pc.open (tar : Bytes → List Member × Bool) (job : Text) (disk : Disk) (a : Archive) : Pc :=
  match disk (archivePath job a) with
  | some (.file b) => .unpack a (tar b).1 (tar b).2
  | _ => .exited .finish 2

/-- Both archives have been copied. -/
def copied (disk : Disk) : Bool :=
  decide (∀ a ∈ [Archive.inputs, Archive.jobFiles],
    disk (archivePath job a) = some (.file (P.bytes a)))

/-- The effect of the next command. -/
def Pc.next (disk : Disk) : Pc → Option (Disk × Pc)
  | .prepare => some (disk,
      if !isJobId job then .exited .prepare 2
      else if disk.isDir (incoming job) && !present job disk then .exited .prepare 0
      else if present job disk || (disk (staging job)).isSome then .exited .prepare 1
      else .makeIncoming [staging job, incoming job])
  | .makeIncoming [] => some (disk, .exited .prepare 0)
  | .makeIncoming (p :: todo) => some (Pc.after disk .prepare (.makeIncoming todo) (disk.mkdir p))
  | .copying => if copied P job disk then some (disk, .exited .copy 0) else none
  | .finish => some (disk,
      if !isJobId job then .exited .finish 2
      else if disk.isFile (jobDir job ++ [".inputs-ready".toList]) then .exited .finish 0
      else if !disk.isDir (staging job) || present job disk then .exited .finish 1
      else if !nonempty job disk .inputs || !nonempty job disk .jobFiles then .exited .finish 1
      else .makeFolders (folders job))
  | .makeFolders [] => some (disk, Pc.open tar job disk .jobFiles)
  | .makeFolders (p :: todo) => some (Pc.after disk .finish (.makeFolders todo) (disk.mkdir p))
  | .unpack a (m :: todo) ok =>
      match disk.extract (unpackDir job a) m with
      | some d => some (d, .unpack a todo ok)
      | none => some (disk, .unpack a todo false)
  | .unpack _ [] false => some (disk, .exited .finish 2)
  | .unpack .jobFiles [] true => some (disk, Pc.open tar job disk .inputs)
  | .unpack .inputs [] true => some (disk, .metadata)
  | .metadata => some (disk,
      if disk.isFile (staging job ++ ["metadata.json".toList]) then .ready else .exited .finish 1)
  | .ready => some (Pc.after disk .finish .inputsReady
      (disk.write (staging job ++ ["results".toList, "index".toList, ".ready".toList]) []))
  | .inputsReady => some (Pc.after disk .finish .publish
      (disk.write (staging job ++ [".inputs-ready".toList]) []))
  | .publish =>
      -- an existing directory could only be replaced if it were empty; there is none
      if (disk (jobDir job)).isNone then
        some (disk.move (staging job) (jobDir job), .announce)
      else some (disk, .exited .finish 1)
  | .announce => some (disk, .exited .finish 0)
  | .exited .. => none

/-- The part of a file that has been written. -/
def partOf (m : Member) (k : ℕ) : Member :=
  match m.node with
  | .file c => { m with node := .file (c.take k) }
  | .dir => m

/-- What a command leaves that does not come to its end; `part` is how far `tar` has come with a
member. -/
def Pc.leaves (disk : Disk) (part : Option ℕ) : Pc → Disk
  | .unpack a (m :: _) _ =>
      match part with
      | some k => (disk.extract (unpackDir job a) (partOf m k)).getD disk
      | none => disk
  | _ => disk

/-- The next command fails; `tar` goes on to the next member. -/
def Pc.fails : Pc → Option Pc
  | .unpack a (_ :: todo) _ => some (.unpack a todo false)
  | .exited .. => none
  | pc => some (.exited pc.stage 1)

end Commands

/-! ### The machine -/

structure State where
  disk : Disk
  run : Option Pc

inductive Event
  | start (stage : Stage)
  | next
  /-- `scp` has copied `k` bytes of an archive -/
  | transfer (a : Archive) (k : ℕ)
  | fails (part : Option ℕ)
  /-- the connection is lost and the step killed -/
  | cut (part : Option ℕ)
  deriving DecidableEq

/-- No step is running. -/
def State.idle (s : State) : Bool :=
  match s.run with
  | none | some (.exited ..) => true
  | _ => false

def State.step {tar : Bytes → List Member × Bool} (P : Package tar) (job : Text) (s : State) :
    Event → Option State
  | .start stage => if s.idle then some { s with run := some stage.start } else none
  | .next =>
      match s.run with
      | some pc => (pc.next P job s.disk).map fun r => ⟨r.1, some r.2⟩
      | none => none
  | .transfer a k =>
      match s.run with
      | some .copying =>
          let r := Pc.after s.disk .copy .copying
            (s.disk.write (archivePath job a) ((P.bytes a).take k))
          some ⟨r.1, some r.2⟩
      | _ => none
  | .fails part =>
      match s.run with
      | some pc => pc.fails.map fun pc' => ⟨pc.leaves job s.disk part, some pc'⟩
      | none => none
  | .cut part =>
      match s.run with
      | some pc => some ⟨pc.leaves job s.disk part, none⟩
      | none => none

/-- Nothing has been uploaded. -/
def State.fresh : State := ⟨fun p => if p = [] then some .dir else none, none⟩

end Upload
end Slurmy
