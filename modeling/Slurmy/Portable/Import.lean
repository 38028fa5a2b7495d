import Slurmy.Lib.Disk
import Slurmy.Lib.PosixPath
import Slurmy.Text

/-!
# Importing a workflow

`import_bundle` unpacks an archive into a directory of its own below the user's workflows, checks it, and
moves it to a new workflow.

* `Place`: the directory of the workflows, and the name of the temporary directory;
* `TarMember`, `safeMember`, `extractMember`: the members of the archive;
* `Payload`, `localPath`, `copyAxiom`, `writeFiles`: the definition in the archive and what is made of it;
* `publish`, `importBundle`: the new workflow.
-/

namespace Slurmy
namespace Portable

open Disk Attempt

abbrev Bytes := List UInt8

/-- The tree, with its paths as components from the root. -/
abbrev Files := Tree Text UInt8

/-- The errors of `import_bundle`; `os` is that of an operation of the file system. -/
inductive Failure
  | invalidName
  | existing
  | unsafeMember
  | notPortable
  | duplicate
  | tooLarge
  | definitionTooLarge
  | unsupported
  | noPairs
  | invalidResource
  | missingInput
  | invalidAxiom
  | definition
  | tar
  | os
  deriving DecidableEq

/-- `USER_RUNS`, and the random part of the temporary directory's name. -/
structure Place where
  runs : PosixPath
  runs_absolute : runs.slashes ≠ 0
  runs_valid : runs.Valid
  runs_normal : runs.Normal
  random : Text
  random_noSlash : '/' ∉ random

variable (place : Place)

/-- The path of a component below a directory. -/
def child (base : PosixPath) (name : Text) : PosixPath := base.join ⟨0, [name]⟩

def Place.staging : PosixPath := child place.runs (".import-".toList ++ place.random)

/-- `USER_RUNS / name`. -/
def Place.destination (name : Text) : PosixPath := child place.runs name

/-- The components of a path without `..`. -/
def key (p : PosixPath) : List Text := p.normalize.parts

/-- The directory that a path is in. -/
def parent (p : PosixPath) : PosixPath := ⟨p.slashes, p.parts.dropLast⟩

/-- `[a-z0-9][a-z0-9-]*`. -/
def isWorkflowName (name : Text) : Bool :=
  (name.head?.any fun c => c.isLower || c.isDigit) && name.all fun c => c.isLower || c.isDigit || c == '-'

/-! ### The members -/

inductive Kind
  | file
  | dir
  | other
  deriving DecidableEq

/-- A member as the reader of the archive presents it. -/
structure TarMember where
  name : Text
  kind : Kind
  size : ℕ
  mode : ℕ
  content : Bytes

/-- `safe_member`. -/
def safeMember (m : TarMember) : EStateM Failure (World Text UInt8) PosixPath := do
  let path := PosixPath.parse m.name
  require (path.isAbsolute = false ∧ ['.', '.'] ∉ path.parts ∧ '\\' ∉ m.name ∧ path.parts ≠ [] ∧ m.kind ≠ .other)
    .unsafeMember
  return path

/-- `30 * 1024**3`. -/
def maxExpanded : ℕ := 30 * 1024 ^ 3

def assets : Text := "assets".toList

def definitionName : Text := "workflow.json".toList

/-- The directory or the file of a member. -/
def writeMember (target : PosixPath) (m : TarMember) : EStateM Failure (World Text UInt8) Unit :=
  if m.kind = .dir then perform .os (.mkdirs (key target))
  else do
    perform .os (.mkdirs (key (parent target)))
    perform .os (.create (key target) m.content)
    perform .os (.chmod (key target) (m.mode % 512))

/-- One member, with the bytes and the paths before it. -/
def extractMember (total : ℕ) (seen : List PosixPath) (m : TarMember) :
    EStateM Failure (World Text UInt8) (ℕ × List PosixPath) := do
  let relative ← safeMember m
  require (relative.parts.head? = some assets ∨ relative.parts = [definitionName]) .notPortable
  require (relative ∉ seen) .duplicate
  require (total + m.size ≤ maxExpanded) .tooLarge
  require (relative.parts = [definitionName] → m.size ≤ 128 * 1024 ^ 2) .definitionTooLarge
  writeMember (place.staging.join relative) m
  return (total + m.size, relative :: seen)

/-- All members; the reader may fail after them. -/
def extractMembers (readerFails : Bool) : ℕ → List PosixPath → List TarMember →
    EStateM Failure (World Text UInt8) Unit
  | _, _, [] => require (readerFails = false) .tar
  | total, seen, m :: ms => do
      let (total, seen) ← extractMember place total seen m
      extractMembers readerFails total seen ms

/-! ### The definition -/

/-- The texts of the new workflow's files. -/
structure Texts where
  jobpairs : Bytes
  building : Bytes
  limiter : Bytes
  validationPairs : Bytes
  validationBuilds : Bytes
  axiomGlobs : Option Bytes
  makefile : Bytes
  data : Bytes

/-- `workflow.json`: the paths that have to be in the archive (of builds, shared roots and rows), the axioms,
whether the commands and the limiter can be relocated, and the texts that are made of all this with the
axiom files, `none` for an error. -/
structure Payload where
  isFormat : Bool
  rows : ℕ
  inputs : List Text
  relocates : Bool
  axioms : List (Text × Text)
  texts : List (List Text) → Option Texts

/-- What `import_bundle` asks of libraries: `json.loads`, and the checks `read_pairs` and `read_builds`. -/
structure Reader where
  loads : Bytes → Option Payload
  valid : Files → Bool

variable (reader : Reader)

/-- The path of an input below the temporary directory. -/
def inputPath (value : Text) : PosixPath :=
  (child place.staging assets).join (PosixPath.parse (value.dropWhile (· = '/')))

/-- `local`, up to the path that it returns. -/
def localPath (value : Text) : EStateM Failure (World Text UInt8) Unit := do
  require (value.head? = some '/' ∧ ['.', '.'] ∉ (PosixPath.parse value).parts) .invalidResource
  let t ← observe .os
  require ((Dict.get t (key (inputPath place value))).isSome = true) .missingInput

def axiomRoot : PosixPath := child (child place.staging "portable-tptp".toList) "Axioms".toList

/-- One axiom, from the archive to the place of its includes. -/
def copyAxiom (item : Text × Text) : EStateM Failure (World Text UInt8) Unit := do
  let relative := PosixPath.parse item.2
  require (relative.isAbsolute = false ∧ ['.', '.'] ∉ relative.parts) .invalidAxiom
  localPath place item.1
  let target := (axiomRoot place).join (PosixPath.parse relative.str)
  perform .os (.mkdirs (key (parent target)))
  perform .os (.copyFile (key (inputPath place item.1)) (key target))

/-- The files below the axioms. -/
def axiomFiles (t : Files) : List (List Text) :=
  (t.filter fun entry => key (axiomRoot place) <+: entry.1 && !entry.2.isDir).map Prod.fst

def writeFile (name : Text) (content : Bytes) : EStateM Failure (World Text UInt8) Unit :=
  perform .os (.write (key (child place.staging name)) content)

def unlinkFile (name : Text) : EStateM Failure (World Text UInt8) Unit :=
  perform .os (.unlink (key (child place.staging name)))

/-- The files of the new workflow, and the check of its pairs and builds. -/
def writeFiles (texts : Texts) : EStateM Failure (World Text UInt8) Unit := do
  writeFile place "jobpairs.csv".toList texts.jobpairs
  writeFile place "building.txt".toList texts.building
  writeFile place "resource_limiter_template.txt".toList texts.limiter
  writeFile place ".validate-pairs.csv".toList texts.validationPairs
  writeFile place ".validate-builds.json".toList texts.validationBuilds
  let t ← observe .os
  require (reader.valid t = true) .definition
  unlinkFile place ".validate-pairs.csv".toList
  unlinkFile place ".validate-builds.json".toList
  texts.axiomGlobs.toList.forM (writeFile place "axiom-globs.txt".toList)
  writeFile place "Makefile".toList texts.makefile
  writeFile place ".slurmy-workflow.json".toList texts.data
  unlinkFile place definitionName

/-- `json.loads` of `workflow.json`. -/
def loadDefinition (t : Files) : EStateM Failure (World Text UInt8) Payload :=
  match Dict.get t (key (child place.staging definitionName)) with
  | some (.file _ content) =>
      match reader.loads content with
      | some payload => pure payload
      | none => throw .definition
  | _ => throw .os

/-- The texts, from the definition and the axiom files. -/
def writeTexts (payload : Payload) (t : Files) : EStateM Failure (World Text UInt8) Unit :=
  match payload.texts (axiomFiles place t) with
  | some texts => writeFiles place reader texts
  | none => throw .definition

/-- What is done with the definition. -/
def prepare (payload : Payload) : EStateM Failure (World Text UInt8) Unit := do
  require (payload.isFormat = true) .unsupported
  require (payload.rows ≠ 0) .noPairs
  payload.inputs.forM (localPath place)
  require (payload.relocates = true) .definition
  payload.axioms.forM (copyAxiom place)
  let t ← observe .os
  writeTexts place reader payload t

/-! ### The new workflow -/

/-- The names in the temporary directory. -/
def children (t : Files) : List Text :=
  t.filterMap fun entry =>
    if entry.1.dropLast = key place.staging then entry.1.getLast? else none

/-- The move of everything to the destination, which is removed again when that fails. -/
def publish (name : Text) : EStateM Failure (World Text UInt8) Unit := do
  let destination := place.destination name
  perform .os (.mkdir (key destination))
  claim (key destination)
  onError (perform .os (.rmtree (key destination))) do
    let t ← observe .os
    (children place t).forM fun entry =>
      perform .os (.rename (key place.staging ++ [entry]) (key destination ++ [entry]))

/-- What happens in the temporary directory. -/
def importStaged (members : List TarMember) (readerFails : Bool) (name : Text) :
    EStateM Failure (World Text UInt8) ℕ := do
  extractMembers place readerFails 0 [] members
  let t ← observe .os
  let payload ← loadDefinition place reader t
  prepare place reader payload
  publish place name
  return payload.rows

/-- The temporary directory, in which the import works. -/
def importNamed (members : List TarMember) (readerFails : Bool) (name : Text) :
    EStateM Failure (World Text UInt8) ℕ := do
  let t ← observe .os
  require (Dict.get t (key (place.destination name)) = none) .existing
  perform .os (.mkdirs (key place.runs))
  perform .os (.mkdir (key place.staging))
  claim (key place.staging)
  ensure (perform .os (.rmtree (key place.staging))) (importStaged place reader members readerFails name)

/-- `import_bundle`. -/
def importBundle (members : List TarMember) (readerFails : Bool) (name : Text) :
    EStateM Failure (World Text UInt8) (PosixPath × ℕ) := do
  require (isWorkflowName name = true) .invalidName
  let rows ← importNamed place reader members readerFails name
  return (place.destination name, rows)

end Portable
end Slurmy
