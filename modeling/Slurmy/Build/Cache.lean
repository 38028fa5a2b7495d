import Slurmy.Lib.Folder
import Slurmy.Lib.Machine
import Slurmy.Text

/-!
# The build cache

`cached_build` of `slurmy-build.py` builds a resource on the cluster unless a receipt says that the
inputs and the outputs are those of the last successful build.

* `Node`, `Files`: the local files;
* `tree_fingerprint`, `Inputs`, `input_fingerprint`: what is hashed;
* `Args`, `Pc`, `State`, `Event`, `State.step`: the runs of `cached_build` in one runtime root, which
  hold its lock one after the other, with the steps of `execute_build` and whatever else writes to the
  local files in between;
* `reuses`: the decision to reuse.

SHA-256 is taken to be injective: a digest is the text it is the digest of.  One fingerprint, and the
copy of the recipe or of the source, reads the files at one moment.
-/

namespace Slurmy
namespace Build

/-! ### Files -/

abbrev Path := List Text

/-- What `lstat` finds, with `st_mode`. -/
inductive Node
  | dir (mode : ℕ)
  | file (mode : ℕ) (contents : Text)
  | link (mode : ℕ)
  | special (mode : ℕ)
  deriving DecidableEq

def Node.mode : Node → ℕ
  | .dir mode | .file mode _ | .link mode | .special mode => mode

abbrev Files := NumberedFiles.Dir Path Node

/-- Entries of a tree, under their relative paths. -/
abbrev Entries := List (Path × Node)

/-- `CACHE_FILES`. -/
def cacheFiles : List Text :=
  [".slurmy-build-cache.json".toList, ".slurmy-build-cache.lock".toList]

/-- `path.name in CACHE_FILES`. -/
def isCacheFile (p : Path) : Bool := p.getLast?.any (cacheFiles.contains ·)

/-- The contents of a regular file. -/
def contents (files : Files) (p : Path) : Option Text :=
  match files.lookup p with
  | some (.file _ text) => some text
  | _ => none

/-- The file that becomes the receipt. -/
def temporaryName : Text := ".slurmy-build-cache.tmp".toList

/-- The directory `p` and its parents exist afterwards. -/
def mkdirs (files : Files) (p : Path) : Files :=
  p.inits.foldl (fun files q =>
    if (files.lookup q).isSome then files else files.insert q (.dir 16877)) files

/-! ### Texts that are hashed -/

/-- `\uXXXX`. -/
def jsonEscape (n : ℕ) : Text := "\\u".toList ++ (Nat.toDigits 16 n).leftpad 4 '0'

def jsonChar (c : Char) : Text :=
  if c = '"' then "\\\"".toList
  else if c = '\\' then "\\\\".toList
  else if c = '\n' then "\\n".toList
  else if c = '\r' then "\\r".toList
  else if c = '\t' then "\\t".toList
  else if c.toNat = 8 then "\\b".toList
  else if c.toNat = 12 then "\\f".toList
  else if 32 ≤ c.toNat ∧ c.toNat ≤ 126 then [c]
  else if c.toNat < 65536 then jsonEscape c.toNat
  else
    -- a surrogate pair
    jsonEscape (55296 + (c.toNat - 65536) / 1024) ++ jsonEscape (56320 + (c.toNat - 65536) % 1024)

/-- `json.dumps` of a string. -/
def jsonString (t : Text) : Text := '"' :: (t.flatMap jsonChar ++ ['"'])

/-- `json.dumps` of a list whose members are dumped already. -/
def jsonList (ts : List Text) : Text := '[' :: (", ".toList.intercalate ts ++ [']'])

/-- `json.dumps` of a dictionary whose values are dumped already. -/
def jsonObject (items : List (Text × Text)) : Text :=
  '{' :: (", ".toList.intercalate (items.map fun i => jsonString i.1 ++ ": ".toList ++ i.2) ++ ['}'])

/-- `as_posix` of a relative path. -/
def posix (p : Path) : Text := ['/'].intercalate p

/-- `str` of an absolute path. -/
def absolute (p : Path) : Text := '/' :: posix p

/-- `read_text` turns every line end into `\n`. -/
def readText : Text → Text
  | [] => []
  | '\r' :: '\n' :: t => '\n' :: readText t
  | '\r' :: t => '\n' :: readText t
  | c :: t => c :: readText t

/-- What `tree_fingerprint` adds to the digest for an entry, unless it raises an exception. -/
def entryFingerprint (e : Path × Node) : Option Text :=
  let header := jsonList [jsonString (posix e.1), decimal e.2.mode]
  match e.2 with
  | .link _ => none
  | .file _ contents => some (header ++ contents)
  | .dir _ => some header
  | .special _ => none

/-- What `tree_fingerprint` goes through. -/
def entries (files : Files) (root : Path) : Entries :=
  Folder.rglob (fun r => !isCacheFile r) files root

/-- `tree_fingerprint`; `none` is an exception. -/
def treeFingerprint (es : Entries) : Option Text :=
  (es.mapM entryFingerprint).map List.flatten

/-! ### Inputs -/

/-- The command line, without the name, the interval and the policy.  An absent `--artifact` is an
empty list. -/
structure Args where
  host : Text
  recipe : Path
  context : Option Path
  output : Path
  artifact : List Path
  inPlace : Bool
  cpusPerTask : ℕ
  memory : Text
  time : Text
  sbatchOption : List Text
  deriving DecidableEq

/-- What a build depends on: the arguments, the recipe, the source tree and the driver. -/
structure Inputs where
  args : Args
  recipe : Text
  source : Option Entries
  driver : Text
  deriving DecidableEq

def Inputs.settings (i : Inputs) (source : Text) : Text :=
  let a := i.args
  jsonObject [
    ("artifact".toList,
      if a.artifact = [] then "null".toList else jsonList (a.artifact.map (jsonString ∘ posix))),
    ("context".toList, (a.context.map (jsonString ∘ absolute)).getD "null".toList),
    ("cpus_per_task".toList, decimal a.cpusPerTask),
    ("driver_contents".toList, jsonString (readText i.driver)),
    ("host".toList, jsonString a.host),
    ("in_place".toList, if a.inPlace then "true".toList else "false".toList),
    ("memory".toList, jsonString a.memory),
    ("output".toList, jsonString (absolute a.output)),
    ("recipe".toList, jsonString (absolute a.recipe)),
    ("recipe_contents".toList, jsonString (readText i.recipe)),
    ("sbatch_option".toList, jsonList (a.sbatchOption.map jsonString)),
    ("source_contents".toList, source),
    ("time".toList, jsonString a.time)]

/-- The text that `input_fingerprint` hashes; `none` is an exception. -/
def Inputs.fingerprint (i : Inputs) : Option Text :=
  match i.source with
  | none => some (i.settings "null".toList)
  | some es => (treeFingerprint es).map fun digest => i.settings (jsonString digest)

/-- The inputs that are there; `none` when the recipe cannot be read. -/
def inputs (driver : Text) (files : Files) (a : Args) : Option Inputs :=
  (contents files a.recipe).map fun text => ⟨a, text, a.context.map (entries files), driver⟩

/-- `input_fingerprint`; `none` is an exception. -/
def inputFingerprint (driver : Text) (files : Files) (a : Args) : Option Text :=
  (inputs driver files a).bind Inputs.fingerprint

/-- What `make_context_archive` adds. -/
def archived (files : Files) (context : Path) : Entries :=
  Folder.rglob (fun r => !r.any (cacheFiles.contains ·)) files context

/-! ### The runs -/

inductive Policy
  | always
  | changed
  deriving DecidableEq

/-- `.slurmy-build-cache.json`. -/
structure Receipt where
  inputs : Text
  outputs : Text
  deriving DecidableEq

/-- `json.dumps(record)`. -/
def Receipt.dumps (r : Receipt) : Text :=
  jsonObject [("inputs".toList, jsonString r.inputs), ("outputs".toList, jsonString r.outputs)]

def Receipt.node (r : Receipt) : Node := .file 33188 r.dumps

/-- The places in `cached_build` and `execute_build`, each named for what happens next.  `initial` is
`_initial_fingerprint`, and `unchanged` is `_inputs_unchanged`. -/
inductive Pc
  /-- `before = input_fingerprint(args)` -/
  | fingerprint
  /-- the receipt and the outputs are compared -/
  | decide (initial : Option Text)
  /-- `cache.unlink(missing_ok=True)` -/
  | unlink (initial : Option Text)
  /-- the tests of the recipe and the artifacts, and `shutil.copy2` -/
  | copyRecipe (initial : Option Text)
  /-- `make_context_archive` -/
  | archive (initial : Option Text) (recipe : Text)
  /-- the job on the cluster; what was copied is there -/
  | remote (initial : Option Text) (staged : Inputs)
  /-- the comparison before the download -/
  | check (initial : Option Text) (staged : Inputs) (result : Entries)
  /-- `rsync`; the entries of `rest` are still to come -/
  | download (unchanged : Bool) (staged : Inputs) (result rest : Entries)
  /-- the test of the downloaded artifacts -/
  | verify (unchanged : Bool) (staged : Inputs) (result : Entries)
  /-- `input_fingerprint(args)` for the receipt -/
  | recordInputs
  /-- `tree_fingerprint(output)` for the receipt -/
  | recordOutputs (inputs : Text)
  /-- `temporary.write_text` -/
  | write (receipt : Receipt)
  /-- `temporary.replace(cache)` -/
  | replace (receipt : Receipt)
  deriving DecidableEq

structure Run where
  args : Args
  policy : Policy
  pc : Pc
  deriving DecidableEq

/-- The local files, the receipt in the runtime root, and the run that holds the lock there. -/
structure State where
  files : Files
  receipt : Option Receipt
  active : Option Run

/-- The first run is still to come. -/
def State.initial (files : Files) : State := ⟨files, none, none⟩

inductive Event
  /-- a run gets the lock -/
  | start (args : Args) (policy : Policy)
  /-- the next step of the run -/
  | next
  /-- the job on the cluster has completed, with this tree in its output folder -/
  | built (result : Entries)
  /-- the run fails, or it is killed -/
  | stop
  /-- anybody else writes to the local files: the user, a run in another runtime root, or the `rsync`
  of a run that was killed -/
  | edit (files : Files)
  /-- the receipt is deleted -/
  | forget

/-- The receipt, when the outputs are compared with it. -/
def candidate (s : State) (r : Run) (initial : Option Text) : Option Receipt :=
  match initial, s.receipt with
  | some initial, some receipt =>
      if r.policy = .changed ∧
          (∀ x ∈ r.args.artifact, (contents s.files (r.args.output ++ x)).isSome) ∧
          receipt.inputs = initial then
        some receipt
      else none
  | _, _ => none

/-- `cached_build` reuses the outputs. -/
def reuses (s : State) (r : Run) (initial : Option Text) : Bool :=
  match candidate s r initial with
  | none => false
  | some receipt => treeFingerprint (entries s.files r.args.output) == some receipt.outputs

/-- The artifacts are there after the download. -/
def arrived (files : Files) (a : Args) : Bool :=
  a.artifact.all fun x => (files.lookup (a.output ++ x)).isSome

/-- The next step of the run `r`. -/
def State.advance (driver : Text) (s : State) (r : Run) : Option State :=
  let go (s : State) (pc : Pc) : Option State := some { s with active := some { r with pc := pc } }
  let done (s : State) : Option State := some { s with active := none }
  let a := r.args
  match r.pc with
  | .fingerprint => go s (.decide (inputFingerprint driver s.files a))
  | .decide initial => if reuses s r initial then done s else go s (.unlink initial)
  | .unlink initial => go { s with receipt := none } (.copyRecipe initial)
  | .copyRecipe initial =>
      match contents s.files a.recipe with
      | some text => if a.artifact = [] then done s else go s (.archive initial text)
      | none => done s
  | .archive initial recipe =>
      match a.context with
      | none => go s (.remote initial ⟨a, recipe, none, driver⟩)
      | some context =>
          match s.files.lookup context with
          | some (.dir _) =>
              go s (.remote initial ⟨a, recipe, some (archived s.files context), driver⟩)
          | _ => done s
  | .remote .. => none
  | .check initial staged result =>
      let s := { s with files := mkdirs s.files a.output }
      let unchanged := initial.isSome && inputFingerprint driver s.files a == initial
      go s (.download unchanged staged result result)
  | .download unchanged staged result [] => go s (.verify unchanged staged result)
  | .download unchanged staged result (e :: rest) =>
      go { s with files := s.files.insert (a.output ++ e.1) e.2 }
        (.download unchanged staged result rest)
  | .verify unchanged _ _ =>
      if arrived s.files a && unchanged then go s .recordInputs else done s
  | .recordInputs =>
      match inputFingerprint driver s.files a with
      | none => done s
      | some digest => go s (.recordOutputs digest)
  | .recordOutputs digest =>
      match treeFingerprint (entries s.files a.output) with
      | none => done s
      | some outputs => go s (.write ⟨digest, outputs⟩)
  | .write receipt =>
      go { s with files := s.files.insert (a.output ++ [temporaryName]) receipt.node }
        (.replace receipt)
  | .replace receipt =>
      if s.files.lookup (a.output ++ [temporaryName]) = some receipt.node then
        done { s with
          files := s.files.erase (a.output ++ [temporaryName])
          receipt := some receipt }
      else done s

/-- The steps in the runtime root `root`.  The generated job script tests the artifacts, and a recipe
writes no file with one of the names of `CACHE_FILES`. -/
def State.step (driver : Text) (root : Path) (s : State) : Event → Option State
  | .start args policy =>
      if args.output = root ∧ s.active = none then
        some { s with files := mkdirs s.files root, active := some ⟨args, policy, .fingerprint⟩ }
      else none
  | .next =>
      match s.active with
      | none => none
      | some r => s.advance driver r
  | .built result =>
      match s.active with
      | some ⟨args, policy, .remote initial staged⟩ =>
          if (result.map Prod.fst).Nodup ∧ (∀ e ∈ result, e.1 ≠ [] ∧ isCacheFile e.1 = false) ∧
              ∀ x ∈ args.artifact, x ∈ result.map Prod.fst then
            some { s with active := some ⟨args, policy, .check initial staged result⟩ }
          else none
      | _ => none
  | .stop => if s.active = none then none else some { s with active := none }
  | .edit files => some { s with files := files }
  | .forget => some { s with receipt := none }

end Build
end Slurmy
