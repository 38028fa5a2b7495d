import Slurmy.Lib.DiskAlone
import Slurmy.Lib.JsonList
import Slurmy.Lib.Machine
import Slurmy.Lib.PosixPath

/-!
# The archive cache

`_archive_files` unpacks an archive below a temporary directory, renames it to the directory of the archive in
the cache, and trusts the files `.complete` and `.members.json` in it from then on.

* `safeName`, `members`: the accepted members of an archive;
* `Store`, `Pc`, `attempt`: the calls, one file operation after the other, where each may break off;
* `State`, `Event`, `step`: calls side by side, and deletions;
* `resolve_target`: the members are unpacked below the directory.
-/

namespace Slurmy
namespace Archives

open Disk (Op)

abbrev Name := List Char

/-- The components of an absolute path. -/
abbrev Path := List Name

abbrev Bytes := List UInt8

abbrev Tree := Disk.Tree Name UInt8

/-- The path that the system finds under an absolute path without links. -/
def resolve (p : PosixPath) : Path := p.normalize.parts

/-! ### Members -/

inductive Label
  | problem
  | axioms
  deriving DecidableEq

/-- `PROBLEM_SUFFIXES` and `AXIOM_SUFFIXES`. -/
def Label.suffixes : Label → List Name
  | .problem => [".p".toList, ".tptp".toList]
  | .axioms => [".ax".toList, ".p".toList, ".tptp".toList]

/-- `_safe_name`. No character but an ASCII letter has the lower case of one of the suffixes. -/
def safeName (label : Label) (value : Name) : Option PosixPath :=
  let path := PosixPath.parse value
  if path.isAbsolute ∨ path.parts = [] ∨ ∃ part ∈ path.parts, part ∈ [[], ['.'], ['.', '.']] then none
  else if ∃ suffix ∈ label.suffixes, suffix <:+ path.name.map Char.toLower then some path
  else none

/-- An entry of the directory of a ZIP archive. -/
structure ZipInfo where
  filename : Name
  externalAttr : ℕ
  content : Bytes

/-- `is_dir`. -/
def ZipInfo.isDir (m : ZipInfo) : Bool := m.filename.getLast? = some '/'

/-- `stat.S_ISLNK` of the mode. -/
def ZipInfo.isLink (m : ZipInfo) : Bool := (m.externalAttr >>> 16) &&& 0xF000 = 0xA000

inductive TarType
  | regular
  | contiguous
  | sparse
  | hardLink
  | symbolicLink
  | directory
  | other
  deriving DecidableEq

structure TarInfo where
  name : Name
  type : TarType
  content : Bytes

/-- `isfile`. -/
def TarInfo.isFile (m : TarInfo) : Bool := m.type ∈ [.regular, .contiguous, .sparse]

inductive Archive
  | zip (infos : List ZipInfo)
  | tar (infos : List TarInfo)
  | unsupported

/-- A member that `_members` yields. -/
structure Member where
  name : PosixPath
  content : Bytes
  deriving DecidableEq

/-- `_members`, `none` when it raises. -/
def Archive.members (label : Label) : Archive → Option (List Member)
  | .zip infos => some (infos.filterMap fun m =>
      match safeName label m.filename with
      | some name => if ¬ m.isDir ∧ ¬ m.isLink then some ⟨name, m.content⟩ else none
      | none => none)
  | .tar infos => some (infos.filterMap fun m =>
      match safeName label m.name with
      | some name => if m.isFile then some ⟨name, m.content⟩ else none
      | none => none)
  | .unsupported => none

/-! ### The cache -/

/-- The cache, and archives with the digests of their identities. -/
structure Store (ι : Type) where
  cache : Path
  cache_normal : ['.', '.'] ∉ cache
  label : ι → Label
  archive : ι → Archive
  key : ι → Name
  key_injective : Function.Injective key
  /-- A digest has hexadecimal digits. -/
  key_visible : ∀ i, (key i).head?.any (· ≠ '.') = true

variable {ι : Type} (S : Store ι) (i : ι)

def Store.members : Option (List Member) := (S.archive i).members (S.label i)

def Store.destination : PosixPath := ⟨1, S.cache ++ [S.key i]⟩

def temporaryName (r : Name) : Name := ".extract-".toList ++ r

/-- `mkdtemp`, with its random part. -/
def Store.temporary (r : Name) : PosixPath := ⟨1, S.cache ++ [temporaryName r]⟩

def completeName : PosixPath := ⟨0, [".complete".toList]⟩

def indexName : PosixPath := ⟨0, [".members.json".toList]⟩

/-- A file in the entry of the archive. -/
def Store.entry (name : PosixPath) : Path := resolve ((S.destination i).join name)

/-- A file in a temporary directory. -/
def Store.draft (r : Name) (name : PosixPath) : Path := resolve ((S.temporary r).join name)

/-- The paths that are returned. -/
def Store.listing (ms : List Member) : List PosixPath := ms.map fun m => (S.destination i).join m.name

def isFile (t : Tree) (p : Path) : Bool := (t.bytesAt p).isSome

def Store.isComplete (t : Tree) : Bool := isFile t (S.entry i completeName)

def points (name : PosixPath) : List ℕ := name.str.map Char.toNat

/-- The text of `.members.json`. -/
def indexText (ms : List Member) : Bytes := JsonList.dumps (ms.map fun m => points m.name)

/-- The completed entry, if it is there and has all the files of its index. -/
def Store.cached (t : Tree) : Option (List PosixPath) :=
  if S.isComplete i t ∧ isFile t (S.entry i indexName) then
    match (t.bytesAt (S.entry i indexName)).bind JsonList.loads with
    | some items =>
        let names := items.map fun item => item.map Char.ofNat
        if names ≠ [] ∧ ∀ name ∈ names, (safeName (S.label i) name).isSome ∧
            isFile t (S.entry i (PosixPath.parse name)) then
          some (names.map fun name => (S.destination i).join (PosixPath.parse name))
        else none
    | none => none
  else none

/-! ### Calls -/

/-- What a call does next; `r` is the name of its temporary directory. -/
inductive Pc
  | look
  | scan
  | check
  | makeCache
  | makeTemp
  | folder (r : Name) (todo : List Member)
  | file (r : Name) (m : Member) (todo : List Member)
  | index (r : Name)
  | arrive (r : Name)
  | place (r : Name)
  | announce (r : Name)
  | discard (r : Name)
  | cleanup (r : Name)
  | reindex
  | refill (k : ℕ)
  | finished (result : Option (List PosixPath))
  deriving DecidableEq

def Pc.temp : Pc → Option Name
  | .folder r _ | .file r _ _ | .index r | .arrive r | .place r | .announce r | .discard r | .cleanup r => some r
  | _ => none

/-- How a step goes: whether it breaks off and how much of it is done then, the name that `mkdtemp` takes, and
how much a write writes. -/
structure Choice where
  fault : Option ℕ
  name : Name
  size : ℕ

/-- A file operation, and where the call goes on. -/
def attempt (t : Tree) (op : Op Name UInt8) (fault : Option ℕ) (ok error : Pc) : Tree × Pc :=
  match fault with
  | some n => (op.torn n t, error)
  | none =>
      match op.apply t with
      | some u => (u, ok)
      | none => (t, error)

/-- A step without a file operation. -/
def decideNext (t : Tree) (fault : Option ℕ) (ok error : Pc) : Tree × Pc := (t, if fault.isSome then error else ok)

/-- An empty directory does not stop a `rename`. -/
def emptied (t : Tree) (p : Path) : Tree :=
  if Dict.get t p = some .dir ∧ ∀ entry ∈ t, p <+: entry.1 → entry.1 = p then t.cut p else t

/-- Bytes are written at a position of a file; they go nowhere when it has been deleted. -/
def overwrite (t : Tree) (p : Path) (k : ℕ) (bytes : Bytes) : Tree :=
  match Dict.get t p with
  | some (.file mode content) =>
      Dict.put t p (.file mode ((content ++ List.replicate (k - content.length) 0).take k ++ bytes ++
        content.drop (k + bytes.length)))
  | _ => t

/-- One step of `_archive_files` with `materialize`. -/
def Store.advance (t : Tree) (c : Choice) : Pc → Tree × Pc
  | .look =>
      decideNext t c.fault
        (match S.cached i t with
          | some paths => .finished (some paths)
          | none => .scan)
        (.finished none)
  | .scan =>
      decideNext t c.fault
        (match S.members i with
          | some ms => if ms = [] ∨ ¬ (ms.map Member.name).Nodup then .finished none else .check
          | none => .finished none)
        (.finished none)
  | .check =>
      decideNext t c.fault
        (if ¬ S.isComplete i t then .makeCache
        else if ¬ isFile t (S.entry i indexName) then .reindex
        else .finished (some (S.listing i ((S.members i).getD []))))
        (.finished none)
  | .makeCache => attempt t (.mkdirs S.cache) c.fault .makeTemp (.finished none)
  | .makeTemp =>
      attempt t (.mkdir (resolve (S.temporary c.name))) c.fault (.folder c.name ((S.members i).getD []))
        (.finished none)
  | .folder r [] => attempt t (.write (S.draft r completeName) []) c.fault (.index r) (.cleanup r)
  | .folder r (m :: todo) =>
      attempt t (.mkdirs (S.draft r m.name).dropLast) c.fault (.file r m todo) (.cleanup r)
  | .file r m todo => attempt t (.write (S.draft r m.name) m.content) c.fault (.folder r todo) (.cleanup r)
  | .index r =>
      attempt t (.write (S.draft r indexName) (indexText ((S.members i).getD []))) c.fault (.arrive r) (.cleanup r)
  | .arrive r =>
      decideNext t c.fault
        (if (Dict.get t (resolve (S.destination i))).isSome then
          if S.isComplete i t then .discard r else .cleanup r
        else .place r)
        (.cleanup r)
  | .place r =>
      match c.fault, (Op.rename (resolve (S.temporary r)) (resolve (S.destination i))).apply
          (emptied t (resolve (S.destination i))) with
      | none, some u => (u, .announce r)
      | _, _ => (t, .cleanup r)
  | .announce r => decideNext t c.fault (.finished (some (S.listing i ((S.members i).getD [])))) (.cleanup r)
  | .discard r => attempt t (.rmtree (resolve (S.temporary r))) c.fault (.announce r) (.cleanup r)
  -- the exception is raised again, or the one of `rmtree` when the directory is gone
  | .cleanup r => attempt t (.rmtree (resolve (S.temporary r))) c.fault (.finished none) (.finished none)
  -- `write_text` empties the file first
  | .reindex => attempt t (.write (S.entry i indexName) []) c.fault (.refill 0) (.finished none)
  | .refill k =>
      let text := indexText ((S.members i).getD [])
      if text.length ≤ k then decideNext t c.fault (.finished (some (S.listing i ((S.members i).getD [])))) (.finished none)
      else
        let bytes := (text.drop k).take c.size
        let u := overwrite t (S.entry i indexName) k bytes
        decideNext u c.fault (.refill (k + bytes.length)) (.finished none)
  | .finished result => (t, .finished result)

/-- A call, and whether it has renamed its directory to the entry. -/
structure Call (ι : Type) where
  archive : ι
  pc : Pc
  placed : Bool

structure State (ι : Type) where
  tree : Tree
  calls : List (Call ι)

inductive Event (ι : Type)
  | start (i : ι)
  | act (n : ℕ) (c : Choice)
  | delete (p : Path)

def Call.next (call : Call ι) (t : Tree) (c : Choice) : Tree × Call ι :=
  let r := S.advance call.archive t c call.pc
  (r.1, { call with
    pc := r.2
    placed := call.placed || (match call.pc, r.2 with
      | .place _, .announce _ => true
      | _, _ => false) })

/-- One call at a time goes on; a stopped one never does. The temporary names of running calls are different. -/
def step (s : State ι) : Event ι → Option (State ι)
  | .start i => some { s with calls := s.calls ++ [⟨i, .look, false⟩] }
  | .act n c =>
      match s.calls[n]? with
      | none => none
      | some call =>
          if call.pc = .makeTemp ∧ ∃ other ∈ s.calls, other.pc.temp = some c.name then none
          else some ⟨(call.next S s.tree c).1, s.calls.set n (call.next S s.tree c).2⟩
  | .delete p => if p = [] then none else some { s with tree := s.tree.cut p }

end Archives
end Slurmy
