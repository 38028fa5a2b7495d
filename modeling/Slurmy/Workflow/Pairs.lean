import Slurmy.Lib.CsvExcel
import Slurmy.Lib.Dict
import Slurmy.Lib.Lines
import Slurmy.Lib.PosixPath
import Slurmy.Lib.StableSort
import Slurmy.Plan.Batches

/-!
# Rows of solver-problem pairs

The tables of configurations and of pairs, and what the web application and `slurmy-pairs.py` share.

* `Cell`, `Row`: a row as a dictionary; `csvText`, `readTable`: tables as text and back;
* `Site`: the file system, the cluster and the libraries around the code; `pathAt`;
* `readPairs`: the checks of `jobpairs.csv`;
* `orderJobpairs`: the three orders of pairs;
* `expandProblemPattern`, `expandClusterTptpMany`: the problems that a pattern selects.
-/

namespace Slurmy
namespace Workflow

open Plan (PairOrder)
open StableSort

/-! ### Rows -/

/-- A JSON value that is neither a text nor `null`: `str(v)`, `bool(v)`, and a number that equal values
share (`none` for lists and objects, which have no hash). -/
structure JsonValue where
  str : Text
  truthy : Bool
  same : Option ℕ
  deriving DecidableEq

/-- A value of a row. A row of a file has texts, and `None` where the record is too short. -/
inductive Cell
  | null
  | text (t : Text)
  | json (v : JsonValue)
  deriving DecidableEq

abbrev Row := List (Text × Cell)

namespace Column

def solverName : Text := "solver_name".toList
def command : Text := "command".toList
def solverDirectory : Text := "solver_directory".toList
def problem : Text := "problem".toList
def wcLimit : Text := "wc_limit".toList
def cpuLimit : Text := "cpu_limit".toList
def memLimit : Text := "mem_limit".toList
def cores : Text := "cores".toList
def threadsPerCore : Text := "threads_per_core".toList
def cpus : Text := "cpus".toList
def exclusiveCpu : Text := "exclusive_cpu".toList
def exclusiveNode : Text := "exclusive_node".toList

end Column

open Column

/-- `COLUMNS`. -/
def columns : List Text :=
  [solverName, command, solverDirectory, problem, wcLimit, cpuLimit, memLimit, cores, threadsPerCore, cpus,
    exclusiveCpu, exclusiveNode]

/-- `COLUMNS` without the problem. -/
def configurationColumns : List Text := columns.filter (· ≠ problem)

/-- What `csv` writes for a value. -/
def Cell.written : Cell → Text
  | .null => []
  | .text t => t
  | .json v => v.str

def Cell.truthy : Cell → Bool
  | .null => false
  | .text t => decide (t ≠ [])
  | .json v => v.truthy

/-- A value as a part of a dictionary key. -/
inductive CellKey
  | null
  | text (t : Text)
  | json (same : ℕ)
  deriving DecidableEq

def Cell.key : Cell → Option CellKey
  | .null => some .null
  | .text t => some (.text t)
  | .json v => v.same.map .json

/-- `row.get(column, '')`. -/
def Row.cell (row : Row) (column : Text) : Cell := (Dict.get row column).getD (.text [])

def Row.written (row : Row) (column : Text) : Text := (row.cell column).written

/-- `str(row.get(column) or default)`. -/
def Row.orText (row : Row) (column default : Text) : Text :=
  if (row.cell column).truthy then row.written column else default

/-- The values under `COLUMNS` without the problem, as the key of a configuration. -/
def Row.key (row : Row) : Option (List CellKey) := configurationColumns.mapM fun c => (row.cell c).key

/-- The fields of a record. -/
def Row.record (names : List Text) (row : Row) : Csv.Record := names.map row.written

/-- The file that a `DictWriter` writes, which refuses unknown keys. -/
def csvText (rows : List Row) (names : List Text) : Option Text :=
  if ∀ row ∈ rows, ∀ entry ∈ row, entry.1 ∈ names then
    some ((names :: rows.map (Row.record names)).flatMap Csv.excelRow)
  else none

/-- Reading with `utf-8-sig` drops a byte order mark. -/
def dropMark : Text → Text
  | [] => []
  | c :: t => if c.toNat = 65279 then t else c :: t

/-- A row of a `DictReader`, `none` for a record that is too long. -/
def dictRow (header record : Csv.Record) : Option Row :=
  if header.length < record.length then none
  else some (header.zip (record.map Cell.text ++ List.replicate (header.length - record.length) .null))

/-- The field names and the rows of a file. -/
def readTable (t : Text) : Option (List Text × List Row) :=
  match Csv.read (dropMark t) with
  | none => none
  | some [] => some ([], [])
  | some (header :: records) =>
      ((records.filter (· ≠ [])).mapM (dictRow header)).map fun rows => (header, rows)

/-! ### Fields -/

/-- ASCII letters in lower case. -/
def lower (t : Text) : Text := t.map Char.toLower

/-- `positive`. -/
def positive (t : Text) : Option ℕ :=
  if isDigits t ∧ t.head? ≠ some '0' then some (number t) else none

/-- `boolean`. -/
def boolean (t : Text) : Option Bool :=
  let value := lower (Lines.strip t)
  if value = [] ∨ value = "false".toList then some false
  else if value = "true".toList then some true
  else none

/-- The factors of `memory_bytes`; a missing unit is `MB`. -/
def memoryUnit (unit : Text) : Option ℕ :=
  if unit = [] ∨ lower unit = "mb".toList then some (10 ^ 6)
  else if lower unit = "mib".toList then some (2 ^ 20)
  else if lower unit = "gb".toList then some (10 ^ 9)
  else if lower unit = "gib".toList then some (2 ^ 30)
  else if lower unit = "tb".toList then some (10 ^ 12)
  else if lower unit = "tib".toList then some (2 ^ 40)
  else none

/-- `memory_bytes`. -/
def memoryBytes (t : Text) : Option ℕ := do
  let digits ← positive (t.takeWhile Char.isDigit)
  let unit ← memoryUnit ((t.dropWhile Char.isDigit).dropWhile Lines.isSpace)
  return digits * unit

/-- A character that a solver name must not contain. -/
def isControl (c : Char) : Bool := decide (c.toNat < 32) || decide (c.toNat = 127)

/-! ### The surroundings -/

/-- What the code asks the machine, the cluster and its libraries. -/
structure Site where
  /-- The directory of the workflows, the repository and the cache of archives. -/
  base : PosixPath
  repo : PosixPath
  cache : PosixPath
  base_absolute : base.slashes ≠ 0
  repo_absolute : repo.slashes ≠ 0
  cache_absolute : cache.slashes ≠ 0
  base_valid : base.Valid
  repo_valid : repo.Valid
  /-- `os.path.expanduser` of a text that starts with a tilde. -/
  userPath : Text → Text
  isDir : Text → Bool
  isFile : Text → Bool
  /-- The decoded contents of a file. -/
  readText : Text → Option Text
  /-- The files that match an absolute pattern. -/
  glob : Text → List PosixPath
  glob_absolute : ∀ pattern, ∀ p ∈ glob pattern, p.slashes ≠ 0
  /-- The problems in an archive: its directory in the cache, and the components of the members. -/
  archive : Text → Option (Text × List (List Text))
  /-- The problem files below `/share/TPTP` on a host, by pattern. -/
  cluster : Text → Option (Text → List Text)
  /-- The sockets and the cores of a socket in a partition, and whether it has so many threads. -/
  topology : Text → Text → Option (ℕ × ℕ)
  supports : Text → Text → ℕ → Bool
  shlexSplit : Text → Option (List Text)
  casefold : Text → Text
  /-- `random.Random(0).shuffle`, as a list of indices. -/
  shuffle : ℕ → List ℕ
  shuffle_perm : ∀ n, (shuffle n).Perm (List.range n)

/-- A directory of the repository. -/
theorem valid_repo : (PosixPath.mk 1 ["repo".toList]).Valid := ⟨by decide, by decide, by decide⟩

theorem perm_range (n : ℕ) : (List.range n).Perm (List.range n) := List.Perm.refl _

variable (site : Site)

/-- `os.path.expanduser`. -/
def expandUser (t : Text) : Text := if t.head? = some '~' then site.userPath t else t

/-- `path_at`. -/
def pathAt (value : Text) (base : PosixPath) : PosixPath :=
  (base.join (PosixPath.parse (expandUser site value))).normalize

/-! ### `read_pairs` -/

/-- A checked pair. -/
structure Pair extends Plan.Configuration where
  problem : Text
  remoteProblem : Bool
  deriving DecidableEq

/-- The columns that `read_pairs` wants. -/
def pairColumns : List Text :=
  columns.filter fun c => c ∉ [solverName, threadsPerCore, exclusiveCpu, exclusiveNode]

/-- A problem of the cluster's TPTP collection. -/
def isClusterProblem (p : PosixPath) : Bool :=
  (("/share/TPTP/".toList.isPrefixOf p.str && decide (5 ≤ p.parts.length) &&
      decide (p.parts.getD 3 [] = "Problems".toList)) ||
    "/share/Slurmy-TPTP-v9.2.1/Problems/".toList.isPrefixOf p.str) && decide (['.', '.'] ∉ p.parts)

/-- The problem of a row, and whether it is on the cluster. -/
def readProblem (value : Text) (dir : PosixPath) : Option (Text × Bool) :=
  if "tptp:".toList.isPrefixOf value then
    let problem := PosixPath.parse (value.drop 5)
    if isClusterProblem problem then some (problem.str, true) else none
  else
    let problem := (pathAt site value dir).str
    if site.isFile problem ∧ value ≠ [] then some (problem, false) else none

/-- The cores of a row; `all` asks the partition. -/
def readCores (host partition : Text) (row : Row) : Option ℕ :=
  if lower (Lines.strip (row.written cores)) = "all".toList then do
    let dedicated ← boolean (row.written exclusiveCpu)
    guard dedicated
    let (sockets, perSocket) ← site.topology host partition
    let whole ← boolean (row.written exclusiveNode)
    return perSocket * if whole then sockets else 1
  else positive (Lines.strip (row.written cores))

/-- The CPUs of a row, 0 for `auto`. -/
def readCpus (row : Row) : Option ℕ :=
  let value := lower (Lines.strip (row.written cpus))
  if value = [] ∨ value = "auto".toList then some 0 else positive (Lines.strip (row.written cpus))

/-- One row of `read_pairs`. -/
def readPair (host partition : Text) (dir : PosixPath) (row : Row) : Option Pair := do
  guard (∀ c ∈ pairColumns, row.cell c ≠ .null)
  let command := Lines.strip (row.written command)
  guard (command ≠ [] ∧ Char.ofNat 0 ∉ command)
  let solverName := Lines.strip (row.written solverName)
  guard (solverName.length ≤ 80 ∧ ¬ solverName.any isControl)
  let problem ← readProblem site (row.written problem) dir
  let solverRoot := (pathAt site (row.written solverDirectory) dir).str
  guard (row.written solverDirectory ≠ [] ∧ site.isDir solverRoot)
  let solver ← (if solverName ≠ [] then some solverName else
    (site.shlexSplit command).bind fun words => words.head?.map fun word => (PosixPath.parse word).name)
  let wcLimit ← positive (Lines.strip (row.written wcLimit))
  let cpuLimit ← positive (Lines.strip (row.written cpuLimit))
  let cores ← readCores site host partition row
  let threadsPerCore ← positive (Lines.strip (row.orText threadsPerCore ['1']))
  let cpus ← readCpus row
  let memLimit ← memoryBytes (Lines.strip (row.written memLimit))
  let exclusiveCpu ← boolean (row.written exclusiveCpu)
  let exclusiveNode ← boolean (row.written exclusiveNode)
  return {
    cores, threadsPerCore, cpus, exclusiveCpu, exclusiveNode, solver, solverRoot, command, wcLimit, cpuLimit,
    memLimit
    problem := problem.1
    remoteProblem := problem.2 }

/-- `read_pairs` of a file in the directory `dir`. -/
def readPairs (host partition : Text) (dir : PosixPath) (t : Text) : Option (List Pair) := do
  let (headers, rows) ← readTable t
  guard (headers.Nodup ∧ pairColumns ⊆ headers ∧ headers ⊆ columns)
  let pairs ← rows.mapM (readPair site host partition dir)
  guard (pairs ≠ [])
  return pairs

/-! ### `order_jobpairs` -/

/-- The orders by their names in `PAIR_ORDERS`. -/
def orderOf (t : Text) : Option PairOrder :=
  if t = "problem-major".toList then some .problemMajor
  else if t = "solver-major".toList then some .solverMajor
  else if t = "random".toList then some .random
  else none

/-- `order_jobpairs`; keys without a hash are an error. By problem, a row without a problem text raises an error in
Python, and here it is put where an empty problem belongs; rows that have been read have one. -/
def orderJobpairs (rows : List Row) : PairOrder → Option (List Row)
  | .problemMajor => some (sortBy (fun row => row.written problem) rows)
  | .solverMajor =>
      if ∀ row ∈ rows, row.key.isSome then some (sortBy (fun row => position (rows.map Row.key) row.key) rows)
      else none
  | .random => some ((site.shuffle rows.length).filterMap fun i => rows[i]?)

/-! ### Problem patterns -/

def tptpScheme : Text := "tptp://".toList

def isTptp (pattern : Text) : Bool := tptpScheme.isPrefixOf pattern

/-- `tptp_relative` of a text with the scheme. -/
def tptpRelative (pattern : Text) : Option Text :=
  let relative := ((pattern.drop tptpScheme.length).dropWhile (· = '/')).rdropWhile (· = '/')
  if ['.', '.'] ∈ (PosixPath.parse relative).parts ∨ '\\' ∈ relative ∨ relative.any (fun c => c.toNat < 32) then none
  else if relative ≠ [] ∧ ¬ "TPTP-".toList.isPrefixOf relative then
    some ("TPTP-v9.2.1/".toList ++
      if "Problems/".toList.isPrefixOf relative then relative else "Problems/".toList ++ relative)
  else some relative

/-- The problems of the collection under one relative pattern. -/
def clusterProblems (files : Text → List Text) (relative : Text) : Option (List Text) :=
  if files relative = [] then none else some ((files relative).map ("tptp:".toList ++ ·))

/-- `expand_cluster_tptp`. -/
def expandClusterTptp (pattern host : Text) : Option (List Text) := do
  let relative ← tptpRelative pattern
  guard (relative ≠ [])
  let files ← site.cluster host
  clusterProblems files relative

/-- `expand_cluster_tptp_many`. -/
def expandClusterTptpMany (patterns : List Text) (host : Text) : Option (List (Text × List Text)) :=
  match firsts patterns with
  | [] => some []
  | [pattern] => (expandClusterTptp site pattern host).map fun files => [(pattern, files)]
  | unique => do
      let relative ← unique.mapM tptpRelative
      guard ([] ∉ relative)
      let files ← site.cluster host
      (unique.zip relative).mapM fun (pattern, key) => (clusterProblems files key).map fun found => (pattern, found)

def archiveSuffixes : List Text :=
  [".zip".toList, ".tar".toList, ".tar.gz".toList, ".tgz".toList, ".tar.bz2".toList, ".tbz2".toList,
    ".tar.xz".toList, ".txz".toList]

def isArchive (p : PosixPath) : Bool := archiveSuffixes.any fun suffix => suffix.isSuffixOf (lower p.name)

/-- `archive_problems`. -/
def archiveProblems (path : Text) : Option (List PosixPath) :=
  (site.archive path).map fun (directory, members) =>
    members.map fun parts => ⟨site.cache.slashes, site.cache.parts ++ directory :: parts⟩

/-- `expand_problem_pattern`; the order of the files does not matter here. -/
def expandProblemPattern (pattern : Text) : Option (List PosixPath) := do
  let files := (site.glob (expandUser site pattern)).map PosixPath.normalize
  guard (files ≠ [])
  let problems ← files.mapM fun path => if isArchive path then archiveProblems site path.str else some [path]
  return problems.flatten

/-- `sorted(set(l))`. -/
def sortedSet (l : List Text) : List Text := (firsts l).insertionSort (· ≤ ·)

/-! ### Tables -/

section Tables

variable {rows rows' : List Row} {names : List Text} {row : Row} {c : Text}

/-- A row as it is read back. -/
def textRow (names : List Text) (row : Row) : Row := names.map fun c => (c, .text (row.written c))

theorem cell_textRow (hc : c ∈ names) : (textRow names row).cell c = .text (row.written c) := by
  unfold Row.cell textRow
  rw [Dict.get_map, if_pos hc]
  rfl

theorem written_textRow (hc : c ∈ names) : (textRow names row).written c = row.written c := by
  unfold Row.written
  rw [cell_textRow hc]
  rfl

@[simp] theorem cell_put_self (row : Row) (c : Text) (v : Cell) : Row.cell (Dict.put row c v) c = v := by
  unfold Row.cell
  rw [Dict.get_put_self]
  rfl

theorem cell_put_of_ne (row : Row) {c c' : Text} (v : Cell) (h : c' ≠ c) :
    Row.cell (Dict.put row c v) c' = row.cell c' := by
  unfold Row.cell
  rw [Dict.get_put_of_ne row v h]

theorem dictRow_record : dictRow names (row.record names) = some (textRow names row) := by
  have hlen : (row.record names).length = names.length := List.length_map _
  unfold dictRow
  rw [hlen, if_neg (lt_irrefl _), Nat.sub_self, List.replicate_zero, List.append_nil]
  congr 1
  unfold Row.record textRow
  induction names with
  | nil => rfl
  | cons a names ih =>
    rw [List.map_cons, List.map_cons, List.zip_cons_cons, ih]
    · rfl
    · exact List.length_map _

theorem record_ne_nil (hnames : names ≠ []) : ∀ fs ∈ names :: rows.map (Row.record names), fs ≠ [] := by
  intro fs hfs
  rcases List.mem_cons.1 hfs with rfl | hfs
  · exact hnames
  · obtain ⟨row, -, rfl⟩ := List.mem_map.1 hfs
    exact fun h => hnames (List.map_eq_nil_iff.1 h)

/-- The tables with fields under `names` start with the first name, not with a mark. -/
theorem dropMark_excelRows (hnames : names = columns ∨ names = configurationColumns) (records : List Csv.Record) :
    dropMark ((names :: records).flatMap Csv.excelRow) = (names :: records).flatMap Csv.excelRow := by
  rcases hnames with rfl | rfl <;> rfl

/-- A table that has been written is read back. -/
theorem readTable_csvText (hnames : names = columns ∨ names = configurationColumns) {t : Text}
    (h : csvText rows names = some t) : readTable t = some (names, rows.map (textRow names)) := by
  have hne : names ≠ [] := by
    rcases hnames with rfl | rfl
    · decide
    · decide +kernel
  unfold csvText at h
  split at h
  · cases h
    unfold readTable
    rw [dropMark_excelRows hnames, Csv.read_excelRows (record_ne_nil hne)]
    have hfilter : (rows.map (Row.record names)).filter (· ≠ []) = rows.map (Row.record names) :=
      List.filter_eq_self.2 fun fs hfs => decide_eq_true (record_ne_nil hne fs (List.mem_cons_of_mem names hfs))
    have hrows : (rows.map (Row.record names)).mapM (dictRow names) = some (rows.map (textRow names)) := by
      have hrow : dictRow names ∘ Row.record names = fun row => pure (textRow names row) :=
        funext fun row => dictRow_record
      rw [List.mapM_map, hrow, List.mapM_pure]
      rfl
    simp only [hfilter, hrows, Option.map_some]
  · cases h

/-- Tables are the same text when they have the same records. -/
theorem csvText_inj (hnames : names ≠ []) {t : Text} (h : csvText rows names = some t)
    (h' : csvText rows' names = some t) : rows.map (Row.record names) = rows'.map (Row.record names) := by
  unfold csvText at h h'
  split at h
  · split at h'
    · cases h
      have htexts := Csv.excelRows_injective (record_ne_nil hnames) (record_ne_nil hnames) (Option.some.inj h')
      exact (List.cons.inj htexts).2.symm
    · cases h'
  · cases h

theorem csvText_of_record {t : Text} (h : csvText rows names = some t)
    (hrecord : rows'.map (Row.record names) = rows.map (Row.record names))
    (hkeys : ∀ row ∈ rows', ∀ entry ∈ row, entry.1 ∈ names) : csvText rows' names = some t := by
  unfold csvText at h ⊢
  rw [if_pos hkeys, hrecord]
  split at h
  · exact h
  · cases h

end Tables

/-! ### Paths -/

section Paths

variable {site : Site} {t : Text} {base : PosixPath}

theorem expandUser_of_head? (h : t.head? = some '/') : expandUser site t = t := by
  unfold expandUser
  rw [h]
  rfl

/-- An absolute text means the same path everywhere. -/
theorem pathAt_of_head? (h : t.head? = some '/') (base : PosixPath) :
    pathAt site t base = (PosixPath.parse t).normalize := by
  unfold pathAt
  rw [expandUser_of_head? h, PosixPath.join, PosixPath.isAbsolute,
    decide_eq_true (PosixPath.parse_slashes_of_head? h), if_pos rfl]

theorem pathAt_slashes (h : base.slashes ≠ 0) (t : Text) : (pathAt site t base).slashes ≠ 0 := by
  show (base.join (PosixPath.parse (expandUser site t))).slashes ≠ 0
  unfold PosixPath.join PosixPath.isAbsolute
  split
  · next habs => exact of_decide_eq_true habs
  · exact h

theorem pathAt_valid (h : base.Valid) (t : Text) : (pathAt site t base).Valid :=
  (h.join (PosixPath.parse_valid _)).normalize

/-- The text of an absolute path stays as it is. -/
theorem head?_pathAt (h : base.slashes ≠ 0) (t : Text) : (pathAt site t base).str.head? = some '/' :=
  PosixPath.head?_str (pathAt_slashes h t)

theorem pathAt_pathAt (h : base.slashes ≠ 0) (hvalid : base.Valid) (t : Text) (dir : PosixPath) :
    pathAt site (pathAt site t base).str dir = pathAt site t base := by
  rw [pathAt_of_head? (head?_pathAt h t), PosixPath.parse_str (pathAt_valid hvalid t)]
  exact PosixPath.normalize_of_normal (PosixPath.normalize_normal _)

end Paths

/-! ### Checked rows -/

section Checked

variable {site : Site} {host partition : Text} {dir : PosixPath} {row : Row} {pair : Pair}

/-- The check of a row with absolute paths is the same in every directory. -/
theorem readPair_congr (hdirectory : (row.written solverDirectory).head? = some '/')
    (hproblem : "tptp:".toList.isPrefixOf (row.written problem) = true ∨
      (row.written problem).head? = some '/') (dir dir' : PosixPath) :
    readPair site host partition dir row = readPair site host partition dir' row := by
  have hread : readProblem site (row.written problem) dir = readProblem site (row.written problem) dir' := by
    unfold readProblem
    rcases hproblem with htptp | hhead
    · rw [if_pos htptp, if_pos htptp]
    · rw [pathAt_of_head? hhead dir, pathAt_of_head? hhead dir']
  unfold readPair
  rw [hread, pathAt_of_head? hdirectory dir, pathAt_of_head? hdirectory dir']

theorem ne_nil_of_positive {t : Text} {n : ℕ} (h : positive t = some n) : t ≠ [] := by
  rintro rfl
  cases h

/-- A checked row has its required fields, up to the CPUs. -/
theorem required_of_readPair (h : readPair site host partition dir row = some pair) :
    Lines.strip (row.written command) ≠ [] ∧ row.written solverDirectory ≠ [] ∧
      Lines.strip (row.written wcLimit) ≠ [] ∧ Lines.strip (row.written cpuLimit) ≠ [] ∧
      Lines.strip (row.written memLimit) ≠ [] ∧ Lines.strip (row.written cores) ≠ [] := by
  unfold readPair at h
  simp only [Option.bind_eq_bind, Option.bind_eq_some_iff, Option.guard_eq_some'] at h
  obtain ⟨-, -, -, hcommand, -, -, problem, -, -, hdirectory, solver, -, wc, hwc, cpu, hcpu, n, hcores, threads, -,
    m, -, mem, hmem, -⟩ := h
  refine ⟨hcommand.1, hdirectory.1, ne_nil_of_positive hwc, ne_nil_of_positive hcpu, ?_, ?_⟩
  · intro hnil
    rw [hnil] at hmem
    cases hmem
  · intro hnil
    unfold readCores at hcores
    rw [hnil] at hcores
    cases hcores

end Checked

/-! ### Orders -/

section Orders

variable {site : Site} {rows rows' : List Row} {order : PairOrder}

theorem filterMap_range_getElem? {α : Type*} (l : List α) : (List.range l.length).filterMap (fun i => l[i]?) = l := by
  induction l with
  | nil => rfl
  | cons a l ih =>
    rw [List.length_cons, List.range_succ_eq_map, List.filterMap_cons, List.filterMap_map]
    exact congrArg (a :: ·) ih

theorem perm_orderJobpairs (h : orderJobpairs site rows order = some rows') : rows'.Perm rows := by
  cases order with
  | problemMajor =>
    cases h
    exact perm_sortBy _ rows
  | solverMajor =>
    rw [orderJobpairs] at h
    split at h
    · cases h
      exact perm_sortBy _ rows
    · cases h
  | random =>
    cases h
    have hperm := (site.shuffle_perm rows.length).filterMap fun i => rows[i]?
    rwa [filterMap_range_getElem?] at hperm

/-- Unless solvers come first, only the records matter. -/
theorem record_orderJobpairs (horder : order ≠ .solverMajor) {rows₁ rows₂ rows₁' rows₂' : List Row}
    (hrows : rows₁.map (Row.record columns) = rows₂.map (Row.record columns))
    (h₁ : orderJobpairs site rows₁ order = some rows₁') (h₂ : orderJobpairs site rows₂ order = some rows₂') :
    rows₁'.map (Row.record columns) = rows₂'.map (Row.record columns) := by
  cases order with
  | solverMajor => exact absurd rfl horder
  | problemMajor =>
    cases h₁
    cases h₂
    have hsort : ∀ rows : List Row, (sortBy (fun row => row.written problem) rows).map (Row.record columns) =
        sortBy (fun fields : Csv.Record => fields.getD 3 []) (rows.map (Row.record columns)) := fun rows =>
      (sortBy_map (fun fields : Csv.Record => fields.getD 3 []) (Row.record columns) rows).symm
    rw [hsort, hsort, hrows]
  | random =>
    cases h₁
    cases h₂
    have hlength : rows₁.length = rows₂.length := by simpa using congrArg List.length hrows
    have hget : ∀ rows : List Row, ((site.shuffle rows.length).filterMap fun i => rows[i]?).map (Row.record columns) =
        (site.shuffle rows.length).filterMap fun i => (rows.map (Row.record columns))[i]? := by
      intro rows
      rw [List.map_filterMap]
      apply List.filterMap_congr
      intro i _
      rw [List.getElem?_map]
    rw [hget, hget, hrows, hlength]

/-- Rows that are made in blocks of one key each: the blocks are ordered. -/
theorem record_orderJobpairs_blocks {configs : List Row} {problems : List Text} {make : Row → Text → Row}
    {fine : Row → Option (List CellKey)} {fields : Row → Text → Csv.Record} (hne : problems ≠ [])
    (hkey : ∀ row ∈ configs, ∀ p ∈ problems, (make row p).key = fine row)
    (hrecord : ∀ row ∈ configs, ∀ p ∈ problems, (make row p).record columns = fields row p)
    (h : orderJobpairs site (configs.flatMap fun row => problems.map (make row)) .solverMajor = some rows') :
    rows'.map (Row.record columns) =
      (sortBy (fun row => position (configs.map fine) (fine row)) configs).flatMap fun row => problems.map (fields row) := by
  rw [orderJobpairs] at h
  split at h
  · cases h
    have hfirsts : firsts ((configs.flatMap fun row => problems.map (make row)).map Row.key) = firsts (configs.map fine) := by
      rw [List.map_flatMap]
      apply firsts_flatMap
      · intro row hrow k hk
        obtain ⟨p, hp, rfl⟩ := List.mem_map.1 (List.map_map ▸ hk)
        exact hkey row hrow p hp
      · intro row _ hnil
        exact hne (List.map_eq_nil_iff.1 (List.map_eq_nil_iff.1 hnil))
    have hblock : ∀ row ∈ configs, ∀ made ∈ problems.map (make row),
        position ((configs.flatMap fun row => problems.map (make row)).map Row.key) (Row.key made) =
          position (configs.map fine) (fine row) := by
      intro row hrow made hmade
      obtain ⟨p, hp, rfl⟩ := List.mem_map.1 hmade
      unfold position
      rw [hfirsts, hkey row hrow p hp]
    rw [sortBy_flatMap hblock, List.map_flatMap]
    apply List.flatMap_congr
    intro row hrow
    rw [List.map_map]
    exact List.map_congr_left fun p hp => hrecord row (mem_sortBy.1 hrow) p hp
  · cases h

end Orders

end Workflow
end Slurmy
