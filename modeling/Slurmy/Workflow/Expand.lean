import Slurmy.Lib.Gather
import Slurmy.Workflow.Pairs

/-!
# Expanding configurations over problems

The web application expands configurations over problems when it saves a workflow, and
`slurmy-pairs.py expand` does it again from the saved files.

* `Data`, `readConfigurations`, `findProblems`, `specification`: the pair files that are saved;
* `globLines`, `expand`, `expandSaved`: the command line;
* `jobRecord`, `record_columns`: the records of pairs are those of configurations with
  a problem put in;
* `selectProblems_of_findProblems`: both find the same problems for the same patterns;
* `globLines_of_findProblems`: patterns that come back from their file.
-/

namespace Slurmy
namespace Workflow

open Plan (PairOrder)
open StableSort Column

variable (site : Site)

/-! ### `specification` -/

/-- The modes that have configurations; a configurations file is given by its path. -/
inductive Mode
  | interactive (configurations : List Row)
  | configurations (file : Text)

/-- The browser's data for the pairs; a glob that is not a text is `none`. -/
structure Data where
  host : Text
  partition : Text
  pairOrder : Text
  mode : Mode
  globs : List (Option Text)

/-- The order of the data; the default puts solvers first. -/
def Data.order (data : Data) : Option PairOrder :=
  orderOf (if data.pairOrder = [] then "solver-major".toList else data.pairOrder)

/-- `alias`. -/
def isAlias (t : Text) : Bool :=
  (t.head?.any Char.isAlphanum) && t.all fun c => c.isAlphanum || c == '.' || c == '_' || c == '-'

/-- `existing(value, 'directory', base)`; a value that is not a text is an error. -/
def existingDirectory (value : Cell) (base : PosixPath) : Option Text :=
  match value with
  | .text t =>
      let path := (pathAt site (Lines.strip t) base).str
      if Lines.strip t ≠ [] ∧ site.isDir path then some path else none
  | _ => none

/-- `existing(value)`. -/
def existingFile (t : Text) : Option PosixPath :=
  let path := pathAt site (Lines.strip t) site.base
  if Lines.strip t ≠ [] ∧ site.isFile path.str then some path else none

/-- The directory of a file. -/
def parent (p : PosixPath) : PosixPath := ⟨p.slashes, p.parts.dropLast⟩

/-- `row['solver_directory'] = str(existing(row.get('solver_directory'), 'directory', base))`. -/
def withDirectory (base : PosixPath) (row : Row) : Option Row :=
  (existingDirectory site ((Dict.get row solverDirectory).getD .null) base).map fun directory =>
    Dict.put row solverDirectory (.text directory)

/-- `imported_rows` of a configurations file. -/
def importedRows (file : PosixPath) : Option (List Row) := do
  let t ← site.readText file.str
  let (headers, rows) ← readTable t
  guard (headers ≠ [] ∧ headers.Nodup ∧ headers ⊆ configurationColumns)
  guard (rows ≠ [])
  rows.mapM (withDirectory site (parent file))

/-- A configuration of the editor, with its directory and its name checked. -/
def interactiveRow (row : Row) : Option Row := do
  let row ← withDirectory site site.base row
  let row : Row := Dict.put row cpus (.text "auto".toList)
  let name := Lines.strip (row.orText solverName [])
  guard (name ≠ [] ∧ ¬ name.any isControl ∧ name.length ≤ 80)
  return Dict.put row solverName (.text name)

/-- The configurations of the data. -/
def readConfigurations (data : Data) : Option (List Row) :=
  match data.mode with
  | .configurations file => (existingFile site file).bind (importedRows site)
  | .interactive configurations => do
      guard (configurations ≠ [])
      let rows ← configurations.mapM (interactiveRow site)
      guard (rows.map fun row => site.casefold (row.written solverName)).Nodup
      return rows

/-- What follows the first reference to the repository, without slashes in front. -/
def afterRepoRoot : Text → Option Text
  | [] => none
  | c :: t =>
      if "$(REPO_ROOT)".toList.isPrefixOf (c :: t) || "${REPO_ROOT}".toList.isPrefixOf (c :: t) then
        some ((t.drop 11).dropWhile fun c => c = '/' || c = '\\')
      else afterRepoRoot t

/-- `expand_repo_root` or `path_at`. -/
def patternPath (value : Text) : PosixPath :=
  match afterRepoRoot (Lines.strip value) with
  | some suffix => site.repo.join (PosixPath.parse suffix)
  | none => pathAt site (Lines.strip value) site.base

/-- `problem_glob`: the pattern and its problems. -/
def problemGlob (host : Text) (value : Option Text) : Option (Text × List Text) := do
  let value ← value
  guard (Lines.strip value ≠ [])
  if isTptp value then (expandClusterTptp site value host).map fun files => (value, files)
  else
    let pattern := (patternPath site value).str
    (expandProblemPattern site pattern).map fun files => (pattern, files.map PosixPath.str)

/-- The globs that are texts with the scheme of the collection. -/
def tptpGlobs (globs : List (Option Text)) : List Text := (globs.filterMap id).filter isTptp

/-- The patterns of the globs, and all their problems. -/
def findProblems (data : Data) : Option (List Text × List Text) := do
  let matched ← (if 1 < (tptpGlobs data.globs).length then expandClusterTptpMany site (tptpGlobs data.globs) data.host
    else some [])
  let found ← data.globs.mapM fun value =>
    match value.bind fun t => (Dict.get matched t).map fun files => (t, files) with
    | some entry => some entry
    | none => problemGlob site data.host value
  let problems := sortedSet (found.flatMap Prod.snd)
  guard (problems ≠ [])
  return (found.map Prod.fst, problems)

/-- The files about pairs that a workflow is saved with. -/
structure Saved where
  jobpairs : Text
  configurations : Text
  problemGlobs : Text
  deriving DecidableEq

/-- `specification`, up to the checks `others` of the data and the pairs that concern the name, the
axioms, the builds, the limiter and the scripts; `preview` is the folder of the check. -/
def specification (others : Data → List Row → Bool) (preview : PosixPath) (data : Data) : Option Saved := do
  guard (isAlias data.host ∧ isAlias data.partition)
  let order ← data.order
  let configs ← readConfigurations site data
  let threads ← configs.mapM fun row => positive (row.orText threadsPerCore ['1'])
  guard (site.supports data.host data.partition (threads.foldl max 0))
  let (patterns, problems) ← findProblems site data
  let rows ← orderJobpairs site
    (configs.flatMap fun row => problems.map fun p => Dict.put row problem (.text p)) order
  let jobpairs ← csvText rows columns
  let _ ← readPairs site data.host data.partition preview jobpairs
  guard (others data rows)
  let configurations ← csvText configs configurationColumns
  return ⟨jobpairs, configurations, Lines.unlines patterns⟩

/-! ### `slurmy-pairs.py` -/

/-- The patterns in a file of problem globs in the directory `dir`. -/
def globLines (dir : PosixPath) (t : Text) : List Text :=
  ((Lines.splitlines t).filter fun line => Lines.strip line ≠ []).map fun line =>
    if isTptp line then line else (pathAt site line dir).str

/-- The problems of some patterns, sorted. -/
def selectProblems (host : Text) (patterns : List Text) : Option (List Text) := do
  let matched ← expandClusterTptpMany site (patterns.filter isTptp) host
  let found ← patterns.mapM fun pattern =>
    if isTptp pattern then Dict.get matched pattern
    else (expandProblemPattern site pattern).map fun files => files.map PosixPath.str
  return sortedSet found.flatten

/-- The columns that `expand` wants. -/
def requiredColumns : List Text :=
  columns.filter fun c => c ∉ [solverName, problem, threadsPerCore, exclusiveCpu, exclusiveNode]

/-- The checks of a configuration row, and its directory as a path. -/
def expandRow (dir : PosixPath) (row : Row) : Option Row :=
  if ∀ c ∈ requiredColumns, Lines.strip (row.written c) ≠ [] then
    some (Dict.put row solverDirectory (.text (pathAt site (row.written solverDirectory) dir).str))
  else none

/-- `expand` with one configurations file, in the directory `dir`. -/
def expand (host partition : Text) (dir : PosixPath) (configurations : Text) (patterns : List Text)
    (order : PairOrder) : Option Text := do
  let problems ← selectProblems site host patterns
  let (headers, rows) ← readTable configurations
  guard (headers.Nodup ∧ requiredColumns ⊆ headers ∧ headers ⊆ configurationColumns)
  let rows ← rows.mapM (expandRow site dir)
  let rows := rows.flatMap fun (row : Row) => problems.map fun p =>
    Dict.put (Dict.put row solverName (row.cell solverName)) problem (.text p)
  guard (rows ≠ [])
  let rows ← orderJobpairs site rows order
  let jobpairs ← csvText rows columns
  let _ ← readPairs site host partition dir jobpairs
  return jobpairs

/-- `slurmy-pairs.py` on the files of a saved workflow in the directory `dir`, with the host, the
partition and the order of its `Makefile`. -/
def expandSaved (dir : PosixPath) (data : Data) (saved : Saved) : Option Text := do
  let order ← data.order
  let patterns := globLines site dir saved.problemGlobs
  guard (patterns ≠ [])
  expand site data.host data.partition dir saved.configurations patterns order

/-! ### Records -/

theorem configurationColumns_eq : configurationColumns =
    [solverName, command, solverDirectory, wcLimit, cpuLimit, memLimit, cores, threadsPerCore, cpus, exclusiveCpu,
      exclusiveNode] := by
  decide +kernel

/-- The record of a configuration with a problem put in. -/
def jobRecord (fields : Csv.Record) (p : Text) : Csv.Record := fields.take 3 ++ p :: fields.drop 3

theorem record_columns (row : Row) :
    row.record columns = jobRecord (row.record configurationColumns) (row.written problem) := by
  rw [configurationColumns_eq]
  rfl

theorem jobRecord_inj {fields fields' : Csv.Record} {p p' : Text} (h : jobRecord fields p = jobRecord fields' p') :
    fields = fields' ∧ p = p' := by
  have hlength : ∀ (fields : Csv.Record) (p : Text), (jobRecord fields p).length = fields.length + 1 := by
    intro fields p
    unfold jobRecord
    rw [List.length_append, List.length_cons, List.length_take, List.length_drop]
    omega
  have hlen : fields.length = fields'.length := by
    have := congrArg List.length h
    rw [hlength, hlength] at this
    omega
  unfold jobRecord at h
  obtain ⟨htake, hrest⟩ := List.append_inj h (by rw [List.length_take, List.length_take, hlen])
  obtain ⟨hp, hdrop⟩ := List.cons.inj hrest
  refine ⟨?_, hp⟩
  rw [← List.take_append_drop 3 fields, htake, hdrop, List.take_append_drop]

theorem ne_problem {c : Text} (hc : c ∈ configurationColumns) : c ≠ problem := by
  unfold configurationColumns at hc
  exact of_decide_eq_true (List.mem_filter.1 hc).2

/-! ### Problems -/

section Problems

variable {site} {host : Text} {patterns : List Text}

theorem expandClusterTptp_of_relative {pattern relative : Text} {files : Text → List Text}
    (hrelative : tptpRelative pattern = some relative) (hne : relative ≠ []) (hfiles : site.cluster host = some files) :
    expandClusterTptp site pattern host = clusterProblems files relative := by
  unfold expandClusterTptp
  rw [hrelative, hfiles]
  simp [hne]

theorem mapM_relative {files : Text → List Text} (hfiles : site.cluster host = some files) (patterns : List Text) :
    ((patterns.mapM tptpRelative).bind fun relative => if [] ∈ relative then none else
        (patterns.zip relative).mapM fun x => (clusterProblems files x.2).map fun found => (x.1, found)) =
      patterns.mapM fun pattern => (expandClusterTptp site pattern host).map fun found => (pattern, found) := by
  induction patterns with
  | nil => rfl
  | cons pattern patterns ih =>
    rw [List.mapM_cons, List.mapM_cons, ← ih]
    cases hr : tptpRelative pattern with
    | none => simp [expandClusterTptp, hr]
    | some r =>
      by_cases hne : r = []
      · subst hne
        have hnone : expandClusterTptp site pattern host = none := by simp [expandClusterTptp, hr]
        rw [hnone]
        cases patterns.mapM tptpRelative <;> simp
      · rw [expandClusterTptp_of_relative hr hne hfiles]
        cases patterns.mapM tptpRelative with
        | none => cases clusterProblems files r <;> rfl
        | some rs =>
          by_cases hmem : [] ∈ rs
          · cases clusterProblems files r <;> simp [hmem]
          · have hcons : [] ∉ r :: rs := by simpa [hmem] using Ne.symm hne
            simp only [Option.bind_eq_bind, Option.bind_some, Option.pure_def, if_neg hcons, if_neg hmem,
              List.zip_cons_cons, List.mapM_cons]

/-- One request finds what single requests find. -/
theorem expandClusterTptpMany_eq (patterns : List Text) (host : Text) :
    expandClusterTptpMany site patterns host =
      (firsts patterns).mapM fun pattern => (expandClusterTptp site pattern host).map fun found => (pattern, found) := by
  unfold expandClusterTptpMany
  split
  · next h => rw [h]; rfl
  · next pattern h =>
    rw [h, List.mapM_cons]
    cases expandClusterTptp site pattern host <;> rfl
  · next hnil hone =>
    cases hfiles : site.cluster host with
    | some files =>
      rw [← mapM_relative hfiles]
      simp only [guard, Option.bind_eq_bind]
      cases (firsts patterns).mapM tptpRelative with
      | none => rfl
      | some rs =>
        by_cases hmem : [] ∈ rs
        · simp [hmem]
        · simp [hmem]
    | none =>
      -- without the host there is no first answer
      cases hfirsts : firsts patterns with
      | nil => exact absurd hfirsts hnil
      | cons pattern rest =>
        have hfirst : expandClusterTptp site pattern host = none := by
          unfold expandClusterTptp
          rw [hfiles]
          simp
        have hnone : ((pattern :: rest).mapM fun pattern =>
            (expandClusterTptp site pattern host).map fun found => (pattern, found)) = none := by
          rw [List.mapM_cons, hfirst]
          rfl
        rw [hnone]
        simp

theorem get_of_forall₂ {us : List Text} {matched : List (Text × List Text)} {f : Text → Option (List Text)}
    (h : List.Forall₂ (fun u entry => (f u).map (fun found => (u, found)) = some entry) us matched) (u : Text) :
    Dict.get matched u = if u ∈ us then f u else none := by
  induction h with
  | nil => rfl
  | @cons a b as bs hhead _ ih =>
    obtain ⟨found, hfound, rfl⟩ := Option.map_eq_some_iff.1 hhead
    unfold Dict.get at ih ⊢
    rw [Dict.lookup_cons, ih]
    by_cases hu : u = a
    · rw [if_pos hu, if_pos (hu ▸ List.mem_cons_self), hu, hfound]
    · simp [hu]

/-- The answer for one of the patterns. -/
theorem get_expandClusterTptpMany {matched : List (Text × List Text)}
    (h : expandClusterTptpMany site patterns host = some matched) (pattern : Text) :
    Dict.get matched pattern = if pattern ∈ patterns then expandClusterTptp site pattern host else none := by
  rw [expandClusterTptpMany_eq, Gather.mapM_eq_some_iff] at h
  rw [get_of_forall₂ h]
  simp only [mem_firsts]

theorem expandClusterTptpMany_eq_none (h : expandClusterTptpMany site patterns host = none) :
    ∃ pattern ∈ patterns, expandClusterTptp site pattern host = none := by
  by_contra hall
  push Not at hall
  rw [expandClusterTptpMany_eq] at h
  have hsome : ∀ l : List Text, l ⊆ patterns → (l.mapM fun pattern =>
      (expandClusterTptp site pattern host).map fun found => (pattern, found)) ≠ none := by
    intro l hl
    induction l with
    | nil => exact Option.some_ne_none _
    | cons a l ih =>
      rw [List.cons_subset] at hl
      obtain ⟨found, hfound⟩ := Option.ne_none_iff_exists'.1 (hall a hl.1)
      obtain ⟨rest, hrest⟩ := Option.ne_none_iff_exists'.1 (ih hl.2)
      rw [List.mapM_cons, hfound, hrest]
      exact Option.some_ne_none _
  exact hsome _ (fun a ha => mem_firsts.1 ha) h

/-- What one pattern selects. -/
def selectPattern (site : Site) (host pattern : Text) : Option (List Text) :=
  if isTptp pattern then expandClusterTptp site pattern host
  else (expandProblemPattern site pattern).map fun files => files.map PosixPath.str

theorem selectProblems_eq (host : Text) (patterns : List Text) :
    selectProblems site host patterns =
      (patterns.mapM (selectPattern site host)).map fun found => sortedSet found.flatten := by
  unfold selectProblems
  cases hmany : expandClusterTptpMany site (patterns.filter isTptp) host with
  | some matched =>
    have hselect : (patterns.mapM fun pattern => if isTptp pattern then Dict.get matched pattern
        else (expandProblemPattern site pattern).map fun files => files.map PosixPath.str) =
        patterns.mapM (selectPattern site host) := by
      apply Gather.mapM_congr
      intro pattern hpattern
      unfold selectPattern
      split
      · next htptp =>
        rw [get_expandClusterTptpMany hmany, if_pos (List.mem_filter.2 ⟨hpattern, htptp⟩)]
      · rfl
    simp only [Option.bind_eq_bind, Option.bind_some, hselect]
    cases patterns.mapM (selectPattern site host) <;> rfl
  | none =>
    obtain ⟨pattern, hpattern, hnone⟩ := expandClusterTptpMany_eq_none hmany
    obtain ⟨hpattern, htptp⟩ := List.mem_filter.1 hpattern
    cases hselect : patterns.mapM (selectPattern site host) with
    | none => rfl
    | some found =>
      obtain ⟨files, -, hfiles⟩ := Gather.exists_of_mapM hselect hpattern
      unfold selectPattern at hfiles
      rw [if_pos htptp, hnone] at hfiles
      cases hfiles

theorem patternPath_slashes (value : Text) : (patternPath site value).slashes ≠ 0 := by
  unfold patternPath
  split
  · unfold PosixPath.join PosixPath.isAbsolute
    split
    · next habs => exact of_decide_eq_true habs
    · exact site.repo_absolute
  · exact pathAt_slashes site.base_absolute _

theorem not_isTptp_of_head? {t : Text} (h : t.head? = some '/') : isTptp t = false := by
  cases t with
  | nil => cases h
  | cons c t =>
    cases h
    rfl

/-- What a glob has found: its pattern selects the problems, and is written as the code writes it. -/
structure IsFound (site : Site) (data : Data) (entry : Text × List Text) : Prop where
  select : selectPattern site data.host entry.1 = some entry.2
  pattern : isTptp entry.1 = true ∨ ∃ t, some t ∈ data.globs ∧ entry.1 = (patternPath site t).str

theorem isFound_of_problemGlob {data : Data} {value : Option Text} {entry : Text × List Text} (hvalue : value ∈ data.globs)
    (h : problemGlob site data.host value = some entry) : IsFound site data entry := by
  unfold problemGlob at h
  simp only [Option.bind_eq_bind, Option.bind_eq_some_iff] at h
  obtain ⟨value, rfl, -, -, h⟩ := h
  split at h
  · next htptp =>
    obtain ⟨files, hfiles, rfl⟩ := Option.map_eq_some_iff.1 h
    exact ⟨(if_pos htptp).trans hfiles, .inl htptp⟩
  · obtain ⟨files, hfiles, rfl⟩ := Option.map_eq_some_iff.1 h
    have hhead := PosixPath.head?_str (@patternPath_slashes site value)
    refine ⟨?_, .inr ⟨value, hvalue, rfl⟩⟩
    unfold selectPattern
    rw [not_isTptp_of_head? hhead, if_neg Bool.false_ne_true, hfiles]
    rfl

theorem isFound_of_findProblems {data : Data} {problems : List Text}
    (h : findProblems site data = some (patterns, problems)) :
    ∃ found : List (Text × List Text), (∀ entry ∈ found, IsFound site data entry) ∧ patterns = found.map Prod.fst ∧
      problems = sortedSet (found.flatMap Prod.snd) ∧ problems ≠ [] := by
  unfold findProblems at h
  simp only [Option.bind_eq_bind, Option.bind_eq_some_iff, Option.pure_def, Option.some.injEq,
    Prod.mk.injEq, Option.guard_eq_some'] at h
  obtain ⟨matched, hmatched, found, hfound, -, hne, rfl, rfl⟩ := h
  refine ⟨found, fun entry hmem => ?_, rfl, rfl, hne⟩
  obtain ⟨value, hglob, hvalue⟩ := Gather.exists_of_mem_mapM hfound hmem
  split at hvalue
  · next e hget =>
    cases hvalue
    obtain ⟨t, rfl, hget⟩ := Option.bind_eq_some_iff.1 hget
    obtain ⟨files, hfiles, rfl⟩ := Option.map_eq_some_iff.1 hget
    split at hmatched
    · rw [get_expandClusterTptpMany hmatched] at hfiles
      split at hfiles
      · next ht =>
        have htptp : isTptp t = true := (List.mem_filter.1 ht).2
        exact ⟨(if_pos htptp).trans hfiles, .inl htptp⟩
      · cases hfiles
    · cases hmatched
      cases hfiles
  · exact isFound_of_problemGlob hglob hvalue

/-- Both find the same problems for the same patterns. -/
theorem selectProblems_of_findProblems {data : Data} {problems : List Text}
    (h : findProblems site data = some (patterns, problems)) :
    selectProblems site data.host patterns = some problems ∧ problems ≠ [] := by
  obtain ⟨found, hfound, rfl, rfl, hne⟩ := isFound_of_findProblems h
  have hselect : (found.map Prod.fst).mapM (selectPattern site data.host) = some (found.map Prod.snd) := by
    rw [Gather.mapM_eq_some_iff, List.forall₂_map_left_iff, List.forall₂_map_right_iff, List.forall₂_same]
    exact fun entry hentry => (hfound entry hentry).select
  rw [selectProblems_eq, hselect, Option.map_some, ← List.flatMap_def]
  exact ⟨rfl, hne⟩

/-- Patterns without line boundaries come back when they are absolute and normal, or on the cluster. -/
theorem globLines_unlines {dir : PosixPath} (h : ∀ pattern ∈ patterns, pattern.any Lines.isBoundary = false ∧
    (isTptp pattern = true ∨ pattern.head? = some '/' ∧ (pathAt site pattern dir).str = pattern)) :
    globLines site dir (Lines.unlines patterns) = patterns := by
  have hblank : ∀ pattern ∈ patterns, Lines.strip pattern ≠ [] := by
    intro pattern hpattern
    rcases (h pattern hpattern).2 with htptp | ⟨hhead, -⟩
    · obtain ⟨rest, hrest⟩ := List.isPrefixOf_iff_prefix.1 htptp
      refine Lines.strip_ne_nil (c := 't') ?_ (by decide)
      rw [← hrest]
      exact List.mem_append_left _ (by decide)
    · exact Lines.strip_ne_nil (List.mem_of_mem_head? hhead) (by decide)
  unfold globLines
  rw [Lines.splitlines_unlines fun pattern hpattern => (h pattern hpattern).1,
    List.filter_eq_self.2 fun pattern hpattern => decide_eq_true (hblank pattern hpattern)]
  have hline : ∀ pattern ∈ patterns,
      (if isTptp pattern then pattern else (pathAt site pattern dir).str) = pattern := by
    intro pattern hpattern
    rcases (h pattern hpattern).2 with htptp | ⟨-, hstr⟩
    · rw [if_pos htptp]
    · rw [hstr, ite_self]
  exact (List.map_congr_left hline).trans (List.map_id _)

/-- Globs that do not name the repository come back, when their patterns have no line boundaries. -/
theorem globLines_of_findProblems {data : Data} {problems : List Text} {dir : PosixPath}
    (h : findProblems site data = some (patterns, problems))
    (hlines : ∀ pattern ∈ patterns, pattern.any Lines.isBoundary = false)
    (hroot : ∀ t, some t ∈ data.globs → afterRepoRoot (Lines.strip t) = none) :
    globLines site dir (Lines.unlines patterns) = patterns := by
  obtain ⟨found, hfound, rfl, -, -⟩ := isFound_of_findProblems h
  refine globLines_unlines fun pattern hpattern => ⟨hlines pattern hpattern, ?_⟩
  obtain ⟨entry, hentry, rfl⟩ := List.mem_map.1 hpattern
  rcases (hfound entry hentry).pattern with htptp | ⟨t, ht, heq⟩
  · exact .inl htptp
  · have hpath : patternPath site t = pathAt site (Lines.strip t) site.base := by
      unfold patternPath
      rw [hroot t ht]
    rw [heq, hpath]
    exact .inr ⟨head?_pathAt site.base_absolute _, by rw [pathAt_pathAt site.base_absolute site.base_valid]⟩

end Problems

end Workflow
end Slurmy
