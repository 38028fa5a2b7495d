import Slurmy.Workflow.Expand

/-!
# The command line against the web application

When `slurmy-pairs.py` writes the pairs of a saved workflow again.

* `directory_of_readConfigurations`: what is known of accepted configurations;
* `cliRow`, `expandSaved_eq_some_iff`: what the command line does with the saved files;
* `Reproducible`, `expand_reproduces_iff`: the condition on the data under which it writes the saved
  file;
* `reproducible_of_plain`: globs without line boundaries that do not name the repository are no obstacle.
-/

namespace Slurmy
namespace Workflow

open Plan (PairOrder)
open StableSort Column

variable {site : Site} {data : Data} {configs : List Row} {row : Row} {dir : PosixPath}

/-! ### Accepted configurations -/

/-- The directory is the text of a path that is absolute and normal. -/
def HasDirectory (site : Site) (row : Row) : Prop :=
  (row.written solverDirectory).head? = some '/' ∧
    ∀ dir, (pathAt site (row.written solverDirectory) dir).str = row.written solverDirectory

theorem hasDirectory_of_withDirectory {base : PosixPath} {row' : Row} (hbase : base.slashes ≠ 0)
    (hvalid : base.Valid) (h : withDirectory site base row = some row') : HasDirectory site row' := by
  obtain ⟨directory, hdirectory, rfl⟩ := Option.map_eq_some_iff.1 h
  have hpath : ∃ t, directory = (pathAt site t base).str := by
    unfold existingDirectory at hdirectory
    split at hdirectory
    · dsimp only at hdirectory
      split at hdirectory
      · exact ⟨_, (Option.some.inj hdirectory).symm⟩
      · cases hdirectory
    · cases hdirectory
  obtain ⟨t, rfl⟩ := hpath
  have hwritten : Row.written (Dict.put row solverDirectory (.text (pathAt site t base).str)) solverDirectory =
      (pathAt site t base).str := by
    unfold Row.written
    rw [cell_put_self]
    rfl
  unfold HasDirectory
  rw [hwritten]
  exact ⟨head?_pathAt hbase t, fun dir => by rw [pathAt_pathAt hbase hvalid]⟩

theorem HasDirectory.put {c : Text} {v : Cell} (h : HasDirectory site row) (hc : solverDirectory ≠ c) :
    HasDirectory site (Dict.put row c v) := by
  have hwritten : Row.written (Dict.put row c v) solverDirectory = row.written solverDirectory := by
    unfold Row.written
    rw [cell_put_of_ne row v hc]
  unfold HasDirectory
  rw [hwritten]
  exact h

theorem parent_valid {p : PosixPath} (h : p.Valid) : (parent p).Valid :=
  ⟨h.slashes_le, fun part hpart => h.isPart part ((List.dropLast_sublist _).subset hpart),
    fun part hpart => h.noSlash part ((List.dropLast_sublist _).subset hpart)⟩

/-- What is known of accepted configurations. -/
theorem directory_of_readConfigurations (h : readConfigurations site data = some configs) :
    configs ≠ [] ∧ ∀ row ∈ configs, HasDirectory site row := by
  unfold readConfigurations at h
  split at h
  · next file hmode =>
    obtain ⟨path, hpath, himport⟩ := Option.bind_eq_some_iff.1 h
    have hat : path = pathAt site (Lines.strip file) site.base := by
      unfold existingFile at hpath
      dsimp only at hpath
      split at hpath
      · exact (Option.some.inj hpath).symm
      · cases hpath
    unfold importedRows at himport
    simp only [Option.bind_eq_bind, Option.bind_eq_some_iff, Option.guard_eq_some'] at himport
    obtain ⟨t, -, table, -, -, -, -, hrows, hconfigs⟩ := himport
    constructor
    · rintro rfl
      rw [Gather.mapM_eq_some_iff, List.forall₂_nil_right_iff] at hconfigs
      exact hrows hconfigs
    · intro row hrow
      obtain ⟨row₀, -, hrow₀⟩ := Gather.exists_of_mem_mapM hconfigs hrow
      have habsolute : (parent path).slashes ≠ 0 := hat ▸ pathAt_slashes site.base_absolute _
      have hvalid : (parent path).Valid := parent_valid (hat ▸ pathAt_valid site.base_valid _)
      exact hasDirectory_of_withDirectory habsolute hvalid hrow₀
  · next configurations hmode =>
    simp only [Option.bind_eq_bind, Option.bind_eq_some_iff, Option.guard_eq_some', Option.pure_def,
      Option.some.injEq] at h
    obtain ⟨-, hne, rows, hrows, -, -, rfl⟩ := h
    constructor
    · rintro rfl
      rw [Gather.mapM_eq_some_iff, List.forall₂_nil_right_iff] at hrows
      exact hne hrows
    · intro row hrow
      obtain ⟨row₀, -, hrow₀⟩ := Gather.exists_of_mem_mapM hrows hrow
      unfold interactiveRow at hrow₀
      simp only [Option.bind_eq_bind, Option.bind_eq_some_iff, Option.pure_def, Option.some.injEq] at hrow₀
      obtain ⟨row₁, hrow₁, -, -, rfl⟩ := hrow₀
      have hdirectory := hasDirectory_of_withDirectory site.base_absolute site.base_valid hrow₁
      exact (hdirectory.put (by decide +kernel)).put (by decide +kernel)

/-! ### Keys of accepted configurations -/

theorem cell_key_eq {a b : Row} (h : a.key = b.key) (hsome : a.key.isSome = true) :
    ∀ c ∈ configurationColumns, (a.cell c).key = (b.cell c).key := by
  obtain ⟨ks, hks⟩ := Option.isSome_iff_exists.1 hsome
  exact Gather.eq_of_mapM_eq hks (h.symm.trans hks)

/-- The values of a file are texts or missing. -/
def IsFileCell (v : Cell) : Prop := v = .null ∨ ∃ t, v = .text t

theorem isFileCell_of_readTable {t : Text} {table : List Text × List Row} (h : readTable t = some table)
    {row : Row} (hrow : row ∈ table.2) : ∀ entry ∈ row, IsFileCell entry.2 := by
  unfold readTable at h
  split at h
  · cases h
  · cases h
    cases hrow
  · next header records _ =>
    obtain ⟨rows, hrows, rfl⟩ := Option.map_eq_some_iff.1 h
    obtain ⟨record, -, hrecord⟩ := Gather.exists_of_mem_mapM hrows hrow
    unfold dictRow at hrecord
    split at hrecord
    · cases hrecord
    · cases hrecord
      intro entry hentry
      rcases List.mem_append.1 (List.of_mem_zip hentry).2 with hmem | hmem
      · obtain ⟨t, -, ht⟩ := List.mem_map.1 hmem
        exact .inr ⟨t, ht.symm⟩
      · exact .inl (List.eq_of_mem_replicate hmem)

theorem isFileCell_cell {row : Row} (h : ∀ entry ∈ row, IsFileCell entry.2) (c : Text) : IsFileCell (row.cell c) := by
  unfold Row.cell Dict.get
  induction row with
  | nil => exact .inr ⟨[], rfl⟩
  | cons entry row ih =>
    rw [Dict.lookup_cons]
    split
    · exact h entry List.mem_cons_self
    · exact ih fun e he => h e (List.mem_cons_of_mem entry he)

theorem isFileCell_withDirectory {base : PosixPath} {row row' : Row} (h : ∀ c, IsFileCell (row.cell c))
    (hrow : withDirectory site base row = some row') : ∀ c, IsFileCell (row'.cell c) := by
  obtain ⟨directory, -, rfl⟩ := Option.map_eq_some_iff.1 hrow
  intro c
  by_cases hc : c = solverDirectory
  · rw [hc, cell_put_self]
    exact .inr ⟨directory, rfl⟩
  · rw [cell_put_of_ne _ _ hc]
    exact h c

theorem written_eq_of_key_eq {v v' : Cell} (hv : IsFileCell v) (hv' : IsFileCell v') (h : v.key = v'.key) :
    v.written = v'.written := by
  rcases hv with rfl | ⟨t, rfl⟩ <;> rcases hv' with rfl | ⟨t', rfl⟩
  · rfl
  · cases h
  · cases h
  · cases h
    rfl

/-- Accepted configurations with the same key have the same fields. -/
theorem record_eq_of_key_eq (h : readConfigurations site data = some configs) {a b : Row} (ha : a ∈ configs)
    (hb : b ∈ configs) (hkey : a.key = b.key) (hsome : a.key.isSome = true) :
    a.record configurationColumns = b.record configurationColumns := by
  have hcells := cell_key_eq hkey hsome
  unfold readConfigurations at h
  split at h
  · obtain ⟨path, -, himport⟩ := Option.bind_eq_some_iff.1 h
    unfold importedRows at himport
    simp only [Option.bind_eq_bind, Option.bind_eq_some_iff, Option.guard_eq_some'] at himport
    obtain ⟨t, -, table, htable, -, -, -, -, hconfigs⟩ := himport
    have hfile : ∀ row ∈ configs, ∀ c, IsFileCell (row.cell c) := by
      intro row hrow
      obtain ⟨row₀, hmem, hrow₀⟩ := Gather.exists_of_mem_mapM hconfigs hrow
      exact isFileCell_withDirectory (isFileCell_cell (isFileCell_of_readTable htable hmem)) hrow₀
    exact List.map_congr_left fun c hc => written_eq_of_key_eq (hfile a ha c) (hfile b hb c) (hcells c hc)
  · simp only [Option.bind_eq_bind, Option.bind_eq_some_iff, Option.guard_eq_some', Option.pure_def,
      Option.some.injEq] at h
    obtain ⟨-, -, rows, hrows, -, hnodup, rfl⟩ := h
    -- the names are distinct, so there is only one row
    have hname : ∀ row ∈ rows, ∃ t, row.cell solverName = .text t := by
      intro row hrow
      obtain ⟨row₀, -, hrow₀⟩ := Gather.exists_of_mem_mapM hrows hrow
      unfold interactiveRow at hrow₀
      simp only [Option.bind_eq_bind, Option.bind_eq_some_iff, Option.pure_def, Option.some.injEq] at hrow₀
      obtain ⟨-, -, -, -, rfl⟩ := hrow₀
      exact ⟨_, cell_put_self _ _ _⟩
    obtain ⟨t, ht⟩ := hname a ha
    obtain ⟨t', ht'⟩ := hname b hb
    have hwritten : a.written solverName = b.written solverName := by
      unfold Row.written
      rw [ht, ht']
      exact written_eq_of_key_eq (.inr ⟨t, rfl⟩) (.inr ⟨t', rfl⟩) (ht ▸ ht' ▸ hcells solverName (by decide +kernel))
    rw [List.inj_on_of_nodup_map hnodup ha hb (congrArg site.casefold hwritten)]

/-! ### Problems -/

theorem mem_sortedSet {l : List Text} {t : Text} : t ∈ sortedSet l ↔ t ∈ l := by
  unfold sortedSet
  rw [List.mem_insertionSort, mem_firsts]

theorem sortedSet_ext {l l' : List Text} (h : ∀ t, t ∈ sortedSet l ↔ t ∈ sortedSet l') : sortedSet l = sortedSet l' := by
  have hnodup : ∀ l : List Text, (sortedSet l).Nodup := fun l =>
    (List.perm_insertionSort _ _).nodup_iff.2 (nodup_firsts l)
  have hperm := (List.perm_ext_iff_of_nodup (hnodup l) (hnodup l')).2 h
  exact hperm.eq_of_pairwise' (List.pairwise_insertionSort _ _) (List.pairwise_insertionSort _ _)

/-- A problem is on the cluster, or an absolute path. -/
def IsProblem (p : Text) : Prop := "tptp:".toList.isPrefixOf p = true ∨ p.head? = some '/'

theorem isProblem_of_selectPattern {host pattern p : Text} {files : List Text}
    (h : selectPattern site host pattern = some files) (hp : p ∈ files) : IsProblem p := by
  unfold selectPattern at h
  split at h
  · unfold expandClusterTptp clusterProblems at h
    simp only [Option.bind_eq_bind, Option.bind_eq_some_iff] at h
    obtain ⟨relative, -, -, -, names, -, h⟩ := h
    split at h
    · cases h
    · cases h
      obtain ⟨name, -, rfl⟩ := List.mem_map.1 hp
      exact .inl rfl
  · obtain ⟨paths, hpaths, rfl⟩ := Option.map_eq_some_iff.1 h
    obtain ⟨path, hpath, rfl⟩ := List.mem_map.1 hp
    refine .inr (PosixPath.head?_str ?_)
    unfold expandProblemPattern at hpaths
    simp only [Option.bind_eq_bind, Option.bind_eq_some_iff, Option.pure_def, Option.some.injEq] at hpaths
    obtain ⟨-, -, lists, hlists, rfl⟩ := hpaths
    obtain ⟨l, hl, hpath⟩ := List.mem_flatten.1 hpath
    obtain ⟨file, hfile, hmade⟩ := Gather.exists_of_mem_mapM hlists hl
    obtain ⟨found, hfound, rfl⟩ := List.mem_map.1 hfile
    split at hmade
    · obtain ⟨members, -, rfl⟩ := Option.map_eq_some_iff.1 hmade
      obtain ⟨parts, -, rfl⟩ := List.mem_map.1 hpath
      exact site.cache_absolute
    · cases hmade
      rw [List.mem_singleton.1 hpath]
      exact site.glob_absolute _ found hfound

theorem selectProblems_eq_some {host : Text} {patterns problems : List Text}
    (h : selectProblems site host patterns = some problems) :
    (∃ l, problems = sortedSet l) ∧ ∀ p ∈ problems, IsProblem p := by
  rw [selectProblems_eq] at h
  obtain ⟨found, hfound, rfl⟩ := Option.map_eq_some_iff.1 h
  refine ⟨⟨_, rfl⟩, fun p hp => ?_⟩
  obtain ⟨files, hfiles, hp⟩ := List.mem_flatten.1 (mem_sortedSet.1 hp)
  obtain ⟨pattern, -, hpattern⟩ := Gather.exists_of_mem_mapM hfound hfiles
  exact isProblem_of_selectPattern hpattern hp

/-! ### The rows of both sides -/

/-- A configuration as `expand` reads it, with its directory. -/
def savedRow (row : Row) : Row :=
  Dict.put (textRow configurationColumns row) solverDirectory (.text (row.written solverDirectory))

/-- A row of `expand`. -/
def cliRow (row : Row) (p : Text) : Row :=
  Dict.put (Dict.put (savedRow row) solverName ((savedRow row).cell solverName)) problem (.text p)

/-- A row of `specification`. -/
def webRow (row : Row) (p : Text) : Row := Dict.put row problem (.text p)

theorem cell_savedRow (row : Row) {c : Text} (hc : c ∈ configurationColumns) :
    (savedRow row).cell c = .text (row.written c) := by
  unfold savedRow
  by_cases hd : c = solverDirectory
  · rw [hd, cell_put_self]
  · rw [cell_put_of_ne _ _ hd, cell_textRow hc]

theorem cell_cliRow (row : Row) (p : Text) {c : Text} (hc : c ∈ configurationColumns) :
    (cliRow row p).cell c = .text (row.written c) := by
  unfold cliRow
  rw [cell_put_of_ne _ _ (ne_problem hc)]
  by_cases hn : c = solverName
  · rw [hn, cell_put_self]
    exact cell_savedRow row (hn ▸ hc)
  · rw [cell_put_of_ne _ _ hn, cell_savedRow row hc]

theorem record_congr {row row' : Row} (h : ∀ c ∈ configurationColumns, row.written c = row'.written c) :
    row.record configurationColumns = row'.record configurationColumns := List.map_congr_left h

theorem record_cliRow (row : Row) (p : Text) :
    (cliRow row p).record columns = jobRecord (row.record configurationColumns) p := by
  have hfields : (cliRow row p).record configurationColumns = row.record configurationColumns :=
    record_congr fun c hc => by
      unfold Row.written
      rw [cell_cliRow row p hc]
      rfl
  have hproblem : (cliRow row p).written problem = p := by
    unfold Row.written cliRow
    rw [cell_put_self]
    rfl
  rw [record_columns, hfields, hproblem]

theorem record_webRow (row : Row) (p : Text) :
    (webRow row p).record columns = jobRecord (row.record configurationColumns) p := by
  have hfields : (webRow row p).record configurationColumns = row.record configurationColumns :=
    record_congr fun c hc => by
      unfold Row.written webRow
      rw [cell_put_of_ne _ _ (ne_problem hc)]
  have hproblem : (webRow row p).written problem = p := by
    unfold Row.written webRow
    rw [cell_put_self]
    rfl
  rw [record_columns, hfields, hproblem]

theorem key_webRow (row : Row) (p : Text) : (webRow row p).key = row.key := by
  apply Gather.mapM_congr
  intro c hc
  unfold webRow
  rw [cell_put_of_ne _ _ (ne_problem hc)]

/-- The key of a row of texts. -/
def textKey (fields : Csv.Record) : Option (List CellKey) := some (fields.map .text)

theorem textKey_injective : Function.Injective textKey := fun _ _ h =>
  List.map_injective_iff.2 (fun _ _ heq => by cases heq; rfl) (Option.some.inj h)

theorem key_cliRow (row : Row) (p : Text) : (cliRow row p).key = textKey (row.record configurationColumns) := by
  have hcells : ∀ c ∈ configurationColumns, ((cliRow row p).cell c).key = pure (CellKey.text (row.written c)) := by
    intro c hc
    rw [cell_cliRow row p hc]
    rfl
  unfold Row.key textKey Row.record
  rw [Gather.mapM_congr hcells, List.mapM_pure, List.map_map]
  rfl

theorem keys_cliRow (row : Row) (p : Text) : ∀ entry ∈ cliRow row p, entry.1 ∈ columns := by
  have hput : ∀ (row : Row) (c : Text) (v : Cell), c ∈ columns → (∀ entry ∈ row, entry.1 ∈ columns) →
      ∀ entry ∈ Dict.put row c v, entry.1 ∈ columns := by
    intro row c v hc hrow entry hentry
    have hkey : entry.1 ∈ (Dict.put row c v).map Prod.fst := List.mem_map_of_mem hentry
    rw [Dict.keys_put] at hkey
    split at hkey
    · obtain ⟨e, he, hfst⟩ := List.mem_map.1 hkey
      exact hfst ▸ hrow e he
    · rcases List.mem_append.1 hkey with hkey | hkey
      · obtain ⟨e, he, hfst⟩ := List.mem_map.1 hkey
        exact hfst ▸ hrow e he
      · rw [List.mem_singleton.1 hkey]
        exact hc
  unfold cliRow savedRow
  refine hput _ _ _ (by decide +kernel) (hput _ _ _ (by decide +kernel) (hput _ _ _ (by decide +kernel) ?_))
  intro entry hentry
  obtain ⟨c, hc, rfl⟩ := List.mem_map.1 hentry
  exact (List.mem_filter.1 hc).1

/-! ### The run of the command line -/

/-- What `expand` checks of a configuration. -/
def HasRequired (row : Row) : Prop := ∀ c ∈ requiredColumns, Lines.strip (row.written c) ≠ []

theorem mem_requiredColumns {c : Text} (hc : c ∈ requiredColumns) : c ∈ configurationColumns := by
  have hsub : requiredColumns ⊆ configurationColumns := by decide +kernel
  exact hsub hc

theorem expandRow_textRow (h : HasDirectory site row) :
    expandRow site dir (textRow configurationColumns row) = some (savedRow row) ↔ HasRequired row := by
  have hwritten : ∀ c ∈ requiredColumns, (textRow configurationColumns row).written c = row.written c :=
    fun c hc => written_textRow (mem_requiredColumns hc)
  have hdirectory : (textRow configurationColumns row).written solverDirectory = row.written solverDirectory :=
    written_textRow (by decide +kernel)
  have hcheck : (∀ c ∈ requiredColumns, Lines.strip ((textRow configurationColumns row).written c) ≠ []) ↔
      HasRequired row := forall₂_congr fun c hc => by rw [hwritten c hc]
  unfold expandRow
  rw [hdirectory, h.2 dir]
  split
  · next hrequired => exact iff_of_true rfl (hcheck.1 hrequired)
  · next hrequired => exact iff_of_false (fun heq => by cases heq) (mt hcheck.2 hrequired)

theorem expandRow_textRow_eq (h : HasDirectory site row) {row' : Row}
    (hrow : expandRow site dir (textRow configurationColumns row) = some row') : row' = savedRow row := by
  unfold expandRow at hrow
  split at hrow
  · rw [← Option.some.inj hrow, written_textRow (by decide +kernel), h.2 dir]
    rfl
  · cases hrow

theorem mapM_expandRow (h : ∀ row ∈ configs, HasDirectory site row) {rows : List Row} :
    (configs.map (textRow configurationColumns)).mapM (expandRow site dir) = some rows ↔
      (∀ row ∈ configs, HasRequired row) ∧ rows = configs.map savedRow := by
  rw [List.mapM_map, Gather.mapM_eq_some_iff]
  induction configs generalizing rows with
  | nil => simp [List.forall₂_nil_left_iff]
  | cons row configs ih =>
    have hrest := @ih fun row' hrow' => h row' (List.mem_cons_of_mem row hrow')
    have hrow := h row List.mem_cons_self
    rw [List.forall₂_cons_left_iff, List.forall_mem_cons]
    constructor
    · rintro ⟨made, rest, hmade, hforall, rfl⟩
      obtain ⟨hrequired, rfl⟩ := hrest.1 hforall
      have heq := expandRow_textRow_eq hrow hmade
      subst heq
      exact ⟨⟨(expandRow_textRow hrow).1 hmade, hrequired⟩, rfl⟩
    · rintro ⟨⟨hfirst, hrequired⟩, rfl⟩
      exact ⟨_, _, (expandRow_textRow hrow).2 hfirst, hrest.2 ⟨hrequired, rfl⟩, rfl⟩

/-- The command line on saved configurations. -/
theorem expand_eq_some_iff {host partition t configurations : Text} {patterns : List Text} {order : PairOrder}
    (hconfigs : ∀ row ∈ configs, HasDirectory site row) (hsaved : csvText configs configurationColumns = some configurations) :
    expand site host partition dir configurations patterns order = some t ↔
      ∃ problems, selectProblems site host patterns = some problems ∧ (∀ row ∈ configs, HasRequired row) ∧
        (configs.flatMap fun row => problems.map (cliRow row)) ≠ [] ∧
        ∃ rows, orderJobpairs site (configs.flatMap fun row => problems.map (cliRow row)) order = some rows ∧
          csvText rows columns = some t ∧ (readPairs site host partition dir t).isSome = true := by
  have htable := readTable_csvText (.inr rfl) hsaved
  have hheaders : configurationColumns.Nodup ∧ requiredColumns ⊆ configurationColumns ∧
      configurationColumns ⊆ configurationColumns := by decide +kernel
  have hmade : ∀ problems : List Text, ((configs.map savedRow).flatMap fun (row : Row) => problems.map fun p =>
      Dict.put (Dict.put row solverName (row.cell solverName)) problem (.text p)) =
        configs.flatMap fun row => problems.map (cliRow row) := by
    intro problems
    rw [List.flatMap_map]
    rfl
  unfold expand
  simp only [Option.bind_eq_bind, Option.bind_eq_some_iff, Option.guard_eq_some', htable, Option.some.injEq,
    Option.pure_def, exists_eq_left']
  constructor
  · rintro ⟨problems, hproblems, -, -, rows, hrows, -, hne, ordered, hordered, jobpairs, hjobpairs, pairs, hpairs, rfl⟩
    obtain ⟨hrequired, rfl⟩ := (mapM_expandRow hconfigs).1 hrows
    rw [hmade] at hne hordered
    exact ⟨problems, hproblems, hrequired, hne, ordered, hordered, hjobpairs,
      Option.isSome_iff_exists.2 ⟨pairs, hpairs⟩⟩
  · rintro ⟨problems, hproblems, hrequired, hne, ordered, hordered, hjobpairs, hpairs⟩
    obtain ⟨pairs, hpairs⟩ := Option.isSome_iff_exists.1 hpairs
    rw [← hmade] at hne hordered
    exact ⟨problems, hproblems, (), hheaders, _, (mapM_expandRow hconfigs).2 ⟨hrequired, rfl⟩, (), hne, ordered,
      hordered, t, hjobpairs, pairs, hpairs, rfl⟩

/-! ### Accepted data -/

/-- The variables of `specification` when it has accepted the data. -/
structure Accepted (site : Site) (preview : PosixPath) (data : Data) (saved : Saved) (order : PairOrder)
    (configs : List Row) (patterns problems : List Text) (rows : List Row) : Prop where
  order_eq : data.order = some order
  configs_eq : readConfigurations site data = some configs
  find : findProblems site data = some (patterns, problems)
  ordered : orderJobpairs site (configs.flatMap fun row => problems.map (webRow row)) order = some rows
  jobpairs : csvText rows columns = some saved.jobpairs
  pairs : (readPairs site data.host data.partition preview saved.jobpairs).isSome = true
  configurations : csvText configs configurationColumns = some saved.configurations
  globs : saved.problemGlobs = Lines.unlines patterns

variable {others : Data → List Row → Bool} {preview : PosixPath} {saved : Saved} {order : PairOrder}
  {patterns problems : List Text} {rows : List Row}

theorem accepted_of_specification (h : specification site others preview data = some saved) :
    ∃ order configs patterns problems rows, Accepted site preview data saved order configs patterns problems rows := by
  unfold specification at h
  simp only [Option.bind_eq_bind, Option.bind_eq_some_iff, Option.guard_eq_some', Option.pure_def,
    Option.some.injEq] at h
  obtain ⟨-, -, order, horder, configs, hconfigs, -, -, -, -, found, hfind, rows, hrows, jobpairs, hjobpairs, pairs,
    hpairs, -, -, configurations, hconfigurations, rfl⟩ := h
  exact ⟨order, configs, found.1, found.2, rows, horder, hconfigs, hfind, hrows, hjobpairs,
    Option.isSome_iff_exists.2 ⟨pairs, hpairs⟩, hconfigurations, rfl⟩

namespace Accepted

variable (h : Accepted site preview data saved order configs patterns problems rows)

include h

theorem select : selectProblems site data.host patterns = some problems ∧ problems ≠ [] :=
  selectProblems_of_findProblems h.find

theorem hasDirectory : ∀ row ∈ configs, HasDirectory site row := (directory_of_readConfigurations h.configs_eq).2

theorem mem_rows {row : Row} {p : Text} (hrow : row ∈ configs) (hp : p ∈ problems) : webRow row p ∈ rows :=
  (perm_orderJobpairs h.ordered).mem_iff.2 (List.mem_flatMap.2 ⟨row, hrow, List.mem_map_of_mem hp⟩)

theorem readTable_jobpairs : readTable saved.jobpairs = some (columns, rows.map (textRow columns)) :=
  readTable_csvText (.inl rfl) h.jobpairs

/-- The fields that `read_pairs` has checked are not blank. -/
theorem hasRequired {row : Row} (hrow : row ∈ configs) :
    HasRequired row ↔ Lines.strip (row.written cpus) ≠ [] := by
  refine ⟨fun hrequired => hrequired cpus (by decide +kernel), fun hcpus => ?_⟩
  obtain ⟨pairs, hpairs⟩ := Option.isSome_iff_exists.1 h.pairs
  unfold readPairs at hpairs
  simp only [Option.bind_eq_bind, Option.bind_eq_some_iff, h.readTable_jobpairs, Option.some.injEq,
    exists_eq_left'] at hpairs
  obtain ⟨-, -, checked, hchecked, -⟩ := hpairs
  obtain ⟨p, hp⟩ := List.exists_mem_of_ne_nil _ h.select.2
  obtain ⟨pair, -, hpair⟩ := Gather.exists_of_mapM hchecked (List.mem_map_of_mem (h.mem_rows hrow hp))
  have hwritten : ∀ c ∈ configurationColumns, (textRow columns (webRow row p)).written c = row.written c := by
    intro c hc
    rw [written_textRow (List.mem_filter.1 hc).1]
    unfold webRow Row.written
    rw [cell_put_of_ne _ _ (ne_problem hc)]
  have hrequired := required_of_readPair hpair
  rw [hwritten command (by decide +kernel), hwritten solverDirectory (by decide +kernel),
    hwritten wcLimit (by decide +kernel), hwritten cpuLimit (by decide +kernel),
    hwritten memLimit (by decide +kernel), hwritten cores (by decide +kernel)] at hrequired
  obtain ⟨hcommand, -, hwc, hcpu, hmem, hcores⟩ := hrequired
  have hdirectory : Lines.strip (row.written solverDirectory) ≠ [] :=
    Lines.strip_ne_nil (List.mem_of_mem_head? ((h.hasDirectory row hrow).1)) (by decide)
  have hcolumns : requiredColumns = [command, solverDirectory, wcLimit, cpuLimit, memLimit, cores, cpus] := by
    decide +kernel
  intro c hc
  rw [hcolumns] at hc
  simp only [List.mem_cons, List.not_mem_nil, or_false] at hc
  rcases hc with rfl | rfl | rfl | rfl | rfl | rfl | rfl
  · exact hcommand
  · exact hdirectory
  · exact hwc
  · exact hcpu
  · exact hmem
  · exact hcores
  · exact hcpus

/-- The saved pairs pass the check in every directory. -/
theorem readPairs_saved (dir : PosixPath) :
    (readPairs site data.host data.partition dir saved.jobpairs).isSome = true := by
  have hrows : (rows.map (textRow columns)).mapM (readPair site data.host data.partition dir) =
      (rows.map (textRow columns)).mapM (readPair site data.host data.partition preview) := by
    apply Gather.mapM_congr
    intro read hread
    obtain ⟨made, hmade, rfl⟩ := List.mem_map.1 hread
    obtain ⟨row, hrow, hblock⟩ := List.mem_flatMap.1 ((perm_orderJobpairs h.ordered).mem_iff.1 hmade)
    obtain ⟨p, hp, rfl⟩ := List.mem_map.1 hblock
    apply readPair_congr
    · rw [written_textRow (by decide +kernel)]
      exact ((h.hasDirectory row hrow).put (by decide +kernel)).1
    · rw [written_textRow (by decide +kernel)]
      unfold webRow Row.written
      rw [cell_put_self]
      exact (selectProblems_eq_some h.select.1).2 p hp
  have hpairs := h.pairs
  unfold readPairs at hpairs ⊢
  rw [h.readTable_jobpairs] at hpairs ⊢
  simp only [Option.bind_eq_bind, Option.bind_some] at hpairs ⊢
  rw [hrows]
  exact hpairs

/-- The problems can be read off the records. -/
theorem mem_problems {problems' : List Text} {rows' : List Row}
    (hrows' : orderJobpairs site (configs.flatMap fun row => problems'.map (cliRow row)) order = some rows')
    (heq : rows'.map (Row.record columns) = rows.map (Row.record columns)) (p : Text) : p ∈ problems' ↔ p ∈ problems := by
  obtain ⟨row₀, hrow₀⟩ := List.exists_mem_of_ne_nil _ (directory_of_readConfigurations h.configs_eq).1
  have hthird : ∀ (row : Row) (p : Text), (jobRecord (row.record configurationColumns) p).getD 3 [] = p := by
    intro row p
    rw [configurationColumns_eq]
    rfl
  have hcli : p ∈ problems' ↔ ∃ fields ∈ rows'.map (Row.record columns), fields.getD 3 [] = p := by
    constructor
    · intro hp
      refine ⟨_, List.mem_map_of_mem ((perm_orderJobpairs hrows').mem_iff.2
        (List.mem_flatMap.2 ⟨row₀, hrow₀, List.mem_map_of_mem hp⟩)), ?_⟩
      rw [record_cliRow, hthird]
    · rintro ⟨fields, hfields, rfl⟩
      obtain ⟨made, hmade, rfl⟩ := List.mem_map.1 hfields
      obtain ⟨row, -, hblock⟩ := List.mem_flatMap.1 ((perm_orderJobpairs hrows').mem_iff.1 hmade)
      obtain ⟨p, hp, rfl⟩ := List.mem_map.1 hblock
      rwa [record_cliRow, hthird]
  have hweb : p ∈ problems ↔ ∃ fields ∈ rows.map (Row.record columns), fields.getD 3 [] = p := by
    constructor
    · intro hp
      refine ⟨_, List.mem_map_of_mem (h.mem_rows hrow₀ hp), ?_⟩
      rw [record_webRow, hthird]
    · rintro ⟨fields, hfields, rfl⟩
      obtain ⟨made, hmade, rfl⟩ := List.mem_map.1 hfields
      obtain ⟨row, -, hblock⟩ := List.mem_flatMap.1 ((perm_orderJobpairs h.ordered).mem_iff.1 hmade)
      obtain ⟨p, hp, rfl⟩ := List.mem_map.1 hblock
      rwa [record_webRow, hthird]
  rw [hcli, hweb, heq]

/-- The same problems come in the same order, unless solvers come first and the keys differ. -/
theorem record_eq_iff {rows' : List Row}
    (hrows' : orderJobpairs site (configs.flatMap fun row => problems.map (cliRow row)) order = some rows') :
    rows'.map (Row.record columns) = rows.map (Row.record columns) ↔
      (order = .solverMajor → SameOrder Row.key (Row.record configurationColumns) configs) := by
  by_cases horder : order = .solverMajor
  · have hordered := h.ordered
    rw [horder] at hrows' hordered
    have hcli := record_orderJobpairs_blocks h.select.2
      (fun row _ p _ => key_cliRow row p) (fun row _ p _ => record_cliRow row p) hrows'
    have hweb := record_orderJobpairs_blocks h.select.2
      (fun row _ p _ => key_webRow row p) (fun row _ p _ => record_webRow row p) hordered
    have hkeys : ∀ row ∈ configs, row.key.isSome = true := by
      intro row hrow
      obtain ⟨p, hp⟩ := List.exists_mem_of_ne_nil _ h.select.2
      rw [orderJobpairs] at hordered
      split at hordered
      · next hsome =>
        rw [← key_webRow row p]
        exact hsome _ (List.mem_flatMap.2 ⟨row, hrow, List.mem_map_of_mem hp⟩)
      · cases hordered
    have hposition : (fun row : Row => position (configs.map fun row => textKey (row.record configurationColumns))
        (textKey (row.record configurationColumns))) = fun row : Row =>
          position (configs.map (Row.record configurationColumns)) (row.record configurationColumns) := by
      funext row
      rw [← position_map textKey_injective, List.map_map]
      rfl
    have hgroup : (sortBy (fun row : Row => position (configs.map Row.key) row.key) configs).map
          (Row.record configurationColumns) =
        (sortBy (fun row : Row => position (configs.map (Row.record configurationColumns))
          (row.record configurationColumns)) configs).map (Row.record configurationColumns) ↔
        SameOrder Row.key (Row.record configurationColumns) configs :=
      map_sortBy_position_iff fun a ha b hb hkey => record_eq_of_key_eq h.configs_eq ha hb hkey (hkeys a ha)
    have hblocks : ∀ l : List Row, (l.flatMap fun row => problems.map (jobRecord (row.record configurationColumns))) =
        (l.map (Row.record configurationColumns)).flatMap fun fields => problems.map (jobRecord fields) := fun l => by
      rw [List.flatMap_map]
    rw [hcli, hweb, hposition, hblocks, hblocks, ← hgroup, eq_comm]
    have hmajor : ∀ q : Prop, (order = PairOrder.solverMajor → q) ↔ q := fun q => ⟨fun hq => hq horder, fun hq _ => hq⟩
    rw [hmajor]
    constructor
    · refine Gather.flatMap_inj (mt List.length_eq_zero_iff.1 h.select.2) (fun _ => List.length_map _) ?_
      intro fields fields' hmap
      obtain ⟨p, rest, hp⟩ := List.exists_cons_of_ne_nil h.select.2
      rw [hp, List.map_cons, List.map_cons] at hmap
      exact (jobRecord_inj (List.cons.inj hmap).1).1
    · exact fun heq => congrArg _ heq
  · refine iff_of_true ?_ fun hmajor => absurd hmajor horder
    refine record_orderJobpairs horder ?_ hrows' h.ordered
    rw [List.map_flatMap, List.map_flatMap]
    apply List.flatMap_congr
    intro row _
    rw [List.map_map, List.map_map]
    apply List.map_congr_left
    intro p _
    show (cliRow row p).record columns = (webRow row p).record columns
    rw [record_cliRow, record_webRow]

end Accepted

theorem exists_orderJobpairs_cliRow (configs : List Row) (problems : List Text) (order : PairOrder) :
    ∃ rows, orderJobpairs site (configs.flatMap fun row => problems.map (cliRow row)) order = some rows := by
  cases order with
  | problemMajor => exact ⟨_, rfl⟩
  | random => exact ⟨_, rfl⟩
  | solverMajor =>
    refine ⟨_, if_pos fun made hmade => ?_⟩
    obtain ⟨row, -, hblock⟩ := List.mem_flatMap.1 hmade
    obtain ⟨p, -, rfl⟩ := List.mem_map.1 hblock
    rw [key_cliRow]
    rfl

/-! ### The condition -/

/-- The condition on the data: CPUs are given; where solvers come first, rows that differ only in how they
leave a field out are not apart; and the globs select the same problems when their file is read. -/
structure Reproducible (site : Site) (dir : PosixPath) (data : Data) : Prop where
  cpus : ∀ configs ∈ readConfigurations site data, ∀ row ∈ configs, Lines.strip (Row.written row cpus) ≠ []
  order : data.order = some .solverMajor → ∀ configs ∈ readConfigurations site data,
    SameOrder Row.key (Row.record configurationColumns) configs
  globs : ∀ found ∈ findProblems site data,
    selectProblems site data.host (globLines site dir (Lines.unlines found.1)) =
      selectProblems site data.host found.1

/-- The command line writes the saved pairs again under the condition, and only then. -/
theorem expand_reproduces_iff (site : Site) (others : Data → List Row → Bool) (preview dir : PosixPath) (data : Data)
    (saved : Saved) (h : specification site others preview data = some saved) :
    expandSaved site dir data saved = some saved.jobpairs ↔ Reproducible site dir data := by
  obtain ⟨order, configs, patterns, problems, rows, hacc⟩ := accepted_of_specification h
  obtain ⟨hselect, hne⟩ := hacc.select
  have hrequired : (∀ row ∈ configs, HasRequired row) ↔ ∀ row ∈ configs, Lines.strip (row.written cpus) ≠ [] :=
    forall₂_congr fun row hrow => hacc.hasRequired hrow
  unfold expandSaved
  simp only [Option.bind_eq_bind, hacc.order_eq, Option.bind_some, Option.bind_eq_some_iff,
    Option.guard_eq_some', hacc.globs, expand_eq_some_iff hacc.hasDirectory hacc.configurations]
  constructor
  · rintro ⟨-, -, problems', hselect', hcpus, -, rows', hrows', hjobpairs, -⟩
    have hrecords := csvText_inj (by decide) hjobpairs hacc.jobpairs
    have hproblems : problems' = problems := by
      obtain ⟨⟨l, rfl⟩, -⟩ := selectProblems_eq_some hselect
      obtain ⟨⟨l', rfl⟩, -⟩ := selectProblems_eq_some hselect'
      exact sortedSet_ext (hacc.mem_problems hrows' hrecords)
    subst hproblems
    refine ⟨?_, ?_, ?_⟩
    · intro configs' hconfigs'
      rw [Option.mem_def, hacc.configs_eq] at hconfigs'
      cases hconfigs'
      exact hrequired.1 hcpus
    · intro horder configs' hconfigs'
      rw [Option.mem_def, hacc.configs_eq] at hconfigs'
      cases hconfigs'
      rw [hacc.order_eq] at horder
      exact (hacc.record_eq_iff hrows').1 hrecords (Option.some.inj horder)
    · intro found hfound
      rw [Option.mem_def, hacc.find] at hfound
      cases hfound
      rw [hselect', hselect]
  · intro hcond
    have hglobs := hcond.globs _ hacc.find
    rw [hselect] at hglobs
    have hlines : globLines site dir (Lines.unlines patterns) ≠ [] := by
      intro hnil
      rw [hnil] at hglobs
      exact hne (Option.some.inj hglobs).symm
    obtain ⟨rows', hrows'⟩ := @exists_orderJobpairs_cliRow site configs problems order
    have hrecords := (hacc.record_eq_iff hrows').2 fun horder =>
      hcond.order (horder ▸ hacc.order_eq) configs hacc.configs_eq
    have hkeys : ∀ row ∈ rows', ∀ entry ∈ row, entry.1 ∈ columns := by
      intro made hmade
      obtain ⟨row, -, hblock⟩ := List.mem_flatMap.1 ((perm_orderJobpairs hrows').mem_iff.1 hmade)
      obtain ⟨p, -, rfl⟩ := List.mem_map.1 hblock
      exact keys_cliRow row p
    have hblocks : (configs.flatMap fun row => problems.map (cliRow row)) ≠ [] := by
      obtain ⟨row, hrow⟩ := List.exists_mem_of_ne_nil _ (directory_of_readConfigurations hacc.configs_eq).1
      obtain ⟨p, hp⟩ := List.exists_mem_of_ne_nil _ hne
      exact List.ne_nil_of_mem (List.mem_flatMap.2 ⟨row, hrow, List.mem_map_of_mem hp⟩)
    exact ⟨(), hlines, problems, hglobs, hrequired.2 (hcond.cpus configs hacc.configs_eq), hblocks, rows', hrows',
      csvText_of_record hacc.jobpairs hrecords hkeys, hacc.readPairs_saved dir⟩

/-- Globs without line boundaries that do not name the repository are no obstacle. -/
theorem reproducible_of_plain (hcpus : ∀ configs ∈ readConfigurations site data, ∀ row ∈ configs,
      Lines.strip (Row.written row cpus) ≠ [])
    (horder : data.order = some .solverMajor → ∀ configs ∈ readConfigurations site data,
      SameOrder Row.key (Row.record configurationColumns) configs)
    (hlines : ∀ found ∈ findProblems site data, ∀ pattern ∈ found.1, pattern.any Lines.isBoundary = false)
    (hroot : ∀ t, some t ∈ data.globs → afterRepoRoot (Lines.strip t) = none) : Reproducible site dir data where
  cpus := hcpus
  order := horder
  globs found hfound := by rw [globLines_of_findProblems hfound (hlines found hfound) hroot]

/-! ### A workflow with one pair -/

/-- One configurations file, one solver directory and one problem. -/
def sampleSite (table : Text) : Site where
  base := ⟨1, ["work".toList]⟩
  repo := ⟨1, ["repo".toList]⟩
  cache := ⟨1, ["cache".toList]⟩
  base_absolute := Nat.one_ne_zero
  repo_absolute := Nat.one_ne_zero
  cache_absolute := Nat.one_ne_zero
  base_valid := ⟨by decide, by decide, by decide⟩
  repo_valid := valid_repo
  userPath t := t
  isDir t := decide (t = "/solver".toList)
  isFile t := decide (t = "/work/table.csv".toList ∨ t = "/problem.p".toList)
  readText t := if t = "/work/table.csv".toList then some table else none
  glob pattern := if pattern = "/problem.p".toList then [⟨1, ["problem.p".toList]⟩] else []
  glob_absolute pattern p hp := by
    split at hp
    · rw [List.mem_singleton.1 hp]
      exact Nat.one_ne_zero
    · cases hp
  archive _ := none
  cluster _ := none
  topology _ _ := none
  supports _ _ _ := true
  shlexSplit t := some ((t.splitOn ' ').filter (· ≠ []))
  casefold := lower
  shuffle := List.range
  shuffle_perm := perm_range

def sampleData : Data where
  host := "datalab".toList
  partition := "cpu".toList
  pairOrder := []
  mode := .configurations "table.csv".toList
  globs := [some "/problem.p".toList]

def sampleTable : Text :=
  "command,solver_directory,".toList ++ "wc_limit,cpu_limit,mem_limit,".toList ++ "cores,cpus\n".toList ++
    "./run,/solver,10,10,".toList ++ "100MB,1,auto\n".toList

/-- The file without the column of CPUs. -/
def cpulessTable : Text :=
  "command,solver_directory,".toList ++ "wc_limit,cpu_limit,mem_limit,".toList ++ "cores\n".toList ++
    "./run,/solver,10,10,".toList ++ "100MB,1\n".toList

/-- The command line on the files that are saved. -/
def sampleRun (table : Text) : Option (Option Text × Text) :=
  (specification (sampleSite table) (fun _ _ => true) ⟨1, ["tmp".toList]⟩ sampleData).map fun saved =>
    (expandSaved (sampleSite table) ⟨1, ["flow".toList]⟩ sampleData saved, saved.jobpairs)

theorem expand_reproduces_sample :
    ∃ saved, specification (sampleSite sampleTable) (fun _ _ => true) ⟨1, ["tmp".toList]⟩ sampleData = some saved ∧
      Reproducible (sampleSite sampleTable) ⟨1, ["flow".toList]⟩ sampleData := by
  have hrun : (sampleRun sampleTable).any (fun run => run.1 = some run.2) = true := by decide +kernel
  obtain ⟨run, hsome, heq⟩ := Option.any_eq_true _ _ |>.1 hrun
  obtain ⟨saved, hsaved, rfl⟩ := Option.map_eq_some_iff.1 hsome
  exact ⟨saved, hsaved, (expand_reproduces_iff _ _ _ _ _ _ hsaved).1 (of_decide_eq_true heq)⟩

/-- The web application accepts a file without CPUs, and the command line does not. -/
theorem cpuless_not_reproduced :
    ∃ saved, specification (sampleSite cpulessTable) (fun _ _ => true) ⟨1, ["tmp".toList]⟩ sampleData = some saved ∧
      expandSaved (sampleSite cpulessTable) ⟨1, ["flow".toList]⟩ sampleData saved = none := by
  have hrun : (sampleRun cpulessTable).any (fun run => run.1 = none) = true := by decide +kernel
  obtain ⟨run, hsome, heq⟩ := Option.any_eq_true _ _ |>.1 hrun
  obtain ⟨saved, hsaved, rfl⟩ := Option.map_eq_some_iff.1 hsome
  exact ⟨saved, hsaved, of_decide_eq_true heq⟩

end Workflow
end Slurmy
