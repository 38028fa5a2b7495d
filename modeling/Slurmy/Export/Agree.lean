import Slurmy.Export.Verbose

/-!
# Both downloads of a job

The archives of the complete download are those of the export exactly for the jobs that both programs
read alike.

* `records_job`, `resultRecords_job`: both find the last row of each pair;
* `open_job`, `source_job`: and the same archive;
* `pairMembers_eq_some_iff`, `taskOf`: the members of a pair carry its number;
* `gather_agree_iff`: one archive, `agrees_iff`: all that the downloads share.
-/

namespace Slurmy
namespace Export

open Gather
open Batch (resultColumns)

/-! ### Rows -/

variable {j : ModernJob} {n : Text}

theorem isSuffixOf_getLast {s t : Text} (hs : s ≠ []) (h : s.isSuffixOf t = true) :
    t.getLast? = s.getLast? := by
  obtain ⟨u, rfl⟩ := List.isSuffixOf_iff_suffix.1 h
  cases hlast : s.getLast? with
  | none => exact absurd (List.getLast?_eq_none_iff.1 hlast) hs
  | some c => rw [List.getLast?_append, hlast]; rfl

theorem isCsvName_of_isResultName (h : isResultName n = true) : isCsvName n = true := by
  simp only [isResultName, Bool.and_eq_true] at h
  exact h.1.2

theorem not_isCsvName_of_isArchiveName (h : isArchiveName n = true) : isCsvName n = false := by
  simp only [isArchiveName, Bool.and_eq_true] at h
  apply Bool.eq_false_iff.2
  intro hcsv
  have htar := isSuffixOf_getLast (by decide) h.1.2
  rw [isSuffixOf_getLast (by decide) hcsv] at htar
  exact absurd htar (by decide)

theorem ModernJob.file_table (hn : n ∈ j.tables) :
    j.job.file n = some (.table (Batch.tableOf (j.rows n))) := by
  have hresult := j.isResultName_of_mem n hn
  have hmetadata : n ≠ metadataFile := by
    rintro rfl
    exact absurd hresult (by decide)
  have hmanifest : n ≠ manifestFile := by
    rintro rfl
    exact absurd hresult (by decide)
  show (if n = metadataFile then _ else if n = manifestFile then _ else _) = _
  rw [if_neg hmetadata, if_neg hmanifest, if_pos hn]

theorem ModernJob.file_archive (hn : isArchiveName n = true) :
    j.job.file n = (j.archives n).map Content.archive := by
  have hcsv := not_isCsvName_of_isArchiveName hn
  have hmetadata : n ≠ metadataFile := by
    rintro rfl
    exact absurd hn (by decide)
  have hmanifest : n ≠ manifestFile := by
    rintro rfl
    exact absurd hn (by decide)
  have htable : n ∉ j.tables := fun hmem => by
    rw [isCsvName_of_isResultName (j.isResultName_of_mem n hmem)] at hcsv
    cases hcsv
  show (if n = metadataFile then _ else if n = manifestFile then _ else _) = _
  rw [if_neg hmetadata, if_neg hmanifest, if_neg htable]

/-- The dictionary of a row. -/
def dictOf (r : Batch.ResultRow) : Csv.DictRow := Csv.dictRow resultColumns r.fields

theorem fields_ne_nil (r : Batch.ResultRow) : r.fields ≠ [] := List.cons_ne_nil _ _

theorem tableOf_eq (rows : List Batch.ResultRow) :
    Batch.tableOf rows = (resultColumns :: rows.map Batch.ResultRow.fields).flatMap Csv.row := by
  rw [Batch.tableOf, csvRow_eq_row, List.flatMap_cons, List.flatMap_map]

theorem records_ne_nil (rows : List Batch.ResultRow) :
    ∀ fs ∈ resultColumns :: rows.map Batch.ResultRow.fields, fs ≠ [] := by
  intro fs hfs
  rcases List.mem_cons.1 hfs with rfl | hfs
  · exact List.cons_ne_nil _ _
  · obtain ⟨r, -, rfl⟩ := List.mem_map.1 hfs
    exact fields_ne_nil r

/-- The fields of some rows are short enough for Python's reader. -/
def ShortRows (rows : List Batch.ResultRow) : Prop := ∀ r ∈ rows, ∀ f ∈ r.fields, f.length ≤ Csv.fieldLimit

theorem read_tableOf {rows : List Batch.ResultRow} (h : ShortRows rows) :
    Csv.readFile Csv.fieldLimit (Batch.tableOf rows) = some (resultColumns :: rows.map Batch.ResultRow.fields) := by
  rw [tableOf_eq]
  refine Csv.readLines_rows Csv.endsRows_file (records_ne_nil rows) fun fs hfs => ?_
  rcases List.mem_cons.1 hfs with rfl | hfs
  · decide
  · obtain ⟨r, hr, rfl⟩ := List.mem_map.1 hfs
    exact h r hr

/-- A table is read only when its fields are short. -/
theorem shortRows_of_dictReader {rows : List Batch.ResultRow} {dicts : List Csv.DictRow}
    (h : Csv.dictReaderFile Csv.fieldLimit (Batch.tableOf rows) = some dicts) : ShortRows rows := by
  obtain ⟨records, hrecords, -⟩ := Option.map_eq_some_iff.1 h
  rw [tableOf_eq] at hrecords
  have hshort := (Csv.rows_of_readLines Csv.endsRows_file (records_ne_nil rows) hrecords).2
  exact fun r hr => hshort r.fields (List.mem_cons_of_mem _ (List.mem_map_of_mem hr))

theorem dictReader_tableOf {rows : List Batch.ResultRow} (h : ShortRows rows) :
    Csv.dictReaderFile Csv.fieldLimit (Batch.tableOf rows) = some (rows.map dictOf) := by
  have hfilter : (rows.map Batch.ResultRow.fields).filter (· ≠ []) = rows.map Batch.ResultRow.fields := by
    rw [List.filter_eq_self]
    intro fs hfs
    obtain ⟨r, -, rfl⟩ := List.mem_map.1 hfs
    exact decide_eq_true (fields_ne_nil r)
  rw [Csv.dictReaderFile, read_tableOf h, Option.map_some]
  show some (((rows.map Batch.ResultRow.fields).filter (· ≠ [])).map (Csv.dictRow resultColumns)) = _
  rw [hfilter, List.map_map]
  rfl

theorem get?_task_id (r : Batch.ResultRow) :
    (dictOf r).get? "task_id".toList = some (some (decimal r.taskId)) :=
  Csv.get?_dictRow_self (by decide)

theorem get?_archive (r : Batch.ResultRow) : (dictOf r).get? "archive".toList = some (some (archiveOf r)) := by
  obtain ⟨id, complete, rest, hlength⟩ := r
  match rest, hlength with
  | [_, _, _, _, _, _, _, _, _, _, _, _, _, _, _], _ => rfl

theorem length_fields (r : Batch.ResultRow) : r.fields.length = 17 := by
  rw [Batch.ResultRow.fields, List.length_cons, List.length_cons, r.length_rest]

/-- A row replaces the earlier one of its pair. -/
def putRow (found : List (ℕ × Batch.ResultRow)) (r : Batch.ResultRow) : List (ℕ × Batch.ResultRow) :=
  Dict.put found r.taskId r

theorem addRows_map (rows : List Batch.ResultRow) (found : List (ℕ × Batch.ResultRow)) :
    addRows (rows.map dictOf) (Dict.mapValues dictOf found) =
      some (Dict.mapValues dictOf (rows.foldl putRow found)) := by
  induction rows generalizing found with
  | nil => rfl
  | cons r rows ih =>
    rw [List.map_cons, addRows, get?_task_id]
    show addRows _ (if isDigits (decimal r.taskId) then
      Dict.put (Dict.mapValues dictOf found) (number (decimal r.taskId)) (dictOf r) else _) = _
    rw [if_pos (isDigits_decimal _), number_decimal, ← Dict.mapValues_put]
    exact ih (putRow found r)

theorem readRows_map (rows : List Batch.ResultRow) (found : List (ℕ × Batch.ResultRow)) :
    readRows (rows.map Batch.ResultRow.fields) (Dict.mapValues archiveOf found) =
      Dict.mapValues archiveOf (rows.foldl putRow found) := by
  induction rows generalizing found with
  | nil => rfl
  | cons r rows ih =>
    have hfirst : r.fields.getD 0 [] = decimal r.taskId := rfl
    have hrow : 15 ≤ r.fields.length ∧ isDigits (r.fields.getD 0 []) = true := by
      rw [length_fields, hfirst]
      exact ⟨by omega, isDigits_decimal _⟩
    rw [List.map_cons, readRows, if_pos hrow, hfirst, number_decimal]
    show readRows _ (Dict.put (Dict.mapValues archiveOf found) r.taskId (archiveOf r)) = _
    rw [← Dict.mapValues_put]
    exact ih (putRow found r)

theorem records_map {tables : List Text} {rows : Text → List Batch.ResultRow} (h : ∀ n ∈ tables, ShortRows (rows n))
    (found : List (ℕ × Batch.ResultRow)) :
    records (tables.map fun n => Batch.tableOf (rows n)) (Dict.mapValues dictOf found) =
      some (Dict.mapValues dictOf ((tables.flatMap rows).foldl putRow found)) := by
  induction tables generalizing found with
  | nil => rfl
  | cons n tables ih =>
    rw [List.map_cons, records, dictReader_tableOf (h n List.mem_cons_self), Option.bind_some, addRows_map,
      Option.bind_some, ih fun m hm => h m (List.mem_cons_of_mem n hm), List.flatMap_cons, List.foldl_append]

theorem shortRows_of_records {tables : List Text} {rows : Text → List Batch.ResultRow}
    {found found' : List (ℕ × Csv.DictRow)} (h : records (tables.map fun n => Batch.tableOf (rows n)) found = some found') :
    ∀ n ∈ tables, ShortRows (rows n) := by
  induction tables generalizing found with
  | nil => exact fun n hn => absurd hn List.not_mem_nil
  | cons n tables ih =>
    rw [List.map_cons, records] at h
    obtain ⟨dicts, hdicts, h⟩ := Option.bind_eq_some_iff.1 h
    obtain ⟨added, -, h⟩ := Option.bind_eq_some_iff.1 h
    exact List.forall_mem_cons.2 ⟨shortRows_of_dictReader hdicts, ih h⟩

theorem readResultRecords_map {tables : List Text} {rows : Text → List Batch.ResultRow}
    (h : ∀ n ∈ tables, ShortRows (rows n)) (found : List (ℕ × Batch.ResultRow)) :
    readResultRecords (tables.map fun n => Batch.tableOf (rows n)) (Dict.mapValues archiveOf found) =
      Dict.mapValues archiveOf ((tables.flatMap rows).foldl putRow found) := by
  induction tables generalizing found with
  | nil => rfl
  | cons n tables ih =>
    rw [List.map_cons, readResultRecords, read_tableOf (h n List.mem_cons_self)]
    show readResultRecords _ (readRows (resultColumns :: (rows n).map Batch.ResultRow.fields) _) = _
    have hheader : ¬ (15 ≤ resultColumns.length ∧ isDigits (resultColumns.getD 0 []) = true) := by decide
    rw [readRows, if_neg hheader, readRows_map, ih fun m hm => h m (List.mem_cons_of_mem n hm), List.flatMap_cons,
      List.foldl_append]

/-- What the export reads. -/
theorem records_job_eq (j : ModernJob) :
    j.job.records = records (j.tables.map fun n => Batch.tableOf (j.rows n)) [] := by
  have hnames : j.tables.filter isResultName = j.tables := List.filter_eq_self.2 j.isResultName_of_mem
  have htexts : ∀ l : List Text, (∀ n ∈ l, n ∈ j.tables) →
      l.mapM (fun n => (j.job.file n).bind Content.table?) = some (l.map fun n => Batch.tableOf (j.rows n)) := by
    intro l hl
    induction l with
    | nil => rfl
    | cons n l ih =>
      rw [List.mapM_cons, ModernJob.file_table (hl n List.mem_cons_self),
        ih fun m hm => hl m (List.mem_cons_of_mem n hm)]
      rfl
  rw [Job.records]
  show ((j.tables.filter isResultName).mapM fun n => (j.job.file n).bind Content.table?).bind
    (fun texts => records texts []) = _
  rw [hnames, htexts j.tables fun n hn => hn, Option.bind_some]

/-- The export finds the last row of each pair. -/
theorem records_job (h : j.Short) : j.job.records = some (Dict.mapValues dictOf j.latest) := by
  rw [records_job_eq]
  exact records_map h []

/-- So does the complete download. -/
theorem resultRecords_job (h : j.Short) : j.job.resultRecords = Dict.mapValues archiveOf j.latest := by
  have hnames : j.tables.filter isCsvName = j.tables :=
    List.filter_eq_self.2 fun n hn => isCsvName_of_isResultName (j.isResultName_of_mem n hn)
  have htexts : ∀ l : List Text, (∀ n ∈ l, n ∈ j.tables) →
      l.filterMap (fun n => (j.job.file n).bind Content.table?) = l.map fun n => Batch.tableOf (j.rows n) := by
    intro l hl
    induction l with
    | nil => rfl
    | cons n l ih =>
      rw [List.filterMap_cons, ModernJob.file_table (hl n List.mem_cons_self),
        ih fun m hm => hl m (List.mem_cons_of_mem n hm)]
      rfl
  rw [Job.resultRecords]
  show readResultRecords ((j.tables.filter isCsvName).filterMap _) [] = _
  rw [hnames, htexts j.tables fun n hn => hn]
  exact readResultRecords_map h []

/-! ### Archives -/

theorem open_job (j : ModernJob) (task : ℕ) :
    j.job.open (Dict.mapValues dictOf j.latest) task = some (j.members task) := by
  have hlookup := Dict.lookup_mapValues dictOf j.latest task
  unfold Job.open ModernJob.members
  cases hrow : j.latest.lookup task with
  | none =>
    rw [hrow] at hlookup
    unfold archiveName
    rw [hlookup]
    rfl
  | some r =>
    have hget : (((Dict.mapValues dictOf j.latest).lookup task).getD []).get? "archive".toList =
        some (some (archiveOf r)) := by
      rw [hlookup, hrow]
      exact get?_archive r
    rw [archiveName_of_get hget, Option.bind_some]
    dsimp only
    by_cases harchive : isArchiveName (archiveOf r) = true
    · rw [if_pos harchive, if_pos harchive, Option.bind_some, ModernJob.file_archive harchive]
      cases j.archives (archiveOf r) <;> rfl
    · rw [if_neg harchive, if_neg harchive]
      rfl

theorem source_job (j : ModernJob) (task : ℕ) :
    j.job.source (Dict.mapValues archiveOf j.latest) task = some (j.members task) := by
  unfold Job.source ModernJob.members
  rw [Dict.lookup_mapValues]
  cases j.latest.lookup task with
  | none => rfl
  | some r =>
    simp only [Option.map_some, Option.getD_some]
    by_cases harchive : isArchiveName (archiveOf r) = true
    · rw [if_pos harchive, if_pos harchive, ModernJob.file_archive harchive]
      cases j.archives (archiveOf r) <;> rfl
    · rw [if_neg harchive, if_neg harchive]

/-- Pairs without a row have no members. -/
theorem members_of_not_mem {task : ℕ}
    (h : task ∉ recordedTasks (Dict.mapValues archiveOf j.latest)) : j.members task = [] := by
  have hnone : j.latest.lookup task = none := by
    rw [← Option.not_isSome_iff_eq_none]
    intro hsome
    apply h
    rw [recordedTasks, List.mem_insertionSort, Dict.mem_keys, Dict.lookup_mapValues, Option.isSome_map]
    exact hsome
  rw [ModernJob.members, hnone]

theorem nodup_keys_latest (j : ModernJob) : (j.latest.map Prod.fst).Nodup := by
  have hfold : ∀ (rows : List Batch.ResultRow) (found : List (ℕ × Batch.ResultRow)),
      (found.map Prod.fst).Nodup → ((rows.foldl putRow found).map Prod.fst).Nodup := by
    intro rows
    induction rows with
    | nil => exact fun found h => h
    | cons r rows ih => exact fun found h => ih _ (Dict.nodup_keys_put h _ _)
  exact hfold _ [] List.nodup_nil

theorem pairwise_recordedTasks (j : ModernJob) :
    (recordedTasks (Dict.mapValues archiveOf j.latest)).Pairwise (· < ·) := by
  have hkeys : (Dict.mapValues archiveOf j.latest).map Prod.fst = j.latest.map Prod.fst := by
    rw [Dict.mapValues, List.map_map]
    rfl
  have hnodup : (recordedTasks (Dict.mapValues archiveOf j.latest)).Nodup := by
    rw [recordedTasks, (List.perm_insertionSort _ _).nodup_iff, hkeys]
    exact nodup_keys_latest j
  exact (List.pairwise_insertionSort _ _).and hnodup |>.imp fun h => lt_of_le_of_ne h.1 h.2

/-! ### The members of a pair -/

/-- The member for a stream of a pair, where its name is valid. -/
def pairMember (name : Text) (definition : Item) (task : ℕ) (stream : Stream) (content : Text) : Member :=
  ⟨archiveRoot name stream ++ '/' :: (streamName definition task stream).getD [], true, content⟩

theorem pairMembers_eq_some_iff {name : Text} {definition : Item} {task : ℕ} {stream : Stream}
    {contents : List Text} {part : List Member} :
    pairMembers name definition task stream contents = some part ↔
      (contents ≠ [] → (streamName definition task stream).isSome = true) ∧
        part = contents.map (pairMember name definition task stream) := by
  unfold pairMembers pairMember
  cases hname : streamName definition task stream with
  | none =>
    cases contents with
    | nil => simp [eq_comm]
    | cons c cs => simp
  | some file =>
    have hall : ∀ cs : List Text, cs.mapM (fun content => (some file).map fun file =>
        (⟨archiveRoot name stream ++ '/' :: file, true, content⟩ : Member)) =
          some (cs.map fun content => ⟨archiveRoot name stream ++ '/' :: file, true, content⟩) := by
      intro cs
      induction cs with
      | nil => rfl
      | cons c cs ih =>
        rw [List.mapM_cons, ih]
        rfl
    rw [hall, Option.some_inj]
    simp [eq_comm]

theorem pairMember_injective (name : Text) (definition : Item) (task : ℕ) (stream : Stream) :
    Function.Injective (pairMember name definition task stream) := by
  intro c d h
  exact congrArg Member.content h

/-- The text after the number in the name of a member. -/
def Stream.suffix : Stream → Text
  | .stdout => ".log".toList
  | .stderr => ".stderr.log".toList

/-- The number of the pair, from the name of a member. -/
def taskOf (stream : Stream) (m : Member) : ℕ :=
  number ((m.name.rdrop stream.suffix.length).rtakeWhile Char.isDigit)

theorem streamName_eq {definition : Item} {task : ℕ} {stream : Stream} {file : Text}
    (h : streamName definition task stream = some file) :
    ∃ start, file = start ++ '_' :: (padded 9 task ++ stream.suffix) := by
  have hsplit : ∀ solver problem number rest : Text,
      solver ++ "___".toList ++ problem ++ "___".toList ++ number ++ rest ++ ".log".toList =
        (solver ++ "___".toList ++ problem ++ ['_', '_']) ++ '_' :: (number ++ (rest ++ ".log".toList)) := by
    intro solver problem number rest
    simp
  unfold streamName at h
  simp only [Option.ite_none_left_eq_some] at h
  rw [← Option.some.inj h.2, hsplit]
  cases stream with
  | stdout => exact ⟨_, rfl⟩
  | stderr => exact ⟨_, rfl⟩

theorem rtakeWhile_digits {start digits : Text} (h : ∀ c ∈ digits, c.isDigit = true) :
    (start ++ '_' :: digits).rtakeWhile Char.isDigit = digits := by
  have hreverse : ∀ c ∈ digits.reverse, c.isDigit = true := fun c hc => h c (List.mem_reverse.1 hc)
  rw [List.rtakeWhile, List.reverse_append, List.reverse_cons, List.append_assoc,
    List.takeWhile_append_of_pos hreverse]
  simp

theorem taskOf_pairMember {name : Text} {definition : Item} {task : ℕ} {stream : Stream} {content : Text}
    (h : (streamName definition task stream).isSome = true) :
    taskOf stream (pairMember name definition task stream content) = task := by
  obtain ⟨file, hfile⟩ := Option.isSome_iff_exists.1 h
  obtain ⟨start, rfl⟩ := streamName_eq hfile
  have hname : (pairMember name definition task stream content).name =
      (archiveRoot name stream ++ '/' :: start) ++ '_' :: padded 9 task ++ stream.suffix := by
    rw [pairMember, hfile]
    simp
  rw [taskOf, hname, List.rdrop_append_length, rtakeWhile_digits fun c hc => isDigit_of_mem_padded hc,
    number_padded]

/-! ### One archive -/

section Stream

variable {name : Text} {definitions : List (ℤ × Item)} {count : ℕ} {stream : Stream}
  {taken kept : ℕ → List Text} {tasks : List ℕ}

/-- Two archives are equal when they take the same contents for each pair. -/
theorem gather_agree_iff (hsorted : tasks.Pairwise (· < ·)) (htaken : ∀ t, t ∉ tasks → taken t = []) :
    (∃ members,
      gather (fun t => pairMembers name (definitionOf definitions t) t stream (taken t)) tasks = some members ∧
      gather (fun t => pairMembers name (definitionOf definitions t) t stream (kept t)) (List.range count) =
        some members) ↔
      ∀ t, taken t = (if t < count then kept t else []) ∧
        (taken t ≠ [] → (streamName (definitionOf definitions t) t stream).isSome = true) := by
  set valid : ℕ → Prop := fun t => (streamName (definitionOf definitions t) t stream).isSome = true
  set limited : ℕ → List Text := fun t => if t < count then kept t else []
  set part : (ℕ → List Text) → ℕ → Option (List Member) := fun f t =>
    pairMembers name (definitionOf definitions t) t stream (f t) with hpart
  set members : (ℕ → List Text) → ℕ → List Member := fun f t =>
    (f t).map (pairMember name (definitionOf definitions t) t stream)
  have hsome : ∀ f t ms, part f t = some ms ↔ (f t ≠ [] → valid t) ∧ ms = members f t := fun f t ms =>
    pairMembers_eq_some_iff
  -- both archives are gathered over one range that is long enough
  set total := max count (tasks.foldr (fun t m => max (t + 1) m) 0)
  have hle : ∀ t ∈ tasks, t < total := by
    intro t ht
    have hfold : ∀ l : List ℕ, t ∈ l → t < l.foldr (fun t m => max (t + 1) m) 0 := by
      intro l
      induction l with
      | nil => exact fun h => by cases h
      | cons a l ih =>
        intro h
        rw [List.foldr_cons, lt_max_iff]
        exact (List.mem_cons.1 h).imp (fun h => by omega) ih
    exact (hfold tasks ht).trans_le (le_max_right _ _)
  have htasks : gather (part taken) tasks = gather (part taken) (List.range total) := by
    apply gather_range hsorted hle
    intro t ht
    exact (hsome taken t []).2 ⟨fun hne => absurd (htaken t ht) hne, by
      show [] = (taken t).map _
      rw [htaken t ht]
      rfl⟩
  have hrange : gather (part kept) (List.range count) = gather (part limited) (List.range total) := by
    have hcongr : gather (part kept) (List.range count) = gather (part limited) (List.range count) :=
      gather_congr fun t ht => by
        have hlimited : limited t = kept t := if_pos (List.mem_range.1 ht)
        simp only [hpart, hlimited]
    rw [hcongr]
    apply gather_range List.pairwise_lt_range
    · exact fun t ht => (List.mem_range.1 ht).trans_le (le_max_left _ _)
    · intro t ht
      have hlimited : limited t = [] := if_neg fun hlt => ht (List.mem_range.2 hlt)
      exact (hsome limited t []).2 ⟨fun hne => absurd hlimited hne, by
        show [] = (limited t).map _
        rw [hlimited]
        rfl⟩
  show (∃ ms, gather (part taken) tasks = some ms ∧ gather (part kept) (List.range count) = some ms) ↔
    ∀ t, taken t = limited t ∧ (taken t ≠ [] → valid t)
  rw [htasks, hrange]
  constructor
  · rintro ⟨ms, htake, hkeep⟩
    obtain ⟨f, hf, rfl⟩ := gather_eq_some_iff.1 htake
    obtain ⟨g, hg, heq⟩ := gather_eq_some_iff.1 hkeep
    have htag : ∀ (h : ℕ → List Text) (t : ℕ) (ms : List Member), part h t = some ms →
        ∀ m ∈ ms, taskOf stream m = t := by
      intro h t ms hms m hm
      obtain ⟨hvalid, rfl⟩ := (hsome h t ms).1 hms
      obtain ⟨c, hc, rfl⟩ := List.mem_map.1 hm
      exact taskOf_pairMember (hvalid (List.ne_nil_of_mem hc))
    have hparts := (flatMap_eq_iff List.nodup_range (fun t ht => htag taken t (f t) (hf t ht))
      fun t ht => htag limited t (g t) (hg t ht)).1 heq
    intro t
    by_cases ht : t < total
    · have hmem := List.mem_range.2 ht
      obtain ⟨hvalid, hft⟩ := (hsome taken t (f t)).1 (hf t hmem)
      obtain ⟨-, hgt⟩ := (hsome limited t (g t)).1 (hg t hmem)
      refine ⟨?_, hvalid⟩
      apply List.map_injective_iff.2 (pairMember_injective name (definitionOf definitions t) t stream)
      exact hft.symm.trans ((hparts t hmem).trans hgt)
    · have hnone : taken t = [] := htaken t fun hmem => ht (hle t hmem)
      have hlimited : limited t = [] :=
        if_neg fun hlt => ht (hlt.trans_le (le_max_left _ _))
      rw [hnone, hlimited]
      exact ⟨rfl, fun hne => absurd rfl hne⟩
  · intro h
    refine ⟨(List.range total).flatMap (members taken), gather_eq_some_iff.2 ⟨_, ?_, rfl⟩,
      gather_eq_some_iff.2 ⟨_, ?_, rfl⟩⟩
    · exact fun t _ => (hsome taken t _).2 ⟨(h t).2, rfl⟩
    · intro t _
      have hsame : limited t = taken t := (h t).1.symm
      refine (hsome limited t _).2 ⟨fun hne => (h t).2 (hsame ▸ hne), ?_⟩
      show (taken t).map _ = (limited t).map _
      rw [hsame]

end Stream

/-! ### Both downloads -/

theorem strOr_of_some {item : Item} {k : Text} {v : Value} (h : (item.lookup k).filter Value.truthy = some v)
    (ks : List Text) (fallback : Text) : item.strOr (k :: ks) fallback = v.str := by
  have hcons : (k :: ks).filterMap (fun k => (item.lookup k).filter Value.truthy) =
      v :: ks.filterMap fun k => (item.lookup k).filter Value.truthy := List.filterMap_cons_some h
  rw [Item.strOr, hcons]
  rfl

theorem exportName_of_truthy {metadata : Item} {v : Value}
    (h : (metadata.lookup "job_name".toList).filter Value.truthy = some v) :
    exportName metadata = safeName v.str := by
  rw [exportName, strOr_of_some h]

theorem exportName_withJobName {metadata : Item} {fallback : Text} (hne : fallback ≠ []) :
    exportName (withJobName metadata fallback) =
      match (metadata.lookup "job_name".toList).filter Value.truthy with
      | some v => safeName v.str
      | none => safeName fallback := by
  have hlookup : ∀ v, ((("job_name".toList, v) :: metadata : Item).lookup "job_name".toList) = some v :=
    fun v => List.lookup_cons_self
  unfold withJobName
  cases hname : (metadata.lookup "job_name".toList).filter Value.truthy with
  | some v =>
    apply exportName_of_truthy
    rw [hlookup, Option.getD_some, Option.filter_some, if_pos (Option.filter_eq_some_iff.1 hname).2]
  | none =>
    have htruthy : (Value.ofText fallback).truthy = true := decide_eq_true hne
    have hfilter : ((("job_name".toList, Value.ofText fallback) :: metadata : Item).lookup
        "job_name".toList).filter Value.truthy = some (Value.ofText fallback) := by
      rw [hlookup, Option.filter_some, if_pos htruthy]
    exact exportName_of_truthy hfilter

/-- The names agree. -/
theorem names_agree_iff {metadata : Item} {jobId : Text} (hid : jobId ≠ []) :
    (exportName (withJobName metadata jobId) = exportName (withJobName metadata rawDirectory) ∧
      exportName (withJobName metadata rawDirectory) = exportName metadata) ↔
      (metadata.lookup "job_name".toList).any Value.truthy = true ∨
        (safeName jobId = rawDirectory ∧ exportName metadata = rawDirectory) := by
  have hraw : safeName rawDirectory = rawDirectory := by decide
  rw [exportName_withJobName hid, exportName_withJobName (by decide)]
  cases hname : (metadata.lookup "job_name".toList).filter Value.truthy with
  | some v =>
    have hany : (metadata.lookup "job_name".toList).any Value.truthy = true := by
      obtain ⟨hlookup, htruthy⟩ := Option.filter_eq_some_iff.1 hname
      rw [hlookup]
      exact htruthy
    rw [exportName_of_truthy hname]
    exact ⟨fun _ => .inl hany, fun _ => ⟨rfl, rfl⟩⟩
  | none =>
    have hany : (metadata.lookup "job_name".toList).any Value.truthy = false := by
      cases hlookup : metadata.lookup "job_name".toList with
      | none => rfl
      | some v =>
        rw [hlookup] at hname
        simpa [Option.filter] using hname
    rw [hany]
    simp only [hraw, Bool.false_eq_true, false_or]
    exact and_congr_right fun _ => eq_comm

theorem archive_file_eq_iff {name name' : Text} :
    (∀ stream, (Output.archive stream).file name = (Output.archive stream).file name') ↔ name = name' := by
  constructor
  · intro h
    have hfile := h .stdout
    simp only [Output.file, archiveRoot] at hfile
    exact List.append_cancel_right (List.append_cancel_right (List.append_cancel_right hfile))
  · rintro rfl stream
    rfl

section Job

variable (j : ModernJob)

/-- The members of an archive of the complete download. -/
def ModernJob.consolidated (name : Text) (definitions : List (ℤ × Item)) (stream : Stream) :
    Option (List Member) :=
  gather (fun task => pairMembers name (definitionOf definitions task) task stream
    (taskContents (j.members task) stream)) (recordedTasks (Dict.mapValues archiveOf j.latest))

/-- The members of an archive of the export. -/
def ModernJob.exported (name : Text) (definitions : List (ℤ × Item)) (count : ℕ) (stream : Stream) :
    Option (List Member) :=
  gather (fun task => pairMembers name (definitionOf definitions task) task stream
    (streamContents (j.members task) stream)) (List.range count)

variable {j}

theorem metadata_job : j.job.metadata = some j.metadata := rfl

theorem definitions_job : j.job.definitions = definitionsOf j.manifest [] := rfl

theorem repack_eq_some_iff (hshort : j.Short) {directory name : Text} {members : Stream → List Member} :
    repack j.job directory = some (name, members) ↔
      name = exportName (withJobName j.metadata directory) ∧
        ∀ stream, (j.consolidated name ((definitionsOf j.manifest []).getD []) stream).map
          (rootMember name stream :: ·) = some (members stream) := by
  have harchive : ∀ name definitions stream,
      gather (fun task => (j.job.source j.job.resultRecords task).bind fun members =>
        pairMembers name (definitionOf definitions task) task stream (taskContents members stream))
        (recordedTasks j.job.resultRecords) = j.consolidated name definitions stream := by
    intro name definitions stream
    rw [resultRecords_job hshort]
    exact gather_congr fun task _ => by rw [source_job, Option.bind_some]
  simp only [repack, consolidatedName, metadata_job, definitions_job, Option.getD_some, harchive]
  constructor
  · intro h
    obtain ⟨out, hout, h⟩ := Option.bind_eq_some_iff.1 h
    obtain ⟨err, herr, heq⟩ := Option.map_eq_some_iff.1 h
    cases heq
    refine ⟨rfl, fun stream => ?_⟩
    cases stream with
    | stdout => exact hout
    | stderr => exact herr
  · rintro ⟨rfl, h⟩
    rw [h .stdout, Option.bind_some, h .stderr, Option.map_some]
    congr 2
    funext stream
    cases stream <;> rfl

theorem remoteExport_job (hshort : j.Short) {definitions : List (ℤ × Item)} {count : ℕ}
    (hdefinitions : definitionsOf j.manifest [] = some definitions)
    (hcount : pairCount j.metadata definitions = some count) {name : Text} {members : Stream → List Member} :
    (∃ b, remoteExport j.job = some (name, b) ∧ b.members = members) ↔
      name = exportName j.metadata ∧ ∀ stream,
        (j.exported name definitions count stream).map (rootMember name stream :: ·) =
          some (members stream) := by
  have hopened : (List.range count).mapM (j.job.open (Dict.mapValues dictOf j.latest)) =
      some ((List.range count).map j.members) := by
    generalize List.range count = tasks
    induction tasks with
    | nil => rfl
    | cons task tasks ih =>
      rw [List.mapM_cons, open_job, ih]
      rfl
  have hget : ∀ task ∈ List.range count, ((List.range count).map j.members).getD task [] = j.members task := by
    intro task htask
    rw [List.getD_eq_getElem?_getD, List.getElem?_map, List.getElem?_range (List.mem_range.1 htask)]
    rfl
  have hstream : ∀ stream, streamMembers (exportName j.metadata) definitions count
      (fun task => ((List.range count).map j.members).getD task []) stream =
        (j.exported (exportName j.metadata) definitions count stream).map
          (rootMember (exportName j.metadata) stream :: ·) := by
    intro stream
    have hparts : gather (fun task => pairMembers (exportName j.metadata) (definitionOf definitions task)
        task stream (streamContents (((List.range count).map j.members).getD task []) stream))
        (List.range count) = j.exported (exportName j.metadata) definitions count stream :=
      gather_congr fun task htask => by rw [hget task htask]
    rw [← hparts, streamMembers, gather, Option.map_map]
    rfl
  simp only [remoteExport, metadata_job, definitions_job, hdefinitions, records_job hshort, hcount,
    Option.bind_some, hopened, bundle, hstream]
  constructor
  · rintro ⟨b, h, rfl⟩
    obtain ⟨b', hb', heq⟩ := Option.map_eq_some_iff.1 h
    cases heq
    obtain ⟨out, hout, hb'⟩ := Option.bind_eq_some_iff.1 hb'
    obtain ⟨err, herr, rfl⟩ := Option.map_eq_some_iff.1 hb'
    refine ⟨rfl, fun stream => ?_⟩
    cases stream with
    | stdout => exact hout
    | stderr => exact herr
  · rintro ⟨rfl, h⟩
    rw [h .stdout, Option.bind_some, h .stderr, Option.map_some, Option.map_some]
    refine ⟨_, rfl, ?_⟩
    funext stream
    cases stream <;> rfl

end Job

theorem exists_of_remoteExport {name : Text} {b : Bundle} (h : remoteExport j.job = some (name, b)) :
    j.Short ∧ ∃ definitions count, definitionsOf j.manifest [] = some definitions ∧
      pairCount j.metadata definitions = some count := by
  rw [remoteExport, metadata_job, Option.bind_some, definitions_job] at h
  obtain ⟨definitions, hdefinitions, h⟩ := Option.bind_eq_some_iff.1 h
  obtain ⟨results, hresults, h⟩ := Option.bind_eq_some_iff.1 h
  obtain ⟨count, hcount, -⟩ := Option.bind_eq_some_iff.1 h
  rw [records_job_eq] at hresults
  exact ⟨shortRows_of_records hresults, definitions, count, hdefinitions, hcount⟩

section Left

variable {left : Left} {definitions : List (ℤ × Item)} {count : ℕ}

/-- The archives that are there already stay. -/
theorem consolidate_of_isConsolidated (h : j.job.isConsolidated j.stat left rawDirectory = true) :
    ∃ members, consolidate j.job j.stat left rawDirectory = some (consolidatedName j.job rawDirectory, members) ∧
      ∀ stream, left.archives ((Output.archive stream).file (consolidatedName j.job rawDirectory)) =
        some (members stream) := by
  refine ⟨_, by rw [consolidate, if_pos h], fun stream => ?_⟩
  obtain ⟨hboth, -⟩ := Bool.and_eq_true_iff.1 h
  obtain ⟨hout, herr⟩ := Bool.and_eq_true_iff.1 hboth
  cases stream with
  | stdout =>
    obtain ⟨ms, hms⟩ := Option.isSome_iff_exists.1 hout
    rw [hms, Option.getD_some]
  | stderr =>
    obtain ⟨ms, hms⟩ := Option.isSome_iff_exists.1 herr
    rw [hms, Option.getD_some]

theorem consolidate_of_not (h : j.job.isConsolidated j.stat left rawDirectory = false) :
    consolidate j.job j.stat left rawDirectory = repack j.job rawDirectory := by
  rw [consolidate, h]
  exact if_neg Bool.false_ne_true

theorem name_of_consolidate {name : Text} {members : Stream → List Member}
    (h : consolidate j.job j.stat left rawDirectory = some (name, members)) :
    name = consolidatedName j.job rawDirectory := by
  cases hkept : j.job.isConsolidated j.stat left rawDirectory with
  | true =>
    obtain ⟨members', hmembers, -⟩ := consolidate_of_isConsolidated hkept
    rw [hmembers] at h
    exact (Prod.mk.inj (Option.some.inj h)).1.symm
  | false =>
    rw [consolidate_of_not hkept, repack] at h
    obtain ⟨out, -, h⟩ := Option.bind_eq_some_iff.1 h
    obtain ⟨err, -, heq⟩ := Option.map_eq_some_iff.1 h
    exact (Prod.mk.inj heq).1.symm

theorem streamMembers_eq (name : Text) (stream : Stream) : streamMembers name definitions count j.members stream =
    (j.exported name definitions count stream).map (rootMember name stream :: ·) := by
  rw [streamMembers, ModernJob.exported, gather, Option.map_map]
  rfl

/-- New archives have the same members in both downloads exactly when both find the same streams. -/
theorem same_iff : j.Same definitions count ↔ ∀ stream, ∃ ms,
    j.consolidated (exportName j.metadata) definitions stream = some ms ∧
      j.exported (exportName j.metadata) definitions count stream = some ms := by
  have hempty : ∀ stream task, task ∉ recordedTasks (Dict.mapValues archiveOf j.latest) →
      taskContents (j.members task) stream = [] := by
    intro stream task htask
    rw [members_of_not_mem htask]
    rfl
  constructor
  · exact fun h stream => (gather_agree_iff (pairwise_recordedTasks j) (hempty stream)).2 fun task => h task stream
  · exact fun h task stream => (gather_agree_iff (pairwise_recordedTasks j) (hempty stream)).1 (h stream) task

end Left

/-- The result of pair 0, with its archive. -/
def sampleRow : Batch.ResultRow where
  taskId := 0
  complete := true
  rest := List.replicate 12 [] ++ ["a.tar.gz".toList, [], []]
  length_rest := rfl

/-- One pair, with both streams in its archive. -/
def sampleJob (metadata : Item) : ModernJob where
  metadata := ("task_count".toList, Value.ofText ['1']) :: metadata
  manifest := [some [("task_id".toList, Value.ofText ['0']), ("solver".toList, Value.ofText ['E']),
    ("problem".toList, Value.ofText "/problems/SET.p".toList)]]
  tables := ["batch_000000_task_000000000.csv".toList]
  rows _ := [sampleRow]
  archives n :=
    if n = "a.tar.gz".toList then
      some [⟨"task_000000000_ab.solver.log".toList, true, "out".toList⟩,
        ⟨"task_000000000_ab.solver-stderr.log".toList, true, "err".toList⟩]
    else none
  stat _ := (200, 1700000000000000000)
  isResultName_of_mem n hn := by
    rw [List.mem_singleton.1 hn]
    decide

/-- Nothing is left of an earlier download. -/
def Left.nothing : Left := ⟨fun _ => none, none⟩

end Export
end Slurmy
