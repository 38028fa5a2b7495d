import Mathlib.Data.List.AList
import Slurmy.Lib.CsvExcel
import Slurmy.Lib.CsvStream
import Slurmy.Lib.Lines
import Slurmy.Lib.Machine
import Slurmy.Export.Remote

/-!
# The download of an export

`compact_sync_loop` starts the exporter on the cluster, reads the names of the three files from what it prints, and
puts the files into a local folder.

* `printed`, `expected`: what the exporter prints, and what is read of it; `expected_printed`: the names are read;
* `completedOf`: the pairs that the summary counts; `completedOf_summary`: those of an export;
* `State`, `Event`, `step`: the iterations, with a folder that a user may change between them; an iteration may fail or
  be killed anywhere;
* `download_kept`: how a file can go away;
* `downloaded`: what an iteration leaves that has finished.

Neither the folder of the download nor the one to which older results are moved is a link.  The two listings of the
folder, the move and the making of a new folder are one step.
-/

namespace Slurmy
namespace Export
namespace Download

/-! ### What the exporter prints -/

structure Names where
  summary : Text
  stdout : Text
  stderr : Text
  deriving DecidableEq

def Names.file (names : Names) : Output → Text
  | .summary => names.summary
  | .archive .stdout => names.stdout
  | .archive .stderr => names.stderr

def Names.list (names : Names) : List Text := [names.summary, names.stdout, names.stderr]

/-- `export_names`. -/
def exportNames (metadata : Item) : Names :=
  ⟨Output.summary.file (exportName metadata), (Output.archive .stdout).file (exportName metadata),
    (Output.archive .stderr).file (exportName metadata)⟩

/-- The line with the names. -/
def filesLine (names : Names) : Text :=
  "EXPORT_FILES|".toList ++ names.summary ++ '|' :: names.stdout ++ '|' :: names.stderr ++ ['\n']

/-- The lines of an exporter that finishes; `unchanged` says that the files are there. -/
def printed (metadata : Item) (count : ℕ) (unchanged : Bool) : List Text :=
  (if unchanged then ["Export unchanged; reusing the three existing files.\n".toList]
    else
      (((List.range count).filter fun task => (task + 1) % 1000 = 0 ∨ task + 1 = count).map fun task =>
        "Exporting solver-problem pairs and logs: ".toList ++ decimal (task + 1) ++ '/' :: decimal count ++ ['\n']) ++
      ["Export ready: ".toList ++ decimal count ++ " solver-problem pairs\n".toList]) ++
    [filesLine (exportNames metadata)]

/-! ### What is read of it -/

/-- `[A-Za-z0-9][A-Za-z0-9._-]*`. -/
def isFileName : Text → Bool
  | [] => false
  | c :: t => c.isAlphanum && t.all fun c => c.isAlphanum || isMark c

/-- The names of a line, `none` when they are not accepted. -/
def candidate (line : Text) : Option Names :=
  if "EXPORT_FILES|".toList.isPrefixOf line then
    match ((Lines.strip line).splitOn '|').tail with
    | [summary, stdout, stderr] =>
        if isFileName summary && isFileName stdout && isFileName stderr && ".csv".toList.isSuffixOf summary &&
            ".tgz".toList.isSuffixOf stdout && ".tgz".toList.isSuffixOf stderr then
          some ⟨summary, stdout, stderr⟩
        else none
    | _ => none
  else none

/-- The names that the last line gives. -/
def expected (lines : List Text) : Option Names := (lines.filterMap candidate).getLast?

/-- `expected[0].removesuffix('_results-summary.csv')`. -/
def Names.job (names : Names) : Text :=
  let suffix := "_results-summary.csv".toList
  if suffix.isSuffixOf names.summary then names.summary.take (names.summary.length - suffix.length) else names.summary

/-- `old_names`. -/
def Names.old (names : Names) : List Text :=
  [names.job ++ ".csv".toList, names.job ++ "_logs.tgz".toList, names.job ++ "_errors.tgz".toList]

def isTrue (value : Text) : Bool := decide (value.map Char.toLower = "true".toList)

/-- Whether a row is counted, `none` when it ends too early. -/
def flagOf (row : Csv.DictRow) : Option Bool :=
  match row.get? "complete".toList with
  | none => some false
  | some value => value.map isTrue

/-- `completed` and `total`, `none` when the summary cannot be read. -/
def completedOf (text : Text) : Option (ℕ × ℕ) :=
  (Csv.dictReaderFile Csv.fieldLimit text).bind fun rows => (rows.mapM flagOf).map fun flags => (flags.count true, flags.length)

/-! ### The folder -/

/-- A file with its text, a symbolic link to a file or to something else, or a folder. -/
inductive Entry
  | file (text : Text)
  | link (toFile : Bool)
  | folder
  deriving DecidableEq

/-- `is_file`. -/
def Entry.isFile : Entry → Bool
  | .file _ => true
  | .link toFile => toFile
  | .folder => false

abbrev Folder := AList fun _ : Text => Entry

inductive Phase
  /-- the exporter runs, or the pause before it -/
  | prepare
  | look (names : Names)
  /-- the folder is there; `old` are the files of an older download -/
  | transfer (names : Names) (old : List Text)
  /-- the staged files that are not moved yet -/
  | replace (names : Names) (old : List Text) (files : Output → Text) (todo : List Output)
  /-- the older files that are not removed yet; `again` says that another iteration follows -/
  | drop (names : Names) (files : Output → Text) (todo : List Text) (again : Bool)

structure Run where
  /-- `--output` names the folder -/
  output : Bool
  follow : Bool
  phase : Phase

/-- `received` are all transfers that were complete, the last one first. -/
structure State where
  folder : Option Folder
  legacy : Option Folder
  received : List (Names × (Output → Text))
  active : Option Run

inductive Event
  | start (output follow : Bool)
  /-- the exporter has finished -/
  | report (metadata : Item) (count : ℕ) (unchanged : Bool)
  | look
  /-- all three files are staged -/
  | transfer (files : Output → Text)
  | replace
  | count
  | drop
  | finish
  /-- the program is killed, or it fails at one of its other steps -/
  | stop
  /-- a user puts something into the folder -/
  | place (name : Text) (entry : Entry)
  | remove (name : Text)
  /-- a user removes the folder -/
  | clear
  /-- a user takes the older results away -/
  | takeLegacy

/-- The names under which older files are found. -/
def oldFiles (names : Names) (d : Folder) : List Text :=
  d.keys.filter fun n => n ∈ names.old ∧ ((d.lookup n).map Entry.isFile) = some true

def State.stopped (s : State) : State := { s with active := none }

def State.goto (s : State) (r : Run) (phase : Phase) : State := { s with active := some { r with phase := phase } }

/-- The next step of the program; an error stops it. -/
def advance (s : State) (r : Run) : Event → Option State
  | .report metadata count unchanged =>
      match r.phase with
      | .prepare =>
          some <| match expected (printed metadata count unchanged) with
            | some names => s.goto r (.look names)
            | none => s.stopped
      | _ => none
  | .look =>
      match r.phase with
      | .look names =>
          let d := s.folder.getD ∅
          let old := oldFiles names d
          some <|
            if ∃ n ∈ d.keys, n ∉ names.list ∧ n ∉ old then
              if r.output ∨ s.legacy.isSome then s.stopped
              else { s.goto r (.transfer names old) with folder := some ∅, legacy := some d }
            else { s.goto r (.transfer names old) with folder := some d }
      | _ => none
  | .transfer files =>
      match r.phase with
      | .transfer names old =>
          some { s.goto r (.replace names old files outputs) with received := (names, files) :: s.received }
      | _ => none
  | .replace =>
      match r.phase with
      | .replace names old files (o :: todo) =>
          s.folder.map fun d =>
            if d.lookup (names.file o) = some .folder then s.stopped
            else { s.goto r (.replace names old files todo) with
              folder := some (d.insert (names.file o) (.file (files o))) }
      | _ => none
  | .count =>
      match r.phase with
      | .replace names old files [] =>
          s.folder.map fun d =>
            match d.lookup names.summary with
            | some (.file text) =>
                match completedOf text with
                | some (completed, total) =>
                    s.goto r (.drop names files old (r.follow && !decide (total ≠ 0 ∧ completed = total)))
                | none => s.stopped
            | _ => s.stopped
      | _ => none
  | .drop =>
      match r.phase with
      | .drop names files (n :: todo) again =>
          s.folder.map fun d =>
            if d.lookup n = some .folder then s.stopped
            else { s.goto r (.drop names files todo again) with folder := some (d.erase n) }
      | _ => none
  | .finish =>
      match r.phase with
      | .drop _ _ [] again => some (if again then s.goto r .prepare else s.stopped)
      | _ => none
  | .stop => some s.stopped
  | _ => none

/-- No iteration works on the folder. -/
def State.free (s : State) : Bool :=
  match s.active with
  | none => true
  | some r => match r.phase with
    | .prepare => true
    | _ => false

/-- A user leaves the folder alone while an iteration works on it. -/
def step (s : State) : Event → Option State
  | .start output follow =>
      if s.active.isNone then some { s with active := some ⟨output, follow, .prepare⟩ } else none
  | .place name entry => if s.free then some { s with folder := some ((s.folder.getD ∅).insert name entry) } else none
  | .remove name => if s.free then some { s with folder := s.folder.map fun d => d.erase name } else none
  | .clear => if s.free then some { s with folder := none } else none
  | .takeLegacy => if s.free then some { s with legacy := none } else none
  | e => s.active.bind fun r => advance s r e

/-! ### Names -/

section Names

variable {metadata : Item}

theorem isNameChar_replaceRuns (dash : Bool) (t : Text) :
    ∀ c ∈ replaceRuns dash t, (c.isAlphanum || isMark c) = true := by
  induction t generalizing dash with
  | nil => exact fun c hc => absurd hc List.not_mem_nil
  | cons d t ih =>
    unfold replaceRuns
    split_ifs with hchar hdash
    · refine List.forall_mem_cons.mpr ⟨?_, ih false⟩
      simpa [isMark, Bool.or_assoc] using hchar
    · exact ih true
    · exact List.forall_mem_cons.mpr ⟨rfl, ih true⟩

/-- A name for files. -/
theorem isFileName_safeName (t : Text) : isFileName (safeName t) = true := by
  unfold safeName
  dsimp only
  split_ifs with hempty
  · rfl
  · obtain ⟨c, u, hname⟩ := List.exists_cons_of_ne_nil hempty
    have hprefix : c :: u <+: (replaceRuns false t).dropWhile isMark := by
      rw [← hname]
      exact (List.take_prefix 80 _).trans (List.rdropWhile_prefix _ _)
    obtain ⟨rest, hrest⟩ := hprefix
    have hmark := List.head?_dropWhile_not isMark (replaceRuns false t)
    rw [← hrest] at hmark
    have hchars : ∀ d ∈ c :: u, (d.isAlphanum || isMark d) = true := fun d hd =>
      isNameChar_replaceRuns false t d
        ((List.dropWhile_sublist isMark).subset (by rw [← hrest]; exact List.mem_append_left _ hd))
    obtain ⟨hc, hu⟩ := List.forall_mem_cons.mp hchars
    rw [show isMark c = false from hmark, Bool.or_false] at hc
    rw [hname, isFileName, hc, List.all_eq_true.mpr hu]
    rfl

theorem isFileName_append {t : Text} (ht : isFileName t = true) {u : Text}
    (hu : u.all (fun c => c.isAlphanum || isMark c) = true) : isFileName (t ++ u) = true := by
  cases t with
  | nil => cases ht
  | cons c t =>
    rw [isFileName, Bool.and_eq_true] at ht
    rw [List.cons_append, isFileName, List.all_append, ht.1, ht.2, hu]
    rfl

theorem bar_not_mem {t : Text} (ht : isFileName t = true) : '|' ∉ t := by
  intro hmem
  cases t with
  | nil => cases hmem
  | cons c t =>
    rw [isFileName, Bool.and_eq_true] at ht
    rcases List.mem_cons.mp hmem with rfl | hmem
    · exact absurd ht.1 (by decide)
    · have hbar : ('|'.isAlphanum || isMark '|') = true := List.all_eq_true.mp ht.2 '|' hmem
      exact absurd hbar (by decide)

theorem strip_newline {t : Text} {c : Char} (hhead : Lines.isSpace c = false)
    (hlast : ∀ d ∈ (c :: t).getLast?, Lines.isSpace d = false) : Lines.strip (c :: t ++ ['\n']) = c :: t := by
  have hsame := Lines.strip_of_ends (t := c :: t) (fun d hd => by rwa [← Option.some.inj hd]) hlast
  unfold Lines.strip at hsame ⊢
  rw [List.dropWhile_cons_of_neg (by rw [hhead]; exact Bool.false_ne_true)] at hsame
  rw [List.cons_append, List.dropWhile_cons_of_neg (by rw [hhead]; exact Bool.false_ne_true), ← List.cons_append,
    List.rdropWhile_concat_pos _ _ _ (by decide), hsame]

theorem line_eq (word summary stdout stderr : Text) :
    word ++ ['|'] ++ summary ++ '|' :: stdout ++ '|' :: stderr ++ ['\n'] =
      word ++ '|' :: (summary ++ '|' :: (stdout ++ '|' :: stderr)) ++ ['\n'] := by
  simp only [List.append_assoc, List.cons_append, List.nil_append]

/-- The line is read back. -/
theorem candidate_filesLine {names : Names} (hsummary : isFileName names.summary = true)
    (hstdout : isFileName names.stdout = true) (hstderr : isFileName names.stderr = true)
    (hcsv : ".csv".toList.isSuffixOf names.summary = true) (htgz : ".tgz".toList.isSuffixOf names.stdout = true)
    (htgz' : ".tgz".toList.isSuffixOf names.stderr = true) : candidate (filesLine names) = some names := by
  obtain ⟨c, word, hword, hbar, hspace⟩ : ∃ c word, c :: word ++ ['|'] = "EXPORT_FILES|".toList ∧ '|' ∉ c :: word ∧
      Lines.isSpace c = false := ⟨'E', "XPORT_FILES".toList, by decide +kernel, by decide +kernel, by decide⟩
  obtain ⟨fields, hfields⟩ : ∃ fields, fields = names.summary ++ '|' :: (names.stdout ++ '|' :: names.stderr) := ⟨_, rfl⟩
  have hline : filesLine names = c :: word ++ '|' :: fields ++ ['\n'] := by
    unfold filesLine
    rw [hfields, ← hword]
    exact line_eq _ _ _ _
  have hprefix : "EXPORT_FILES|".toList.isPrefixOf (filesLine names) = true := by
    rw [List.isPrefixOf_iff_prefix, hline, ← hword]
    refine ⟨fields ++ ['\n'], ?_⟩
    rw [List.append_assoc, List.append_assoc]
    rfl
  have hlast : ∀ d ∈ (c :: word ++ '|' :: fields).getLast?, Lines.isSpace d = false := by
    obtain ⟨start, hstart⟩ := List.isSuffixOf_iff_suffix.mp htgz'
    have hend : c :: word ++ '|' :: fields = (c :: word ++ '|' :: (names.summary ++ '|' ::
        (names.stdout ++ '|' :: (start ++ ['.', 't', 'g'])))) ++ ['z'] := by
      have htext : ".tgz".toList = ['.', 't', 'g'] ++ ['z'] := by decide +kernel
      rw [hfields, ← hstart, htext]
      simp only [List.append_assoc, List.cons_append, List.nil_append]
    intro d hd
    rw [hend, List.getLast?_concat] at hd
    rw [← Option.some.inj hd]
    decide
  have hstrip : Lines.strip (filesLine names) = c :: word ++ '|' :: fields := by
    rw [hline]
    exact strip_newline hspace hlast
  have hsplit : (Lines.strip (filesLine names)).splitOn '|' =
      [c :: word, names.summary, names.stdout, names.stderr] := by
    rw [hstrip, hfields, List.splitOn_append_cons_self_of_not_mem hbar,
      List.splitOn_append_cons_self_of_not_mem (bar_not_mem hsummary),
      List.splitOn_append_cons_self_of_not_mem (bar_not_mem hstdout), List.splitOn_eq_singleton (bar_not_mem hstderr)]
  unfold candidate
  rw [if_pos hprefix, hsplit, List.tail_cons]
  dsimp only
  rw [hsummary, hstdout, hstderr, hcsv, htgz, htgz']
  exact if_pos rfl

/-- What follows the name of the export. -/
def ending : Output → Text
  | .summary => "_results-summary.csv".toList
  | .archive .stdout => "_solver-stdout.tgz".toList
  | .archive .stderr => "_solver-stderr.tgz".toList

theorem file_eq (metadata : Item) (o : Output) : (exportNames metadata).file o = exportName metadata ++ ending o := by
  cases o with
  | summary => rfl
  | archive stream =>
    cases stream with
    | stdout =>
      show archiveRoot _ .stdout ++ _ = _
      rw [archiveRoot, List.append_assoc, List.append_assoc]
      rfl
    | stderr =>
      show archiveRoot _ .stderr ++ _ = _
      rw [archiveRoot, List.append_assoc, List.append_assoc]
      rfl

/-- The names that are printed are read. -/
theorem expected_printed (metadata : Item) (count : ℕ) (unchanged : Bool) :
    expected (printed metadata count unchanged) = some (exportNames metadata) := by
  have hname (o : Output) (hending : (ending o).all (fun c => c.isAlphanum || isMark c) = true) :
      isFileName ((exportNames metadata).file o) = true := by
    rw [file_eq]
    exact isFileName_append (isFileName_safeName _) hending
  have hsuffix (o : Output) {t : Text} (ht : t <:+ ending o) : t.isSuffixOf ((exportNames metadata).file o) = true := by
    rw [List.isSuffixOf_iff_suffix, file_eq]
    exact ht.trans (List.suffix_append _ _)
  have hline : candidate (filesLine (exportNames metadata)) = some (exportNames metadata) :=
    candidate_filesLine (hname .summary (by decide)) (hname (.archive .stdout) (by decide))
      (hname (.archive .stderr) (by decide)) (hsuffix .summary ⟨"_results-summary".toList, rfl⟩)
      (hsuffix (.archive .stdout) ⟨"_solver-stdout".toList, rfl⟩)
      (hsuffix (.archive .stderr) ⟨"_solver-stderr".toList, rfl⟩)
  unfold expected printed
  rw [List.filterMap_append, List.filterMap_cons_some hline, List.filterMap_nil]
  exact List.getLast?_concat

theorem job_exportNames : (exportNames metadata).job = exportName metadata := by
  have hsuffix : "_results-summary.csv".toList.isSuffixOf (exportNames metadata).summary = true :=
    List.isSuffixOf_iff_suffix.mpr (List.suffix_append _ _)
  unfold Names.job
  dsimp only
  rw [if_pos hsuffix]
  show (exportName metadata ++ "_results-summary.csv".toList).take _ = _
  rw [List.take_left']
  rw [exportNames, Output.file, List.length_append, Nat.add_sub_cancel]

/-- No old name is a new one. -/
theorem disjoint_old (o : Output) : (exportNames metadata).file o ∉ (exportNames metadata).old := by
  unfold Names.old
  rw [job_exportNames, file_eq]
  intro hmem
  simp only [List.mem_cons, List.not_mem_nil, or_false, List.append_cancel_left_eq] at hmem
  revert hmem
  rcases o with _ | (_ | _) <;> decide

theorem file_injective : Function.Injective (exportNames metadata).file := by
  intro o o' heq
  rw [file_eq, file_eq] at heq
  have hending : ending o = ending o' := List.append_cancel_left heq
  rcases o with _ | (_ | _) <;> rcases o' with _ | (_ | _) <;> first | rfl | exact absurd hending (by decide)

end Names

/-! ### Invariants -/

/-- What an iteration knows. -/
structure State.Knows (s : State) (names : Names) (old : List Text) (d : Folder) : Prop where
  exporter : ∃ metadata, names = exportNames metadata
  folder : s.folder = some d
  nothing : ∀ n ∈ d, n ∈ names.list ∨ n ∈ old
  former : ∀ n ∈ old, n ∈ names.old ∧ ∀ entry, d.lookup n = some entry → entry.isFile = true

/-- How far an iteration has come. -/
def State.At (s : State) (r : Run) : Prop :=
  match r.phase with
  | .prepare => True
  | .look names => ∃ metadata, names = exportNames metadata
  | .transfer names old => ∃ d, s.Knows names old d
  | .replace names old files todo => s.received.head? = some (names, files) ∧
      ∃ d done, s.Knows names old d ∧ outputs = done ++ todo ∧ ∀ o ∈ done, d.lookup (names.file o) = some (.file (files o))
  | .drop names files todo again => s.received.head? = some (names, files) ∧
      ∃ d completed total, s.Knows names todo d ∧ (∀ o, d.lookup (names.file o) = some (.file (files o))) ∧
        completedOf (files .summary) = some (completed, total) ∧
        again = (r.follow && !decide (total ≠ 0 ∧ completed = total))

def State.Inv (s : State) : Prop := ∀ r, s.active = some r → s.At r

/-! ### What a step does -/

section Steps

variable {s t : State} {r : Run} {e : Event} {n : Text} {entry : Entry}

theorem advance_report {metadata : Item} {count : ℕ} {unchanged : Bool}
    (h : advance s r (.report metadata count unchanged) = some t) :
    r.phase = .prepare ∧ t = s.goto r (.look (exportNames metadata)) := by
  dsimp only [advance] at h
  split at h
  · next hphase =>
    rw [expected_printed] at h
    exact ⟨hphase, (Option.some.inj h).symm⟩
  · cases h

theorem advance_look (h : advance s r .look = some t) : ∃ names d old, r.phase = .look names ∧ d = s.folder.getD ∅ ∧
    old = oldFiles names d ∧
    (t = s.stopped ∨
      (s.legacy = none ∧ t = { s.goto r (.transfer names old) with folder := some ∅, legacy := some d }) ∨
      ((∀ n ∈ d, n ∈ names.list ∨ n ∈ old) ∧ t = { s.goto r (.transfer names old) with folder := some d })) := by
  dsimp only [advance] at h
  split at h
  · next names hphase =>
    refine ⟨names, _, _, hphase, rfl, rfl, ?_⟩
    have h := Option.some.inj h
    split_ifs at h with hother hblocked
    · exact .inl h.symm
    · refine .inr (.inl ⟨?_, h.symm⟩)
      rw [not_or] at hblocked
      simpa using hblocked.2
    · refine .inr (.inr ⟨fun n hn => ?_, h.symm⟩)
      by_contra hnot
      rw [not_or] at hnot
      exact hother ⟨n, hn, hnot⟩
  · cases h

theorem advance_transfer {files : Output → Text} (h : advance s r (.transfer files) = some t) : ∃ names old,
    r.phase = .transfer names old ∧
      t = { s.goto r (.replace names old files outputs) with received := (names, files) :: s.received } := by
  dsimp only [advance] at h
  split at h
  · next names old hphase => exact ⟨names, old, hphase, (Option.some.inj h).symm⟩
  · cases h

theorem advance_replace (h : advance s r .replace = some t) : ∃ names old files o todo d,
    r.phase = .replace names old files (o :: todo) ∧ s.folder = some d ∧
      (t = s.stopped ∨ d.lookup (names.file o) ≠ some .folder ∧
        t = { s.goto r (.replace names old files todo) with
          folder := some (d.insert (names.file o) (.file (files o))) }) := by
  dsimp only [advance] at h
  split at h
  · next names old files o todo hphase =>
    obtain ⟨d, hd, h⟩ := Option.map_eq_some_iff.mp h
    refine ⟨names, old, files, o, todo, d, hphase, hd, ?_⟩
    split_ifs at h with hfolder
    · exact .inl h.symm
    · exact .inr ⟨hfolder, h.symm⟩
  · cases h

theorem advance_count (h : advance s r .count = some t) : ∃ names old files d,
    r.phase = .replace names old files [] ∧ s.folder = some d ∧
      (t = s.stopped ∨ ∃ text completed total, d.lookup names.summary = some (.file text) ∧
        completedOf text = some (completed, total) ∧
        t = s.goto r (.drop names files old (r.follow && !decide (total ≠ 0 ∧ completed = total)))) := by
  dsimp only [advance] at h
  split at h
  · next names old files hphase =>
    obtain ⟨d, hd, h⟩ := Option.map_eq_some_iff.mp h
    refine ⟨names, old, files, d, hphase, hd, ?_⟩
    split at h
    · next text htext =>
      split at h
      · next completed total hcompleted => exact .inr ⟨text, completed, total, htext, hcompleted, h.symm⟩
      · exact .inl h.symm
    · exact .inl h.symm
  · cases h

theorem advance_drop (h : advance s r .drop = some t) : ∃ names files n todo again d,
    r.phase = .drop names files (n :: todo) again ∧ s.folder = some d ∧
      (t = s.stopped ∨ d.lookup n ≠ some .folder ∧
        t = { s.goto r (.drop names files todo again) with folder := some (d.erase n) }) := by
  dsimp only [advance] at h
  split at h
  · next names files n todo again hphase =>
    obtain ⟨d, hd, h⟩ := Option.map_eq_some_iff.mp h
    refine ⟨names, files, n, todo, again, d, hphase, hd, ?_⟩
    split_ifs at h with hfolder
    · exact .inl h.symm
    · exact .inr ⟨hfolder, h.symm⟩
  · cases h

theorem advance_finish (h : advance s r .finish = some t) : ∃ names files again, r.phase = .drop names files [] again ∧
    t = if again then s.goto r .prepare else s.stopped := by
  dsimp only [advance] at h
  split at h
  · next names files again hphase => exact ⟨names, files, again, hphase, (Option.some.inj h).symm⟩
  · cases h

/-- Between iterations nothing is known. -/
theorem inv_of_free (h : s.free = true) : s.Inv := by
  intro r hr
  unfold State.free at h
  rw [hr] at h
  dsimp only at h
  split at h
  · next hphase =>
    unfold State.At
    rw [hphase]
    trivial
  · cases h

theorem inv_stopped (s : State) : s.stopped.Inv := fun _ hr => by cases hr

theorem mem_oldFiles {names : Names} {d : Folder} :
    n ∈ oldFiles names d ↔ n ∈ d ∧ n ∈ names.old ∧ (d.lookup n).map Entry.isFile = some true := by
  simp [oldFiles, AList.mem_keys]

theorem mem_list (names : Names) (o : Output) : names.file o ∈ names.list := by
  cases o with
  | summary => exact List.mem_cons_self
  | archive stream => cases stream <;> simp [Names.file, Names.list]

theorem mem_outputs (o : Output) : o ∈ outputs := by
  cases o with
  | summary => exact List.mem_cons_self
  | archive stream => cases stream <;> decide

/-- The program keeps what it knows. -/
theorem advance_inv (h : s.At r) (hstep : advance s r e = some t) : t.Inv := by
  unfold State.At at h
  cases e with
  | report metadata count unchanged =>
    obtain ⟨-, rfl⟩ := advance_report hstep
    intro r' hr'
    obtain rfl := Option.some.inj hr'
    exact ⟨metadata, rfl⟩
  | look =>
    obtain ⟨names, d, old, hphase, hd, rfl, rfl | ⟨hlegacy, rfl⟩ | ⟨hnothing, rfl⟩⟩ := advance_look hstep
    · exact inv_stopped s
    · rw [hphase] at h
      intro r' hr'
      obtain rfl := Option.some.inj hr'
      refine ⟨∅, h, rfl, fun n hn => absurd hn (AList.notMem_empty n), fun n hn => ⟨(mem_oldFiles.mp hn).2.1, ?_⟩⟩
      intro entry hentry
      rw [AList.lookup_empty] at hentry
      cases hentry
    · rw [hphase] at h
      intro r' hr'
      obtain rfl := Option.some.inj hr'
      refine ⟨d, h, rfl, hnothing, fun n hn => ⟨(mem_oldFiles.mp hn).2.1, fun entry hentry => ?_⟩⟩
      have hfile := (mem_oldFiles.mp hn).2.2
      rw [hentry] at hfile
      exact Option.some.inj hfile
  | transfer files =>
    obtain ⟨names, old, hphase, rfl⟩ := advance_transfer hstep
    rw [hphase] at h
    obtain ⟨d, hd⟩ := h
    intro r' hr'
    obtain rfl := Option.some.inj hr'
    exact ⟨rfl, d, [], ⟨hd.exporter, hd.folder, hd.nothing, hd.former⟩, rfl, fun o ho => absurd ho List.not_mem_nil⟩
  | replace =>
    obtain ⟨names, old, files, o, todo, d, hphase, hd, rfl | ⟨hfolder, rfl⟩⟩ := advance_replace hstep
    · exact inv_stopped s
    · rw [hphase] at h
      obtain ⟨hreceived, d', done, hknows, houtputs, hdone⟩ := h
      obtain rfl : d = d' := Option.some.inj (hd.symm.trans hknows.folder)
      obtain ⟨metadata, hnames⟩ := hknows.exporter
      intro r' hr'
      obtain rfl := Option.some.inj hr'
      refine ⟨hreceived, d.insert (names.file o) (.file (files o)), done ++ [o], ⟨hknows.exporter, rfl, ?_, ?_⟩, ?_, ?_⟩
      · intro n hn
        rcases (AList.mem_insert d).mp hn with rfl | hn
        · exact .inl (mem_list names o)
        · exact hknows.nothing n hn
      · intro n hn
        obtain ⟨hold, hfile⟩ := hknows.former n hn
        have hne : n ≠ names.file o := by
          rintro rfl
          rw [hnames] at hold
          exact disjoint_old o hold
        rw [AList.lookup_insert_ne hne]
        exact ⟨hold, hfile⟩
      · rw [houtputs, List.append_assoc, List.singleton_append]
      · intro o' ho'
        by_cases hsame : o' = o
        · rw [hsame, AList.lookup_insert]
        · have hne : names.file o' ≠ names.file o := by
            rw [hnames]
            exact fun heq => hsame (file_injective heq)
          rw [AList.lookup_insert_ne hne]
          exact hdone o' ((List.mem_append.mp ho').resolve_right fun hlast => hsame (List.mem_singleton.mp hlast))
  | count =>
    obtain ⟨names, old, files, d, hphase, hd, rfl | ⟨text, completed, total, htext, hcompleted, rfl⟩⟩ :=
      advance_count hstep
    · exact inv_stopped s
    · rw [hphase] at h
      obtain ⟨hreceived, d', done, hknows, houtputs, hdone⟩ := h
      obtain rfl : d = d' := Option.some.inj (hd.symm.trans hknows.folder)
      rw [List.append_nil] at houtputs
      have hall : ∀ o, d.lookup (names.file o) = some (.file (files o)) := fun o => hdone o (houtputs ▸ mem_outputs o)
      have hsame : Entry.file text = .file (files .summary) := Option.some.inj (htext.symm.trans (hall .summary))
      intro r' hr'
      obtain rfl := Option.some.inj hr'
      refine ⟨hreceived, d, completed, total, ⟨hknows.exporter, hknows.folder, hknows.nothing, hknows.former⟩, hall, ?_, rfl⟩
      rw [← Entry.file.inj hsame]
      exact hcompleted
  | drop =>
    obtain ⟨names, files, n, todo, again, d, hphase, hd, rfl | ⟨hfolder, rfl⟩⟩ := advance_drop hstep
    · exact inv_stopped s
    · rw [hphase] at h
      obtain ⟨hreceived, d', completed, total, hknows, hall, hcompleted, hagain⟩ := h
      obtain rfl : d = d' := Option.some.inj (hd.symm.trans hknows.folder)
      obtain ⟨metadata, hnames⟩ := hknows.exporter
      have hother (o : Output) : names.file o ≠ n := by
        rintro rfl
        have hold := (hknows.former _ List.mem_cons_self).1
        rw [hnames] at hold
        exact disjoint_old o hold
      intro r' hr'
      obtain rfl := Option.some.inj hr'
      refine ⟨hreceived, d.erase n, completed, total, ⟨hknows.exporter, rfl, ?_, ?_⟩, ?_, hcompleted, hagain⟩
      · intro m hm
        obtain ⟨hne, hm⟩ := AList.mem_erase.mp hm
        exact (hknows.nothing m hm).imp id fun hm => (List.mem_cons.mp hm).resolve_left hne
      · intro m hm
        obtain ⟨hold, hfile⟩ := hknows.former m (List.mem_cons_of_mem n hm)
        refine ⟨hold, fun entry hentry => hfile entry ?_⟩
        by_cases hne : m = n
        · rw [hne, AList.lookup_erase] at hentry
          cases hentry
        · rwa [AList.lookup_erase_ne hne] at hentry
      · intro o
        rw [AList.lookup_erase_ne (hother o)]
        exact hall o
  | finish =>
    obtain ⟨names, files, again, -, rfl⟩ := advance_finish hstep
    cases again with
    | false => exact inv_stopped s
    | true =>
      intro r' hr'
      obtain rfl := Option.some.inj hr'
      trivial
  | stop =>
    obtain rfl := Option.some.inj hstep
    exact inv_stopped s
  | start output follow => cases hstep
  | place name entry => cases hstep
  | remove name => cases hstep
  | clear => cases hstep
  | takeLegacy => cases hstep

end Steps

/-! ### Files of a user -/

/-- In the folder, or where its contents have been moved to. -/
def State.Held (s : State) (n : Text) (entry : Entry) : Prop :=
  (∃ d, s.folder = some d ∧ d.lookup n = some entry) ∨ ∃ d, s.legacy = some d ∧ d.lookup n = some entry

/-- A user replaces `n`, or takes it away. -/
def Event.touches (n : Text) : Event → Bool
  | .place m _ => m = n
  | .remove m => m = n
  | .clear => true
  | .takeLegacy => true
  | _ => false

/-- The program takes `n` away: it has received all three files, and the one with this name replaces `n`, or they are all
there and `n` has one of the old names. -/
def State.Loses (s : State) (n : Text) (entry : Entry) (e : Event) : Prop :=
  ∃ names files, s.received.head? = some (names, files) ∧
    ((e = .replace ∧ entry ≠ .folder ∧ ∃ o, n = names.file o) ∨
      (e = .drop ∧ entry.isFile = true ∧ n ∈ names.old ∧
        ∃ d, s.folder = some d ∧ ∀ o, d.lookup (names.file o) = some (.file (files o))))

section Held

variable {s t : State} {r : Run} {e : Event} {es : List Event} {n : Text} {entry : Entry}

theorem State.Held.congr (h : s.Held n entry) (hfolder : t.folder = s.folder) (hlegacy : t.legacy = s.legacy) :
    t.Held n entry := by
  unfold State.Held
  rw [hfolder, hlegacy]
  exact h

/-- The folder has changed, but not there. -/
theorem State.Held.change {d d' : Folder} (h : s.Held n entry) (hfolder : s.folder = some d) (hfolder' : t.folder = some d')
    (hlegacy : t.legacy = s.legacy) (hsame : d.lookup n = some entry → d'.lookup n = some entry) : t.Held n entry := by
  rcases h with ⟨c, hc, hentry⟩ | hold
  · obtain rfl : d = c := Option.some.inj (hfolder.symm.trans hc)
    exact .inl ⟨d', hfolder', hsame hentry⟩
  · unfold State.Held
    rw [hlegacy]
    exact .inr hold

theorem advance_held (hinv : s.At r) (h : s.Held n entry) (hstep : advance s r e = some t) :
    t.Held n entry ∨ s.Loses n entry e := by
  unfold State.At at hinv
  cases e with
  | report metadata count unchanged =>
    obtain ⟨-, rfl⟩ := advance_report hstep
    exact .inl (h.congr rfl rfl)
  | look =>
    obtain ⟨names, d, old, -, hd, -, rfl | ⟨hlegacy, rfl⟩ | ⟨-, rfl⟩⟩ := advance_look hstep
    · exact .inl (h.congr rfl rfl)
    · -- what was in the folder is among the older results now
      rcases h with ⟨c, hc, hentry⟩ | ⟨c, hc, -⟩
      · rw [hc] at hd
        exact .inl (.inr ⟨d, rfl, hd ▸ hentry⟩)
      · rw [hlegacy] at hc
        cases hc
    · rcases h with ⟨c, hc, hentry⟩ | hold
      · rw [hc] at hd
        exact .inl (.inl ⟨d, rfl, hd ▸ hentry⟩)
      · exact .inl (.inr hold)
  | transfer files =>
    obtain ⟨names, old, -, rfl⟩ := advance_transfer hstep
    exact .inl (h.congr rfl rfl)
  | replace =>
    obtain ⟨names, old, files, o, todo, d, hphase, hd, rfl | ⟨hfolder, rfl⟩⟩ := advance_replace hstep
    · exact .inl (h.congr rfl rfl)
    · rw [hphase] at hinv
      by_cases hname : n = names.file o
      · by_cases hentry : d.lookup n = some entry
        · refine .inr ⟨names, files, hinv.1, .inl ⟨rfl, ?_, o, hname⟩⟩
          rintro rfl
          exact hfolder (hname ▸ hentry)
        · exact .inl (h.change hd rfl rfl fun hsame => absurd hsame hentry)
      · exact .inl (h.change hd rfl rfl fun hsame => by rwa [AList.lookup_insert_ne hname])
  | count =>
    obtain ⟨names, old, files, d, -, -, rfl | ⟨text, completed, total, -, -, rfl⟩⟩ := advance_count hstep
    · exact .inl (h.congr rfl rfl)
    · exact .inl (h.congr rfl rfl)
  | drop =>
    obtain ⟨names, files, m, todo, again, d, hphase, hd, rfl | ⟨-, rfl⟩⟩ := advance_drop hstep
    · exact .inl (h.congr rfl rfl)
    · rw [hphase] at hinv
      obtain ⟨hreceived, d', completed, total, hknows, hall, -⟩ := hinv
      obtain rfl : d = d' := Option.some.inj (hd.symm.trans hknows.folder)
      by_cases hname : n = m
      · by_cases hentry : d.lookup n = some entry
        · obtain ⟨hold, hfile⟩ := hknows.former m List.mem_cons_self
          subst hname
          exact .inr ⟨names, files, hreceived, .inr ⟨rfl, hfile entry hentry, hold, d, hd, hall⟩⟩
        · exact .inl (h.change hd rfl rfl fun hsame => absurd hsame hentry)
      · exact .inl (h.change hd rfl rfl fun hsame => by rwa [AList.lookup_erase_ne hname])
  | finish =>
    obtain ⟨names, files, again, -, rfl⟩ := advance_finish hstep
    cases again with
    | false => exact .inl (h.congr rfl rfl)
    | true => exact .inl (h.congr rfl rfl)
  | stop =>
    obtain rfl := Option.some.inj hstep
    exact .inl (h.congr rfl rfl)
  | start output follow => cases hstep
  | place name entry => cases hstep
  | remove name => cases hstep
  | clear => cases hstep
  | takeLegacy => cases hstep

/-- A step of the program, or one between the iterations that a user may have made. -/
theorem step_cases (hstep : step s e = some t) : (∃ r, s.active = some r ∧ advance s r e = some t) ∨
    t.free = true ∧ ∀ n entry, e.touches n = false → s.Held n entry → t.Held n entry := by
  cases e with
  | start output follow =>
    obtain ⟨-, ⟨⟩⟩ := Option.ite_none_right_eq_some.mp hstep
    exact .inr ⟨rfl, fun _ _ _ h => h.congr rfl rfl⟩
  | place name other =>
    obtain ⟨hfree, ⟨⟩⟩ := Option.ite_none_right_eq_some.mp hstep
    refine .inr ⟨hfree, fun n entry huser h => ?_⟩
    have hname : n ≠ name := fun heq => of_decide_eq_false huser heq.symm
    rcases h with ⟨d, hd, hentry⟩ | hold
    · refine .inl ⟨_, rfl, ?_⟩
      rw [hd, Option.getD_some, AList.lookup_insert_ne hname]
      exact hentry
    · exact .inr hold
  | remove name =>
    obtain ⟨hfree, ⟨⟩⟩ := Option.ite_none_right_eq_some.mp hstep
    refine .inr ⟨hfree, fun n entry huser h => ?_⟩
    have hname : n ≠ name := fun heq => of_decide_eq_false huser heq.symm
    rcases h with ⟨d, hd, hentry⟩ | hold
    · refine .inl ⟨d.erase name, by rw [hd]; rfl, ?_⟩
      rw [AList.lookup_erase_ne hname]
      exact hentry
    · exact .inr hold
  | clear =>
    obtain ⟨hfree, ⟨⟩⟩ := Option.ite_none_right_eq_some.mp hstep
    exact .inr ⟨hfree, fun _ _ huser => by cases huser⟩
  | takeLegacy =>
    obtain ⟨hfree, ⟨⟩⟩ := Option.ite_none_right_eq_some.mp hstep
    exact .inr ⟨hfree, fun _ _ huser => by cases huser⟩
  | report metadata count unchanged => exact .inl (Option.bind_eq_some_iff.mp hstep)
  | look => exact .inl (Option.bind_eq_some_iff.mp hstep)
  | transfer files => exact .inl (Option.bind_eq_some_iff.mp hstep)
  | replace => exact .inl (Option.bind_eq_some_iff.mp hstep)
  | count => exact .inl (Option.bind_eq_some_iff.mp hstep)
  | drop => exact .inl (Option.bind_eq_some_iff.mp hstep)
  | finish => exact .inl (Option.bind_eq_some_iff.mp hstep)
  | stop => exact .inl (Option.bind_eq_some_iff.mp hstep)

/-- Every step keeps what is known. -/
theorem step_inv (h : s.Inv) (hstep : step s e = some t) : t.Inv := by
  rcases step_cases hstep with ⟨r, hr, hadvance⟩ | ⟨hfree, -⟩
  · exact advance_inv (h r hr) hadvance
  · exact inv_of_free hfree

theorem step_held (hinv : s.Inv) (h : s.Held n entry) (huser : e.touches n = false) (hstep : step s e = some t) :
    t.Held n entry ∨ s.Loses n entry e := by
  rcases step_cases hstep with ⟨r, hr, hadvance⟩ | ⟨-, hheld⟩
  · exact advance_held (hinv r hr) h hadvance
  · exact .inl (hheld n entry huser h)

theorem inv_of_idle (hidle : s.active = none) : s.Inv := by
  intro r hr
  rw [hidle] at hr
  cases hr

theorem inv_run (hrun : Machine.run step s es = some t) (hidle : s.active = none) : t.Inv :=
  Machine.invariant (fun _ _ _ hinv hstep => step_inv hinv hstep) (inv_of_idle hidle) hrun

/-- What is in the folder stays there or is moved away with all the rest, until it gives way to a download that has
been received. -/
theorem download_kept (hidle : s.active = none) (hheld : s.Held n entry) (huser : ∀ e ∈ es, e.touches n = false)
    (hrun : Machine.run step s es = some t) :
    t.Held n entry ∨ ∃ es₁ e es₂ s₁, es = es₁ ++ e :: es₂ ∧ Machine.run step s es₁ = some s₁ ∧ s₁.Held n entry ∧
      s₁.Loses n entry e := by
  have hinv := inv_of_idle hidle
  clear hidle
  induction es generalizing s with
  | nil =>
    obtain rfl := Option.some.inj hrun
    exact .inl hheld
  | cons e es ih =>
    obtain ⟨m, hm, hrun⟩ := Machine.run_cons_some.mp hrun
    obtain ⟨huser, hrest⟩ := List.forall_mem_cons.mp huser
    rcases step_held hinv hheld huser hm with hheld' | hloses
    · refine (ih hheld' hrest hrun (step_inv hinv hm)).imp id ?_
      rintro ⟨es₁, e', es₂, s₁, rfl, hes₁, hs₁⟩
      exact ⟨e :: es₁, e', es₂, s₁, rfl, Machine.run_cons_some.mpr ⟨m, hm, hes₁⟩, hs₁⟩
    · exact .inr ⟨[], e, es, s, rfl, rfl, hheld, hloses⟩

/-- What an iteration leaves that has finished, and whether another one follows. -/
theorem finish_leaves (hidle : s.active = none) (hrun : Machine.run step s es = some t) {u : State}
    (hfinish : step t .finish = some u) :
    ∃ metadata files rest d r completed total, t.received = (exportNames metadata, files) :: rest ∧ u.folder = some d ∧
      (∀ o, d.lookup ((exportNames metadata).file o) = some (.file (files o))) ∧
      (∀ n ∈ d, n ∈ (exportNames metadata).list) ∧ t.active = some r ∧
      completedOf (files .summary) = some (completed, total) ∧
      (u.active = none ↔ r.follow = false ∨ total ≠ 0 ∧ completed = total) := by
  obtain ⟨r, hr, hadvance⟩ := Option.bind_eq_some_iff.mp hfinish
  have hinv := inv_run hrun hidle r hr
  obtain ⟨names, files, again, hphase, rfl⟩ := advance_finish hadvance
  unfold State.At at hinv
  rw [hphase] at hinv
  obtain ⟨hreceived, d, completed, total, hknows, hall, hcompleted, hagain⟩ := hinv
  obtain ⟨metadata, rfl⟩ := hknows.exporter
  obtain ⟨rest, hrest⟩ := List.head?_eq_some_iff.mp hreceived
  have hfolder : (if again then t.goto r .prepare else t.stopped).folder = t.folder := by
    split_ifs <;> rfl
  have hactive : (if again then t.goto r .prepare else t.stopped).active = none ↔ again = false := by
    cases again <;> simp [State.goto, State.stopped]
  refine ⟨metadata, files, rest, d, r, completed, total, hrest, hfolder.trans hknows.folder, hall, fun n hn => ?_, hr,
    hcompleted, ?_⟩
  · exact (hknows.nothing n hn).resolve_right List.not_mem_nil
  · rw [hactive, hagain]
    cases r.follow <;> simp

end Held

/-! ### The pairs of an export -/

/-- The summary as it is written. -/
def summaryText (b : Bundle) : Text := b.rows.flatMap Csv.excelRow

/-- The result of a pair is complete. -/
def isComplete (results : List (ℕ × Csv.DictRow)) (task : ℕ) : Bool :=
  isTrue ((((results.lookup task).getD []).get? "complete".toList).join.getD [])

/-- A column whose name comes once. -/
theorem get?_dictRow_of_split {key value : Csv.Field} {hs hs' fs fs' : Csv.Record} (hlength : hs.length = fs.length)
    (hfront : key ∉ hs) (hback : key ∉ hs') :
    (Csv.dictRow (hs ++ key :: hs') (fs ++ value :: fs')).get? key = some (some value) := by
  induction hs generalizing fs with
  | nil =>
    obtain rfl : fs = [] := List.length_eq_zero_iff.mp hlength.symm
    exact Csv.get?_dictRow_self hback
  | cons h hs ih =>
    obtain ⟨f, fs, rfl⟩ := List.exists_cons_of_length_eq_add_one hlength.symm
    have hne : key ≠ h := by
      rintro rfl
      exact hfront List.mem_cons_self
    rw [List.cons_append, List.cons_append, Csv.get?_dictRow_of_ne hne]
    exact ih (Nat.succ.inj hlength) fun hmem => hfront (List.mem_cons_of_mem h hmem)

theorem get?_dictRow_of_middle {key value : Csv.Field} {hs hs' us fs fs' vs : Csv.Record} (hlength : hs.length = fs.length)
    (hfront : key ∉ hs) (hback : key ∉ hs') (hlast : key ∉ us) :
    (Csv.dictRow (hs ++ key :: hs' ++ us) (fs ++ value :: fs' ++ vs)).get? key = some (some value) := by
  rw [List.append_assoc, List.append_assoc]
  exact get?_dictRow_of_split hlength hfront fun hmem => (List.mem_append.mp hmem).elim hback hlast

theorem flagOf_exportRow (definition : Item) (result : Csv.DictRow) (task : ℕ) (members : List Member) :
    flagOf (Csv.dictRow exportFields (exportRow definition result task members)) =
      some (isTrue ((result.get? "complete".toList).join.getD [])) := by
  obtain ⟨rest, hresult, hrest⟩ : ∃ rest, resultFields = "complete".toList :: rest ∧ "complete".toList ∉ rest :=
    ⟨resultFields.tail, by decide +kernel, by decide +kernel⟩
  have hget : (Csv.dictRow exportFields (exportRow definition result task members)).get? "complete".toList =
      some (some ((result.get? "complete".toList).join.getD [])) := by
    unfold exportFields exportRow
    rw [hresult, List.map_cons]
    refine get?_dictRow_of_middle ?_ ?_ hrest ?_
    · rw [List.length_cons, List.length_cons, List.length_map, List.length_map]
    · decide +kernel
    · decide +kernel
  unfold flagOf
  rw [hget]
  rfl

/-- All pairs of the export are counted, when no field of the summary is too long. -/
theorem completedOf_summary {job : Job} {name : Text} {b : Bundle} (hexport : remoteExport job = some (name, b))
    {counted : ℕ × ℕ} (hcounted : completedOf (summaryText b) = some counted) :
    ∃ metadata definitions results count, job.metadata = some metadata ∧ job.definitions = some definitions ∧
      job.records = some results ∧ pairCount metadata definitions = some count ∧
      counted = ((List.range count).countP (isComplete results), count) := by
  obtain ⟨metadata, hmetadata, hexport⟩ := Option.bind_eq_some_iff.mp hexport
  obtain ⟨definitions, hdefinitions, hexport⟩ := Option.bind_eq_some_iff.mp hexport
  obtain ⟨results, hresults, hexport⟩ := Option.bind_eq_some_iff.mp hexport
  obtain ⟨count, hcount, hexport⟩ := Option.bind_eq_some_iff.mp hexport
  obtain ⟨opened, -, hexport⟩ := Option.bind_eq_some_iff.mp hexport
  obtain ⟨b', hbundle, hname⟩ := Option.map_eq_some_iff.mp hexport
  obtain rfl : b' = b := (Prod.mk.inj hname).2
  obtain ⟨out, -, hbundle⟩ := Option.bind_eq_some_iff.mp hbundle
  obtain ⟨err, -, rfl⟩ := Option.map_eq_some_iff.mp hbundle
  refine ⟨metadata, definitions, results, count, hmetadata, hdefinitions, hresults, hcount, ?_⟩
  obtain ⟨row, hrow⟩ : ∃ row : ℕ → List Text, row = fun task =>
    exportRow (definitionOf definitions task) ((results.lookup task).getD []) task (opened.getD task []) := ⟨_, rfl⟩
  have hne : ∀ task, row task ≠ [] := by
    intro task hnil
    rw [hrow] at hnil
    cases hnil
  have hread : Csv.read ((exportFields :: (List.range count).map row).flatMap Csv.excelRow) =
      some (exportFields :: (List.range count).map row) := by
    refine Csv.read_excelRows (List.forall_mem_cons.mpr ⟨List.cons_ne_nil _ _, fun fs hfs => ?_⟩)
    obtain ⟨task, -, rfl⟩ := List.mem_map.mp hfs
    exact hne task
  have hfilter : ((List.range count).map row).filter (· ≠ []) = (List.range count).map row := by
    rw [List.filter_eq_self]
    intro fs hfs
    obtain ⟨task, -, rfl⟩ := List.mem_map.mp hfs
    exact decide_eq_true (hne task)
  have hflag (task : ℕ) : flagOf (Csv.dictRow exportFields (row task)) = some (isComplete results task) := by
    rw [hrow]
    exact flagOf_exportRow _ _ _ _
  have hflags : (((List.range count).map row).map (Csv.dictRow exportFields)).mapM flagOf =
      some ((List.range count).map (isComplete results)) := by
    rw [List.map_map, List.mapM_map]
    have hsome : flagOf ∘ (Csv.dictRow exportFields ∘ row) = fun task => some (isComplete results task) := funext hflag
    rw [hsome]
    exact List.mapM_pure
  unfold completedOf summaryText Csv.dictReaderFile at hcounted
  dsimp only at hcounted
  rw [← hrow] at hcounted
  obtain ⟨table, htable, hcounted⟩ := Option.bind_eq_some_iff.mp hcounted
  obtain ⟨records, hrecords, rfl⟩ := Option.map_eq_some_iff.mp htable
  obtain rfl := Option.some.inj ((Csv.readFrom_of_readLines hrecords).symm.trans hread)
  dsimp only at hcounted
  rw [hfilter, hflags, Option.map_some, List.length_map, List.length_range, List.count_eq_countP,
    List.countP_map] at hcounted
  rw [← Option.some.inj hcounted]
  refine congrArg (fun n => (n, count)) (List.countP_congr fun task _ => ?_)
  simp

/-- After an iteration the folder has the three files of its transfer and nothing else.  When the summary is that of an
export, the program ends there unless it follows a job with pairs that are not complete. -/
theorem downloaded {s t u : State} {es : List Event} (hidle : s.active = none) (hrun : Machine.run step s es = some t)
    (hfinish : step t .finish = some u) :
    ∃ metadata files rest d r, t.received = (exportNames metadata, files) :: rest ∧ u.folder = some d ∧
      (∀ o, d.lookup ((exportNames metadata).file o) = some (.file (files o))) ∧
      (∀ n ∈ d, n ∈ (exportNames metadata).list) ∧ t.active = some r ∧
      ∀ job name b, remoteExport job = some (name, b) → files .summary = summaryText b →
        ∃ metadata definitions results count, job.metadata = some metadata ∧ job.definitions = some definitions ∧
          job.records = some results ∧ pairCount metadata definitions = some count ∧
          (u.active = none ↔ r.follow = false ∨ count ≠ 0 ∧ ∀ task < count, isComplete results task = true) := by
  obtain ⟨metadata, files, rest, d, r, completed, total, hreceived, hfolder, hfiles, hnothing, hactive, hcompleted, hends⟩ :=
    finish_leaves hidle hrun hfinish
  refine ⟨metadata, files, rest, d, r, hreceived, hfolder, hfiles, hnothing, hactive, fun job name b hexport hsummary => ?_⟩
  rw [hsummary] at hcompleted
  obtain ⟨metadata, definitions, results, count, hmetadata, hdefinitions, hresults, hcount, hcounted⟩ :=
    completedOf_summary hexport hcompleted
  refine ⟨metadata, definitions, results, count, hmetadata, hdefinitions, hresults, hcount, ?_⟩
  obtain ⟨hdone, htotal⟩ := Prod.mk.inj hcounted
  rw [hdone, htotal] at hends
  have hall : (List.range count).countP (isComplete results) = count ↔ ∀ task < count, isComplete results task = true := by
    have hlength := List.countP_eq_length (p := isComplete results) (l := List.range count)
    rw [List.length_range] at hlength
    simpa using hlength
  rw [hends, hall]

/-! ### A download -/

def sampleMetadata : Item := [("job_name".toList, ⟨"night".toList, true, none, "night".toList⟩)]

/-- A folder with a note, and a file of an older download. -/
def sampleState : State :=
  ⟨some (((∅ : Folder).insert "night.csv".toList (.file "old".toList)).insert "notes".toList (.file "mine".toList)), none, [],
    none⟩

/-- A job with one pair, which is complete. -/
def sampleJob : Job where
  names := ["batch_000000_task_000000000.csv".toList]
  file n :=
    if n = metadataFile then some (.metadata sampleMetadata)
    else if n = manifestFile then some (.manifest [some [("task_id".toList, ⟨['0'], true, some 0, ['0']⟩)]])
    else some (.table "task_id,complete\r\n0,true\r\n".toList)

/-- The summary of its export. -/
def sampleFiles : Output → Text
  | .summary => ((remoteExport sampleJob).map fun e => summaryText e.2).getD []
  | .archive _ => []

def sampleEvents : List Event :=
  [.start false true, .report sampleMetadata 1 false, .look, .transfer sampleFiles, .replace, .replace, .replace, .count,
    .drop]

theorem download_kept_sample : ∃ t, Machine.run step sampleState sampleEvents = some t ∧
    (t.Held "notes".toList (.file "mine".toList) ∨ ∃ es₁ e es₂ s₁, sampleEvents = es₁ ++ e :: es₂ ∧
      Machine.run step sampleState es₁ = some s₁ ∧ s₁.Held "notes".toList (.file "mine".toList) ∧
      s₁.Loses "notes".toList (.file "mine".toList) e) := by
  have hsome : (Machine.run step sampleState sampleEvents).isSome = true := by decide +kernel
  obtain ⟨t, ht⟩ := Option.isSome_iff_exists.mp hsome
  exact ⟨t, ht, download_kept rfl (.inl ⟨_, rfl, by decide +kernel⟩) (by decide +kernel) ht⟩

theorem downloaded_sample : ∃ t u, Machine.run step sampleState sampleEvents = some t ∧ step t .finish = some u ∧
    ∃ metadata files rest d r, t.received = (exportNames metadata, files) :: rest ∧ u.folder = some d ∧
      (∀ o, d.lookup ((exportNames metadata).file o) = some (.file (files o))) ∧
      (∀ n ∈ d, n ∈ (exportNames metadata).list) ∧ t.active = some r ∧
      ∃ results count, sampleJob.records = some results ∧
        (u.active = none ↔ r.follow = false ∨ count ≠ 0 ∧ ∀ task < count, isComplete results task = true) := by
  have hsome : ((Machine.run step sampleState sampleEvents).bind fun t => step t .finish).isSome = true := by decide +kernel
  have hsent : ((Machine.run step sampleState sampleEvents).bind fun t => t.received.head?).map (fun e => e.2 .summary) =
      some (sampleFiles .summary) := by decide +kernel
  have hexported : (remoteExport sampleJob).isSome = true := by decide +kernel
  obtain ⟨u, hu⟩ := Option.isSome_iff_exists.mp hsome
  obtain ⟨⟨name, b⟩, hexport⟩ := Option.isSome_iff_exists.mp hexported
  obtain ⟨t, ht, hu⟩ := Option.bind_eq_some_iff.mp hu
  obtain ⟨metadata, files, rest, d, r, hreceived, hfolder, hfiles, hnothing, hactive, hends⟩ := downloaded rfl ht hu
  have hsummary : files .summary = summaryText b := by
    rw [ht, Option.bind_some, hreceived] at hsent
    refine (Option.some.inj hsent).trans ?_
    rw [sampleFiles, hexport]
    rfl
  obtain ⟨-, -, results, count, -, -, hresults, -, hiff⟩ := hends sampleJob name b hexport hsummary
  exact ⟨t, u, ht, hu, metadata, files, rest, d, r, hreceived, hfolder, hfiles, hnothing, hactive, results, count, hresults,
    hiff⟩

end Download
end Export
end Slurmy
