import Slurmy.Lib.Lookahead
import Slurmy.Lib.StableSort
import Slurmy.StarExec.Measurements

/-!
# The merge of the logs

`export` in `starexec_export.py` reads a summary and two archives of logs, and writes a table and an archive with one
text for each pair. The archives are only read forwards.

* `fileLines`, `copyOutput`: the lines of a log, and how they are written;
* `exportRow`, `starexecExport`: one row, and all of them;
* `mergeLogs`: the entries, from the logs that are left;
* `foldlM_exportRow`: the rows are merged so, whatever is in the archives;
* `export_merges_iff`: no log is lost.

The names of the entries fit into a ZIP archive (65535 bytes of UTF-8), beyond which `zipfile` raises an error.
-/

namespace Slurmy
namespace StarExec

open Export (Member)
open Lookahead (Reader Represents)

/-! ### Logs -/

/-- The lines of a file, each with its newline. -/
def fileLines : Text → List Text
  | [] => []
  | c :: t =>
      if c = '\n' then [c] :: fileLines t
      else
        match fileLines t with
        | [] => [[c]]
        | line :: lines => (c :: line) :: lines

/-- The newline that a line lacks. -/
def ending (line : Text) : Text := if line.getLast? = some '\n' then [] else ['\n']

def copyLine (stamp line : Text) : Text := (if isTimestamped line then line else stamp ++ line) ++ ending line

/-- `copy_output`. -/
def copyOutput (stamp content : Text) : Text := (fileLines content).flatMap (copyLine stamp)

/-- What `streams` yields for a member. -/
def selectLog (m : Member) : Option (ℤ × Text) :=
  if m.isFile then (pairId m.name).map fun id => ((id : ℤ), m.content) else none

def logs (archive : List Member) : List (ℤ × Text) := archive.filterMap selectLog

/-! ### Rows -/

def headNote : Text :=
  "% Slurmy export: un-timestamped lines use final pair totals, not per-line measurements.\n".toList

def stderrNote : Text := "% Solver stderr follows stdout; original interleaving is unavailable.\n".toList

def eof : Text := "EOF\n".toList

/-- The prefix of the lines of a pair. -/
def stampOf (row : Row) : Option Text := do
  let cpu ← number row.cpuSeconds 1
  let wall ← number row.wallSeconds 1
  return cpu ++ '/' :: (wall ++ ['\t'])

/-- What is written so far. -/
structure Merge where
  out : Reader Member ℤ Text
  err : Reader Member ℤ Text
  entries : List (Text × Text)

/-- The stream of a pair, if there is one, after a note. -/
def copyStream (stamp note : Text) (id : ℤ) (r : Reader Member ℤ Text) : Option (Text × Reader Member ℤ Text) :=
  if r.isAt id then r.read.map fun content => (note ++ copyOutput stamp content, r.advance selectLog)
  else some ([], r)

/-- The body of the loop over the rows. -/
def exportRow (paths : List (Text × Text)) (job : ℕ) (state : Merge) (row : Row) : Option Merge :=
  let out := state.out.skip selectLog row.taskId
  let err := state.err.skip selectLog row.taskId
  if out.isAt row.taskId ∨ err.isAt row.taskId then do
    let benchmark ← Dict.get paths row.problem
    let stamp ← stampOf row
    let (outText, out) ← copyStream stamp [] row.taskId out
    let (errText, err) ← copyStream stamp (stamp ++ stderrNote) row.taskId err
    return ⟨out, err, state.entries ++
      [(entryName job benchmark row, stamp ++ headNote ++ outText ++ errText ++ stamp ++ eof)]⟩
  else some ⟨out, err, state.entries⟩

/-- The rows of the table and the entries of the archive. -/
structure Files where
  info : List InfoRow
  entries : List (Text × Text)

/-- `export`, without the compression. `none` is an exception. -/
def starexecExport (hash casefold : Text → Text) (job : ℕ) (rows : List Row) (stdout stderr : List Member) :
    Option Files :=
  if (rows.map Row.taskId).Nodup then do
    let rows := StableSort.sortBy Row.taskId rows
    let paths := benchmarkPaths hash (rows.map Row.problem)
    let info ← rows.mapM fun row => (Dict.get paths row.problem).bind (summaryRow casefold row)
    let state ← rows.foldlM (exportRow paths job)
      ⟨Lookahead.next selectLog stdout 0, Lookahead.next selectLog stderr 0, []⟩
    return ⟨info, state.entries⟩
  else none

/-! ### The merge of lists -/

/-- The text of a pair. -/
def entryText (stamp : Text) (out err : Option Text) : Text :=
  stamp ++ headNote ++ out.elim [] (copyOutput stamp) ++
    err.elim [] (fun content => stamp ++ stderrNote ++ copyOutput stamp content) ++ stamp ++ eof

/-- The entry of a row, if there is one. -/
def entryOf (paths : List (Text × Text)) (job : ℕ) (row : Row) (out err : Option Text) : List (Text × Text) :=
  if out.isSome ∨ err.isSome then
    [(entryName job ((Dict.get paths row.problem).getD []) row, entryText ((stampOf row).getD []) out err)]
  else []

/-- The entries of the rows, for the logs that are left. -/
def mergeLogs (paths : List (Text × Text)) (job : ℕ) : List Row → List (ℤ × Text) → List (ℤ × Text) → List (Text × Text)
  | [], _, _ => []
  | row :: rows, out, err =>
      entryOf paths job row (Lookahead.take row.taskId out).1 (Lookahead.take row.taskId err).1 ++
        mergeLogs paths job rows (Lookahead.take row.taskId out).2 (Lookahead.take row.taskId err).2

/-- Reading a stream takes the log of the pair. -/
theorem copyStream_spec {r : Reader Member ℤ Text} {l : List (ℤ × Text)} (h : Represents selectLog r l)
    (stamp note : Text) (id : ℤ) : ∃ r', copyStream stamp note id (r.skip selectLog id) =
      some (((Lookahead.take id l).1).elim [] (fun content => note ++ copyOutput stamp content), r') ∧
        Represents selectLog r' (Lookahead.take id l).2 ∧
          (r.skip selectLog id).isAt id = (Lookahead.take id l).1.isSome := by
  have hskip := Lookahead.represents_skip (k := id) h
  have hat := Lookahead.isAt_of_represents (k := id) hskip
  unfold copyStream Lookahead.take
  cases hrest : l.dropWhile fun e => decide (e.1 < id) with
  | nil =>
    rw [hrest] at hskip hat
    rw [hat]
    exact ⟨_, rfl, hskip, rfl⟩
  | cons e l' =>
    rw [hrest] at hskip hat
    rw [hat]
    dsimp only
    by_cases he : e.1 = id
    · rw [if_pos he]
      have hread := Lookahead.read_of_represents hskip
      rw [List.head?_cons, Option.any_some, decide_eq_true he, if_pos rfl, hread]
      exact ⟨_, rfl, Lookahead.represents_advance hskip, rfl⟩
    · rw [if_neg he, List.head?_cons, Option.any_some, decide_eq_false he, if_neg Bool.false_ne_true]
      exact ⟨_, rfl, hskip, rfl⟩

theorem exportRow_spec {paths : List (Text × Text)} {state : Merge} {row : Row} {out err : List (ℤ × Text)} (job : ℕ)
    (hpath : (Dict.get paths row.problem).isSome = true) (hstamp : (stampOf row).isSome = true)
    (hout : Represents selectLog state.out out) (herr : Represents selectLog state.err err) :
    ∃ out' err', exportRow paths job state row = some ⟨out', err', state.entries ++
        entryOf paths job row (Lookahead.take row.taskId out).1 (Lookahead.take row.taskId err).1⟩ ∧
      Represents selectLog out' (Lookahead.take row.taskId out).2 ∧
        Represents selectLog err' (Lookahead.take row.taskId err).2 := by
  obtain ⟨benchmark, hbenchmark⟩ := Option.isSome_iff_exists.1 hpath
  obtain ⟨stamp, hstamp⟩ := Option.isSome_iff_exists.1 hstamp
  obtain ⟨out', hcopyOut, hout', hatOut⟩ := copyStream_spec hout stamp [] row.taskId
  obtain ⟨err', hcopyErr, herr', hatErr⟩ := copyStream_spec herr stamp (stamp ++ stderrNote) row.taskId
  unfold exportRow entryOf
  dsimp only
  rw [hatOut, hatErr]
  by_cases hpresent : (Lookahead.take row.taskId out).1.isSome = true ∨ (Lookahead.take row.taskId err).1.isSome = true
  · rw [if_pos hpresent, if_pos hpresent, hbenchmark, hstamp]
    refine ⟨out', err', ?_, hout', herr'⟩
    simp only [Option.bind_eq_bind, Option.bind_some, hcopyOut, hcopyErr, Option.getD_some]
    rfl
  · -- the readers stand before a later log
    rw [if_neg hpresent, if_neg hpresent, List.append_nil]
    rw [not_or, Bool.not_eq_true, Bool.not_eq_true] at hpresent
    have hstay {r r' : Reader Member ℤ Text} {t note : Text} (hat : r.isAt row.taskId = false)
        (hcopy : copyStream stamp note row.taskId r = some (t, r')) : r' = r := by
      unfold copyStream at hcopy
      rw [hat, if_neg Bool.false_ne_true] at hcopy
      exact (Prod.mk.inj (Option.some.inj hcopy)).2.symm
    rw [hpresent.1] at hatOut
    rw [hpresent.2] at hatErr
    rw [hstay hatOut hcopyOut] at hout'
    rw [hstay hatErr hcopyErr] at herr'
    exact ⟨_, _, rfl, hout', herr'⟩

/-- **The loop over the rows** merges the logs, and never reads what has gone by. -/
theorem foldlM_exportRow {paths : List (Text × Text)} {rows : List Row} {out err : List (ℤ × Text)} (state : Merge)
    (job : ℕ) (hpath : ∀ row ∈ rows, (Dict.get paths row.problem).isSome = true)
    (hstamp : ∀ row ∈ rows, (stampOf row).isSome = true) (hout : Represents selectLog state.out out)
    (herr : Represents selectLog state.err err) :
    ∃ out' err', rows.foldlM (exportRow paths job) state =
      some ⟨out', err', state.entries ++ mergeLogs paths job rows out err⟩ := by
  induction rows generalizing state out err with
  | nil => exact ⟨state.out, state.err, by rw [mergeLogs, List.append_nil]; rfl⟩
  | cons row rows ih =>
    rw [List.forall_mem_cons] at hpath hstamp
    obtain ⟨out₁, err₁, hrow, hout₁, herr₁⟩ := exportRow_spec job hpath.1 hstamp.1 hout herr
    obtain ⟨out', err', hrest⟩ := ih ⟨out₁, err₁, _⟩ hpath.2 hstamp.2 hout₁ herr₁
    refine ⟨out', err', ?_⟩
    rw [List.foldlM_cons, hrow]
    refine hrest.trans ?_
    rw [mergeLogs, List.append_assoc]

/-! ### When the export succeeds -/

/-- The measurements of a row do not overflow. The processor limit is read for complete pairs. -/
structure Measurable (row : Row) : Prop where
  cpu : Bounded row.cpuSeconds 1
  wall : Bounded row.wallSeconds 1
  memory : Bounded row.maxMemoryKib 1024
  limit : row.isComplete = true → Bounded row.cpuLimit 1

theorem isSome_measure {value : Text} {multiplier : ℕ} :
    (measure value multiplier).isSome = true ↔ Bounded value multiplier := by
  rw [← number_isSome_iff, number, Option.isSome_map]

theorem isSome_verdict (casefold : Text → Text) (row : Row) : (verdict casefold row).isSome = true ↔
    (row.isComplete = true → Bounded row.cpuSeconds 1 ∧ Bounded row.cpuLimit 1) := by
  unfold verdict
  by_cases hcomplete : row.isComplete = true
  · rw [if_pos hcomplete, ← isSome_measure, ← isSome_measure]
    cases measure row.cpuSeconds 1 <;> cases measure row.cpuLimit 1 <;> simp [hcomplete]
  · rw [if_neg hcomplete]
    exact iff_of_true rfl fun h => absurd h hcomplete

theorem isSome_summaryRow (casefold : Text → Text) (row : Row) (benchmark : Text) :
    (summaryRow casefold row benchmark).isSome = true ↔ Measurable row := by
  have hverdict := isSome_verdict casefold row
  have hcpu : (number row.cpuSeconds 1).isSome = true ↔ Bounded row.cpuSeconds 1 := number_isSome_iff
  have hwall : (number row.wallSeconds 1).isSome = true ↔ Bounded row.wallSeconds 1 := number_isSome_iff
  have hmemory : (number row.maxMemoryKib 1024).isSome = true ↔ Bounded row.maxMemoryKib 1024 := number_isSome_iff
  have hall : (summaryRow casefold row benchmark).isSome = true ↔ (verdict casefold row).isSome = true ∧
      (number row.cpuSeconds 1).isSome = true ∧ (number row.wallSeconds 1).isSome = true ∧
        (number row.maxMemoryKib 1024).isSome = true := by
    unfold summaryRow
    cases verdict casefold row <;> cases number row.cpuSeconds 1 <;> cases number row.wallSeconds 1 <;>
      cases number row.maxMemoryKib 1024 <;> simp
  rw [hall, hverdict, hcpu, hwall, hmemory]
  exact ⟨fun ⟨hverdict, hcpu, hwall, hmemory⟩ => ⟨hcpu, hwall, hmemory, fun h => (hverdict h).2⟩,
    fun h => ⟨fun hcomplete => ⟨h.cpu, h.limit hcomplete⟩, h.cpu, h.wall, h.memory⟩⟩

theorem isSome_stampOf {row : Row} (h : Measurable row) : (stampOf row).isSome = true := by
  obtain ⟨cpu, hcpu⟩ := Option.isSome_iff_exists.1 (number_isSome_iff.2 h.cpu)
  obtain ⟨wall, hwall⟩ := Option.isSome_iff_exists.1 (number_isSome_iff.2 h.wall)
  unfold stampOf
  rw [hcpu, hwall]
  rfl

theorem isSome_mapM {α β : Type} {f : α → Option β} {l : List α} :
    (l.mapM f).isSome = true ↔ ∀ a ∈ l, (f a).isSome = true := by
  induction l with
  | nil => simp
  | cons a l ih =>
    rw [List.forall_mem_cons, ← ih, List.mapM_cons]
    cases f a <;> cases l.mapM f <;> simp

section Export

variable (hash casefold : Text → Text) (job : ℕ) {rows : List Row} (stdout stderr : List Member)

/-- The rows in their order. -/
abbrev sorted (rows : List Row) : List Row := StableSort.sortBy Row.taskId rows

abbrev pathsOf (rows : List Row) : List (Text × Text) := benchmarkPaths hash ((sorted rows).map Row.problem)

/-- **The export** fails on an overflow only, and writes the merged logs. -/
theorem starexecExport_eq (hids : (rows.map Row.taskId).Nodup) : (∀ row ∈ rows, Measurable row) ∧
    (∃ info, (sorted rows).mapM (fun row => (Dict.get (pathsOf hash rows) row.problem).bind (summaryRow casefold row)) =
      some info ∧ starexecExport hash casefold job rows stdout stderr =
        some ⟨info, mergeLogs (pathsOf hash rows) job (sorted rows) (logs stdout) (logs stderr)⟩) ∨
      (¬∀ row ∈ rows, Measurable row) ∧ starexecExport hash casefold job rows stdout stderr = none := by
  have hpath : ∀ row ∈ sorted rows, (Dict.get (pathsOf hash rows) row.problem).isSome = true :=
    fun row hrow => isSome_benchmarkPaths hash (List.mem_map_of_mem hrow)
  have hinfo : ((sorted rows).mapM fun row => (Dict.get (pathsOf hash rows) row.problem).bind
      (summaryRow casefold row)).isSome = true ↔ ∀ row ∈ rows, Measurable row := by
    rw [isSome_mapM]
    have hrow : ∀ row ∈ sorted rows, ((Dict.get (pathsOf hash rows) row.problem).bind (summaryRow casefold row)).isSome =
        true ↔ Measurable row := by
      intro row hrow
      obtain ⟨benchmark, hbenchmark⟩ := Option.isSome_iff_exists.1 (hpath row hrow)
      rw [hbenchmark, Option.bind_some, isSome_summaryRow]
    exact ⟨fun h row hmem => (hrow row (StableSort.mem_sortBy.2 hmem)).1 (h row (StableSort.mem_sortBy.2 hmem)),
      fun h row hmem => (hrow row hmem).2 (h row (StableSort.mem_sortBy.1 hmem))⟩
  unfold starexecExport
  rw [if_pos hids]
  dsimp only
  cases hmap : (sorted rows).mapM fun row => (Dict.get (pathsOf hash rows) row.problem).bind (summaryRow casefold row) with
  | none =>
    rw [hmap] at hinfo
    exact Or.inr ⟨fun h => Bool.noConfusion (hinfo.2 h), rfl⟩
  | some info =>
    rw [hmap] at hinfo
    have hall := hinfo.1 rfl
    obtain ⟨out', err', hfold⟩ := foldlM_exportRow
      ⟨Lookahead.next selectLog stdout 0, Lookahead.next selectLog stderr 0, []⟩ job hpath
      (fun row hrow => isSome_stampOf (hall row (StableSort.mem_sortBy.1 hrow)))
      (Lookahead.represents_next stdout 0) (Lookahead.represents_next stderr 0)
    refine Or.inl ⟨hall, info, rfl, ?_⟩
    rw [Option.bind_eq_bind, Option.bind_some, hfold]
    rfl

end Export

/-! ### No log is lost -/

/-- The log of a pair. -/
def lookupLog (l : List (ℤ × Text)) (id : ℤ) : Option Text := (l.find? fun e => decide (e.1 = id)).map Prod.snd

/-- The line is written as it is, or with the prefix. -/
def Copied (stamp line written : Text) : Prop := written = line ++ ending line ∨ written = stamp ++ line ++ ending line

/-- All lines of the output, and then all of the error output, between the first line and the last one. -/
def IsEntry (stamp : Text) (out err : Option Text) (content : Text) : Prop :=
  ∃ outLines errLines, List.Forall₂ (Copied stamp) (fileLines (out.getD [])) outLines ∧
    List.Forall₂ (Copied stamp) (fileLines (err.getD [])) errLines ∧
      content = stamp ++ headNote ++ outLines.flatten ++ (if err.isSome then stamp ++ stderrNote else []) ++
        errLines.flatten ++ stamp ++ eof

/-- The entry of a row, for these logs. -/
def IsWritten (paths : List (Text × Text)) (job : ℕ) (out err : List (ℤ × Text)) (row : Row) (entry : Text × Text) : Prop :=
  ∃ benchmark stamp, Dict.get paths row.problem = some benchmark ∧ stampOf row = some stamp ∧
    entry.1 = entryName job benchmark row ∧ IsEntry stamp (lookupLog out row.taskId) (lookupLog err row.taskId) entry.2

/-- There is a log of the row. -/
def isPresent (out err : List (ℤ × Text)) (row : Row) : Bool :=
  decide (row.taskId ∈ out.map Prod.fst ∨ row.taskId ∈ err.map Prod.fst)

/-- One entry for each row with a log, in their order. -/
def IsMerged (paths : List (Text × Text)) (job : ℕ) (rows : List Row) (out err : List (ℤ × Text))
    (entries : List (Text × Text)) : Prop :=
  List.Forall₂ (IsWritten paths job out err) (rows.filter (isPresent out err)) entries

section Logs

variable {l : List (ℤ × Text)} {id : ℤ}

theorem isSome_lookupLog : (lookupLog l id).isSome = true ↔ id ∈ l.map Prod.fst := by
  unfold lookupLog
  rw [Option.isSome_map, List.find?_isSome, List.mem_map]
  simp only [decide_eq_true_eq]

theorem lookupLog_filter {id' : ℤ} (h : id' ≠ id) :
    lookupLog (l.filter fun e => decide (e.1 ≠ id)) id' = lookupLog l id' := by
  unfold lookupLog
  rw [List.find?_filter]
  congr 2
  funext e
  by_cases he : e.1 = id'
  · simp [he, h]
  · simp [he]

end Logs

theorem forall₂_copyLine (stamp : Text) (lines : List Text) :
    List.Forall₂ (Copied stamp) lines (lines.map (copyLine stamp)) := by
  rw [List.forall₂_map_right_iff, List.forall₂_same]
  intro line _
  unfold Copied copyLine
  split
  · exact Or.inl rfl
  · exact Or.inr rfl

theorem isEntry_entryText (stamp : Text) (out err : Option Text) : IsEntry stamp out err (entryText stamp out err) := by
  refine ⟨(fileLines (out.getD [])).map (copyLine stamp), (fileLines (err.getD [])).map (copyLine stamp),
    forall₂_copyLine stamp _, forall₂_copyLine stamp _, ?_⟩
  rw [← List.flatMap_def, ← List.flatMap_def]
  unfold entryText copyOutput
  cases out <;> cases err <;> simp [fileLines]

theorem isPresent_iff {out err : List (ℤ × Text)} {row : Row} : isPresent out err row = true ↔
    (lookupLog out row.taskId).isSome = true ∨ (lookupLog err row.taskId).isSome = true := by
  rw [isSome_lookupLog, isSome_lookupLog]
  exact decide_eq_true_iff

/-- The merge of rows in their order and logs in their order. The logs `out₀` and `err₀` are those of the start. -/
theorem isMerged_mergeLogs {paths : List (Text × Text)} {rows : List Row} {out err out₀ err₀ : List (ℤ × Text)} (job : ℕ)
    (hpath : ∀ row ∈ rows, (Dict.get paths row.problem).isSome = true)
    (hstamp : ∀ row ∈ rows, (stampOf row).isSome = true) (hrows : rows.Pairwise fun a b => a.taskId < b.taskId)
    (hout : out.Pairwise fun e f => e.1 < f.1) (herr : err.Pairwise fun e f => e.1 < f.1)
    (houtRows : ∀ e ∈ out, e.1 ∈ rows.map Row.taskId) (herrRows : ∀ e ∈ err, e.1 ∈ rows.map Row.taskId)
    (hout₀ : ∀ row ∈ rows, lookupLog out row.taskId = lookupLog out₀ row.taskId)
    (herr₀ : ∀ row ∈ rows, lookupLog err row.taskId = lookupLog err₀ row.taskId) :
    IsMerged paths job rows out₀ err₀ (mergeLogs paths job rows out err) := by
  induction rows generalizing out err with
  | nil => exact List.Forall₂.nil
  | cons row rows ih =>
    rw [List.forall_mem_cons] at hpath hstamp hout₀ herr₀
    rw [List.pairwise_cons] at hrows
    -- no log comes before the row, and those after it belong to later rows
    have hfirst {l : List (ℤ × Text)} (hl : ∀ e ∈ l, e.1 ∈ (row :: rows).map Row.taskId) : ∀ e ∈ l, row.taskId ≤ e.1 := by
      intro e he
      rcases List.mem_cons.1 (hl e he) with heq | hlater
      · exact heq.ge
      · obtain ⟨row', hrow', heq⟩ := List.mem_map.1 hlater
        exact heq ▸ (hrows.1 row' hrow').le
    have hlater {l : List (ℤ × Text)} (hl : ∀ e ∈ l, e.1 ∈ (row :: rows).map Row.taskId) :
        ∀ e ∈ l.filter (fun e => decide (e.1 ≠ row.taskId)), e.1 ∈ rows.map Row.taskId := by
      intro e he
      obtain ⟨he, hne⟩ := List.mem_filter.1 he
      exact (List.mem_cons.1 (hl e he)).resolve_left (of_decide_eq_true hne)
    have hsame {l l₀ : List (ℤ × Text)} (h : ∀ row' ∈ rows, lookupLog l row'.taskId = lookupLog l₀ row'.taskId) :
        ∀ row' ∈ rows, lookupLog (l.filter fun e => decide (e.1 ≠ row.taskId)) row'.taskId = lookupLog l₀ row'.taskId :=
      fun row' hrow' => (lookupLog_filter (hrows.1 row' hrow').ne').trans (h row' hrow')
    have hrest := ih hpath.2 hstamp.2 hrows.2 (hout.filter _) (herr.filter _) (hlater houtRows) (hlater herrRows)
      (hsame hout₀.2) (hsame herr₀.2)
    rw [mergeLogs, Lookahead.take_of_le (hfirst houtRows) hout, Lookahead.take_of_le (hfirst herrRows) herr]
    show IsMerged paths job (row :: rows) out₀ err₀
      (entryOf paths job row (lookupLog out row.taskId) (lookupLog err row.taskId) ++ _)
    rw [hout₀.1, herr₀.1]
    unfold IsMerged entryOf
    by_cases hpresent : isPresent out₀ err₀ row = true
    · rw [List.filter_cons_of_pos hpresent, if_pos (isPresent_iff.1 hpresent)]
      obtain ⟨benchmark, hbenchmark⟩ := Option.isSome_iff_exists.1 hpath.1
      obtain ⟨stamp, hstamp⟩ := Option.isSome_iff_exists.1 hstamp.1
      rw [hbenchmark, hstamp]
      exact List.Forall₂.cons ⟨benchmark, stamp, hbenchmark, hstamp, rfl, isEntry_entryText stamp _ _⟩ hrest
    · rw [List.filter_cons_of_neg hpresent, if_neg (mt isPresent_iff.2 hpresent), List.nil_append]
      exact hrest

/-- **The export succeeds if and only if no measurement overflows; then there is one entry for each pair with a log, with
all of its output and then all of its error output.** -/
theorem export_merges_iff (hash casefold : Text → Text) (job : ℕ) {rows : List Row} {stdout stderr : List Member}
    (hids : (rows.map Row.taskId).Nodup) (hout : (logs stdout).Pairwise fun e f => e.1 < f.1)
    (herr : (logs stderr).Pairwise fun e f => e.1 < f.1) (houtRows : ∀ e ∈ logs stdout, e.1 ∈ rows.map Row.taskId)
    (herrRows : ∀ e ∈ logs stderr, e.1 ∈ rows.map Row.taskId) :
    (∃ files, starexecExport hash casefold job rows stdout stderr = some files ∧
        IsMerged (pathsOf hash rows) job (sorted rows) (logs stdout) (logs stderr) files.entries) ↔
      ∀ row ∈ rows, Measurable row := by
  rcases starexecExport_eq hash casefold job stdout stderr hids with ⟨hall, info, -, hexport⟩ | ⟨hnot, hexport⟩
  · refine iff_of_true ⟨_, hexport, ?_⟩ hall
    have hsorted : (sorted rows).Pairwise fun a b => a.taskId < b.taskId := by
      have hle := StableSort.pairwise_sortBy Row.taskId rows
      have hne : (sorted rows).Pairwise fun a b => a.taskId ≠ b.taskId := by
        rw [← List.pairwise_map]
        exact ((StableSort.perm_sortBy Row.taskId rows).map Row.taskId).nodup_iff.2 hids
      exact hle.imp₂ (fun a b hle hne => lt_of_le_of_ne hle hne) hne
    have hmem : ∀ id, id ∈ rows.map Row.taskId → id ∈ (sorted rows).map Row.taskId := fun id hid =>
      (((StableSort.perm_sortBy Row.taskId rows).map Row.taskId).mem_iff).2 hid
    exact isMerged_mergeLogs job (fun row hrow => isSome_benchmarkPaths hash (List.mem_map_of_mem hrow))
      (fun row hrow => isSome_stampOf (hall row (StableSort.mem_sortBy.1 hrow))) hsorted hout herr
      (fun e he => hmem e.1 (houtRows e he)) (fun e he => hmem e.1 (herrRows e he)) (fun _ _ => rfl) fun _ _ => rfl
  · refine iff_of_false ?_ hnot
    rintro ⟨files, hfiles, -⟩
    rw [hexport] at hfiles
    cases hfiles

def log (id : String) (content : String) : Member := ⟨"e/s___p___".toList ++ id.toList, true, content.toList⟩

/-- Two rows, out of order, with these times. -/
def timedRows (seconds : String) : List Row :=
  [(1, "/p/b.p"), (0, "/p/a.p")].map fun entry =>
    ⟨entry.1, "s".toList, entry.2.toList, [], "true".toList, "ok".toList, "2".toList, seconds.toList, "10".toList, [], [], []⟩

theorem export_merges_iff_timed : ((timedRows "1.5").map Row.taskId).Nodup ∧
    ((∃ files, starexecExport sampleHash id 5 (timedRows "1.5") [log "000000000.log" "a\nb", log "000000001.log" ""]
        [log "000000001.stderr.log" "c"] = some files ∧
      IsMerged (pathsOf sampleHash (timedRows "1.5")) 5 (sorted (timedRows "1.5"))
        (logs [log "000000000.log" "a\nb", log "000000001.log" ""]) (logs [log "000000001.stderr.log" "c"])
        files.entries) ↔ ∀ row ∈ timedRows "1.5", Measurable row) :=
  ⟨by decide +kernel, export_merges_iff sampleHash id 5 (by decide +kernel) (by decide +kernel) (by decide +kernel)
    (by decide +kernel) (by decide +kernel)⟩

/-- An exponent out of the range stops the export. -/
theorem export_overflow : ((timedRows "1e1000000").map Row.taskId).Nodup ∧
    logs [log "000000000.log" "a"] = [(0, "a".toList)] ∧ (0 : ℤ) ∈ (timedRows "1e1000000").map Row.taskId ∧
      ¬∃ files, starexecExport sampleHash id 5 (timedRows "1e1000000") [log "000000000.log" "a"] [] = some files := by
  have hnone : (starexecExport sampleHash id 5 (timedRows "1e1000000") [log "000000000.log" "a"] []).isSome = false := by
    decide +kernel
  refine ⟨by decide +kernel, by decide +kernel, by decide +kernel, fun ⟨files, hfiles⟩ => ?_⟩
  rw [hfiles] at hnone
  cases hnone

end StarExec
end Slurmy
