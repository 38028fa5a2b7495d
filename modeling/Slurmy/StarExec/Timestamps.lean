import Slurmy.StarExec.Merge

/-!
# Timestamps

Every line that `starexec_export.py` writes is meant to begin with a time, its own or that of its pair.

* `IsLine`, `fileLines_flatten`: a text that is made of lines is read as these lines;
* `isTimestamped_copyLine`: copied lines have a time when the prefix is one;
* `IsStamped`, `export_stamped_iff`: the rows for which everything that is written has one.
-/

namespace Slurmy
namespace StarExec

open Export (Member)
open Decimal (isPlain takeNumber)

/-! ### Lines -/

def IsLine (line : Text) : Prop := ∃ body, '\n' ∉ body ∧ line = body ++ ['\n']

theorem fileLines_append {line : Text} (h : IsLine line) (t : Text) : fileLines (line ++ t) = line :: fileLines t := by
  obtain ⟨body, hbody, rfl⟩ := h
  induction body with
  | nil =>
    show fileLines ('\n' :: t) = _
    rw [fileLines, if_pos rfl]
    rfl
  | cons c body ih =>
    rw [List.mem_cons, not_or] at hbody
    show fileLines (c :: (body ++ ['\n'] ++ t)) = _
    rw [fileLines, if_neg (Ne.symm hbody.1), ih hbody.2]
    rfl

theorem fileLines_flatten {lines : List Text} (h : ∀ line ∈ lines, IsLine line) : fileLines lines.flatten = lines := by
  induction lines with
  | nil => rfl
  | cons line lines ih =>
    rw [List.forall_mem_cons] at h
    rw [List.flatten_cons, fileLines_append h.1, ih h.2]

/-- The last line of a file may lack its newline. -/
theorem isLine_of_mem_fileLines {t line : Text} (h : line ∈ fileLines t) : IsLine (line ++ ending line) := by
  have hshape {t line : Text} (h : line ∈ fileLines t) : IsLine line ∨ line ≠ [] ∧ '\n' ∉ line := by
    induction t generalizing line with
    | nil => cases h
    | cons c t ih =>
      unfold fileLines at h
      by_cases hc : c = '\n'
      · rw [if_pos hc] at h
        rcases List.mem_cons.1 h with rfl | h
        · exact Or.inl ⟨[], List.not_mem_nil, by rw [hc]; rfl⟩
        · exact ih h
      · rw [if_neg hc] at h
        cases hlines : fileLines t with
        | nil =>
          rw [hlines] at h
          rw [List.mem_singleton.1 h]
          exact Or.inr ⟨List.cons_ne_nil _ _, fun hmem => hc (List.mem_singleton.1 hmem).symm⟩
        | cons first lines =>
          rw [hlines] at h ih
          rcases List.mem_cons.1 h with rfl | h
          · rcases ih List.mem_cons_self with ⟨body, hbody, rfl⟩ | ⟨-, hfirst⟩
            · exact Or.inl ⟨c :: body, by rw [List.mem_cons, not_or]; exact ⟨Ne.symm hc, hbody⟩, rfl⟩
            · exact Or.inr ⟨List.cons_ne_nil _ _, by rw [List.mem_cons, not_or]; exact ⟨Ne.symm hc, hfirst⟩⟩
          · exact ih (List.mem_cons_of_mem _ h)
  rcases hshape h with ⟨body, hbody, rfl⟩ | ⟨-, hline⟩
  · refine ⟨body, hbody, ?_⟩
    unfold ending
    rw [List.getLast?_concat, if_pos rfl, List.append_nil]
  · refine ⟨line, hline, ?_⟩
    unfold ending
    rw [if_neg fun hlast => hline (List.mem_of_getLast? hlast)]

/-! ### Lines with a time -/

/-- What follows a timestamp does not matter. -/
theorem isTimestamped_append_right {line : Text} (h : isTimestamped line = true) (t : Text) :
    isTimestamped (line ++ t) = true := by
  have htake {line rest : Text} {c : Char} (hc : c.isDigit = false) (hdot : c ≠ '.')
      (h : expect c (takeNumber line) = some rest) : expect c (takeNumber (line ++ t)) = some (rest ++ t) := by
    have hline : takeNumber line = some (c :: rest) := by
      cases hnumber : takeNumber line with
      | none =>
        rw [hnumber] at h
        cases h
      | some left =>
        rw [hnumber] at h
        cases left with
        | nil => cases h
        | cons d left =>
          obtain ⟨hd, hrest⟩ := Option.ite_none_right_eq_some.1 h
          rw [hd, Option.some.inj hrest]
    obtain ⟨front, hfront⟩ := Decimal.takeNumber_suffix hline
    rw [← hfront, Decimal.takeNumber_append_cons hc hdot] at hline
    have hnil : takeNumber front = some [] := by
      obtain ⟨left, hleft, heq⟩ := Option.map_eq_some_iff.1 hline
      have hempty : left = [] := List.append_left_eq_self.1 heq
      rw [hleft, hempty]
    rw [← hfront, List.append_assoc, List.cons_append, Decimal.takeNumber_append_cons hc hdot, hnil]
    exact if_pos rfl
  unfold isTimestamped at h ⊢
  cases hfirst : expect '/' (takeNumber line) with
  | none =>
    rw [hfirst] at h
    cases h
  | some rest =>
    rw [hfirst, Option.bind_some] at h
    obtain ⟨rest', hsecond⟩ := Option.isSome_iff_exists.1 h
    rw [htake (by decide) (by decide) hfirst, Option.bind_some, htake (by decide) (by decide) hsecond]
    rfl

/-- A prefix that is a time. -/
structure IsStamp (stamp : Text) : Prop where
  stamps : ∀ t, isTimestamped (stamp ++ t) = true
  noNewline : '\n' ∉ stamp

theorem not_mem_number {value t : Text} {multiplier : ℕ} (h : number value multiplier = some t) {c : Char}
    (hdigit : c.isDigit = false) (hc : c ∉ ['-', '.', 'E', '+']) : c ∉ t := by
  obtain ⟨d, -, rfl⟩ := Option.map_eq_some_iff.1 h
  intro hmem
  rcases Decimal.mem_str hmem with hd | hd
  · rw [hd] at hdigit
    cases hdigit
  · exact hc hd

theorem isStamp_stampOf {row : Row} {stamp : Text} (hcpu : Plain row.cpuSeconds 1) (hwall : Plain row.wallSeconds 1)
    (h : stampOf row = some stamp) : IsStamp stamp := by
  obtain ⟨cpu, hcpuEq, hcpuPlain⟩ := (number_isPlain_iff (by decide)).2 hcpu
  obtain ⟨wall, hwallEq, hwallPlain⟩ := (number_isPlain_iff (by decide)).2 hwall
  unfold stampOf at h
  rw [hcpuEq, hwallEq] at h
  obtain rfl : cpu ++ '/' :: (wall ++ ['\t']) = stamp := Option.some.inj h
  constructor
  · intro t
    have hsplit : cpu ++ '/' :: (wall ++ ['\t']) ++ t = cpu ++ '/' :: (wall ++ '\t' :: t) := by
      simp
    rw [hsplit, isTimestamped_append (not_mem_number hcpuEq (by decide) (by decide))
      (not_mem_number hwallEq (by decide) (by decide)), hcpuPlain, hwallPlain]
    rfl
  · rw [List.mem_append, List.mem_cons, List.mem_append, not_or, not_or, not_or]
    exact ⟨not_mem_number hcpuEq (by decide) (by decide), by decide, not_mem_number hwallEq (by decide) (by decide),
      by decide⟩

theorem isTimestamped_copyLine {stamp : Text} (h : IsStamp stamp) (line : Text) :
    isTimestamped (copyLine stamp line) = true := by
  unfold copyLine
  by_cases hline : isTimestamped line = true
  · rw [if_pos hline]
    exact isTimestamped_append_right hline _
  · rw [if_neg hline, List.append_assoc]
    exact h.stamps _

theorem isLine_copyLine {stamp t line : Text} (h : IsStamp stamp) (hline : line ∈ fileLines t) :
    IsLine (copyLine stamp line) := by
  obtain ⟨body, hbody, heq⟩ := isLine_of_mem_fileLines hline
  unfold copyLine
  by_cases hstamped : isTimestamped line = true
  · rw [if_pos hstamped]
    exact ⟨body, hbody, heq⟩
  · rw [if_neg hstamped, List.append_assoc, heq]
    refine ⟨stamp ++ body, ?_, (List.append_assoc _ _ _).symm⟩
    rw [List.mem_append, not_or]
    exact ⟨h.noNewline, hbody⟩

/-- **All lines of an entry** have a time. -/
theorem isTimestamped_entryText {stamp : Text} (h : IsStamp stamp) (out err : Option Text) :
    ∀ line ∈ fileLines (entryText stamp out err), isTimestamped line = true := by
  have hnote {note : Text} (hnote : IsLine note) : IsLine (stamp ++ note) := by
    obtain ⟨body, hbody, rfl⟩ := hnote
    refine ⟨stamp ++ body, ?_, (List.append_assoc _ _ _).symm⟩
    rw [List.mem_append, not_or]
    exact ⟨h.noNewline, hbody⟩
  have hhead : IsLine headNote := ⟨headNote.dropLast, by decide +kernel, by decide +kernel⟩
  have hstderr : IsLine stderrNote := ⟨stderrNote.dropLast, by decide +kernel, by decide +kernel⟩
  have heof : IsLine eof := ⟨eof.dropLast, by decide +kernel, by decide +kernel⟩
  -- the lines of a text with a note
  let part (note : List Text) (content : Option Text) : List Text :=
    content.elim [] fun content => note ++ (fileLines content).map (copyLine stamp)
  have hlines : entryText stamp out err =
      (((stamp ++ headNote) :: part [] out) ++ (part [stamp ++ stderrNote] err ++ [stamp ++ eof])).flatten := by
    unfold entryText copyOutput
    cases out <;> cases err <;> simp [part, List.flatMap_def]
  have hpart {note : List Text} (hnotes : ∀ line ∈ note, IsLine line ∧ isTimestamped line = true) (content : Option Text) :
      ∀ line ∈ part note content, IsLine line ∧ isTimestamped line = true := by
    intro line hline
    cases content with
    | none => cases hline
    | some content =>
      rcases List.mem_append.1 hline with hline | hline
      · exact hnotes line hline
      · obtain ⟨source, hsource, rfl⟩ := List.mem_map.1 hline
        exact ⟨isLine_copyLine h hsource, isTimestamped_copyLine h source⟩
  have hall : ∀ line ∈ ((stamp ++ headNote) :: part [] out) ++ (part [stamp ++ stderrNote] err ++ [stamp ++ eof]),
      IsLine line ∧ isTimestamped line = true := by
    intro line hline
    rw [List.mem_append, List.mem_cons, List.mem_append, List.mem_singleton] at hline
    rcases hline with (rfl | hline) | hline | rfl
    · exact ⟨hnote hhead, h.stamps _⟩
    · exact hpart (fun _ hnil => absurd hnil List.not_mem_nil) out line hline
    · exact hpart (List.forall_mem_singleton.2 ⟨hnote hstderr, h.stamps _⟩) err line hline
    · exact ⟨hnote heof, h.stamps _⟩
  rw [hlines, fileLines_flatten fun line hline => (hall line hline).1]
  exact fun line hline => (hall line hline).2

/-! ### The export -/

/-- Every line and every numeric column. -/
structure IsStamped (files : Files) : Prop where
  lines : ∀ entry ∈ files.entries, ∀ line ∈ fileLines entry.2, isTimestamped line = true
  columns : ∀ info ∈ files.info,
    isPlain info.cpuTime = true ∧ isPlain info.wallclockTime = true ∧ isPlain info.memoryUsage = true

/-- The measurements of a row are written as plain numbers. -/
structure PlainRow (row : Row) : Prop where
  cpu : Plain row.cpuSeconds 1
  wall : Plain row.wallSeconds 1
  memory : Plain row.maxMemoryKib 1024
  limit : row.isComplete = true → Bounded row.cpuLimit 1

theorem bounded_of_plain {value : Text} {multiplier : ℕ} (hmultiplier : 0 < multiplier) (h : Plain value multiplier) :
    Bounded value multiplier := by
  obtain ⟨t, ht, -⟩ := (number_isPlain_iff hmultiplier).2 h
  exact number_isSome_iff.1 (by rw [ht]; rfl)

theorem summaryRow_columns {casefold : Text → Text} {row : Row} {benchmark : Text} {info : InfoRow}
    (h : summaryRow casefold row benchmark = some info) : number row.cpuSeconds 1 = some info.cpuTime ∧
      number row.wallSeconds 1 = some info.wallclockTime ∧ number row.maxMemoryKib 1024 = some info.memoryUsage := by
  unfold summaryRow at h
  cases hverdict : verdict casefold row <;> cases hcpu : number row.cpuSeconds 1 <;>
    cases hwall : number row.wallSeconds 1 <;> cases hmemory : number row.maxMemoryKib 1024 <;>
      simp [hverdict, hcpu, hwall, hmemory] at h
  rw [← h]
  exact ⟨rfl, rfl, rfl⟩

theorem mem_mapM {α β : Type} {f : α → Option β} {l : List α} {l' : List β} (h : l.mapM f = some l') :
    (∀ a ∈ l, ∃ b ∈ l', f a = some b) ∧ ∀ b ∈ l', ∃ a ∈ l, f a = some b := by
  induction l generalizing l' with
  | nil =>
    obtain rfl : [] = l' := Option.some.inj h
    exact ⟨fun _ h => absurd h List.not_mem_nil, fun _ h => absurd h List.not_mem_nil⟩
  | cons a l ih =>
    rw [List.mapM_cons] at h
    obtain ⟨b, hb, h⟩ := Option.bind_eq_some_iff.1 h
    obtain ⟨bs, hbs, h⟩ := Option.bind_eq_some_iff.1 h
    obtain rfl := Option.some.inj h
    obtain ⟨hleft, hright⟩ := ih hbs
    refine ⟨List.forall_mem_cons.2 ⟨⟨b, List.mem_cons_self, hb⟩, fun a' ha' => ?_⟩,
      List.forall_mem_cons.2 ⟨⟨a, List.mem_cons_self, hb⟩, fun b' hb' => ?_⟩⟩
    · obtain ⟨b', hb', heq⟩ := hleft a' ha'
      exact ⟨b', List.mem_cons_of_mem _ hb', heq⟩
    · obtain ⟨a', ha', heq⟩ := hright b' hb'
      exact ⟨a', List.mem_cons_of_mem _ ha', heq⟩

/-- The entries come from rows. -/
theorem mem_mergeLogs {paths : List (Text × Text)} {job : ℕ} {rows : List Row} {out err : List (ℤ × Text)}
    {entry : Text × Text} (h : entry ∈ mergeLogs paths job rows out err) :
    ∃ row ∈ rows, ∃ out err, entry.2 = entryText ((stampOf row).getD []) out err := by
  induction rows generalizing out err with
  | nil => cases h
  | cons row rows ih =>
    rw [mergeLogs, List.mem_append] at h
    rcases h with h | h
    · unfold entryOf at h
      split at h
      · rw [List.mem_singleton.1 h]
        exact ⟨row, List.mem_cons_self, _, _, rfl⟩
      · cases h
    · obtain ⟨row', hrow', hentry⟩ := ih h
      exact ⟨row', List.mem_cons_of_mem _ hrow', hentry⟩

/-- **Everything that is written has a time if and only if the measurements are plain numbers**, up to rounding: no
negative zero, no exponent above zero, and a range from `10 ^ (-6)` to `10 ^ 28`. -/
theorem export_stamped_iff (hash casefold : Text → Text) (job : ℕ) {rows : List Row} (stdout stderr : List Member)
    (hids : (rows.map Row.taskId).Nodup) :
    (∃ files, starexecExport hash casefold job rows stdout stderr = some files ∧ IsStamped files) ↔
      ∀ row ∈ rows, PlainRow row := by
  rcases starexecExport_eq hash casefold job stdout stderr hids with ⟨hall, info, hinfo, hexport⟩ | ⟨hnot, hexport⟩
  · obtain ⟨hleft, hright⟩ := mem_mapM hinfo
    have hcolumns {row : Row} {info : InfoRow}
        (h : (Dict.get (pathsOf hash rows) row.problem).bind (summaryRow casefold row) = some info) :
        number row.cpuSeconds 1 = some info.cpuTime ∧ number row.wallSeconds 1 = some info.wallclockTime ∧
          number row.maxMemoryKib 1024 = some info.memoryUsage := by
      obtain ⟨benchmark, -, h⟩ := Option.bind_eq_some_iff.1 h
      exact summaryRow_columns h
    constructor
    · rintro ⟨files, hfiles, hstamped⟩ row hrow
      obtain rfl := Option.some.inj (hexport.symm.trans hfiles)
      obtain ⟨info', hinfo', hrow'⟩ := hleft row (StableSort.mem_sortBy.2 hrow)
      obtain ⟨hcpu, hwall, hmemory⟩ := hcolumns hrow'
      obtain ⟨hcpuPlain, hwallPlain, hmemoryPlain⟩ := hstamped.columns info' hinfo'
      exact ⟨(number_isPlain_iff (by decide)).1 ⟨_, hcpu, hcpuPlain⟩,
        (number_isPlain_iff (by decide)).1 ⟨_, hwall, hwallPlain⟩,
        (number_isPlain_iff (by decide)).1 ⟨_, hmemory, hmemoryPlain⟩, (hall row hrow).limit⟩
    · intro hplain
      refine ⟨_, hexport, fun entry hentry => ?_, fun info' hinfo' => ?_⟩
      · obtain ⟨row, hrow, out, err, htext⟩ := mem_mergeLogs hentry
        have hrow := StableSort.mem_sortBy.1 hrow
        obtain ⟨stamp, hstamp⟩ := Option.isSome_iff_exists.1 (isSome_stampOf (hall row hrow))
        rw [htext, hstamp]
        exact isTimestamped_entryText (isStamp_stampOf (hplain row hrow).cpu (hplain row hrow).wall hstamp) out err
      · obtain ⟨row, hrow, hrow'⟩ := hright info' hinfo'
        have hplain := hplain row (StableSort.mem_sortBy.1 hrow)
        obtain ⟨hcpu, hwall, hmemory⟩ := hcolumns hrow'
        obtain ⟨cpu, hcpu', hcpuPlain⟩ := (number_isPlain_iff (by decide)).2 hplain.cpu
        obtain ⟨wall, hwall', hwallPlain⟩ := (number_isPlain_iff (by decide)).2 hplain.wall
        obtain ⟨memory, hmemory', hmemoryPlain⟩ := (number_isPlain_iff (by decide)).2 hplain.memory
        rw [Option.some.inj (hcpu.symm.trans hcpu'), Option.some.inj (hwall.symm.trans hwall'),
          Option.some.inj (hmemory.symm.trans hmemory')]
        exact ⟨hcpuPlain, hwallPlain, hmemoryPlain⟩
  · refine iff_of_false ?_ fun hplain => hnot fun row hrow => ?_
    · rintro ⟨files, hfiles, -⟩
      rw [hexport] at hfiles
      cases hfiles
    · have hrow := hplain row hrow
      exact ⟨bounded_of_plain (by decide) hrow.cpu, bounded_of_plain (by decide) hrow.wall,
        bounded_of_plain (by decide) hrow.memory, hrow.limit⟩

theorem export_stamped_iff_timed : ((timedRows "0.5").map Row.taskId).Nodup ∧
    ((∃ files, starexecExport sampleHash id 5 (timedRows "0.5") [log "000000000.log" "a\nb"] [] = some files ∧
      IsStamped files) ↔ ∀ row ∈ timedRows "0.5", PlainRow row) :=
  ⟨by decide +kernel, export_stamped_iff sampleHash id 5 _ [] (by decide +kernel)⟩

/-- A short time is written with an exponent, in a column and in front of a line. -/
theorem export_exponent : ((timedRows "1e-7").map Row.taskId).Nodup ∧
    ∃ files, starexecExport sampleHash id 5 (timedRows "1e-7") [log "000000000.log" "a"] [] = some files ∧
      (∃ info ∈ files.info, info.cpuTime = "1E-7".toList) ∧
      (∃ entry ∈ files.entries, ∃ line ∈ fileLines entry.2, isTimestamped line = false) ∧ ¬IsStamped files := by
  have hfiles : (starexecExport sampleHash id 5 (timedRows "1e-7") [log "000000000.log" "a"] []).any (fun files =>
      files.info.any (fun info => decide (info.cpuTime = "1E-7".toList)) &&
        files.entries.any fun entry => (fileLines entry.2).any fun line => !isTimestamped line) = true := by
    decide +kernel
  obtain ⟨files, hexport, hany⟩ := (Option.any_eq_true ..).1 hfiles
  rw [Bool.and_eq_true, List.any_eq_true, List.any_eq_true] at hany
  obtain ⟨⟨info, hinfo, htime⟩, entry, hentry, hline⟩ := hany
  obtain ⟨line, hline, hnot⟩ := List.any_eq_true.1 hline
  have hnot : isTimestamped line = false := by simpa using hnot
  refine ⟨by decide +kernel, files, hexport, ⟨info, hinfo, of_decide_eq_true htime⟩, ⟨entry, hentry, line, hline, hnot⟩,
    fun hstamped => ?_⟩
  rw [hstamped.lines entry hentry line hline] at hnot
  cases hnot

end StarExec
end Slurmy
