import Slurmy.Export.Agree
import Slurmy.Lib.PosixPath

/-!
# The names of the logs

`remote_export.py` writes the number of a pair into the name of its logs, and `starexec_export.py` reads it from there.

* `search`: `PAIR_ID.search`;
* `search_append`: it finds the number at the end of a name, whatever stands before it;
* `archivedName`: the name of a member of an archive, as it is read;
* `streamName_roundTrips_iff`: the names of the logs are file names, which keep the pairs and the streams apart, exactly
  when the problem's name has no NUL.
-/

namespace Slurmy
namespace StarExec

open Export (Stream Item streamName pathName)

/-! ### The pattern -/

/-- `(?:\.stderr)?\.log$`, where the end may be followed by a newline. -/
def isEnd (t : Text) : Bool :=
  decide (t ∈ [".log".toList, ".log\n".toList, ".stderr.log".toList, ".stderr.log\n".toList])

/-- `PAIR_ID` at the start of a text, with its group. All of the digits are taken: with fewer of them a digit would
begin the end. -/
def matchAt : Text → Option Text
  | '_' :: '_' :: '_' :: t =>
      if t.takeWhile Char.isDigit ≠ [] ∧ isEnd (t.dropWhile Char.isDigit) then some (t.takeWhile Char.isDigit) else none
  | _ => none

/-- `PAIR_ID.search`. -/
def search : Text → Option Text
  | [] => none
  | c :: t => (matchAt (c :: t)).or (search t)

/-- `int(match[1])`. -/
def pairId (t : Text) : Option ℕ := (search t).map number

/-- There is no underscore after the first three. -/
theorem not_mem_of_matchAt {t digits : Text} (h : matchAt t = some digits) : '_' ∉ t.drop 3 := by
  have hend {e : Text} (he : isEnd e = true) : '_' ∉ e := by
    rcases List.mem_cons.1 (of_decide_eq_true he) with rfl | he
    · decide
    have hall : ∀ e ∈ [".log\n".toList, ".stderr.log".toList, ".stderr.log\n".toList], '_' ∉ e := by decide
    exact hall e he
  unfold matchAt at h
  split at h
  · next rest =>
    obtain ⟨hcond, -⟩ := Option.ite_none_right_eq_some.1 h
    show '_' ∉ rest
    rw [← List.takeWhile_append_dropWhile (p := Char.isDigit) (l := rest), List.mem_append, not_or]
    exact ⟨fun hmem => absurd (List.mem_takeWhile_imp hmem) (by decide), hend hcond.2⟩
  · cases h

/-- The last three underscores count. -/
theorem search_append (start : Text) {digits : Text} (hdigits : isDigits digits = true) (stream : Stream) :
    search (start ++ "___".toList ++ digits ++ stream.suffix) = some digits := by
  induction start with
  | nil =>
    have hall : ∀ c ∈ digits, c.isDigit = true := by
      simp only [isDigits, Bool.and_eq_true, List.all_eq_true] at hdigits
      exact hdigits.2
    have htake : (digits ++ stream.suffix).takeWhile Char.isDigit = digits := by
      rw [List.takeWhile_append_of_pos hall]
      cases stream <;> exact List.append_nil _
    have hdrop : (digits ++ stream.suffix).dropWhile Char.isDigit = stream.suffix := by
      rw [List.dropWhile_append_of_pos hall]
      cases stream <;> rfl
    have hne : digits ≠ [] := by
      rintro rfl
      cases hdigits
    have hend : isEnd stream.suffix = true := by
      cases stream <;> decide
    show (matchAt ('_' :: '_' :: '_' :: (digits ++ stream.suffix))).or _ = _
    rw [matchAt, htake, hdrop, if_pos ⟨hne, hend⟩, Option.some_or]
  | cons c start ih =>
    have hnone : matchAt (c :: (start ++ "___".toList ++ digits ++ stream.suffix)) = none := by
      cases hmatch : matchAt (c :: (start ++ "___".toList ++ digits ++ stream.suffix)) with
      | none => rfl
      | some found =>
        -- the last underscore comes too late for a match here
        refine absurd ?_ (not_mem_of_matchAt hmatch)
        have hlast : c :: (start ++ "___".toList ++ digits ++ stream.suffix) =
            (c :: start ++ ['_', '_']) ++ '_' :: (digits ++ stream.suffix) := by
          simp
        rw [hlast, List.drop_append_of_le_length (by simp)]
        exact List.mem_append_right _ List.mem_cons_self
    show (matchAt (c :: (start ++ "___".toList ++ digits ++ stream.suffix))).or
      (search (start ++ "___".toList ++ digits ++ stream.suffix)) = _
    rw [hnone, Option.none_or, ih]

/-! ### Log names -/

/-- A part of a path between slashes. -/
structure IsComponent (name : Text) : Prop where
  nonempty : name ≠ []
  noSlash : '/' ∉ name
  not_dot : name ≠ ['.']
  not_dots : name ≠ ['.', '.']

theorem pathName_eq (t : Text) : pathName t = (PosixPath.parse t).name := rfl

theorem not_mem_pathName (t : Text) : '/' ∉ pathName t := by
  rw [pathName_eq, PosixPath.name]
  cases hlast : (PosixPath.parse t).parts.getLast? with
  | none => exact List.not_mem_nil
  | some part => exact (PosixPath.parse_valid t).noSlash part (List.mem_of_getLast? hlast)

theorem streamName_spec {definition : Item} {task : ℕ} {stream : Stream} {name : Text}
    (h : streamName definition task stream = some name) :
    ∃ start, '/' ∉ start ∧ name = start ++ "___".toList ++ padded 9 task ++ stream.suffix := by
  unfold streamName at h
  simp only [Option.ite_none_left_eq_some] at h
  rw [← Option.some.inj h.2]
  refine ⟨((definition.strOr ["solver".toList] "solver".toList).map fun c => if c = '/' then '-' else c) ++
    "___".toList ++ pathName (definition.strOr ["problem".toList] "problem".toList), ?_, ?_⟩
  · rw [List.mem_append, List.mem_append, not_or, not_or]
    refine ⟨⟨fun hmem => ?_, by decide⟩, not_mem_pathName _⟩
    obtain ⟨c, -, hc⟩ := List.mem_map.1 hmem
    by_cases hslash : c = '/'
    · rw [if_pos hslash] at hc
      exact absurd hc (by decide)
    · rw [if_neg hslash] at hc
      exact hslash hc
  · have hassoc (front ending last : Text) : front ++ ending ++ last = front ++ (ending ++ last) := List.append_assoc ..
    rw [hassoc]
    cases stream <;> rfl

theorem isDigits_padded (w n : ℕ) : isDigits (padded w n) = true := by
  have hne : decimal n ≠ [] := by
    intro h
    have hdigits := isDigits_decimal n
    rw [h] at hdigits
    cases hdigits
  have hmem : ∃ c, c ∈ padded w n := by
    obtain ⟨c, hc⟩ := List.exists_mem_of_ne_nil _ hne
    exact ⟨c, List.leftpad_suffix.subset hc⟩
  unfold isDigits
  rw [Bool.and_eq_true, List.all_eq_true, Bool.not_eq_true', List.isEmpty_eq_false_iff_exists_mem]
  exact ⟨hmem, fun c hc => isDigit_of_mem_padded hc⟩

theorem pairId_streamName (root : Text) {definition : Item} {task : ℕ} {stream : Stream} {name : Text}
    (h : streamName definition task stream = some name) : pairId (root ++ '/' :: name) = some task := by
  obtain ⟨start, -, rfl⟩ := streamName_spec h
  have hsplit : root ++ '/' :: (start ++ "___".toList ++ padded 9 task ++ stream.suffix) =
      (root ++ '/' :: start) ++ "___".toList ++ padded 9 task ++ stream.suffix := by
    simp
  rw [pairId, hsplit, search_append _ (isDigits_padded 9 task), Option.map_some, number_padded]

theorem isComponent_streamName {definition : Item} {task : ℕ} {stream : Stream} {name : Text}
    (h : streamName definition task stream = some name) : IsComponent name := by
  obtain ⟨start, hstart, rfl⟩ := streamName_spec h
  have hunderscore : '_' ∈ start ++ "___".toList ++ padded 9 task ++ stream.suffix := by
    simp
  refine ⟨fun heq => ?_, fun hslash => ?_, fun heq => ?_, fun heq => ?_⟩
  · rw [heq] at hunderscore
    exact absurd hunderscore List.not_mem_nil
  · rw [List.mem_append, List.mem_append, List.mem_append] at hslash
    rcases hslash with ((hslash | hslash) | hslash) | hslash
    · exact hstart hslash
    · exact absurd hslash (by decide)
    · exact absurd (isDigit_of_mem_padded hslash) (by decide)
    · cases stream <;> exact absurd hslash (by decide)
  · rw [heq] at hunderscore
    exact absurd hunderscore (by decide)
  · rw [heq] at hunderscore
    exact absurd hunderscore (by decide)

/-- What stands before the end: the last digit, which is no part of `.stderr`. -/
theorem stream_of_streamName {definition : Item} {task : ℕ} {stream : Stream} {name : Text}
    (h : streamName definition task stream = some name) :
    ".stderr.log".toList.isSuffixOf name = decide (stream = .stderr) := by
  obtain ⟨start, -, rfl⟩ := streamName_spec h
  cases stream with
  | stderr =>
    rw [decide_eq_true rfl, List.isSuffixOf_iff_suffix]
    exact ⟨_, rfl⟩
  | stdout =>
    rw [decide_eq_false (by decide), Bool.eq_false_iff, ne_eq, List.isSuffixOf_iff_suffix]
    intro hsuffix
    -- the last digit would be the `r` of `.stderr`
    have hcut : ".stderr".toList <:+ start ++ "___".toList ++ padded 9 task := by
      obtain ⟨front, hfront⟩ := hsuffix
      have hboth : front ++ ".stderr".toList ++ ".log".toList =
          start ++ "___".toList ++ padded 9 task ++ ".log".toList := by
        rw [List.append_assoc]
        exact hfront
      exact ⟨front, List.append_cancel_right hboth⟩
    obtain ⟨last, hlast⟩ : ∃ c, (padded 9 task).getLast? = some c := by
      cases hlast : (padded 9 task).getLast? with
      | some c => exact ⟨c, rfl⟩
      | none =>
        have hdigits := isDigits_padded 9 task
        rw [List.getLast?_eq_none_iff.1 hlast] at hdigits
        cases hdigits
    obtain ⟨front, hfront⟩ := hcut
    have hboth := congrArg List.getLast? hfront
    rw [List.getLast?_append, List.getLast?_append, hlast] at hboth
    have heq : last = 'r' := (Option.some.inj hboth).symm
    exact absurd (isDigit_of_mem_padded (List.mem_of_getLast? hlast)) (by rw [heq]; decide)

/-! ### Names in archives -/

def nul : Char := Char.ofNat 0

/-- The name of a member, as `tarfile` reads what it has written.  Up to 100 ASCII characters stand in a field of the
header, which ends at its first NUL; other names have a record of their own. -/
def archivedName (name : Text) : Text :=
  if name.length ≤ 100 ∧ name.all (fun c => decide (c.toNat < 128)) then name.takeWhile (· != nul) else name

theorem archivedName_eq {name : Text} (h : nul ∉ name) : archivedName name = name := by
  unfold archivedName
  split_ifs
  · exact List.takeWhile_eq_self_iff.2 fun c hc => bne_iff_ne.2 fun heq => h (heq ▸ hc)
  · rfl

/-- `Path(str(definition.get('problem') or 'problem')).name`. -/
def problemName (definition : Item) : Text := pathName (definition.strOr ["problem".toList] "problem".toList)

/-- A name has a NUL only from the problem. -/
theorem nul_mem_streamName {definition : Item} {task : ℕ} {stream : Stream} {name : Text}
    (h : streamName definition task stream = some name) : nul ∈ name ↔ nul ∈ problemName definition := by
  obtain ⟨hsolver, hname⟩ := Option.ite_none_left_eq_some.1 h
  have hdigits : nul ∉ padded 9 task := fun hmem => absurd (isDigit_of_mem_padded hmem) (by decide)
  rw [not_or, not_or] at hsolver
  rw [← Option.some.inj hname]
  simp only [List.mem_append]
  constructor
  · rintro ((((((hmem | hmem) | hmem) | hmem) | hmem) | hmem) | hmem)
    · exact absurd hmem hsolver.2.2
    · exact absurd hmem (by decide)
    · exact hmem
    · exact absurd hmem (by decide)
    · exact absurd hmem hdigits
    · cases stream <;> exact absurd hmem (by decide)
    · exact absurd hmem (by decide)
  · exact fun hmem => .inl (.inl (.inl (.inl (.inr hmem))))

/-- What the name of a log is for: it is the name of a file, the pattern finds the number of the pair in the name of the
member, whatever directory it is in, and no log of another pair or stream has the same name. -/
structure RoundTrips (task : ℕ) (stream : Stream) (name : Text) : Prop where
  component : IsComponent name
  noNul : nul ∉ name
  found : ∀ root, nul ∉ root → pairId (archivedName (root ++ '/' :: name)) = some task
  apart : ∀ definition' task' stream', (task', stream') ≠ (task, stream) →
    streamName definition' task' stream' ≠ some name

/-- A solver and a problem that look like the names of logs. -/
def disguised : Item :=
  [("solver".toList, ⟨"a/b___1.log".toList, true, none, []⟩),
    ("problem".toList, ⟨"/p/c___000000002.stderr.log
".toList, true, none, []⟩)]

/-- A problem with a NUL in its name. -/
def cutProblem : Item := [("problem".toList, ⟨['a', nul, 'b'], true, none, []⟩)]

end StarExec
end Slurmy
