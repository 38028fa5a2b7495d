import Mathlib.Data.Bool.AllAny
import Slurmy.StarExec.PairId
import Slurmy.Export.Verbose

/-!
# The archives of the pairs

After each download `publish_verbose_pairs` of `slurmy-sync.py` makes, for every solver-problem pair with an archive in
the mirror, an archive under a name that can be read.

* `Mirror`, `Pair`: the mirror, and the archives of its pairs;
* `memberName`, `Pair.archive`: the archive that is made of a pair; `CallLog`: the files that `call.sh` packs;
* `isGenerated`, `temporaryIndex`, `isTemporary`: the names next to those of the archives;
* `archive_readable`: what the new archives hold;
* `pair_unique`: a name stands for one pair.
-/

namespace Slurmy
namespace Export
namespace PairArchives

/-! ### The mirror -/

/-- The files under `diagnostics`, with their sizes and times. -/
structure Mirror where
  job : Job
  size : Text → ℕ
  mtime : Text → ℕ

/-- `[original, stat.st_size, stat.st_mtime_ns]`. -/
structure Signature where
  original : Text
  size : ℕ
  mtime : ℕ
  deriving DecidableEq

/-- The archive of a pair in the mirror. -/
structure Pair where
  stem : Text
  signature : Signature
  content : Content
  deriving DecidableEq

/-- `stem + '.tgz'`. -/
def Pair.name (p : Pair) : Text := p.stem ++ ".tgz".toList

/-- `name.removesuffix(ending)`. -/
def removeSuffix (ending name : Text) : Text :=
  if ending.isSuffixOf name then name.take (name.length - ending.length) else name

/-- `stem`, `none` when the name of the solver is invalid. -/
def stemOf (definition : Item) (task : ℕ) : Option Text :=
  (streamName definition task .stdout).map (removeSuffix ".log".toList)

/-- What the loop finds for a pair: nothing when its result has no archive there; the outer `none` when it fails. -/
def Mirror.pair (m : Mirror) (definitions : List (ℤ × Item)) (task : ℕ) : Option (Option Pair) :=
  let original := (m.job.resultRecords.lookup task).getD []
  if isArchiveName original then
    match m.job.file original with
    | none => some none
    | some content => (stemOf (definitionOf definitions task) task).map fun stem =>
        some ⟨stem, ⟨original, m.size original, m.mtime original⟩, content⟩
  else some none

/-- `sorted(records)`. -/
def Mirror.tasks (m : Mirror) : List ℕ := recordedTasks m.job.resultRecords

/-- All pairs with an archive. -/
def Mirror.pairs (m : Mirror) : List Pair :=
  match m.job.definitions with
  | none => []
  | some definitions => m.tasks.filterMap fun task => (m.pair definitions task).join

/-! ### The new archives -/

/-- The path below the new folder. -/
def relocated (stem : Text) (relative : PosixPath) : PosixPath :=
  if ".solver.log".toList.isSuffixOf relative.name then .parse (stem ++ ".log".toList)
  else if ".solver-stderr.log".toList.isSuffixOf relative.name then .parse (stem ++ ".stderr.log".toList)
  else if "task_".toList.isPrefixOf relative.name ∧ '.' ∈ relative.name then
    .parse (stem ++ '.' :: after '.' relative.name)
  else relative

/-- `f'{stem}/{relative}'`, `none` for an unsafe member. -/
def memberName (stem name : Text) : Option Text :=
  let relative := PosixPath.parse name
  if relative.isAbsolute ∨ ['.', '.'] ∈ relative.parts then none
  else some (stem ++ '/' :: (relocated stem relative).str)

/-- The archive that is made of a pair. -/
def Pair.archive (p : Pair) : Option (List Member) :=
  p.content.archive?.bind fun members =>
    ((members.filter Member.isFile).mapM fun m => (memberName p.stem m.name).map fun name => ⟨name, true, m.content⟩).map
      fun files => ⟨p.stem ++ ['/'], false, []⟩ :: files

/-- The files that `call.sh` packs. -/
inductive CallLog
  | solver
  | solverStderr
  | limiterStdout
  | watcher
  | var
  | controller
  | time
  deriving DecidableEq

/-- `$work/$stem.` is followed by this; the times of a call have a name of their own. -/
def CallLog.ending : CallLog → Text
  | .solver => "solver.log".toList
  | .solverStderr => "solver-stderr.log".toList
  | .limiterStdout => "limiter-stdout.log".toList
  | .watcher => "watcher.log".toList
  | .var => "var".toList
  | .controller => "controller.log".toList
  | .time => []

/-- The name of the member of `tar -C "$work" .`. -/
def CallLog.file (task : ℕ) (key : Text) : CallLog → Text
  | .time => "./time".toList
  | log => "./task_".toList ++ padded 9 task ++ '_' :: key ++ '.' :: log.ending

/-- The archive of a call that has left these files. -/
def callArchive (task : ℕ) (key : Text) (logs : List (CallLog × Text)) : List Member :=
  ⟨"./".toList, false, []⟩ :: logs.map fun l => ⟨l.1.file task key, true, l.2⟩

/-- The name in the new folder. -/
def CallLog.readable (stem : Text) : CallLog → Text
  | .solver => stem ++ ".log".toList
  | .solverStderr => stem ++ ".stderr.log".toList
  | .time => "time".toList
  | log => stem ++ '.' :: log.ending

/-- `Path(name).name == name and name.endswith('.tgz')`. -/
def isGenerated (name : Text) : Bool := decide (pathName name = name) && ".tgz".toList.isSuffixOf name

def temporaryIndex : Text := ".archive-index.tmp".toList

/-- `.pair-*.tmp`. -/
def isTemporary (name : Text) : Bool := ".pair-".toList.isPrefixOf name && ".tmp".toList.isSuffixOf name

/-! ### Names -/

section Names

variable {definition : Item} {task : ℕ} {stem : Text}

theorem removeSuffix_append (ending name : Text) : removeSuffix ending (name ++ ending) = name := by
  have hsuffix : ending.isSuffixOf (name ++ ending) = true :=
    List.isSuffixOf_iff_suffix.mpr (List.suffix_append name ending)
  rw [removeSuffix, if_pos hsuffix, List.length_append, Nat.add_sub_cancel, List.take_left]

theorem streamName_of_stemOf (h : stemOf definition task = some stem) :
    streamName definition task .stdout = some (stem ++ ".log".toList) := by
  obtain ⟨file, hfile, rfl⟩ := Option.map_eq_some_iff.mp h
  obtain ⟨start, -, rfl⟩ := StarExec.streamName_spec hfile
  rw [show Stream.stdout.suffix = ".log".toList from rfl] at hfile ⊢
  rw [hfile, removeSuffix_append]

theorem isComponent_of_mem {name : Text} (hmem : '_' ∈ name) (hslash : '/' ∉ name) : StarExec.IsComponent name := by
  refine ⟨List.ne_nil_of_mem hmem, hslash, fun hdot => ?_, fun hdots => ?_⟩
  · rw [hdot] at hmem
    exact absurd hmem (by decide)
  · rw [hdots] at hmem
    exact absurd hmem (by decide)

/-- The stem and what follows it are one component of a path. -/
theorem isComponent_append (h : stemOf definition task = some stem) {rest : Text} (hrest : '/' ∉ rest) :
    StarExec.IsComponent (stem ++ rest) := by
  obtain ⟨file, hfile, heq⟩ := Option.map_eq_some_iff.mp h
  obtain ⟨start, hstart, rfl⟩ := StarExec.streamName_spec hfile
  rw [show Stream.stdout.suffix = ".log".toList from rfl, removeSuffix_append] at heq
  refine isComponent_of_mem (by rw [← heq]; simp) fun hslash => ?_
  rw [← heq, List.mem_append, List.mem_append, List.mem_append] at hslash
  rcases hslash with ((hslash | hslash) | hslash) | hslash
  · exact hstart hslash
  · exact absurd hslash (by decide)
  · exact absurd (isDigit_of_mem_padded hslash) (by decide)
  · exact hrest hslash

theorem parse_component {name : Text} (h : StarExec.IsComponent name) : PosixPath.parse name = ⟨0, [name]⟩ := by
  have hvalid : PosixPath.Valid ⟨0, [name]⟩ := by
    refine ⟨Nat.zero_le 2, fun part hpart => ?_, fun part hpart => ?_⟩
    · rw [List.mem_singleton.mp hpart]
      exact decide_eq_true ⟨h.nonempty, h.not_dot⟩
    · rw [List.mem_singleton.mp hpart]
      exact h.noSlash
  have hstr : PosixPath.str ⟨0, [name]⟩ = name := by
    rw [PosixPath.str, if_neg fun hempty => List.cons_ne_nil _ _ hempty.2, List.intercalate_singleton]
    rfl
  rw [← PosixPath.parse_str hvalid, hstr]

theorem pathName_component {name : Text} (h : StarExec.IsComponent name) : pathName name = name := by
  rw [StarExec.pathName_eq, parse_component h]
  rfl

/-- Different pairs have different stems. -/
theorem stemOf_inj {definition' : Item} {task' : ℕ} (h : stemOf definition task = some stem)
    (h' : stemOf definition' task' = some stem) : task' = task := by
  have hid := StarExec.pairId_streamName [] (streamName_of_stemOf h)
  rw [StarExec.pairId_streamName [] (streamName_of_stemOf h')] at hid
  exact Option.some.inj hid

end Names

/-! ### What the new archives hold -/

section Contents

variable {definition : Item} {task : ℕ} {stem name : Text}

theorem not_mem_name (t : Text) : '/' ∉ (PosixPath.parse t).name := StarExec.not_mem_pathName t

/-- A member comes to lie in the new folder. -/
theorem parse_memberName (h : stemOf definition task = some stem) {t : Text} (hname : memberName stem t = some name) :
    ∃ rest, PosixPath.parse name = ⟨0, stem :: rest⟩ ∧ ['.', '.'] ∉ rest := by
  have hstem : StarExec.IsComponent (stem ++ []) := isComponent_append h List.not_mem_nil
  rw [List.append_nil] at hstem
  have hparts (q : PosixPath) (hq : q.Valid) : PosixPath.parse (stem ++ '/' :: q.str) = ⟨0, stem :: q.parts⟩ := by
    have hslashes : (PosixPath.parse (stem ++ '/' :: q.str)).slashes = 0 := by
      by_contra hne
      obtain ⟨c, rest, hcons⟩ := List.exists_cons_of_ne_nil hstem.nonempty
      have hhead := PosixPath.head?_of_slashes hne
      rw [hcons] at hhead
      have hc : c = '/' := Option.some.inj hhead
      exact hstem.noSlash (hcons ▸ hc ▸ List.mem_cons_self)
    have hjoined := PosixPath.parts_append_slash stem q.str
    rw [parse_component hstem, PosixPath.parse_str hq] at hjoined
    calc PosixPath.parse (stem ++ '/' :: q.str)
        = ⟨(PosixPath.parse (stem ++ '/' :: q.str)).slashes, (PosixPath.parse (stem ++ '/' :: q.str)).parts⟩ := rfl
      _ = ⟨0, stem :: q.parts⟩ := by rw [hslashes, hjoined, List.singleton_append]
  have hone {rest : Text} (hrest : '/' ∉ rest) : ['.', '.'] ∉ (PosixPath.parse (stem ++ rest)).parts := by
    have hcomponent := isComponent_append h hrest
    rw [parse_component hcomponent, List.mem_singleton]
    exact fun heq => hcomponent.not_dots heq.symm
  unfold memberName at hname
  dsimp only at hname
  split_ifs at hname with hsafe
  rw [not_or] at hsafe
  rw [← Option.some.inj hname]
  have hvalid : (relocated stem (PosixPath.parse t)).Valid := by
    unfold relocated
    split_ifs <;> exact PosixPath.parse_valid _
  refine ⟨_, hparts _ hvalid, ?_⟩
  unfold relocated
  split_ifs
  · exact hone (by decide)
  · exact hone (by decide)
  · refine hone fun hmem => ?_
    rcases List.mem_cons.mp hmem with hdot | hmem
    · exact absurd hdot (by decide)
    · exact not_mem_name t ((List.dropWhile_suffix _).subset (List.mem_of_mem_tail hmem))
  · exact hsafe.2

variable {p : Pair}

theorem memberName_eq_none_iff {t : Text} : memberName stem t = none ↔
    (PosixPath.parse t).isAbsolute = true ∨ ['.', '.'] ∈ (PosixPath.parse t).parts := by
  unfold memberName
  dsimp only
  split_ifs with hunsafe
  · exact ⟨fun _ => hunsafe, fun _ => rfl⟩
  · exact ⟨fun h => (by cases h), fun h => absurd h hunsafe⟩

/-- The files of the new archive. -/
theorem archive_eq_some_iff {out : List Member} : p.archive = some out ↔
    ∃ members files, p.content.archive? = some members ∧ out = ⟨p.stem ++ ['/'], false, []⟩ :: files ∧
      List.Forall₂ (fun (m f : Member) => ∃ name, memberName p.stem m.name = some name ∧ f = ⟨name, true, m.content⟩)
        (members.filter Member.isFile) files := by
  have hmember (m f : Member) :
      ((memberName p.stem m.name).map fun name => (⟨name, true, m.content⟩ : Member)) = some f ↔
        ∃ name, memberName p.stem m.name = some name ∧ f = ⟨name, true, m.content⟩ := by
    rw [Option.map_eq_some_iff]
    exact exists_congr fun name => and_congr_right fun _ => eq_comm
  unfold Pair.archive
  simp only [Option.bind_eq_some_iff, Option.map_eq_some_iff, Gather.mapM_eq_some_iff, hmember]
  constructor
  · rintro ⟨members, hmembers, files, hfiles, rfl⟩
    exact ⟨members, files, hmembers, rfl, hfiles⟩
  · rintro ⟨members, files, hmembers, rfl, hfiles⟩
    exact ⟨members, hmembers, files, hfiles, rfl⟩

theorem archive_eq_none_iff : p.archive = none ↔ ∀ members, p.content.archive? = some members →
    ∃ m ∈ members, m.isFile = true ∧
      ((PosixPath.parse m.name).isAbsolute = true ∨ ['.', '.'] ∈ (PosixPath.parse m.name).parts) := by
  unfold Pair.archive
  cases p.content.archive? with
  | none => simp
  | some members =>
    rw [Option.bind_some, Option.map_eq_none_iff, Gather.mapM_eq_none_iff]
    simp only [Option.map_eq_none_iff, memberName_eq_none_iff, List.mem_filter, Option.some.injEq, forall_eq', and_assoc]

/-! ### The archives of `call.sh` -/

/-- The ending of a name is seen in its last characters. -/
theorem isSuffixOf_ending (start : Text) {log : CallLog} (htime : log ≠ .time) :
    ".solver.log".toList.isSuffixOf (start ++ '.' :: log.ending) = decide (log = .solver) ∧
      ".solver-stderr.log".toList.isSuffixOf (start ++ '.' :: log.ending) = decide (log = .solverStderr) := by
  have hreverse (suffix : Text) : suffix.isSuffixOf (start ++ '.' :: log.ending) =
      suffix.reverse.isPrefixOf (('.' :: log.ending).reverse ++ start.reverse) := by
    rw [List.isSuffixOf, List.reverse_append]
  rw [hreverse, hreverse]
  cases log with
  | solver => exact ⟨rfl, rfl⟩
  | solverStderr => exact ⟨rfl, rfl⟩
  | limiterStdout => exact ⟨rfl, rfl⟩
  | watcher => exact ⟨rfl, rfl⟩
  | var => exact ⟨rfl, rfl⟩
  | controller => exact ⟨rfl, rfl⟩
  | time => exact absurd rfl htime

theorem memberName_file {key : Text} (hkey : ∀ c ∈ key, c ≠ '.' ∧ c ≠ '/') (log : CallLog) :
    memberName stem (log.file task key) = some (stem ++ '/' :: (PosixPath.parse (log.readable stem)).str) := by
  by_cases htime : log = .time
  · subst htime
    have htime : PosixPath.parse "./time".toList = ⟨0, ["time".toList]⟩ := by decide +kernel
    have hfile : CallLog.file task key .time = "./time".toList := rfl
    have hreadable : CallLog.readable stem .time = "time".toList := rfl
    have hparse : PosixPath.parse "time".toList = ⟨0, ["time".toList]⟩ := by decide +kernel
    unfold memberName
    rw [hfile, hreadable, htime, hparse]
    rfl
  obtain ⟨start, hstart⟩ : ∃ start, start = "task_".toList ++ padded 9 task ++ '_' :: key := ⟨_, rfl⟩
  have hfree (c : Char) (hc : c = '.' ∨ c = '/') : c ∉ start := by
    rw [hstart, List.mem_append, List.mem_append, List.mem_cons]
    rintro ((hmem | hmem) | hmem | hmem)
    · rcases hc with rfl | rfl <;> exact absurd hmem (by decide)
    · have hdigit := isDigit_of_mem_padded hmem
      rcases hc with rfl | rfl <;> exact absurd hdigit (by decide)
    · rcases hc with rfl | rfl <;> exact absurd hmem (by decide)
    · exact hc.elim (hkey c hmem).1 (hkey c hmem).2
  have hfile : log.file task key = ['.'] ++ '/' :: (start ++ '.' :: log.ending) := by
    rw [hstart]
    cases log <;> first | exact absurd rfl htime | simp [CallLog.file]
  have hcomponent : StarExec.IsComponent (start ++ '.' :: log.ending) := by
    refine isComponent_of_mem (by rw [hstart]; simp) fun hslash => ?_
    rcases List.mem_append.mp hslash with hslash | hslash
    · exact hfree '/' (.inr rfl) hslash
    · revert hslash
      cases log <;> decide
  have hparse : PosixPath.parse (log.file task key) = ⟨0, [start ++ '.' :: log.ending]⟩ := by
    have hparts := PosixPath.parts_append_slash ['.'] (start ++ '.' :: log.ending)
    rw [parse_component hcomponent, ← hfile] at hparts
    have hslashes : (PosixPath.parse (log.file task key)).slashes = 0 := by
      rw [hfile]
      rfl
    calc PosixPath.parse (log.file task key)
        = ⟨(PosixPath.parse (log.file task key)).slashes, (PosixPath.parse (log.file task key)).parts⟩ := rfl
      _ = ⟨0, [start ++ '.' :: log.ending]⟩ := by rw [hslashes, hparts]; rfl
  have hname : (PosixPath.mk 0 [start ++ '.' :: log.ending]).name = start ++ '.' :: log.ending := rfl
  have htask : "task_".toList.isPrefixOf (start ++ '.' :: log.ending) = true := by
    rw [hstart, List.isPrefixOf_iff_prefix]
    simp
  have hending : after '.' (start ++ '.' :: log.ending) = log.ending := after_append (hfree '.' (.inl rfl)) _
  obtain ⟨hsolver, hstderr⟩ := isSuffixOf_ending start htime
  have hrelocated : relocated stem ⟨0, [start ++ '.' :: log.ending]⟩ = PosixPath.parse (log.readable stem) := by
    have htask' : "task_".toList.isPrefixOf (start ++ '.' :: log.ending) = true ∧ '.' ∈ start ++ '.' :: log.ending :=
      ⟨htask, by simp⟩
    unfold relocated
    rw [hname, hsolver, hstderr, if_pos htask', hending]
    cases log <;> first | exact absurd rfl htime | rfl
  unfold memberName
  rw [hparse]
  dsimp only
  rw [hrelocated, if_neg]
  rintro (habsolute | hdots)
  · cases habsolute
  · exact hcomponent.not_dots (List.mem_singleton.mp hdots).symm

theorem str_component {name : Text} (h : StarExec.IsComponent name) : (PosixPath.parse name).str = name := by
  rw [parse_component h, PosixPath.str, if_neg fun hempty => List.cons_ne_nil _ _ hempty.2, List.intercalate_singleton]
  rfl

theorem isComponent_readable (h : stemOf definition task = some stem) (log : CallLog) :
    StarExec.IsComponent (log.readable stem) := by
  cases log with
  | time =>
    rw [show CallLog.readable stem .time = "time".toList from rfl]
    exact ⟨by decide, by decide, by decide, by decide⟩
  | _ => exact isComponent_append h (by decide)

theorem readable_injective (h : stemOf definition task = some stem) : Function.Injective (CallLog.readable stem) := by
  have htime (rest : Text) : stem ++ rest ≠ "time".toList := by
    intro heq
    obtain ⟨file, hfile, hstem⟩ := Option.map_eq_some_iff.mp h
    obtain ⟨start, -, rfl⟩ := StarExec.streamName_spec hfile
    rw [show Stream.stdout.suffix = ".log".toList from rfl, removeSuffix_append] at hstem
    have hunderscore : '_' ∈ stem ++ rest := by
      rw [← hstem]
      simp
    rw [heq] at hunderscore
    exact absurd hunderscore (by decide)
  intro log log' heq
  cases log <;> cases log' <;>
    first
    | rfl
    | exact absurd heq (htime _)
    | exact absurd heq.symm (htime _)
    | exact absurd (List.append_cancel_left heq) (by decide)

theorem streamName_readable (h : stemOf definition task = some stem) :
    streamName definition task .stdout = some (CallLog.readable stem .solver) ∧
      streamName definition task .stderr = some (CallLog.readable stem .solverStderr) := by
  have hout := streamName_of_stemOf h
  refine ⟨hout, ?_⟩
  unfold streamName at hout ⊢
  simp only [Option.ite_none_left_eq_some, Option.some.injEq, List.append_nil] at hout ⊢
  refine ⟨hout.1, ?_⟩
  rw [CallLog.readable, ← List.append_cancel_right hout.2]
  simp

/-- **The archive of a pair.** It cannot be made only if its source is no archive or has an unsafe file.  Otherwise it
is a folder with the contents of the files in their order, all of them in this folder.  The logs that `call.sh` has
packed get different names there, and the two streams those of the other exports. -/
theorem archive_readable (h : stemOf definition task = some p.stem) :
    (p.archive = none ↔ ∀ members, p.content.archive? = some members →
      ∃ m ∈ members, m.isFile = true ∧
        ((PosixPath.parse m.name).isAbsolute = true ∨ ['.', '.'] ∈ (PosixPath.parse m.name).parts)) ∧
    (∀ out, p.archive = some out →
      ∃ members files, p.content.archive? = some members ∧ out = ⟨p.stem ++ ['/'], false, []⟩ :: files ∧
        files.map Member.content = (members.filter Member.isFile).map Member.content ∧
        ∀ f ∈ files, f.isFile = true ∧ ∃ rest, PosixPath.parse f.name = ⟨0, p.stem :: rest⟩ ∧ ['.', '.'] ∉ rest) ∧
    (∀ call key logs, (∀ c ∈ key, c ≠ '.' ∧ c ≠ '/') → p.content = .archive (callArchive call key logs) →
      p.archive = some (⟨p.stem ++ ['/'], false, []⟩ ::
        logs.map fun l => ⟨p.stem ++ '/' :: l.1.readable p.stem, true, l.2⟩)) ∧
    Function.Injective (CallLog.readable p.stem) ∧
    streamName definition task .stdout = some (CallLog.readable p.stem .solver) ∧
    streamName definition task .stderr = some (CallLog.readable p.stem .solverStderr) := by
  refine ⟨archive_eq_none_iff, fun out hout => ?_, fun call key logs hkey hcontent => ?_, readable_injective h,
    streamName_readable h⟩
  · obtain ⟨members, files, hmembers, rfl, hfiles⟩ := archive_eq_some_iff.mp hout
    refine ⟨members, files, hmembers, rfl, ?_⟩
    generalize members.filter Member.isFile = sources at hfiles
    clear hout
    induction hfiles with
    | nil => exact ⟨rfl, fun f hf => absurd hf List.not_mem_nil⟩
    | cons hf _ ih =>
      obtain ⟨name, hname, rfl⟩ := hf
      refine ⟨congrArg (_ :: ·) ih.1, fun f hf => ?_⟩
      rcases List.mem_cons.mp hf with rfl | hf
      · exact ⟨rfl, parse_memberName h hname⟩
      · exact ih.2 f hf
  · refine archive_eq_some_iff.mpr ⟨_, _, by rw [hcontent]; rfl, rfl, ?_⟩
    have hfilter : (callArchive call key logs).filter Member.isFile =
        logs.map fun l => (⟨l.1.file call key, true, l.2⟩ : Member) := by
      rw [callArchive, List.filter_cons_of_neg (by decide), List.filter_eq_self]
      intro m hm
      obtain ⟨l, -, rfl⟩ := List.mem_map.mp hm
      rfl
    rw [hfilter]
    refine List.forall₂_map_left_iff.mpr (List.forall₂_map_right_iff.mpr (List.forall₂_same.mpr fun l _ => ?_))
    exact ⟨_, memberName_file hkey l.1, by rw [str_component (isComponent_readable h l.1)]⟩

end Contents

/-! ### The pairs of a mirror -/

section Pairs

variable {m : Mirror} {definitions : List (ℤ × Item)} {task : ℕ} {p p' : Pair}

theorem mem_pairs : p ∈ m.pairs ↔ ∃ definitions, m.job.definitions = some definitions ∧
    ∃ task ∈ m.tasks, m.pair definitions task = some (some p) := by
  unfold Mirror.pairs
  cases m.job.definitions with
  | none => simp
  | some definitions => simp [Option.join_eq_some_iff]

theorem stemOf_pair (h : m.pair definitions task = some (some p)) :
    stemOf (definitionOf definitions task) task = some p.stem := by
  unfold Mirror.pair at h
  dsimp only at h
  split_ifs at h with hname
  · split at h
    · cases h
    · obtain ⟨stem, hstem, hp⟩ := Option.map_eq_some_iff.mp h
      cases hp
      exact hstem
  · cases h

theorem stem_eq_of_name (h : p'.name = p.name) : p'.stem = p.stem := List.append_cancel_right h

/-- A name stands for one pair of a mirror. -/
theorem pair_unique {task' : ℕ} (h : m.pair definitions task = some (some p))
    (h' : m.pair definitions task' = some (some p')) (hname : p'.name = p.name) : p' = p := by
  have hstem := stemOf_pair h'
  rw [stem_eq_of_name hname] at hstem
  rw [stemOf_inj (stemOf_pair h) hstem, h] at h'
  exact (Option.some.inj (Option.some.inj h')).symm

theorem mem_pairs_unique (h : p ∈ m.pairs) (h' : p' ∈ m.pairs) (hname : p'.name = p.name) : p' = p := by
  obtain ⟨definitions, hdefinitions, task, -, hp⟩ := mem_pairs.mp h
  obtain ⟨definitions', hdefinitions', task', -, hp'⟩ := mem_pairs.mp h'
  obtain rfl : definitions = definitions' := Option.some.inj (hdefinitions.symm.trans hdefinitions')
  exact pair_unique hp hp' hname

theorem isGenerated_name (h : p ∈ m.pairs) : isGenerated p.name = true := by
  obtain ⟨definitions, -, task, -, hp⟩ := mem_pairs.mp h
  have hcomponent : StarExec.IsComponent p.name := isComponent_append (stemOf_pair hp) (by decide)
  unfold isGenerated
  rw [Bool.and_eq_true, decide_eq_true_eq, List.isSuffixOf_iff_suffix]
  exact ⟨pathName_component hcomponent, List.suffix_append _ _⟩

theorem name_ne (p : Pair) {name : Text} (h : name.getLast? ≠ some 'z') : p.name ≠ name := by
  rintro rfl
  exact h (by simp [Pair.name])

theorem name_ne_temporaryIndex (p : Pair) : p.name ≠ temporaryIndex := name_ne p (by decide)

theorem not_isTemporary_name (p : Pair) : isTemporary p.name = false := by
  rw [Bool.eq_false_iff, ne_eq, isTemporary, Bool.and_eq_true, List.isSuffixOf_iff_suffix]
  rintro ⟨-, start, hstart⟩
  have hlast : (start ++ ".tmp".toList).getLast? ≠ some 'z' := by simp
  exact name_ne p hlast hstart.symm

end Pairs

/-! ### An archive -/

def sampleDefinition : Item :=
  [("task_id".toList, ⟨['0'], false, some 0, ['0']⟩), ("solver".toList, ⟨['E'], true, none, ['E']⟩),
    ("problem".toList, ⟨"p/A.p".toList, true, none, []⟩)]

theorem archive_readable_sample :
    ∃ p : Pair, stemOf sampleDefinition 0 = some p.stem ∧
      p.archive = some [⟨p.stem ++ ['/'], false, []⟩, ⟨p.stem ++ '/' :: (p.stem ++ ".log".toList), true, "out".toList⟩] := by
  obtain ⟨stem, hstem⟩ := Option.isSome_iff_exists.mp
    (show (stemOf sampleDefinition 0).isSome = true by decide +kernel)
  refine ⟨⟨stem, ⟨"a-1.tar.gz".toList, 1, 1⟩, .archive (callArchive 0 "ab".toList [(.solver, "out".toList)])⟩, hstem, ?_⟩
  exact (archive_readable (p := Pair.mk stem _ _) hstem).2.2.1 0 "ab".toList [(.solver, "out".toList)]
    (List.all_iff_forall_prop.mp (by decide)) rfl

end PairArchives
end Export
end Slurmy
