import Slurmy.Lib.Gather
import Slurmy.Lib.Replace
import Slurmy.Workflow.Builds

/-!
# Older workflows

`migrate_user_runs` moves the workflows one directory up and replaces the former directories in their files.

* `Listing`, `sources`, `moves`, `words`: the directories that move, and the texts that are replaced;
* `writeLine`, `migrated`: the new `building.txt`;
* `after`: the file system afterwards;
* `relocate`, `Carried`: where a path should lead, and when the replacement gets it there;
* `builds_migrated`: the resources are the same afterwards.
-/

namespace Slurmy
namespace Workflow
namespace Migration

open StableSort
open PosixPath (child parse)

/-- The names in `USER_RUNS` and in `LEGACY_RUNS`. -/
structure Listing (site : Site) where
  users : List Text
  legacy : List Text
  base_normal : site.base.Normal
  isPart : ∀ n ∈ users ++ legacy, PosixPath.isPart n = true
  noSlash : ∀ n ∈ users ++ legacy, '/' ∉ n
  ne_parent : ∀ n ∈ users ++ legacy, n ≠ ['.', '.']
  /-- What exists below `USER_RUNS` is listed. -/
  isDir_listed : ∀ (p : PosixPath) (n : Text), p.Valid → p.isRelativeTo (child site.base n) = true → site.isDir p.str = true → n ∈ users
  isFile_listed : ∀ (p : PosixPath) (n : Text), p.Valid → p.isRelativeTo (child site.base n) = true → site.isFile p.str = true → n ∈ users

/-- A directory and the path it gets; the former is a text, as the dictionary `mappings` has it. -/
abbrev Move := Text × PosixPath

def manifest : Text := ".slurmy-workflow.json".toList

section Definitions

variable (site : Site)

/-- `LEGACY_RUNS`. -/
def legacyRuns : PosixPath := child site.base "GENERATED".toList

/-- `_previous_directories` of a workflow, none where the workflow has no saved decisions. -/
def formers (n : Text) : Option (List Text) :=
  let dir := child site.base n
  if site.isDir dir.str ∧ site.isFile (child dir manifest).str then do
    let content ← site.readText (child dir manifest).str
    let data ← Json.loads content
    match data with
    | .object _ =>
        match data.get "_previous_directories".toList with
        | none => some []
        | some (.array olds) => olds.mapM fun old =>
            match old with
            | .string old => some old
            | _ => none
        -- the characters of a text are no directories of `LEGACY_RUNS`
        | some (.string _) => some []
        | some (.object fields) => some (fields.map Prod.fst)
        | some _ => none
    | _ => none
  else some []

/-- `Path(old).parent == LEGACY_RUNS`. -/
def isFormer (old : Text) : Bool :=
  decide ((⟨(parse old).slashes, (parse old).parts.dropLast⟩ : PosixPath) = legacyRuns site)

variable {site} (listing : Listing site)

/-- The workflows that are moved. -/
def Listing.sources : List Text :=
  listing.legacy.filter fun n =>
    site.isDir (child (legacyRuns site) n).str && site.isFile (child (child (legacyRuns site) n) "Makefile".toList).str

/-- The entries of `mappings` in the order in which they are made. -/
def Listing.moves : Option (List Move) := do
  guard (∀ n ∈ listing.sources, n ∉ listing.users)
  let found ← listing.users.mapM fun n =>
    (formers site n).map fun olds => (olds.filter (isFormer site)).map fun old => (old, child site.base n)
  return (listing.sources.map fun n => ((child (legacyRuns site) n).str, child site.base n)) ++ found.flatten

/-- `mappings`. -/
def mappings (moves : List Move) : List Move := Dict.putAll [] moves

/-- The words that `remap` replaces, the longest first. -/
def words (moves : List Move) : List (Text × Text) :=
  (sortBy (fun m => OrderDual.toDual m.1.length) (mappings moves)).map fun m => (m.1, m.2.str)

/-- `remap` of a text. -/
def remap (moves : List Move) (t : Text) : Text := Replace.replaceAll (words moves) t

variable (site) in
/-- A line of `building.txt` before the replacement. -/
def writeLine (dir : PosixPath) (line : Text) : Text :=
  if Lines.strip line ≠ [] then (pathAt site (Lines.strip line) dir).str else []

variable (site) in
/-- The new `building.txt` of the workflow `n`. -/
def migrated (moves : List Move) (n content : Text) : Text :=
  remap moves (Lines.unlines ((Lines.splitlines content).map (writeLine site (child (legacyRuns site) n))))

/-- Where that which is at `p` afterwards was before; `LEGACY_RUNS` is removed when nothing is left in it. -/
def Listing.origin (p : PosixPath) : Option PosixPath :=
  match listing.sources.find? fun n => p.isRelativeTo (child site.base n) with
  | some n => some ((child (legacyRuns site) n).join (p.relativeTo (child site.base n)))
  | none =>
      if (listing.sources.any fun n => p.isRelativeTo (child (legacyRuns site) n)) = true ∨
          (p = legacyRuns site ∧ listing.legacy ⊆ listing.sources) then none
      else some p

/-- The file system afterwards. -/
def Listing.after : Site :=
  { site with
    isDir := fun t => (listing.origin (parse t)).any fun p => site.isDir p.str
    isFile := fun t => (listing.origin (parse t)).any fun p => site.isFile p.str }

/-! ### What is wanted -/

/-- The path below the new directory. -/
def relocate (moves : List Move) (p : PosixPath) : PosixPath :=
  match moves.find? fun m => p.isRelativeTo (parse m.1) with
  | some m => m.2.join (p.relativeTo (parse m.1))
  | none => p

/-- The line with a path: the directory that is to be replaced and what follows it, or all of it. -/
def lineOf (moves : List Move) (p : PosixPath) : Replace.Part Char :=
  match (words moves).find? fun w => decide ((parse w.1).str = w.1) && p.isRelativeTo (parse w.1) with
  | some w => .moving w (p.str.drop w.1.length ++ ['\n'])
  | none => .kept (p.str ++ ['\n'])

variable (site) in
/-- A line of `building.txt`, with the path that is written there. -/
def partOf (moves : List Move) (dir : PosixPath) (line : Text) : Replace.Part Char :=
  if Lines.strip line ≠ [] then lineOf moves (pathAt site (Lines.strip line) dir) else .kept ['\n']

/-- What is at the path is found where the path leads: its directory is moved now, or was before. -/
def Listing.Found (moves : List Move) (isThere : Text → Bool) (p : PosixPath) : Prop :=
  (∃ n ∈ listing.sources, p.isRelativeTo (child (legacyRuns site) n) = true) ∨
    isThere (relocate moves p).str = true ∧
      (∀ n ∈ listing.sources, (relocate moves p).isRelativeTo (child (legacyRuns site) n) = false) ∧
      -- an empty directory of the older workflows is removed
      ¬ (relocate moves p = legacyRuns site ∧ listing.legacy ⊆ listing.sources)

/-- The file is carried over. -/
structure Listing.Carried (moves : List Move) (checkPaths : Bool) (dir : PosixPath) (content : Text)
    (builds : List BuildSpec) : Prop where
  lines : isJson content = false
  /-- A directory that is replaced occurs nowhere but in front of the paths below it. -/
  only : Replace.AllOnly (words moves) ((Lines.splitlines content).map (partOf site moves dir))
  leads : ∀ build ∈ builds, ∀ p ∈ build.paths, (lineOf moves p).final = (relocate moves p).str ++ ['\n']
  /-- The new path is one line without blanks at its ends. -/
  line : ∀ build ∈ builds, ∀ p ∈ build.paths, (relocate moves p).str.any Lines.isBoundary = false
  strip : ∀ build ∈ builds, ∀ p ∈ build.paths, Lines.strip (relocate moves p).str = (relocate moves p).str
  root_found : checkPaths = true → ∀ build ∈ builds, listing.Found moves site.isDir build.root
  recipe_found : checkPaths = true → ∀ build ∈ builds, ∀ p ∈ build.recipe, listing.Found moves site.isFile p
  roots : ∀ build ∈ builds, ∀ build' ∈ builds, relocate moves build.root = relocate moves build'.root →
    build.root = build'.root

end Definitions

variable {site : Site} {listing : Listing site} {moves : List Move} {p : PosixPath}

/-! ### The words -/

theorem mem_of_mem_mappings {m : Move} (h : m ∈ mappings moves) : m ∈ moves :=
  (Dict.mem_putAll h).elim (fun h => by cases h) id

theorem mem_words {w : Text × Text} (h : w ∈ words moves) : ∃ m ∈ moves, w = (m.1, m.2.str) := by
  obtain ⟨m, hm, rfl⟩ := List.mem_map.mp h
  exact ⟨m, mem_of_mem_mappings (mem_sortBy.mp hm), rfl⟩

/-! ### The moved directories -/

/-- Both directories of a move have a name. -/
structure IsMove (m : Move) : Prop where
  head? : m.1.head? = some '/'
  former : (parse m.1).parts ≠ []
  parts : m.2.parts ≠ []
  absolute : m.2.slashes ≠ 0
  valid : m.2.Valid
  normal : m.2.Normal

theorem IsMove.ne_nil {m : Move} (h : IsMove m) : m.1 ≠ [] := by
  intro hnil
  apply h.former
  rw [hnil]
  rfl

theorem child_valid {d : PosixPath} {n : Text} (hd : d.Valid) (hpart : PosixPath.isPart n = true) (hslash : '/' ∉ n) :
    (child d n).Valid where
  slashes_le := hd.slashes_le
  isPart part h := (List.mem_append.mp h).elim (hd.isPart part) fun h => List.mem_singleton.mp h ▸ hpart
  noSlash part h := (List.mem_append.mp h).elim (hd.noSlash part) fun h => List.mem_singleton.mp h ▸ hslash

theorem legacyRuns_valid : (legacyRuns site).Valid := child_valid site.base_valid (by decide) (by decide)

theorem Listing.user_move (listing : Listing site) {old n : Text} (hhead : old.head? = some '/')
    (hold : (parse old).parts ≠ []) (hn : n ∈ listing.users ++ listing.legacy) :
    IsMove (old, child site.base n) where
  head? := hhead
  former := hold
  parts := List.append_ne_nil_of_right_ne_nil _ (List.cons_ne_nil n [])
  absolute := site.base_absolute
  valid := child_valid site.base_valid (listing.isPart n hn) (listing.noSlash n hn)
  normal h := (List.mem_append.mp h).elim listing.base_normal fun h =>
    listing.ne_parent n hn (List.mem_singleton.mp h).symm

theorem parse_child_legacyRuns {n : Text} (hn : n ∈ listing.users ++ listing.legacy) :
    parse (child (legacyRuns site) n).str = child (legacyRuns site) n :=
  PosixPath.parse_str (child_valid legacyRuns_valid (listing.isPart n hn) (listing.noSlash n hn))

theorem parts_of_isFormer {old : Text} (h : isFormer site old = true) : (parse old).parts ≠ [] := by
  intro hnil
  have heq := of_decide_eq_true h
  rw [hnil] at heq
  have hparts : [] = (legacyRuns site).parts := congrArg PosixPath.parts heq
  exact List.append_ne_nil_of_right_ne_nil _ (List.cons_ne_nil _ []) hparts.symm

theorem head?_of_isFormer {old : Text} (h : isFormer site old = true) : old.head? = some '/' := by
  have heq : (⟨(parse old).slashes, (parse old).parts.dropLast⟩ : PosixPath) = legacyRuns site := of_decide_eq_true h
  have hslashes : (parse old).slashes = site.base.slashes := (congrArg PosixPath.slashes heq :)
  exact PosixPath.head?_of_slashes (by rw [hslashes]; exact site.base_absolute)

theorem sources_subset {n : Text} (hn : n ∈ listing.sources) : n ∈ listing.users ++ listing.legacy :=
  List.mem_append_right _ (List.mem_filter.mp hn).1

/-- What `moves` consists of. -/
theorem moves_cases (h : listing.moves = some moves) {m : Move} (hm : m ∈ moves) :
    (∃ n ∈ listing.sources, m = ((child (legacyRuns site) n).str, child site.base n)) ∨
      ∃ n ∈ listing.users, isFormer site m.1 = true ∧ m.2 = child site.base n := by
  unfold Listing.moves at h
  simp only [Option.bind_eq_bind, Option.bind_eq_some_iff] at h
  obtain ⟨-, -, found, hfound, hmoves⟩ := h
  rw [← Option.some.inj hmoves] at hm
  rcases List.mem_append.mp hm with hm | hm
  · obtain ⟨n, hn, rfl⟩ := List.mem_map.mp hm
    exact .inl ⟨n, hn, rfl⟩
  · obtain ⟨part, hpart, hm⟩ := List.mem_flatten.mp hm
    obtain ⟨n, hn, hpart⟩ := Gather.exists_of_mem_mapM hfound hpart
    obtain ⟨olds, -, rfl⟩ := Option.map_eq_some_iff.mp hpart
    obtain ⟨old, hold, rfl⟩ := List.mem_map.mp hm
    exact .inr ⟨n, hn, (List.mem_filter.mp hold).2, rfl⟩

theorem isMove (h : listing.moves = some moves) {m : Move} (hm : m ∈ moves) : IsMove m := by
  rcases moves_cases h hm with ⟨n, hn, rfl⟩ | ⟨n, hn, hformer, heq⟩
  · refine listing.user_move (PosixPath.head?_str site.base_absolute) ?_ (sources_subset hn)
    rw [parse_child_legacyRuns (sources_subset hn)]
    exact List.append_ne_nil_of_right_ne_nil _ (List.cons_ne_nil n [])
  · obtain ⟨old, new⟩ := m
    cases heq
    exact listing.user_move (head?_of_isFormer hformer) (parts_of_isFormer hformer) (List.mem_append_left _ hn)

/-! ### One path -/

theorem relocate_cases (moves : List Move) (p : PosixPath) :
    (∃ m ∈ moves, ∃ rest, p = ⟨(parse m.1).slashes, (parse m.1).parts ++ rest⟩ ∧
      relocate moves p = ⟨m.2.slashes, m.2.parts ++ rest⟩) ∨
      (∀ m ∈ moves, p.isRelativeTo (parse m.1) = false) ∧ relocate moves p = p := by
  unfold relocate
  cases hfind : moves.find? fun m => p.isRelativeTo (parse m.1) with
  | some m =>
    have hbelow : p.isRelativeTo (parse m.1) = true := by simpa using List.find?_some hfind
    obtain ⟨rest, rfl⟩ := PosixPath.isRelativeTo_iff.mp hbelow
    exact .inl ⟨m, List.mem_of_find?_eq_some hfind, rest, rfl, PosixPath.join_relativeTo rest⟩
  | none => exact .inr ⟨fun m hm => Bool.eq_false_iff.mpr (List.find?_eq_none.mp hfind m hm), rfl⟩

theorem isRelativeTo_append (d : PosixPath) (rest : List Text) :
    PosixPath.isRelativeTo ⟨d.slashes, d.parts ++ rest⟩ d = true := PosixPath.isRelativeTo_iff.mpr ⟨rest, rfl⟩

theorem lineOf_text (hmoves : ∀ m ∈ moves, IsMove m) (p : PosixPath) : (lineOf moves p).text = p.str ++ ['\n'] := by
  unfold lineOf
  cases hfind : (words moves).find? fun w => decide ((parse w.1).str = w.1) && p.isRelativeTo (parse w.1) with
  | none => rfl
  | some w =>
    have hw := List.find?_some hfind
    rw [Bool.and_eq_true, decide_eq_true_eq] at hw
    obtain ⟨m, hm, rfl⟩ := mem_words (List.mem_of_find?_eq_some hfind)
    obtain ⟨rest, rfl⟩ := PosixPath.isRelativeTo_iff.mp hw.2
    have hstr : PosixPath.str ⟨(parse m.1).slashes, (parse m.1).parts ++ rest⟩ = m.1 ++ rest.flatMap ('/' :: ·) := by
      rw [PosixPath.str_append (hmoves m hm).former, hw.1]
    dsimp only [Replace.Part.text]
    rw [hstr, List.drop_left, List.append_assoc]

theorem mem_words_of_lineOf {w : Text × Text} {tail : Text} (h : lineOf moves p = .moving w tail) : w ∈ words moves := by
  unfold lineOf at h
  split at h
  · next hfind =>
    cases h
    exact List.mem_of_find?_eq_some hfind
  · cases h

/-- The new path is as `path_at` makes paths. -/
theorem relocate_absolute (hmoves : ∀ m ∈ moves, IsMove m) (hslashes : p.slashes ≠ 0) (hvalid : p.Valid)
    (hnormal : p.Normal) :
    (relocate moves p).slashes ≠ 0 ∧ (relocate moves p).Valid ∧ (relocate moves p).Normal := by
  rcases relocate_cases moves p with ⟨m, hm, rest, rfl, hnew⟩ | ⟨-, hnew⟩
  · rw [hnew]
    have hmove := hmoves m hm
    refine ⟨hmove.absolute, ⟨hmove.valid.slashes_le, fun part hpart => ?_, fun part hpart => ?_⟩, fun hpart => ?_⟩
    · exact (List.mem_append.mp hpart).elim (hmove.valid.isPart part) fun hpart =>
        hvalid.isPart part (List.mem_append_right _ hpart)
    · exact (List.mem_append.mp hpart).elim (hmove.valid.noSlash part) fun hpart =>
        hvalid.noSlash part (List.mem_append_right _ hpart)
    · exact (List.mem_append.mp hpart).elim hmove.normal fun hpart => hnormal (List.mem_append_right _ hpart)
  · rw [hnew]
    exact ⟨hslashes, hvalid, hnormal⟩

/-! ### The file -/

theorem unlines_cons (l : Text) (ls : List Text) : Lines.unlines (l :: ls) = l ++ '\n' :: Lines.unlines ls := by
  unfold Lines.unlines
  rw [List.flatMap_cons, List.append_assoc]
  rfl

theorem words_ne_nil (hmoves : ∀ m ∈ moves, IsMove m) : ∀ w ∈ words moves, w.1 ≠ [] := by
  intro w hw
  obtain ⟨m, hm, rfl⟩ := mem_words hw
  exact (hmoves m hm).ne_nil

/-- The text starts with a slash, up to blanks. -/
def Slashed (t : Text) : Prop := ∀ c ∈ (t.dropWhile Lines.isSpace).head?, c = '/'

theorem Slashed.isJson {t : Text} (h : Slashed t) : isJson t = false := by
  unfold Workflow.isJson
  rw [decide_eq_false_iff_not]
  intro hhead
  exact absurd (h '[' hhead) (by decide)

theorem slashed_of_head? {t : Text} (h : t.head? = some '/') : Slashed t := by
  obtain ⟨u, rfl⟩ := List.head?_eq_some_iff.mp h
  intro c hc
  rw [List.dropWhile_cons_of_neg (by decide)] at hc
  exact (Option.some.inj hc).symm

theorem slashed_unlines {ls : List Text} (h : ∀ l ∈ ls, l = [] ∨ l.head? = some '/') : Slashed (Lines.unlines ls) := by
  induction ls with
  | nil => exact fun c hc => by cases hc
  | cons l ls ih =>
    rw [unlines_cons]
    rcases h l List.mem_cons_self with rfl | hl
    · intro c hc
      rw [List.nil_append, List.dropWhile_cons_of_pos (by decide)] at hc
      exact ih (fun l' hl' => h l' (List.mem_cons_of_mem _ hl')) c hc
    · obtain ⟨u, rfl⟩ := List.head?_eq_some_iff.mp hl
      exact slashed_of_head? rfl

theorem Slashed.replace {old new t : Text} (h : Slashed t) (hold : old.head? = some '/') (hnew : new.head? = some '/') :
    Slashed (Replace.replace old new t) := by
  obtain ⟨old, rfl⟩ := List.head?_eq_some_iff.mp hold
  obtain ⟨new, rfl⟩ := List.head?_eq_some_iff.mp hnew
  induction t with
  | nil => exact h
  | cons c t ih =>
    unfold Replace.replace
    by_cases hoccurs : Replace.occurs ('/' :: old) (fun _ => true) (c :: t) = true
    · rw [Replace.sub_of_occurs (List.cons_ne_nil _ _) hoccurs]
      exact slashed_of_head? rfl
    · rw [Bool.not_eq_true] at hoccurs
      rw [Replace.sub_cons_of_not hoccurs]
      by_cases hspace : Lines.isSpace c = true
      · intro d hd
        unfold Slashed at h ih
        rw [List.dropWhile_cons_of_pos hspace] at h hd
        exact ih h d hd
      · unfold Slashed at h
        rw [List.dropWhile_cons_of_neg hspace] at h
        rw [h c rfl]
        exact slashed_of_head? rfl

theorem Slashed.replaceAll {t : Text} {ws : List (Text × Text)} (h : Slashed t)
    (hws : ∀ w ∈ ws, w.1.head? = some '/' ∧ w.2.head? = some '/') : Slashed (Replace.replaceAll ws t) := by
  induction ws generalizing t with
  | nil => exact h
  | cons w ws ih =>
    obtain ⟨hold, hnew⟩ := hws w List.mem_cons_self
    exact ih (h.replace hold hnew) fun w' hw' => hws w' (List.mem_cons_of_mem w hw')

theorem Slashed.remap {t : Text} (h : Slashed t) (hmoves : ∀ m ∈ moves, IsMove m) : Slashed (remap moves t) := by
  refine h.replaceAll fun w hw => ?_
  obtain ⟨m, hm, rfl⟩ := mem_words hw
  exact ⟨(hmoves m hm).head?, PosixPath.head?_str (hmoves m hm).absolute⟩

theorem child_absolute (n : Text) : (child (legacyRuns site) n).slashes ≠ 0 := site.base_absolute

theorem slashed_lines (n content : Text) :
    Slashed (Lines.unlines ((Lines.splitlines content).map (writeLine site (child (legacyRuns site) n)))) := by
  refine slashed_unlines fun l hl => ?_
  obtain ⟨line, -, rfl⟩ := List.mem_map.mp hl
  unfold writeLine
  split
  · exact .inr (head?_pathAt (child_absolute n) _)
  · exact .inl rfl

/-- The new file is read by lines. -/
theorem isJson_migrated (hmoves : ∀ m ∈ moves, IsMove m) (n content : Text) :
    isJson (migrated site moves n content) = false := ((slashed_lines n content).remap hmoves).isJson

/-- Every line that is not blank has a path of a resource. -/
theorem path_of_readLines {checkPaths : Bool} {dir : PosixPath} {previous builds : List BuildSpec} {lines : List Text}
    (h : readLines site checkPaths dir previous lines = some builds) {line : Text} (hline : line ∈ lines)
    (hfull : Lines.strip line ≠ []) : ∃ build ∈ builds, pathAt site (Lines.strip line) dir ∈ build.paths := by
  induction lines using List.twoStepInduction generalizing previous with
  | nil => cases hline
  | singleton line => cases h
  | cons_cons first second lines ih =>
    obtain ⟨-, -, -, hrest⟩ := readLines_cons_iff.mp h
    have hmem : twoLines site dir first second ∈ builds :=
      (previous_of_readLines hrest).subset (List.mem_append_right _ List.mem_cons_self)
    rcases List.mem_cons.mp hline with rfl | hline
    · exact ⟨_, hmem, List.mem_cons_self⟩
    rcases List.mem_cons.mp hline with rfl | hline
    · refine ⟨_, hmem, List.mem_cons_of_mem _ ?_⟩
      unfold twoLines recipeOf
      dsimp only
      rw [if_pos hfull]
      exact List.mem_cons_self
    · exact ih hrest hline

variable (site) in
/-- A line of the new file, without its end. -/
def newLine (moves : List Move) (dir : PosixPath) (line : Text) : Text :=
  if Lines.strip line ≠ [] then (relocate moves (pathAt site (Lines.strip line) dir)).str else []

/-- The new line says of the new path what the line says of the path. -/
theorem carries_newLine (hmoves : ∀ m ∈ moves, IsMove m) {site' : Site} {dir dir' : PosixPath} {line : Text}
    (hdir : dir.slashes ≠ 0) (hvalid : dir.Valid)
    (hstrip : Lines.strip (newLine site moves dir line) = newLine site moves dir line) :
    Carries site site' dir dir' (relocate moves) line (newLine site moves dir line) := by
  unfold Carries
  rw [hstrip]
  unfold newLine
  split
  · next hblank => exact if_neg (not_not_intro hblank)
  · next hfull =>
    have hpath := relocate_absolute (p := pathAt site (Lines.strip line) dir) hmoves (pathAt_slashes hdir _)
      (pathAt_valid hvalid _) (PosixPath.normalize_normal _)
    have hhead := PosixPath.head?_str hpath.1
    refine ⟨fun hnil => ?_, ?_⟩
    · rw [hnil] at hhead
      cases hhead
    · rw [pathAt_of_head? hhead, PosixPath.parse_str hpath.2.1, PosixPath.normalize_of_normal hpath.2.2]

/-! ### The file system -/

theorem child_injective {d : PosixPath} {n n' : Text} {rest : List Text}
    (h : PosixPath.isRelativeTo ⟨d.slashes, (child d n).parts ++ rest⟩ (child d n') = true) : n' = n := by
  obtain ⟨rest', heq⟩ := PosixPath.isRelativeTo_iff.mp h
  have hparts : (d.parts ++ [n]) ++ rest = (d.parts ++ [n']) ++ rest' := congrArg PosixPath.parts heq
  rw [List.append_assoc, List.append_assoc, List.append_cancel_left_eq] at hparts
  exact (List.cons.inj hparts).1.symm

/-- What a source had is below its new directory. -/
theorem origin_moved {n : Text} (hn : n ∈ listing.sources) (rest : List Text) :
    listing.origin ⟨site.base.slashes, (child site.base n).parts ++ rest⟩ =
      some ⟨site.base.slashes, (child (legacyRuns site) n).parts ++ rest⟩ := by
  unfold Listing.origin
  have hfound : (listing.sources.find? fun n' =>
      PosixPath.isRelativeTo ⟨site.base.slashes, (child site.base n).parts ++ rest⟩ (child site.base n')) = some n := by
    cases hfind : listing.sources.find? fun n' =>
        PosixPath.isRelativeTo ⟨site.base.slashes, (child site.base n).parts ++ rest⟩ (child site.base n') with
    | some n' =>
      have hbelow := List.find?_some hfind
      rw [child_injective hbelow]
    | none =>
      exact absurd (isRelativeTo_append (child site.base n) rest) (List.find?_eq_none.mp hfind n hn)
  rw [hfound]
  exact congrArg some (PosixPath.join_relativeTo (d := child site.base n) (e := child (legacyRuns site) n) rest)

theorem source_new (hmoves : listing.moves = some moves) {n : Text} (hn : n ∈ listing.sources) : n ∉ listing.users := by
  unfold Listing.moves at hmoves
  simp only [Option.bind_eq_bind, Option.bind_eq_some_iff, Option.guard_eq_some'] at hmoves
  obtain ⟨-, hnew, -⟩ := hmoves
  exact hnew n hn

/-- A path below a workflow that is moved now leads to its new directory. -/
theorem relocate_source (hmoves : listing.moves = some moves) {n : Text} (hn : n ∈ listing.sources) (rest : List Text) :
    relocate moves ⟨site.base.slashes, (child (legacyRuns site) n).parts ++ rest⟩ =
      ⟨site.base.slashes, (child site.base n).parts ++ rest⟩ := by
  -- the path is below no other workflow that moves
  have hsource : ∀ n' ∈ listing.sources,
      PosixPath.isRelativeTo ⟨site.base.slashes, (child (legacyRuns site) n).parts ++ rest⟩
        (parse (child (legacyRuns site) n').str) = true → n' = n := by
    intro n' hn' hbelow
    rw [parse_child_legacyRuns (sources_subset hn')] at hbelow
    exact child_injective (d := legacyRuns site) hbelow
  have hself : PosixPath.isRelativeTo ⟨site.base.slashes, (child (legacyRuns site) n).parts ++ rest⟩
      (parse (child (legacyRuns site) n).str) = true := by
    rw [parse_child_legacyRuns (sources_subset hn)]
    exact isRelativeTo_append (child (legacyRuns site) n) rest
  unfold Listing.moves at hmoves
  simp only [Option.bind_eq_bind, Option.bind_eq_some_iff] at hmoves
  obtain ⟨-, -, found, -, hmoves⟩ := hmoves
  unfold relocate
  -- the directories that move now come first
  rw [← Option.some.inj hmoves, List.find?_append]
  cases hfind : (listing.sources.map fun n => ((child (legacyRuns site) n).str, child site.base n)).find? fun m =>
      PosixPath.isRelativeTo ⟨site.base.slashes, (child (legacyRuns site) n).parts ++ rest⟩ (parse m.1) with
  | none => exact absurd hself (List.find?_eq_none.mp hfind _ (List.mem_map_of_mem hn))
  | some m =>
    obtain ⟨n', hn', rfl⟩ := List.mem_map.mp (List.mem_of_find?_eq_some hfind)
    have hbelow := List.find?_some hfind
    obtain rfl := hsource n' hn' hbelow
    show (child site.base n').join (PosixPath.relativeTo _ (parse (child (legacyRuns site) n').str)) = _
    rw [parse_child_legacyRuns (sources_subset hn')]
    exact PosixPath.join_relativeTo (d := child (legacyRuns site) n') (e := child site.base n') rest

/-- What existed is found where its path leads; `isThere` tells whether there is a directory, or a file. -/
theorem found_after (hmoves : listing.moves = some moves) {isThere : Text → Bool}
    (hlisted : ∀ (p : PosixPath) (n : Text), p.Valid → p.isRelativeTo (child site.base n) = true →
      isThere p.str = true → n ∈ listing.users)
    (hslashes : p.slashes ≠ 0) (hvalid : p.Valid) (hnormal : p.Normal) (hfound : listing.Found moves isThere p)
    (h : isThere p.str = true) :
    ((listing.origin (parse (relocate moves p).str)).any fun p => isThere p.str) = true := by
  have hrelocate := relocate_absolute (fun _ => isMove hmoves) hslashes hvalid hnormal
  rw [PosixPath.parse_str hrelocate.2.1]
  rcases hfound with ⟨n, hn, hbelow⟩ | ⟨hthere, hnot, hkept⟩
  · obtain ⟨rest, hrest⟩ := PosixPath.isRelativeTo_iff.mp hbelow
    have hp : p = ⟨site.base.slashes, (child (legacyRuns site) n).parts ++ rest⟩ := hrest
    rw [hp, relocate_source hmoves hn, origin_moved hn, ← hp]
    exact h
  · have hfind : (listing.sources.find? fun n => (relocate moves p).isRelativeTo (child site.base n)) = none := by
      -- a name that a workflow moves to has been free
      refine List.find?_eq_none.mpr fun n hn hbelow => ?_
      exact source_new hmoves hn (hlisted _ n hrelocate.2.1 hbelow hthere)
    unfold Listing.origin
    rw [hfind]
    dsimp only
    rw [if_neg]
    · exact hthere
    · rintro (hany | hempty)
      · obtain ⟨n, hn, hbelow⟩ := List.any_eq_true.mp hany
        rw [hnot n hn] at hbelow
        cases hbelow
      · exact hkept hempty

/-! ### The resources -/

/-- The paths of the resources are as `path_at` makes them. -/
theorem path_of_build {checkPaths : Bool} {dir : PosixPath} (hdir : dir.slashes ≠ 0) (hvalid : dir.Valid)
    {previous builds : List BuildSpec} {lines : List Text}
    (hprevious : ∀ build ∈ previous, ∀ p ∈ build.paths, p.slashes ≠ 0 ∧ p.Valid ∧ p.Normal)
    (h : readLines site checkPaths dir previous lines = some builds) :
    ∀ build ∈ builds, ∀ p ∈ build.paths, p.slashes ≠ 0 ∧ p.Valid ∧ p.Normal := by
  have hpath (t : Text) : (pathAt site t dir).slashes ≠ 0 ∧ (pathAt site t dir).Valid ∧ (pathAt site t dir).Normal :=
    ⟨pathAt_slashes hdir t, pathAt_valid hvalid t, PosixPath.normalize_normal _⟩
  induction lines using List.twoStepInduction generalizing previous with
  | nil => exact Option.some.inj h ▸ hprevious
  | singleton line => cases h
  | cons_cons first second lines ih =>
    obtain ⟨-, -, -, hrest⟩ := readLines_cons_iff.mp h
    refine ih (fun build hbuild p hp => ?_) hrest
    rcases List.mem_append.mp hbuild with hbuild | hbuild
    · exact hprevious build hbuild p hp
    · rw [List.mem_singleton.mp hbuild] at hp
      rcases List.mem_cons.mp hp with rfl | hp
      · exact hpath _
      · have hrecipe : recipeOf site dir second = some p := Option.mem_toList.mp hp
        unfold recipeOf at hrecipe
        split at hrecipe
        · exact Option.some.inj hrecipe ▸ hpath _
        · cases hrecipe

/-- The lines of a file that is carried over. -/
theorem migrated_eq (hmoves : ∀ m ∈ moves, IsMove m) {n content : Text} {checkPaths : Bool} {builds : List BuildSpec}
    (hcarried : listing.Carried moves checkPaths (child (legacyRuns site) n) content builds)
    (hread : readLines site checkPaths (child (legacyRuns site) n) [] (Lines.splitlines content) = some builds) :
    migrated site moves n content =
      Lines.unlines ((Lines.splitlines content).map (newLine site moves (child (legacyRuns site) n))) := by
  -- the lines that are written, and what should become of them
  have htext (line : Text) : (partOf site moves (child (legacyRuns site) n) line).text =
      writeLine site (child (legacyRuns site) n) line ++ ['\n'] := by
    unfold partOf writeLine
    split
    · exact lineOf_text hmoves _
    · rfl
  have hfinal : ∀ line ∈ Lines.splitlines content, (partOf site moves (child (legacyRuns site) n) line).final =
      newLine site moves (child (legacyRuns site) n) line ++ ['\n'] := by
    intro line hline
    unfold partOf newLine
    split
    · next hfull =>
      obtain ⟨build, hbuild, hp⟩ := path_of_readLines hread hline hfull
      exact hcarried.leads build hbuild _ hp
    · rfl
  have hjoined : Lines.unlines ((Lines.splitlines content).map (writeLine site (child (legacyRuns site) n))) =
      Replace.joined ((Lines.splitlines content).map (partOf site moves (child (legacyRuns site) n))) := by
    unfold Lines.unlines Replace.joined
    rw [List.flatMap_map, List.flatMap_map]
    exact List.flatMap_congr fun line _ => (htext line).symm
  unfold migrated remap
  rw [hjoined, Replace.replaceAll_joined (words_ne_nil hmoves) hcarried.only, Lines.unlines, List.flatMap_map,
    List.flatMap_map]
  · exact List.flatMap_congr hfinal
  · intro w tail hmem
    obtain ⟨line, -, hline⟩ := List.mem_map.mp hmem
    unfold partOf at hline
    split at hline
    · exact mem_words_of_lineOf hline
    · cases hline

/-- They say the same of the new paths. -/
theorem lines_carried (hmoves : ∀ m ∈ moves, IsMove m) {n content : Text} {checkPaths : Bool} {builds : List BuildSpec}
    (hcarried : listing.Carried moves checkPaths (child (legacyRuns site) n) content builds)
    (hread : readLines site checkPaths (child (legacyRuns site) n) [] (Lines.splitlines content) = some builds)
    (hn : (child (legacyRuns site) n).Valid) {site' : Site} {dir' : PosixPath} :
    List.Forall₂ (Carries site site' (child (legacyRuns site) n) dir' (relocate moves)) (Lines.splitlines content)
      (Lines.splitlines (migrated site moves n content)) := by
  have hnew : ∀ line ∈ Lines.splitlines content,
      (newLine site moves (child (legacyRuns site) n) line).any Lines.isBoundary = false ∧
        Lines.strip (newLine site moves (child (legacyRuns site) n) line) =
          newLine site moves (child (legacyRuns site) n) line := by
    intro line hline
    unfold newLine
    split
    · next hfull =>
      obtain ⟨build, hbuild, hp⟩ := path_of_readLines hread hline hfull
      exact ⟨hcarried.line build hbuild _ hp, hcarried.strip build hbuild _ hp⟩
    · exact ⟨rfl, rfl⟩
  rw [migrated_eq hmoves hcarried hread, Lines.splitlines_unlines]
  · rw [List.forall₂_map_right_iff, List.forall₂_same]
    exact fun line hline => carries_newLine hmoves (child_absolute n) hn (hnew line hline).2
  · intro l hl
    obtain ⟨line, hline, rfl⟩ := List.mem_map.mp hl
    exact (hnew line hline).1

def sampleDirs : List Text :=
  ["/r/GENERATED".toList, "/r/GENERATED/a".toList, "/r/GENERATED/a/solver".toList, "/solver".toList]

def sampleFiles : List Text := ["/r/GENERATED/a/Makefile".toList, "/r/GENERATED/a/build.sh".toList]

def sampleSite : Site where
  base := ⟨1, ["r".toList]⟩
  repo := ⟨1, ["repo".toList]⟩
  cache := ⟨1, ["cache".toList]⟩
  base_absolute := Nat.one_ne_zero
  repo_absolute := Nat.one_ne_zero
  cache_absolute := Nat.one_ne_zero
  base_valid := ⟨by decide, by decide, by decide⟩
  repo_valid := valid_repo
  userPath t := t
  isDir t := decide (t ∈ sampleDirs)
  isFile t := decide (t ∈ sampleFiles)
  readText _ := none
  glob _ := []
  glob_absolute _ _ hp := by cases hp
  archive _ := none
  cluster _ := none
  topology _ _ := none
  supports _ _ _ := true
  shlexSplit _ := none
  casefold t := t
  shuffle := List.range
  shuffle_perm := perm_range

/-- The name is the second component. -/
theorem sample_listed {ts : List Text}
    (hts : ∀ t ∈ ts, (parse t).parts[1]? = some "GENERATED".toList ∨ (parse t).parts[1]? = none) {p : PosixPath}
    {n : Text} (hvalid : p.Valid) (hbelow : p.isRelativeTo (child sampleSite.base n) = true)
    (h : decide (p.str ∈ ts) = true) : n ∈ ["GENERATED".toList] := by
  have hsecond := hts p.str (of_decide_eq_true h)
  rw [PosixPath.parse_str hvalid] at hsecond
  obtain ⟨rest, rfl⟩ := PosixPath.isRelativeTo_iff.mp hbelow
  rcases hsecond with hn | hn
  · exact List.mem_singleton.mpr (Option.some.inj hn)
  · cases hn

def sampleListing : Listing sampleSite where
  users := ["GENERATED".toList]
  legacy := ["a".toList]
  base_normal := by
    unfold PosixPath.Normal
    decide
  isPart := by decide
  noSlash := by decide
  ne_parent := by decide
  isDir_listed p n hvalid hbelow h := sample_listed (by decide +kernel) hvalid hbelow h
  isFile_listed p n hvalid hbelow h := sample_listed (by decide +kernel) hvalid hbelow h

def sampleMoves : List Move := [("/r/GENERATED/a".toList, ⟨1, ["r".toList, "a".toList]⟩)]

/-- A solver of the workflow that is built, and one elsewhere. -/
def sampleLines : Text := "solver\nbuild.sh\n/solver\n\n".toList

def sampleBuilds : List BuildSpec :=
  [⟨parse "/r/GENERATED/a/solver".toList, some (parse "/r/GENERATED/a/build.sh".toList),
      some (parse "/r/GENERATED/a/solver".toList), none, .always⟩,
    ⟨parse "/solver".toList, none, some (parse "/solver".toList), none, .always⟩]

def sampleJson : Text := "[\x7b\"root\": \"solver\", \"recipe\": \"build.sh\", \"artifact\": \"bin/run\"\x7d]\n".toList

end Migration
end Workflow
end Slurmy
