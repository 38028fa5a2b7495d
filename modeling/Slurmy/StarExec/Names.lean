import Slurmy.StarExec.PairId
import Slurmy.Lib.Dict

/-!
# The names in a StarExec archive

* `component`, `benchmarkPaths`, `entryName`: the names that `starexec_export.py` makes of paths and solvers;
* `Spelled`, `Recorded`: how a benchmark is spelled, and what is known while the paths are given out;
* `names_safe`: no name leaves its directory, and what is different has different names.
-/

namespace Slurmy
namespace StarExec

/-- A row of the summary. A column that it does not have is empty. -/
structure Row where
  taskId : ℤ
  solver : Text
  problem : Text
  cpuLimit : Text
  complete : Text
  status : Text
  wallSeconds : Text
  cpuSeconds : Text
  maxMemoryKib : Text
  szsStatus : Text
  szsOutput : Text
  expected : Text

/-! ### Components -/

def escape (c : Char) : Text :=
  if c = '%' then "%25".toList
  else if c = '/' then "%2F".toList
  else if c = '\\' then "%5C".toList
  else if c = Char.ofNat 0 then "%00".toList
  else [c]

/-- `component`. The percent sign is replaced first, so every character is replaced once. -/
def component (value : Text) : Text :=
  let value := value.flatMap escape
  if value = ['.'] ∨ value = ['.', '.'] then "%2E".toList ++ value.drop 1
  else if value = [] then "unknown".toList
  else value

theorem isComponent_component (t : Text) : IsComponent (component t) := by
  have hslash : '/' ∉ t.flatMap escape := by
    rw [List.mem_flatMap]
    rintro ⟨c, -, hc⟩
    unfold escape at hc
    split_ifs at hc with h₁ h₂ h₃ h₄
    · exact absurd hc (by decide)
    · exact absurd hc (by decide)
    · exact absurd hc (by decide)
    · exact absurd hc (by decide)
    · exact h₂ (List.mem_singleton.1 hc).symm
  unfold component
  dsimp only
  split_ifs with hdots hempty
  · rcases hdots with hdot | hdots
    · rw [hdot]
      exact ⟨by decide, by decide, by decide, by decide⟩
    · rw [hdots]
      exact ⟨by decide, by decide, by decide, by decide⟩
  · exact ⟨by decide, by decide, by decide, by decide⟩
  · rw [not_or] at hdots
    exact ⟨hempty, hslash, hdots.1, hdots.2⟩

/-- Where no percent sign comes out, nothing has been replaced. -/
theorem eq_of_component {t u : Text} (h : component t = u) (hpercent : '%' ∉ u) (hunknown : u ≠ "unknown".toList) :
    t = u := by
  have hescape : ∀ t : Text, '%' ∉ t.flatMap escape → t.flatMap escape = t := by
    intro t ht
    rw [List.mem_flatMap, not_exists] at ht
    have hself : ∀ c ∈ t, escape c = [c] := by
      intro c hc
      have hnot := fun hmem => ht c ⟨hc, hmem⟩
      unfold escape at hnot ⊢
      split_ifs at hnot ⊢ with h₁ h₂ h₃ h₄
      · exact absurd (by decide) hnot
      · exact absurd (by decide) hnot
      · exact absurd (by decide) hnot
      · exact absurd (by decide) hnot
      · rfl
    rw [List.flatMap_congr hself, List.flatMap_singleton']
  unfold component at h
  dsimp only at h
  split_ifs at h with hdots hempty
  · exact absurd (h ▸ List.mem_append_left _ (by decide)) hpercent
  · exact absurd h.symm hunknown
  · rw [← h] at hpercent
    rw [← h]
    exact (hescape t hpercent).symm

/-! ### Benchmarks -/

/-- `original.split('/Problems/', 1)[1]`, of a text with that part. -/
def afterProblems : Text → Option Text
  | [] => none
  | c :: t => if "/Problems/".toList.isPrefixOf (c :: t) then some ((c :: t).drop 10) else afterProblems t

def relativeOf (original : Text) : Text :=
  match afterProblems original with
  | some rest => "Problems/".toList ++ rest
  | none => "Problems/local/".toList ++ (PosixPath.parse original).name

/-- `'/'.join(component(part) for part in parts)`. -/
def benchmarkPath (original : Text) : Text :=
  ['/'].intercalate ((PosixPath.parse (relativeOf original)).parts.map component)

/-- The first digits of the checksum of a path. -/
structure IsDigest (t : Text) : Prop where
  length : t.length = 16
  hex : ∀ c ∈ t, c.isDigit = true ∨ 'a' ≤ c ∧ c ≤ 'f'

/-- `paths` and `owners`. -/
structure Paths where
  paths : List (Text × Text)
  owners : List (Text × Text)

section Definitions

variable (hash : Text → Text)

/-- `path.parent / hash / path.name`. -/
def setApart (relative original : Text) : Text :=
  let path := PosixPath.parse relative
  PosixPath.str ⟨path.slashes, path.parts.dropLast ++ [hash original, path.name]⟩

/-- The path of a problem, apart from those of other problems. -/
def choosePath (owners : List (Text × Text)) (original : Text) : Text :=
  match Dict.get owners (benchmarkPath original) with
  | none => benchmarkPath original
  | some owner => if owner ≠ original then setApart hash (benchmarkPath original) original else benchmarkPath original

def addPath (state : Paths) (original : Text) : Paths :=
  if (Dict.get state.paths original).isSome then state
  else
    let relative := choosePath hash state.owners original
    ⟨Dict.put state.paths original relative, Dict.put state.owners relative original⟩

/-- `benchmark_paths`. -/
def benchmarkPaths (problems : List Text) : List (Text × Text) := (problems.foldl (addPath hash) ⟨[], []⟩).paths

end Definitions

theorem isSome_addPath (hash : Text → Text) (state : Paths) (original p : Text) :
    (Dict.get (addPath hash state original).paths p).isSome = true ↔ p = original ∨ (Dict.get state.paths p).isSome = true := by
  unfold addPath
  by_cases hold : (Dict.get state.paths original).isSome = true
  · rw [if_pos hold]
    exact ⟨Or.inr, fun h => h.elim (fun heq => heq ▸ hold) id⟩
  · rw [if_neg hold, Dict.get_put]
    by_cases hp : p = original
    · rw [if_pos hp]
      exact iff_of_true rfl (Or.inl hp)
    · rw [if_neg hp, or_iff_right hp]

/-- Every problem has a path. -/
theorem isSome_benchmarkPaths (hash : Text → Text) {problems : List Text} {p : Text} (hp : p ∈ problems) :
    (Dict.get (benchmarkPaths hash problems) p).isSome = true := by
  have hrun (rest : List Text) (state : Paths) (h : p ∈ rest ∨ (Dict.get state.paths p).isSome = true) :
      (Dict.get (rest.foldl (addPath hash) state).paths p).isSome = true := by
    induction rest generalizing state with
    | nil => exact h.resolve_left List.not_mem_nil
    | cons original rest ih =>
      refine ih _ ?_
      rw [isSome_addPath]
      rw [List.mem_cons, or_assoc] at h
      exact or_left_comm.1 h
  exact hrun problems _ (Or.inl hp)

/-! ### Entries -/

/-- `str(z)`. -/
def intText (z : ℤ) : Text := if z < 0 then '-' :: decimal z.natAbs else decimal z.natAbs

/-- `row.get('solver') or 'solver'`. -/
def Row.solverName (row : Row) : Text := if row.solver = [] then "solver".toList else row.solver

/-- The entry of the table, for the number of the job. -/
def infoName (job : ℕ) : Text := "Job".toList ++ decimal job ++ "/Job".toList ++ decimal job ++ "_info.csv".toList

/-- The entry of a pair. -/
def entryName (job : ℕ) (benchmark : Text) (row : Row) : Text :=
  let path := PosixPath.parse benchmark
  let solver := component row.solverName
  "Job".toList ++ decimal job ++ "_output/".toList ++ PosixPath.str ⟨path.slashes, path.parts.dropLast⟩ ++
    '/' :: (solver ++ "___".toList ++ solver) ++ '/' :: path.name ++ '/' :: (intText row.taskId ++ ".txt".toList)

/-- The name is relative, and stays in the directory. -/
structure Safe (name : Text) : Prop where
  relative : name.head? ≠ some '/'
  parts : ∀ part ∈ name.splitOn '/', part ≠ [] ∧ part ≠ ['.'] ∧ part ≠ ['.', '.']

theorem safe_intercalate {parts : List Text} (hne : parts ≠ []) (h : ∀ part ∈ parts, IsComponent part) :
    Safe (['/'].intercalate parts) := by
  have hsplit : (['/'].intercalate parts).splitOn '/' = parts :=
    List.splitOn_intercalate '/' (fun part hpart => (h part hpart).noSlash) hne
  refine ⟨fun hhead => ?_, fun part hpart => ?_⟩
  · obtain ⟨first, rest, rfl⟩ := List.exists_cons_of_ne_nil hne
    have hfirst := h first List.mem_cons_self
    obtain ⟨c, t, rfl⟩ := List.exists_cons_of_ne_nil hfirst.nonempty
    rw [PosixPath.intercalate_cons] at hhead
    exact hfirst.noSlash (Option.some.inj hhead ▸ List.mem_cons_self)
  · rw [hsplit] at hpart
    have hcomponent := h part hpart
    exact ⟨hcomponent.nonempty, hcomponent.not_dot, hcomponent.not_dots⟩

/-! ### The spelling of a benchmark -/

theorem parts_relative (directory : Text) (hdirectory : '/' ∉ directory) (hpart : PosixPath.isPart directory = true)
    (rest : Text) : (PosixPath.parse (directory ++ '/' :: rest)).parts = directory :: (PosixPath.parse rest).parts := by
  show ((directory ++ '/' :: rest).splitOn '/').filter PosixPath.isPart = _
  rw [List.splitOn_append_cons_self, List.splitOn_eq_singleton hdirectory, List.singleton_append,
    List.filter_cons_of_pos hpart]
  rfl

/-- The components of a benchmark, before those of other problems are known. -/
def baseParts (original : Text) : List Text := (PosixPath.parse (relativeOf original)).parts.map component

def apartParts (hash : Text → Text) (original : Text) : List Text :=
  (baseParts original).dropLast ++ [hash original, (baseParts original).getLast?.getD []]

/-- The first component is `Problems`. -/
theorem baseParts_eq (original : Text) : ∃ rest, baseParts original = "Problems".toList :: rest.map component ∧
    (∀ text, afterProblems original = some text → rest = (PosixPath.parse text).parts) ∧
    (afterProblems original = none →
      rest = "local".toList :: (PosixPath.parse (PosixPath.parse original).name).parts) := by
  unfold baseParts relativeOf
  cases hafter : afterProblems original with
  | some text =>
    refine ⟨_, ?_, fun text' h => congrArg (fun t => (PosixPath.parse t).parts) (Option.some.inj h), nofun⟩
    show ((PosixPath.parse ("Problems".toList ++ '/' :: text)).parts).map component = _
    rw [parts_relative _ (by decide) (by decide), List.map_cons]
    exact congrArg (· :: _) (by decide)
  | none =>
    refine ⟨_, ?_, nofun, fun _ => rfl⟩
    show ((PosixPath.parse ("Problems".toList ++ '/' :: ("local".toList ++ '/' :: (PosixPath.parse original).name))).parts).map
      component = _
    rw [parts_relative _ (by decide) (by decide), parts_relative _ (by decide) (by decide), List.map_cons]
    exact congrArg (· :: _) (by decide)

theorem isComponent_baseParts {original part : Text} (h : part ∈ baseParts original) : IsComponent part := by
  obtain ⟨value, -, rfl⟩ := List.mem_map.1 h
  exact isComponent_component value

theorem baseParts_ne_nil (original : Text) : baseParts original ≠ [] := by
  obtain ⟨rest, heq, -⟩ := baseParts_eq original
  rw [heq]
  exact List.cons_ne_nil _ _

theorem isComponent_digest {t : Text} (h : IsDigest t) : IsComponent t := by
  have hnot {c : Char} (hc : c ∈ t) (hdigit : c.isDigit = false) (hlow : c < 'a') : False := by
    rcases h.hex c hc with hhex | hhex
    · rw [hdigit] at hhex
      cases hhex
    · exact absurd hhex.1 (not_le.2 hlow)
  refine ⟨fun heq => ?_, fun hslash => hnot hslash (by decide) (by decide), fun heq => ?_, fun heq => ?_⟩
  · have hlength := h.length
    rw [heq] at hlength
    cases hlength
  · exact hnot (c := '.') (heq ▸ by decide) (by decide) (by decide)
  · exact hnot (c := '.') (heq ▸ by decide) (by decide) (by decide)

section Paths

variable {hash : Text → Text}

theorem isComponent_apartParts (hhash : ∀ t, IsDigest (hash t)) {original part : Text}
    (h : part ∈ apartParts hash original) : IsComponent part := by
  rcases List.mem_append.1 h with hbase | hlast
  · exact isComponent_baseParts (List.mem_of_mem_dropLast hbase)
  · rcases List.mem_cons.1 hlast with rfl | hlast
    · exact isComponent_digest (hhash original)
    · rw [List.mem_singleton.1 hlast, List.getLast?_eq_some_getLast (baseParts_ne_nil original)]
      exact isComponent_baseParts (List.getLast_mem _)

/-- Components that have been joined are read back. -/
theorem parse_intercalate {parts : List Text} (hne : parts ≠ []) (h : ∀ part ∈ parts, IsComponent part) :
    PosixPath.parse (['/'].intercalate parts) = ⟨0, parts⟩ := by
  have hvalid : PosixPath.Valid ⟨0, parts⟩ := {
    slashes_le := Nat.zero_le 2
    isPart := fun part hpart => decide_eq_true ⟨(h part hpart).nonempty, (h part hpart).not_dot⟩
    noSlash := fun part hpart => (h part hpart).noSlash }
  have hstr : PosixPath.str ⟨0, parts⟩ = ['/'].intercalate parts := by
    unfold PosixPath.str
    rw [if_neg fun hempty => hne hempty.2]
    rfl
  rw [← hstr, PosixPath.parse_str hvalid]

theorem setApart_eq (original : Text) :
    setApart hash (benchmarkPath original) original = ['/'].intercalate (apartParts hash original) := by
  have hparse : PosixPath.parse (benchmarkPath original) = ⟨0, baseParts original⟩ :=
    parse_intercalate (baseParts_ne_nil original) fun _ => isComponent_baseParts
  unfold setApart PosixPath.str
  rw [hparse, if_neg fun hempty => by simpa using hempty.2]
  rfl

/-- How a problem can be spelled. -/
inductive Spelled (hash : Text → Text) (original : Text) : Text → Prop
  | base : Spelled hash original (['/'].intercalate (baseParts original))
  | apart : Spelled hash original (['/'].intercalate (apartParts hash original))

theorem spelled_choosePath (owners : List (Text × Text)) (original : Text) :
    Spelled hash original (choosePath hash owners original) := by
  unfold choosePath
  cases Dict.get owners (benchmarkPath original) with
  | none => exact Spelled.base
  | some owner =>
    dsimp only
    split_ifs
    · rw [setApart_eq]
      exact Spelled.apart
    · exact Spelled.base

/-- The checksums are as different as the problems, and no problem lies in a directory named by the checksum of another. -/
structure Distinguishes (hash : Text → Text) (problems : List Text) : Prop where
  digest : ∀ t, IsDigest (hash t)
  injective : ∀ p ∈ problems, ∀ q ∈ problems, hash p = hash q → p = q
  noDirectory : ∀ p ∈ problems, ∀ q ∈ problems, p ≠ q → hash q ∉ (PosixPath.parse p).parts.dropLast

/-- After the marker comes the rest of the path. -/
theorem parts_of_afterProblems {t rest : Text} (h : afterProblems t = some rest) :
    ∃ front, (PosixPath.parse t).parts = front ++ "Problems".toList :: (PosixPath.parse rest).parts := by
  have hsplit : ∃ front, t = front ++ '/' :: ("Problems".toList ++ '/' :: rest) := by
    induction t with
    | nil => cases h
    | cons c t ih =>
      unfold afterProblems at h
      split_ifs at h with hprefix
      · obtain ⟨rest', hrest'⟩ := List.isPrefixOf_iff_prefix.1 hprefix
        rw [← hrest', List.drop_left' (by decide)] at h
        refine ⟨[], ?_⟩
        rw [← hrest', Option.some.inj h]
        rfl
      · obtain ⟨front, hfront⟩ := ih h
        exact ⟨c :: front, by rw [hfront, List.cons_append]⟩
  obtain ⟨front, rfl⟩ := hsplit
  refine ⟨(PosixPath.parse front).parts, ?_⟩
  rw [← parts_relative _ (by decide) (by decide)]
  show ((front ++ '/' :: _).splitOn '/').filter PosixPath.isPart = _
  rw [List.splitOn_append_cons_self, List.filter_append]
  rfl

/-- No directory of a benchmark is the checksum of another problem. -/
theorem not_mem_baseParts {problems : List Text} (h : Distinguishes hash problems) {p q : Text} (hp : p ∈ problems)
    (hq : q ∈ problems) (hne : p ≠ q) : hash q ∉ (baseParts p).dropLast := by
  have hdigest := h.digest q
  have hlong : ∀ t : Text, t.length ≠ 16 → t ≠ hash q := fun t ht heq => ht (heq ▸ hdigest.length)
  have hpercent : '%' ∉ hash q := by
    intro hmem
    rcases hdigest.hex _ hmem with hhex | hhex
    · exact absurd hhex (by decide)
    · exact absurd hhex.1 (by decide)
  intro hmem
  obtain ⟨rest, heq, hafter, hnone⟩ := baseParts_eq p
  rw [heq] at hmem
  have hrest : hash q ∈ (rest.map component).dropLast := by
    cases rest with
    | nil => exact absurd hmem List.not_mem_nil
    | cons part rest =>
      rw [List.map_cons, List.dropLast_cons_cons] at hmem
      exact (List.mem_cons.1 hmem).resolve_left (Ne.symm (hlong _ (by decide)))
  rw [← List.map_dropLast] at hrest
  obtain ⟨value, hvalue, hcomponent⟩ := List.mem_map.1 hrest
  have heq := eq_of_component hcomponent hpercent (Ne.symm (hlong _ (by decide)))
  rw [heq] at hvalue
  cases hp' : afterProblems p with
  | some text =>
    obtain ⟨front, hfront⟩ := parts_of_afterProblems hp'
    rw [hafter text hp'] at hvalue
    refine h.noDirectory p hp q hq hne ?_
    have hbelow : (PosixPath.parse text).parts ≠ [] := by
      intro hempty
      rw [hempty] at hvalue
      cases hvalue
    rw [hfront, List.dropLast_append_cons, List.dropLast_cons_of_ne_nil hbelow]
    exact List.mem_append_right _ (List.mem_cons_of_mem _ hvalue)
  | none =>
    rw [hnone hp'] at hvalue
    -- the name of a path is a single component, if anything
    have hsingle : (PosixPath.parse (PosixPath.parse p).name).parts.length ≤ 1 := by
      have hname : '/' ∉ (PosixPath.parse p).name := not_mem_pathName p
      show (((PosixPath.parse p).name.splitOn '/').filter PosixPath.isPart).length ≤ 1
      rw [List.splitOn_eq_singleton hname]
      exact List.length_filter_le _ _
    generalize (PosixPath.parse (PosixPath.parse p).name).parts = last at hvalue hsingle
    match last, hsingle with
    | [], _ => exact absurd hvalue List.not_mem_nil
    | [_], _ => exact hlong _ (by decide) (List.mem_singleton.1 hvalue).symm

/-- What is known of the paths of the problems that have been seen. -/
structure Recorded (hash : Text → Text) (seen : List Text) (state : Paths) : Prop where
  keys : ∀ p, (Dict.get state.paths p).isSome = true ↔ p ∈ seen
  spelled : ∀ p v, Dict.get state.paths p = some v → Spelled hash p v
  owners : ∀ v p, Dict.get state.owners v = some p ↔ Dict.get state.paths p = some v

/-- The path that is chosen is new. -/
theorem fresh_choosePath {problems seen : List Text} {state : Paths} {original : Text}
    (hdistinct : Distinguishes hash problems) (h : Recorded hash seen state) (hseen : ∀ p ∈ seen, p ∈ problems)
    (horiginal : original ∈ problems) (hnew : original ∉ seen) (p : Text) :
    Dict.get state.paths p ≠ some (choosePath hash state.owners original) := by
  intro hp
  have hpseen : p ∈ seen := (h.keys p).1 (by rw [hp]; rfl)
  have hne : p ≠ original := fun heq => hnew (heq ▸ hpseen)
  have hspelled := h.spelled p _ hp
  unfold choosePath at hp hspelled
  cases howner : Dict.get state.owners (benchmarkPath original) with
  | none =>
    rw [howner] at hp
    rw [(h.owners _ p).2 hp] at howner
    cases howner
  | some owner =>
    have hother : owner ≠ original := by
      rintro rfl
      exact hnew ((h.keys owner).1 (by rw [(h.owners _ owner).1 howner]; rfl))
    rw [howner] at hspelled
    dsimp only at hspelled
    rw [if_pos hother, setApart_eq] at hspelled
    have hapart : PosixPath.parse (['/'].intercalate (apartParts hash original)) = ⟨0, apartParts hash original⟩ :=
      parse_intercalate (by simp [apartParts]) fun _ => isComponent_apartParts hdistinct.digest
    generalize hv : ['/'].intercalate (apartParts hash original) = v at hspelled hapart
    cases hspelled with
    | base =>
      rw [parse_intercalate (baseParts_ne_nil p) fun _ => isComponent_baseParts] at hapart
      refine not_mem_baseParts hdistinct (hseen p hpseen) horiginal hne ?_
      rw [(PosixPath.mk.inj hapart).2, apartParts, List.dropLast_append_cons]
      exact List.mem_append_right _ (by simp)
    | apart =>
      rw [parse_intercalate (by simp [apartParts]) fun _ => isComponent_apartParts hdistinct.digest] at hapart
      have hparts := (PosixPath.mk.inj hapart).2
      unfold apartParts at hparts
      have hlast := (List.append_inj' hparts rfl).2
      exact hne (hdistinct.injective p (hseen p hpseen) original horiginal (List.cons.inj hlast).1)

theorem recorded_addPath {problems seen : List Text} {state : Paths} {original : Text}
    (hdistinct : Distinguishes hash problems) (h : Recorded hash seen state) (hseen : ∀ p ∈ seen, p ∈ problems)
    (horiginal : original ∈ problems) : Recorded hash (original :: seen) (addPath hash state original) := by
  unfold addPath
  by_cases hold : (Dict.get state.paths original).isSome = true
  · rw [if_pos hold]
    refine ⟨fun p => ?_, h.spelled, h.owners⟩
    rw [h.keys, List.mem_cons, or_iff_right_of_imp]
    rintro rfl
    exact (h.keys p).1 hold
  · rw [if_neg hold]
    have hfresh := fresh_choosePath hdistinct h hseen horiginal fun hmem => hold ((h.keys original).2 hmem)
    generalize hrelative : choosePath hash state.owners original = relative at hfresh
    refine ⟨fun p => ?_, fun p v hv => ?_, fun v p => ?_⟩
    · rw [Dict.get_put, List.mem_cons, ← h.keys]
      by_cases hp : p = original
      · rw [if_pos hp]
        exact iff_of_true rfl (Or.inl hp)
      · rw [if_neg hp, or_iff_right hp]
    · rw [Dict.get_put] at hv
      by_cases hp : p = original
      · rw [if_pos hp] at hv
        rw [hp, ← Option.some.inj hv, ← hrelative]
        exact spelled_choosePath state.owners original
      · rw [if_neg hp] at hv
        exact h.spelled p v hv
    · rw [Dict.get_put, Dict.get_put]
      have hnone : Dict.get state.paths original = none := by simpa using hold
      by_cases hv : v = relative
      · rw [if_pos hv, hv]
        by_cases hp : p = original
        · rw [if_pos hp, hp]
          exact iff_of_true rfl rfl
        · rw [if_neg hp]
          exact iff_of_false (fun heq => hp (Option.some.inj heq).symm) (hfresh p)
      · rw [if_neg hv, h.owners]
        by_cases hp : p = original
        · rw [if_pos hp, hp, hnone]
          exact iff_of_false nofun fun heq => hv (Option.some.inj heq).symm
        · rw [if_neg hp]

theorem recorded_benchmarkPaths {problems : List Text} (hdistinct : Distinguishes hash problems) :
    ∃ owners, Recorded hash problems.reverse ⟨benchmarkPaths hash problems, owners⟩ := by
  have hrun {rest seen : List Text} {state : Paths} (h : Recorded hash seen state) (hseen : ∀ p ∈ seen, p ∈ problems)
      (hrest : ∀ p ∈ rest, p ∈ problems) :
      Recorded hash (rest.reverse ++ seen) (rest.foldl (addPath hash) state) := by
    induction rest generalizing seen state with
    | nil => exact h
    | cons p rest ih =>
      rw [List.forall_mem_cons] at hrest
      rw [List.reverse_cons, List.append_assoc]
      exact ih (recorded_addPath hdistinct h hseen hrest.1) (List.forall_mem_cons.2 ⟨hrest.1, hseen⟩) hrest.2
  have hstart : Recorded hash [] ⟨[], []⟩ :=
    ⟨fun p => by simp [Dict.get], fun p v h => by simp [Dict.get] at h, fun v p => by simp [Dict.get]⟩
  have hall := hrun hstart (fun p hp => absurd hp List.not_mem_nil) fun p hp => hp
  rw [List.append_nil] at hall
  exact ⟨_, hall⟩

/-- A spelling has a directory and a name. -/
theorem exists_parts_of_spelled (hhash : ∀ t, IsDigest (hash t)) {original benchmark : Text}
    (h : Spelled hash original benchmark)
    (hbelow : ∀ rest, afterProblems original = some rest → (PosixPath.parse rest).parts ≠ []) :
    ∃ front last, front ≠ [] ∧ (∀ part ∈ front ++ [last], IsComponent part) ∧
      benchmark = ['/'].intercalate (front ++ [last]) := by
  cases h with
  | base =>
    have hparts := List.dropLast_append_getLast (baseParts_ne_nil original)
    refine ⟨(baseParts original).dropLast, (baseParts original).getLast (baseParts_ne_nil original), ?_, ?_, ?_⟩
    · obtain ⟨rest, heq, hafter, hnone⟩ := baseParts_eq original
      have hrest : rest ≠ [] := by
        cases ho : afterProblems original with
        | some text =>
          rw [hafter text ho]
          exact hbelow text ho
        | none =>
          rw [hnone ho]
          exact List.cons_ne_nil _ _
      obtain ⟨part, rest, rfl⟩ := List.exists_cons_of_ne_nil hrest
      rw [heq, List.map_cons, List.dropLast_cons_cons]
      exact List.cons_ne_nil _ _
    · rw [hparts]
      exact fun _ => isComponent_baseParts
    · rw [hparts]
  | apart =>
    refine ⟨(baseParts original).dropLast ++ [hash original], (baseParts original).getLast?.getD [], by simp, ?_, ?_⟩
    · rw [List.append_assoc]
      exact fun _ => isComponent_apartParts hhash
    · rw [List.append_assoc]
      rfl

end Paths

/-! ### Entries are safe -/

theorem not_mem_decimal {n : ℕ} {c : Char} (hc : c.isDigit = false) : c ∉ decimal n := by
  intro hmem
  rw [isDigit_of_mem_decimal hmem] at hc
  cases hc

theorem intText_injective {y z : ℤ} (h : intText y = intText z) : y = z := by
  unfold intText at h
  have hhead {n m : ℕ} (heq : '-' :: decimal n = decimal m) : False :=
    not_mem_decimal (n := m) (c := '-') (by decide) (heq ▸ List.mem_cons_self)
  split_ifs at h with hy hz hz
  · have := decimal_injective (List.cons.inj h).2
    omega
  · exact (hhead h).elim
  · exact (hhead h.symm).elim
  · have := decimal_injective h
    omega

/-- A name with some other character than the point and the slash. -/
theorem isComponent_of_mem {t : Text} (hslash : '/' ∉ t) {c : Char} (hc : c ∈ t) (hdot : c ≠ '.') : IsComponent t := by
  refine ⟨List.ne_nil_of_mem hc, hslash, fun heq => ?_, fun heq => ?_⟩
  · rw [heq] at hc
    exact hdot (List.mem_singleton.1 hc)
  · rw [heq] at hc
    rcases List.mem_cons.1 hc with hc | hc
    · exact hdot hc
    · exact hdot (List.mem_singleton.1 hc)

theorem safe_infoName (job : ℕ) : Safe (infoName job) := by
  have hname : infoName job = ['/'].intercalate
      ["Job".toList ++ decimal job, "Job".toList ++ decimal job ++ "_info.csv".toList] := by
    unfold infoName
    rw [PosixPath.intercalate_cons]
    simp
  rw [hname]
  refine safe_intercalate (List.cons_ne_nil _ _) fun part hpart => ?_
  have hdecimal : '/' ∉ decimal job := not_mem_decimal (by decide)
  simp only [List.mem_cons, List.not_mem_nil, or_false] at hpart
  rcases hpart with rfl | rfl
  · exact isComponent_of_mem (c := 'J') (by simp [hdecimal]) (by simp) (by decide)
  · exact isComponent_of_mem (c := 'J') (by simp [hdecimal]) (by simp) (by decide)

/-- The name of the text of a pair. -/
def textName (row : Row) : Text := intText row.taskId ++ ".txt".toList

theorem isComponent_textName (row : Row) : IsComponent (textName row) := by
  refine isComponent_of_mem (c := 't') ?_ (List.mem_append_right _ (by decide)) (by decide)
  unfold textName intText
  have hdecimal : '/' ∉ decimal row.taskId.natAbs := not_mem_decimal (by decide)
  split_ifs <;> simp [hdecimal]

theorem safe_entryName (job : ℕ) {front : List Text} {last : Text} (hfront : front ≠ [])
    (h : ∀ part ∈ front ++ [last], IsComponent part) (row : Row) :
    Safe (entryName job (['/'].intercalate (front ++ [last])) row) := by
  have hparse : PosixPath.parse (['/'].intercalate (front ++ [last])) = ⟨0, front ++ [last]⟩ :=
    parse_intercalate (by simp) h
  have hname : entryName job (['/'].intercalate (front ++ [last])) row = ['/'].intercalate
      (("Job".toList ++ decimal job ++ "_output".toList) :: (front ++
        [component row.solverName ++ "___".toList ++ component row.solverName, last, textName row])) := by
    obtain ⟨first, front, rfl⟩ := List.exists_cons_of_ne_nil hfront
    have hstr : PosixPath.str ⟨0, first :: front⟩ = first ++ front.flatMap ('/' :: ·) := by
      unfold PosixPath.str
      rw [if_neg fun hempty => by simpa using hempty.2, PosixPath.intercalate_cons]
      rfl
    unfold entryName
    rw [PosixPath.intercalate_cons, hparse]
    dsimp only
    rw [List.dropLast_concat, hstr, PosixPath.name, List.getLast?_concat]
    simp [textName]
  rw [hname]
  have hsolver := isComponent_component row.solverName
  refine safe_intercalate (List.cons_ne_nil _ _) fun part hpart => ?_
  simp only [List.mem_cons, List.mem_append, List.not_mem_nil, or_false] at hpart
  rcases hpart with rfl | hpart | rfl | rfl | rfl
  · have hdecimal : '/' ∉ decimal job := not_mem_decimal (by decide)
    exact isComponent_of_mem (c := 'J') (by simp [hdecimal]) (by simp) (by decide)
  · exact h part (List.mem_append_left _ hpart)
  · exact isComponent_of_mem (c := '_') (by simp [hsolver.noSlash]) (by simp) (by decide)
  · exact h _ (List.mem_append_right _ List.mem_cons_self)
  · exact isComponent_textName row

/-- The last component of an entry tells the pair. -/
theorem taskId_of_entryName {job : ℕ} {benchmark benchmark' : Text} {row row' : Row}
    (h : entryName job benchmark row = entryName job benchmark' row') : row.taskId = row'.taskId := by
  have hlast (benchmark : Text) (row : Row) : ((entryName job benchmark row).splitOn '/').getLast? = some (textName row) := by
    unfold entryName
    dsimp only
    rw [List.splitOn_append_cons_self, List.getLast?_append]
    show ((textName row).splitOn '/').getLast?.or _ = _
    rw [List.splitOn_eq_singleton (isComponent_textName row).noSlash]
    rfl
  have htext := (hlast benchmark row).symm.trans (h ▸ hlast benchmark' row')
  exact intText_injective (List.append_cancel_right (Option.some.inj htext))

/-- The names in the two archives. -/
structure NamesSafe (hash : Text → Text) (job : ℕ) (rows : List Row) : Prop where
  info : Safe (infoName job)
  found : ∀ row ∈ rows, (Dict.get (benchmarkPaths hash (rows.map Row.problem)) row.problem).isSome = true
  entries : ∀ row ∈ rows, ∀ benchmark, Dict.get (benchmarkPaths hash (rows.map Row.problem)) row.problem = some benchmark →
    Safe (entryName job benchmark row)
  pairs : ∀ row ∈ rows, ∀ row' ∈ rows, row.taskId ≠ row'.taskId →
    ∀ benchmark benchmark', entryName job benchmark row ≠ entryName job benchmark' row'
  problems : ∀ row ∈ rows, ∀ row' ∈ rows, row.problem ≠ row'.problem →
    Dict.get (benchmarkPaths hash (rows.map Row.problem)) row.problem ≠
      Dict.get (benchmarkPaths hash (rows.map Row.problem)) row'.problem

/-- **No name of an archive leaves its directory; different pairs and different problems have different names.** -/
theorem names_safe (hash : Text → Text) (job : ℕ) (rows : List Row)
    (hdistinct : Distinguishes hash (rows.map Row.problem))
    (hbelow : ∀ row ∈ rows, ∀ rest, afterProblems row.problem = some rest → (PosixPath.parse rest).parts ≠ []) :
    NamesSafe hash job rows := by
  obtain ⟨owners, hrecorded⟩ := recorded_benchmarkPaths hdistinct
  have hfound : ∀ row ∈ rows, (Dict.get (benchmarkPaths hash (rows.map Row.problem)) row.problem).isSome = true :=
    fun row hrow => isSome_benchmarkPaths hash (List.mem_map_of_mem hrow)
  refine ⟨safe_infoName job, hfound, fun row hrow benchmark hbenchmark => ?_,
    fun row _ row' _ hne _ _ heq => hne (taskId_of_entryName heq), fun row hrow row' _ hne heq => ?_⟩
  · obtain ⟨front, last, hfront, hparts, rfl⟩ :=
      exists_parts_of_spelled hdistinct.digest (hrecorded.spelled _ _ hbenchmark) (hbelow row hrow)
    exact safe_entryName job hfront hparts row
  · -- the path has one owner
    obtain ⟨benchmark, hbenchmark⟩ := Option.isSome_iff_exists.1 (hfound row hrow)
    have howner := (hrecorded.owners _ _).2 hbenchmark
    rw [(hrecorded.owners _ _).2 (heq ▸ hbenchmark)] at howner
    exact hne (Option.some.inj howner).symm

/-- A checksum that tells three paths apart. -/
def sampleHash (t : Text) : Text := (List.replicate 16 '0').set (t.length % 16) 'a'

/-- Two problems with the same name, and one that climbs. -/
def sampleRows : List Row :=
  [("/a/p.p", 0), ("/bc/p.p", 1), ("/x/Problems/../\\%", 2)].map fun entry =>
    ⟨entry.2, "..".toList, entry.1.toList, [], [], [], [], [], [], [], [], []⟩

theorem isDigest_sampleHash (t : Text) : IsDigest (sampleHash t) where
  length := by simp [sampleHash]
  hex c hc := by
    rcases List.mem_or_eq_of_mem_set hc with hc | rfl
    · rw [List.eq_of_mem_replicate hc]
      exact Or.inl rfl
    · exact Or.inr ⟨le_rfl, by decide⟩

theorem names_safe_sample : Distinguishes sampleHash (sampleRows.map Row.problem) ∧
    (∀ row ∈ sampleRows, ∀ rest, afterProblems row.problem = some rest → (PosixPath.parse rest).parts ≠ []) ∧
      NamesSafe sampleHash 5 sampleRows :=
  have hdistinct : Distinguishes sampleHash (sampleRows.map Row.problem) :=
    ⟨isDigest_sampleHash, by decide +kernel, by decide +kernel⟩
  have hbelow : ∀ row ∈ sampleRows, ∀ rest, afterProblems row.problem = some rest → (PosixPath.parse rest).parts ≠ [] := by
    have hall : ∀ row ∈ sampleRows, (afterProblems row.problem).all fun rest => decide ((PosixPath.parse rest).parts ≠ []) := by
      decide +kernel
    intro row hrow rest hrest
    have hrow := hall row hrow
    rw [hrest] at hrow
    exact of_decide_eq_true hrow
  ⟨hdistinct, hbelow, names_safe sampleHash 5 sampleRows hdistinct hbelow⟩

end StarExec
end Slurmy
