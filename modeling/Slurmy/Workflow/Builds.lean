import Slurmy.Lib.Json
import Slurmy.Workflow.Pairs

/-!
# The resources of a workflow

* `BuildSpec`, `readBuilds`: `building.txt`, as a JSON list or with two lines for each resource;
* `isPlain_of_readLines`, `readLines_map`: what lines can say, and lines that say the same of other paths;
* `readBuilds_lines`: a text that does not start with a bracket is read by lines.
-/

namespace Slurmy
namespace Workflow

inductive BuildPolicy
  | always
  | changed
  deriving DecidableEq

structure BuildSpec where
  root : PosixPath
  recipe : Option PosixPath
  source : Option PosixPath
  artifact : Option Text
  buildPolicy : BuildPolicy
  deriving DecidableEq

section Read

variable (site : Site) (checkPaths : Bool) (dir : PosixPath)

/-- The path in a field, if it is not blank; `none` when it is no text. -/
def fieldPath (value : Option Json) : Option (Option PosixPath) :=
  match value with
  | some (.string t) => some (if t ≠ [] then some (pathAt site t dir) else none)
  | some value => if value.truthy then none else some none
  | none => some none

/-- An artifact that a resource may have. -/
def isArtifact (artifact : Text) : Bool :=
  let path := PosixPath.parse artifact
  !path.isAbsolute && path.parts ≠ [] && decide (['.', '.'] ∉ path.parts) && decide ('\n' ∉ artifact)

/-- A resource of the JSON list, after the resources `previous`. -/
def readRecord (previous : List BuildSpec) (record : Json) : Option BuildSpec :=
  match record with
  | .object _ => do
      let root ← (match record.get "root".toList with
        | some (.string t) => some (pathAt site t dir)
        | some _ => none
        | none => some (pathAt site [] dir))
      let source ← fieldPath site dir (record.get "source".toList)
      let recipe ← fieldPath site dir (record.get "recipe".toList)
      let artifact ← (match record.get "artifact".toList with
        | some (.string t) => some (if t ≠ [] then some t else none)
        | some value => if value.truthy then none else some none
        | none => some none)
      guard (¬ (checkPaths ∧ (¬ site.isDir root.str ∨ source.any (fun p => !site.isDir p.str) ∨
        recipe.any fun p => !site.isFile p.str)))
      guard (artifact.all isArtifact)
      guard (recipe = none ∨ artifact ≠ none ∨ ((record.get "legacy".toList).any Json.truthy) = true)
      guard (∀ build ∈ previous, root ≠ build.root)
      let buildPolicy ← (match record.get "build_policy".toList with
        | some (.string t) =>
            if t = "always".toList then some BuildPolicy.always
            else if t = "changed".toList then some BuildPolicy.changed
            else none
        | some _ => none
        | none => some .always)
      return {
        root, recipe, artifact, buildPolicy
        source := if recipe ≠ none ∧ artifact = none ∧ source = none then some root else source }
  | _ => none

/-- The resources of the JSON list. -/
def readRecords (previous : List BuildSpec) : List Json → Option (List BuildSpec)
  | [] => some previous
  | record :: records => do
      let build ← readRecord site checkPaths dir previous record
      readRecords (previous ++ [build]) records

/-- The resources of the lines, two for each. -/
def readLines (previous : List BuildSpec) : List Text → Option (List BuildSpec)
  | [] => some previous
  | [_] => none
  | first :: second :: lines => do
      let root := pathAt site (Lines.strip first) dir
      guard (Lines.strip first ≠ [] ∧ (checkPaths = true → site.isDir root.str = true))
      let recipe := if Lines.strip second ≠ [] then some (pathAt site (Lines.strip second) dir) else none
      guard (checkPaths = true → recipe.all (fun p => site.isFile p.str) = true)
      guard (∀ build ∈ previous, root ≠ build.root)
      readLines (previous ++ [⟨root, recipe, some root, none, .always⟩]) lines

/-- The text is read as JSON. -/
def isJson (content : Text) : Bool := (content.dropWhile Lines.isSpace).head? = some '['

/-- `read_builds` of a file in the directory `dir`. -/
def readBuilds (content : Text) : Option (List BuildSpec) :=
  if isJson content then
    match Json.loads content with
    | some (.array records) => readRecords site checkPaths dir [] records
    | _ => none
  else readLines site checkPaths dir [] (Lines.splitlines content)

end Read

variable {site site' : Site} {dir dir' : PosixPath} {lines : List Text} {builds previous : List BuildSpec}

theorem readBuilds_lines {checkPaths : Bool} {content : Text} (h : isJson content = false) :
    readBuilds site checkPaths dir content = readLines site checkPaths dir [] (Lines.splitlines content) := by
  unfold readBuilds
  rw [if_neg (by rw [h]; exact Bool.false_ne_true)]

/-- The paths of a resource in the two-line format. -/
def BuildSpec.paths (build : BuildSpec) : List PosixPath := build.root :: build.recipe.toList

/-- A resource with other paths. -/
def BuildSpec.relocate (f : PosixPath → PosixPath) (build : BuildSpec) : BuildSpec :=
  { build with root := f build.root, recipe := build.recipe.map f, source := build.source.map f }

/-- All that two lines can say of a resource. -/
def BuildSpec.IsPlain (build : BuildSpec) : Prop :=
  build.source = some build.root ∧ build.artifact = none ∧ build.buildPolicy = .always

instance (build : BuildSpec) : Decidable build.IsPlain := by
  unfold BuildSpec.IsPlain
  infer_instance

/-- The recipe in a line. -/
def recipeOf (site : Site) (dir : PosixPath) (line : Text) : Option PosixPath :=
  if Lines.strip line ≠ [] then some (pathAt site (Lines.strip line) dir) else none

/-- The resource in two lines. -/
def twoLines (site : Site) (dir : PosixPath) (first second : Text) : BuildSpec :=
  let root := pathAt site (Lines.strip first) dir
  ⟨root, recipeOf site dir second, some root, none, .always⟩

/-- What `readLines` makes of two lines. -/
theorem readLines_cons_iff {checkPaths : Bool} {first second : Text} :
    readLines site checkPaths dir previous (first :: second :: lines) = some builds ↔
      (Lines.strip first ≠ [] ∧ (checkPaths = true → site.isDir (twoLines site dir first second).root.str = true)) ∧
        (checkPaths = true → (recipeOf site dir second).all (fun p => site.isFile p.str) = true) ∧
        (∀ build ∈ previous, (twoLines site dir first second).root ≠ build.root) ∧
        readLines site checkPaths dir (previous ++ [twoLines site dir first second]) lines = some builds := by
  rw [readLines]
  dsimp only
  simp only [Option.bind_eq_bind, Option.bind_eq_some_iff, Option.guard_eq_some', exists_and_left, exists_const]
  rfl

/-- Resources that have been read stay. -/
theorem previous_of_readLines {checkPaths : Bool}
    (h : readLines site checkPaths dir previous lines = some builds) : previous <+: builds := by
  induction lines using List.twoStepInduction generalizing previous with
  | nil => exact ⟨[], by rw [List.append_nil]; exact Option.some.inj h⟩
  | singleton line => cases h
  | cons_cons first second lines ih =>
    obtain ⟨-, -, -, hrest⟩ := readLines_cons_iff.mp h
    exact (List.prefix_append previous _).trans (ih hrest)

theorem isPlain_of_readLines {checkPaths : Bool} (hprevious : ∀ build ∈ previous, build.IsPlain)
    (h : readLines site checkPaths dir previous lines = some builds) : ∀ build ∈ builds, build.IsPlain := by
  induction lines using List.twoStepInduction generalizing previous with
  | nil => exact Option.some.inj h ▸ hprevious
  | singleton line => cases h
  | cons_cons first second lines ih =>
    obtain ⟨-, -, -, hrest⟩ := readLines_cons_iff.mp h
    refine ih (fun build hbuild => ?_) hrest
    rcases List.mem_append.mp hbuild with hbuild | hbuild
    · exact hprevious build hbuild
    · rw [List.mem_singleton.mp hbuild]
      exact ⟨rfl, rfl, rfl⟩

/-- The line says of the path in `line` what `f` makes of it. -/
def Carries (site site' : Site) (dir dir' : PosixPath) (f : PosixPath → PosixPath) (line line' : Text) : Prop :=
  if Lines.strip line = [] then Lines.strip line' = []
  else Lines.strip line' ≠ [] ∧
    pathAt site' (Lines.strip line') dir' = f (pathAt site (Lines.strip line) dir)

theorem recipeOf_of_carries {f : PosixPath → PosixPath} {line line' : Text}
    (h : Carries site site' dir dir' f line line') : recipeOf site' dir' line' = (recipeOf site dir line).map f := by
  unfold Carries at h
  unfold recipeOf
  split at h
  · next hblank => rw [if_neg (not_not_intro h), if_neg (not_not_intro hblank), Option.map_none]
  · next hfull => rw [if_pos h.1, if_pos hfull, Option.map_some, h.2]

/-- Lines that say the same of other paths make the same resources with other paths. -/
theorem readLines_map {checkPaths : Bool} {f : PosixPath → PosixPath} {lines' : List Text}
    (hdir : checkPaths = true → ∀ build ∈ builds, site.isDir build.root.str = true →
      site'.isDir (f build.root).str = true)
    (hfile : checkPaths = true → ∀ build ∈ builds, ∀ p ∈ build.recipe, site.isFile p.str = true →
      site'.isFile (f p).str = true)
    (hinj : ∀ build ∈ builds, ∀ build' ∈ builds, f build.root = f build'.root → build.root = build'.root)
    (hlines : List.Forall₂ (Carries site site' dir dir' f) lines lines')
    (h : readLines site checkPaths dir previous lines = some builds) :
    readLines site' checkPaths dir' (previous.map (BuildSpec.relocate f)) lines' =
      some (builds.map (BuildSpec.relocate f)) := by
  induction lines using List.twoStepInduction generalizing previous lines' with
  | nil =>
    cases hlines
    rw [← Option.some.inj h]
    rfl
  | singleton line => cases h
  | cons_cons first second lines ih =>
    obtain ⟨hfirst, hrecipe, hnew, hrest⟩ := readLines_cons_iff.mp h
    cases hlines with
    | @cons _ first' _ lines'' hcarries₁ hlines =>
    cases hlines with
    | @cons _ second' _ lines'' hcarries₂ hlines =>
    have hstart := previous_of_readLines hrest
    have hmem : twoLines site dir first second ∈ builds :=
      hstart.subset (List.mem_append_right _ List.mem_cons_self)
    have hsecond := recipeOf_of_carries hcarries₂
    unfold Carries at hcarries₁
    rw [if_neg hfirst.1] at hcarries₁
    have htwo : twoLines site' dir' first' second' = (twoLines site dir first second).relocate f := by
      unfold twoLines BuildSpec.relocate
      dsimp only
      rw [hcarries₁.2, hsecond, Option.map_some]
    refine readLines_cons_iff.mpr ⟨⟨hcarries₁.1, fun hcheck => ?_⟩, fun hcheck => ?_, fun build hbuild => ?_, ?_⟩
    · rw [htwo]
      exact hdir hcheck _ hmem (hfirst.2 hcheck)
    · rw [hsecond]
      cases hp : recipeOf site dir second with
      | none => rfl
      | some p =>
        have hfound := hrecipe hcheck
        rw [hp] at hfound
        exact hfile hcheck _ hmem p hp hfound
    · obtain ⟨known, hknown, rfl⟩ := List.mem_map.mp hbuild
      rw [htwo]
      intro heq
      exact hnew known hknown (hinj _ hmem known (hstart.subset (List.mem_append_left _ hknown)) heq)
    · rw [htwo]
      have hsuccess := ih hlines hrest
      rw [List.map_append] at hsuccess
      exact hsuccess

end Workflow
end Slurmy
