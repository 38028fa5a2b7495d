import Slurmy.Build.Cache
import Slurmy.Lib.CsvExcel
import Slurmy.Lib.ShellWords
import Slurmy.Lib.Template
import Slurmy.Workflow.Builds
import Slurmy.Workflow.Save

/-!
# The generated files and their paths

`specification` makes the files of a workflow from values, which are or contain paths.

* `Value`: a text, with its paths marked; `Escape`: how a format writes its characters;
* `Marked`: a file, with the places where paths stand;
* `Contents`, `files`: what the files are made of, and the files;
* `holes`, `fill_holes`: the directory where paths at or below it stand;
* `csvText_eq_table`, `text_jsonString`, `text_shellWord`: the files' texts are those that `csv`, `json` and `shlex`
  write.
-/

namespace Slurmy
namespace Workflow
namespace Generated

open Saving (FileName)

/-! ### Values -/

/-- A part of a value. -/
inductive Part
  | text (t : Text)
  | path (p : Text)
  deriving DecidableEq

def Part.plain : Part → Text
  | .text t => t
  | .path p => p

abbrev Value := List Part

def Value.text (v : Value) : Text := v.flatMap Part.plain

/-- A value without paths. -/
def literal (t : Text) : Value := [.text t]

/-- Under which rules a character is written: as it is, in a quoted field, in a JSON string, in single quotes. -/
inductive Escape
  | plain
  | csv
  | json
  | shell
  deriving DecidableEq

def Escape.char : Escape → Char → Text
  | .plain, c => [c]
  | .csv, c => if c = '"' then ['"', '"'] else [c]
  | .json, c => Build.jsonChar c
  | .shell, c => if c = '\'' then ['\'', '"', '\'', '"', '\''] else [c]

def Escape.spell (e : Escape) (t : Text) : Text := t.flatMap e.char

/-! ### Files with marks -/

/-- A piece of a file. -/
inductive Piece
  | raw (t : Text)
  | path (e : Escape) (p : Text)

abbrev Marked := List Piece

/-- The text, with another path in the place of each. -/
def Piece.textWith (f : Text → Text) : Piece → Text
  | .raw t => t
  | .path e p => e.spell (f p)

def Marked.textWith (f : Text → Text) (m : Marked) : Text := m.flatMap (Piece.textWith f)

def Marked.text (m : Marked) : Text := m.textWith id

/-- A value under the rules. -/
def under (e : Escape) (v : Value) : Marked :=
  v.map fun part => match part with
    | .text t => .raw (e.spell t)
    | .path p => .path e p

def csvField (v : Value) : Marked :=
  if v.text.any Csv.isSpecial then .raw ['"'] :: (under .csv v ++ [.raw ['"']]) else under .plain v

def csvFields : List Value → Marked
  | [] => [.raw ['\r', '\n']]
  | [v] => csvField v ++ [.raw ['\r', '\n']]
  | v :: w :: vs => csvField v ++ .raw [','] :: csvFields (w :: vs)

/-- A record; a single empty field is quoted. -/
def csvRow (vs : List Value) : Marked :=
  if vs.map Value.text = [[]] then [.raw (Csv.quote [] ++ ['\r', '\n'])] else csvFields vs

/-- `csv_text` of records in the order of the columns. -/
def table (names : List Text) (records : List (List Value)) : Marked :=
  csvRow (names.map literal) ++ records.flatMap csvRow

/-- `json.dumps` of a string. -/
def jsonString (v : Value) : Marked := .raw ['"'] :: (under .json v ++ [.raw ['"']])

/-- `shlex.quote`. -/
def shellWord (v : Value) : Marked :=
  if v.text = [] then [.raw ['\'', '\'']]
  else if v.text.all ShellWords.isSafe then under .plain v
  else .raw ['\''] :: (under .shell v ++ [.raw ['\'']])

/-! ### The files of a workflow -/

/-- A `BuildSpec`. -/
structure Resource where
  root : Value
  recipe : Option Value
  source : Option Value
  artifact : Option Value
  buildPolicy : BuildPolicy

def policyText : BuildPolicy → Text
  | .always => "always".toList
  | .changed => "changed".toList

/-- What `specification` has found out when it makes the files; `existing` is set for the resources of an existing
file. -/
structure Contents where
  pairs : List (List Value)
  configurations : List (List Value)
  patterns : List Value
  axiomPatterns : List Value
  recipes : List (ℕ × Value)
  existing : Bool
  builds : List Resource
  executable : Value
  limiter : Value
  batchSize : ℕ
  maxOutstanding : ℕ
  pairOrder : Text
  host : Text
  partition : Text
  reservation : Text

/-- `str(path) if path else ''`. -/
def orEmpty (v : Option Value) : Value := v.getD []

/-- Two lines of a resource. -/
def buildingLines (build : Resource) : Marked :=
  under .plain build.root ++ .raw ['\n'] :: (under .plain (orEmpty build.recipe) ++ [.raw ['\n']])

/-- A resource of the indented JSON list. -/
def buildingRecord (build : Resource) : Marked :=
  .raw "  \x7b\n    \"root\": ".toList :: jsonString build.root ++
    .raw ",\n    \"source\": ".toList :: jsonString (orEmpty build.source) ++
    .raw ",\n    \"recipe\": ".toList :: jsonString (orEmpty build.recipe) ++
    .raw ",\n    \"artifact\": ".toList :: jsonString (orEmpty build.artifact) ++
    .raw ",\n    \"build_policy\": ".toList :: jsonString (literal (policyText build.buildPolicy)) ++
    [.raw (",\n    \"legacy\": ".toList ++
      (if build.recipe.isSome ∧ ¬ build.artifact.isSome then "true".toList else "false".toList) ++ "\n  \x7d".toList)]

def buildingRecords : List Resource → Marked
  | [] => []
  | [build] => buildingRecord build
  | build :: build' :: builds => buildingRecord build ++ .raw ",\n".toList :: buildingRecords (build' :: builds)

/-- `building_text()`. -/
def buildingText (g : Contents) : Marked :=
  if g.existing ∧ ¬ g.builds.any fun build => build.artifact.isSome || decide (build.buildPolicy ≠ .always) then
    g.builds.flatMap buildingLines
  else if g.builds = [] then [.raw "[]\n".toList]
  else .raw "[\n".toList :: (buildingRecords g.builds ++ [.raw "\n]\n".toList])

/-- `'\n'.join(values) + '\n'`. -/
def lines : List Value → Marked
  | [] => [.raw ['\n']]
  | [v] => under .plain v ++ [.raw ['\n']]
  | v :: w :: vs => under .plain v ++ .raw ['\n'] :: lines (w :: vs)

def makefile (g : Contents) : Text :=
  (if g.axiomPatterns ≠ [] then "AXIOMS := axiom-globs.txt\n".toList else []) ++
    "REPO_ROOT := ../../..\nBATCH_SIZE := ".toList ++ decimal g.batchSize ++
    "\nSLURMY_MAX_OUTSTANDING := ".toList ++ decimal g.maxOutstanding ++
    "\nPAIR_ORDER := ".toList ++ g.pairOrder ++
    "\nSLURMY_HOST := ".toList ++ g.host ++
    "\nSLURMY_PARTITION := ".toList ++ g.partition ++
    "\nSLURMY_RESERVATION := ".toList ++ g.reservation ++
    "\ninclude $(REPO_ROOT)/implementation/templates/workflow.mk\n".toList ++
    if g.configurations ≠ [] then
      ("\n.PHONY: pairs refresh-problems\npairs: jobpairs.csv\n\n" ++
        "jobpairs.csv: configurations.csv problem-globs.txt refresh-problems\n" ++
        "\t\"$(SLURMY_PYTHON)\" \"$(REPO_ROOT)/implementation/slurmy-pairs.py\" --configurations configurations.csv " ++
        "--problem-globs-file problem-globs.txt --order \"$(PAIR_ORDER)\" --output $@\n").toList
    else []

/-- The files, but for the one that keeps the data. -/
def files (g : Contents) : List (FileName × Marked) :=
  [(.jobpairs, table columns g.pairs),
    (.limiterTemplate, shellWord g.executable ++ .raw [' '] :: (under .plain g.limiter ++ [.raw ['\n']]))] ++
    g.recipes.map (fun recipe => (.buildResource recipe.1,
      .raw "#!/usr/bin/env bash\nset -euo pipefail\n".toList :: (under .plain recipe.2 ++ [.raw ['\n']]))) ++
    (if g.axiomPatterns ≠ [] then [(.axiomGlobs, lines g.axiomPatterns)] else []) ++
    [(.building, buildingText g), (.makefile, [.raw (makefile g)])] ++
    if g.configurations ≠ [] then
      [(.configurations, table configurationColumns g.configurations), (.problemGlobs, lines g.patterns)]
    else []

/-! ### The texts of the files -/

variable {m m' : Marked} {f : Text → Text} {e : Escape} {v : Value} {vs : List Value}

theorem textWith_append : Marked.textWith f (m ++ m') = Marked.textWith f m ++ Marked.textWith f m' :=
  List.flatMap_append

theorem text_append : Marked.text (m ++ m') = Marked.text m ++ Marked.text m' := textWith_append

theorem text_raw (t : Text) : Marked.text (.raw t :: m) = t ++ Marked.text m := rfl

theorem text_nil : Marked.text [] = [] := rfl

theorem text_flatMap {β : Type} (h : β → Marked) (l : List β) :
    Marked.text (l.flatMap h) = l.flatMap fun x => Marked.text (h x) :=
  List.flatMap_assoc

theorem text_literal (t : Text) : Value.text (literal t) = t := List.append_nil t

theorem text_under : Marked.text (under e v) = e.spell v.text := by
  induction v with
  | nil => rfl
  | cons part v ih =>
    have hspell : e.spell (Value.text (part :: v)) = e.spell part.plain ++ e.spell (Value.text v) :=
      List.flatMap_append
    cases part with
    | text t =>
      rw [hspell, ← ih]
      rfl
    | path p =>
      rw [hspell, ← ih]
      rfl

theorem spell_plain (t : Text) : Escape.plain.spell t = t := List.flatMap_singleton' t

theorem text_csvField : Marked.text (csvField v) = Csv.field v.text := by
  unfold csvField Csv.field
  split
  · rw [text_raw, text_append, text_under]
    rfl
  · rw [text_under, spell_plain]

theorem text_csvFields : Marked.text (csvFields vs) = Csv.excelFields (vs.map Value.text) := by
  induction vs with
  | nil => rfl
  | cons v vs ih =>
    cases vs with
    | nil =>
      show Marked.text (csvField v ++ _) = Csv.field v.text ++ _
      rw [text_append, text_csvField]
      rfl
    | cons w vs =>
      show Marked.text (csvField v ++ .raw [','] :: csvFields (w :: vs)) =
        Csv.field v.text ++ ',' :: Csv.excelFields ((w :: vs).map Value.text)
      rw [text_append, text_csvField, text_raw, ih]
      rfl

theorem text_csvRow : Marked.text (csvRow vs) = Csv.excelRow (vs.map Value.text) := by
  unfold csvRow Csv.excelRow
  split
  · rw [text_raw, text_nil, List.append_nil]
  · exact text_csvFields

/-- The table is the one that `csv_text` writes of rows with these values. -/
theorem csvText_eq_table {names : List Text} {rows : List Row} {records : List (List Value)} {t : Text}
    (hrecords : records.map (List.map Value.text) = rows.map (Row.record names)) (h : csvText rows names = some t) :
    t = Marked.text (table names records) := by
  unfold csvText at h
  split at h
  case isFalse => cases h
  obtain rfl := Option.some.inj h
  have hnames : (names.map literal).map Value.text = names := by
    rw [List.map_map]
    exact List.map_id'' (fun t => text_literal t) names
  have hrows : records.flatMap (fun vs => Marked.text (csvRow vs)) = (rows.map (Row.record names)).flatMap Csv.excelRow := by
    rw [← hrecords, List.flatMap_map]
    exact congrArg (records.flatMap ·) (funext fun vs => text_csvRow)
  unfold table
  rw [text_append, text_csvRow, hnames, text_flatMap, hrows]
  rfl

theorem text_jsonString : Marked.text (jsonString v) = Build.jsonString v.text := by
  unfold jsonString
  rw [text_raw, text_append, text_under]
  rfl

theorem text_shellWord : Marked.text (shellWord v) = ShellWords.quote v.text := by
  unfold shellWord ShellWords.quote
  split
  · rfl
  · split
    · rw [text_under, spell_plain]
    · rw [text_raw, text_append, text_under]
      rfl

/-! ### The directory in the files -/

/-- The path is the directory or lies below it. -/
def IsBelow (d p : Text) : Prop := p = d ∨ d ++ ['/'] <+: p

instance (d p : Text) : Decidable (IsBelow d p) := by
  unfold IsBelow
  infer_instance

/-- The path, below `d'` instead of `d`. -/
def relocate (d d' p : Text) : Text := if IsBelow d p then d' ++ p.drop d.length else p

/-- The directory stands for itself in a path below it. -/
def Piece.holes (d : Text) : Piece → List (Char ⊕ Escape)
  | .raw t => t.map .inl
  | .path e p =>
      if IsBelow d p then .inr e :: (e.spell (p.drop d.length)).map .inl else (e.spell p).map .inl

def Marked.holes (d : Text) (m : Marked) : List (Char ⊕ Escape) := m.flatMap (Piece.holes d)

variable {d d' p : Text}

theorem IsBelow.start (h : IsBelow d p) : d <+: p :=
  h.elim (fun heq => heq ▸ List.prefix_rfl) fun hchild => (List.prefix_append d ['/']).trans hchild

theorem IsBelow.append_drop (h : IsBelow d p) : d ++ p.drop d.length = p := by
  obtain ⟨rest, rfl⟩ := h.start
  rw [List.drop_left]

theorem spell_append (e : Escape) (t u : Text) : e.spell (t ++ u) = e.spell t ++ e.spell u := List.flatMap_append

theorem Piece.fill_holes (x : Piece) :
    Template.fill (fun e => e.spell d') (x.holes d) = x.textWith (Generated.relocate d d') := by
  cases x with
  | raw t => exact Template.fill_map_inl _ t
  | path e p =>
    show Template.fill _ (if IsBelow d p then _ else _) = e.spell (if IsBelow d p then _ else _)
    by_cases hbelow : IsBelow d p
    · rw [if_pos hbelow, if_pos hbelow, Template.fill_inr, Template.fill_map_inl, spell_append]
    · rw [if_neg hbelow, if_neg hbelow, Template.fill_map_inl]

/-- With another directory, the paths below it are relocated. -/
theorem Marked.fill_holes (d d' : Text) (m : Marked) :
    Template.fill (fun e => e.spell d') (Marked.holes d m) = Marked.textWith (Generated.relocate d d') m := by
  induction m with
  | nil => rfl
  | cons x m ih =>
    show Template.fill _ (x.holes d ++ Marked.holes d m) = x.textWith _ ++ Marked.textWith _ m
    rw [Template.fill_append, x.fill_holes, ih]

theorem relocate_self (d p : Text) : relocate d d p = p := by
  unfold relocate
  split
  · next h => exact h.append_drop
  · rfl

theorem Marked.fill_holes_self (d : Text) (m : Marked) :
    Template.fill (fun e => e.spell d) (Marked.holes d m) = Marked.text m := by
  rw [Marked.fill_holes]
  exact congrArg (Marked.textWith · m) (funext fun p => relocate_self d p)

end Generated
end Workflow
end Slurmy
