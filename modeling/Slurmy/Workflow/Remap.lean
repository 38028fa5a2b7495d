import Slurmy.Workflow.Expand
import Slurmy.Workflow.Generated

/-!
# Renaming a workflow while saving it

`rename_and_save` generates the files for the former directory and replaces its path in them and in the data.

* `Form`, `specified`: the data of the form, and what `specification` makes of them for `.slurmy-workflow.json`;
* `Renaming`, `renameAndSave`: the two directories, and what is written;
* `Relocated`: the generated files and data, with exactly the paths at and below the directory relocated;
* `Exactly`: where the directory's path stands;
* `relocated_iff`: exactly then the files are those.
-/

namespace Slurmy
namespace Workflow
namespace Remap

open Generated
open Saving (FileName)

/-! ### The data of the form -/

/-- A JSON value with strings of any kind; `scalar` is a number, a boolean or `null`. -/
inductive Form (β : Type)
  | text (v : β)
  | scalar (t : Text)
  | list (items : List (Form β))
  | dict (entries : List (Text × Form β))

abbrev Dictionary (β : Type) := List (Text × Form β)

mutual

/-- Another string in the place of each. -/
def Form.map {β γ : Type} (f : β → γ) : Form β → Form γ
  | .text v => .text (f v)
  | .scalar t => .scalar t
  | .list items => .list (Form.mapItems f items)
  | .dict entries => .dict (Form.mapEntries f entries)

def Form.mapItems {β γ : Type} (f : β → γ) : List (Form β) → List (Form γ)
  | [] => []
  | item :: items => item.map f :: Form.mapItems f items

def Form.mapEntries {β γ : Type} (f : β → γ) : Dictionary β → Dictionary γ
  | [] => []
  | (key, value) :: entries => (key, value.map f) :: Form.mapEntries f entries

end

mutual

/-- The strings, but for the keys. -/
def Form.texts {β : Type} : Form β → List β
  | .text v => [v]
  | .scalar _ => []
  | .list items => Form.textsOfItems items
  | .dict entries => Form.textsOfEntries entries

def Form.textsOfItems {β : Type} : List (Form β) → List β
  | [] => []
  | item :: items => item.texts ++ Form.textsOfItems items

def Form.textsOfEntries {β : Type} : Dictionary β → List β
  | [] => []
  | (_, value) :: entries => value.texts ++ Form.textsOfEntries entries

end

/-- The items of `data.get('resources', [])`. -/
def iterate : Option (Form Value) → Option (List (Form Value))
  | none => some []
  | some (.list items) => some items
  | some (.dict []) => some []
  | some (.text v) => if v.text = [] then some [] else none
  | some _ => none

def roleKey : Text := "role".toList

def isProver : Form Value → Bool
  | .text v => decide (v.text = "prover".toList)
  | _ => false

/-- `{**entry, 'role': 'solver' if entry.get('role') == 'prover' else entry.get('role')}`. -/
def solverRole : Dictionary Value → Dictionary Value
  | [] => [(roleKey, .scalar "null".toList)]
  | (key, value) :: entries =>
      if key = roleKey then (key, if isProver value then .text (literal "solver".toList) else value) :: entries
      else (key, value) :: solverRole entries

def solverRoles : List (Form Value) → Option (List (Form Value))
  | [] => some []
  | .dict entries :: items => (solverRoles items).map fun rest => .dict (solverRole entries) :: rest
  | _ :: _ => none

/-- `alias(data['reservation'].strip()) if data.get('reservation', '').strip() else ''`. -/
def reservationOf : Option (Form Value) → Option Text
  | none => some []
  | some (.text v) => if Lines.strip v.text = [] ∨ isAlias (Lines.strip v.text) then some (Lines.strip v.text) else none
  | some _ => none

def resourcesKey : Text := "resources".toList

def reservationKey : Text := "reservation".toList

/-- The data that `specification` puts into its file. -/
def specified (data : Dictionary Value) : Option (Dictionary Value) := do
  let items ← iterate (Dict.get data resourcesKey)
  let resources ← solverRoles items
  let reservation ← reservationOf (Dict.get data reservationKey)
  return Dict.put (Dict.put data resourcesKey (.list resources)) reservationKey (.text (literal reservation))

/-! ### The renaming -/

/-- Two workflows of a user; `runs` is the user's directory with a slash behind it. -/
structure Renaming where
  runs : Text
  former : Text
  name : Text
  first : runs.head? = some '/'
  last : runs.getLast? = some '/'
  slash : '/' ∉ former
  isName : Portable.isWorkflowName name = true
  differ : former ≠ name

/-- What is written: the generated files, and the data. -/
structure Outcome where
  files : List (FileName × Text)
  data : Dictionary Text

def previousKey : Text := "_previous_directories".toList

section Definitions

variable (r : Renaming)

def Renaming.source : Text := r.runs ++ r.former

def Renaming.destination : Text := r.runs ++ r.name

/-- `value.replace(str(source), str(destination))`. -/
def Renaming.replace (t : Text) : Text := Replace.replace r.source r.destination t

/-- `[*previous, str(source)]`. -/
def Renaming.formers (previous : List (Form Text)) : Form Text := .list (previous ++ [.text r.source])

/-- `rename_and_save` for a new name, with the directories that the workflow had before. -/
def renameAndSave (g : Contents) (data : Dictionary Value) (previous : List (Form Text)) : Outcome where
  files := (files g).map fun f => (f.1, r.replace (Marked.text f.2))
  data := Dict.put (Dict.mapValues (Form.map fun v => r.replace v.text) data) previousKey (r.formers previous)

/-- The path, at its new place. -/
def Renaming.relocate (p : Text) : Text := Generated.relocate r.source r.destination p

/-- A value with its paths relocated. -/
def Renaming.relocateValue (v : Value) : Text := Marked.textWith r.relocate (under .plain v)

/-- The files that `specification` has produced, and its data, with exactly the paths at and below the former
directory relocated. -/
structure Relocated (g : Contents) (saved : Dictionary Value) (previous : List (Form Text)) (o : Outcome) : Prop where
  files : o.files = (Generated.files g).map fun f => (f.1, Marked.textWith r.relocate f.2)
  data : ∀ key, Dict.get o.data key =
    Dict.get (Dict.put (Dict.mapValues (Form.map r.relocateValue) saved) previousKey (r.formers previous)) key

/-- The former directory's text begins at its paths only. -/
def Renaming.Exact (m : Marked) : Prop :=
  Template.Exact r.source (fun e => e.spell r.source) (Marked.holes r.source m)

/-- A resource with a role that stays. -/
def IsResource (item : Form Value) : Prop :=
  ∃ entries role, item = .dict entries ∧ Dict.get entries roleKey = some role ∧ isProver role = false

/-- In the files the directory is spelled as it is wherever a path at or below it stands, and begins nowhere else;
in the data it begins nowhere else either, and they are as they are saved. -/
structure Exactly (g : Contents) (data : Dictionary Value) : Prop where
  spelled : ∀ f ∈ files g, ∀ e, .inr e ∈ Marked.holes r.source f.2 → e.spell r.source = r.source
  exact : ∀ f ∈ files g, r.Exact f.2
  resources : ∃ items, Dict.get data resourcesKey = some (.list items) ∧ ∀ item ∈ items, IsResource item
  reservation : ∃ v, Dict.get data reservationKey = some (.text v) ∧ Lines.strip (Value.text v) = Value.text v
  values : ∀ key value, key ≠ previousKey → Dict.get data key = some value → ∀ v ∈ value.texts, r.Exact (under .plain v)

end Definitions

/-! ### Spelled names -/

variable {e : Escape} {c : Char} {t u : Text}

theorem slash_not_mem_toDigits (n : ℕ) : '/' ∉ Nat.toDigits 16 n := by
  induction n using Nat.strong_induction_on with
  | _ n ih =>
    have hdigit (d : ℕ) (hd : d < 16) : '/' ≠ Nat.digitChar d := by
      interval_cases d <;> decide
    rw [Nat.toDigits_eq_if (by decide)]
    split
    · next h => exact fun hmem => hdigit n h (List.mem_singleton.mp hmem)
    · next h =>
      intro hmem
      rcases List.mem_append.mp hmem with hmem | hmem
      · exact ih (n / 16) (Nat.div_lt_self (by omega) (by decide)) hmem
      · exact hdigit (n % 16) (Nat.mod_lt n (by decide)) (List.mem_singleton.mp hmem)

theorem slash_not_mem_jsonEscape (n : ℕ) : '/' ∉ Build.jsonEscape n := by
  unfold Build.jsonEscape
  intro hmem
  rcases List.mem_append.mp hmem with hmem | hmem
  · exact absurd hmem (by decide)
  · rcases List.mem_append.mp hmem with hmem | hmem
    · exact absurd (List.eq_of_mem_replicate hmem) (by decide)
    · exact slash_not_mem_toDigits n hmem

/-- What JSON writes for a character is the character, or has a backslash and no slash. -/
theorem jsonChar_cases (c : Char) :
    Build.jsonChar c = [c] ∨ c ≠ '/' ∧ '\\' ∈ Build.jsonChar c ∧ '/' ∉ Build.jsonChar c := by
  have hescape (n : ℕ) : '\\' ∈ Build.jsonEscape n := List.mem_append_left _ (by decide)
  by_cases hc : c = '/'
  · subst hc
    exact .inl (by decide)
  · unfold Build.jsonChar
    split_ifs
    case pos | pos | pos | pos | pos | pos | pos => exact .inr ⟨hc, by decide, by decide⟩
    · exact .inl rfl
    · exact .inr ⟨hc, hescape _, slash_not_mem_jsonEscape _⟩
    · refine .inr ⟨hc, List.mem_append_left _ (hescape _), fun hmem => ?_⟩
      rcases List.mem_append.mp hmem with hmem | hmem
      · exact slash_not_mem_jsonEscape _ hmem
      · exact slash_not_mem_jsonEscape _ hmem

/-- A character is written as it is, or with a quote or a backslash. -/
theorem char_cases (e : Escape) (c : Char) :
    e.char c = [c] ∨ c ≠ '/' ∧ '/' ∉ e.char c ∧ ∃ d ∈ e.char c, d ∈ ['"', '\'', '\\'] := by
  cases e with
  | plain => exact .inl rfl
  | csv =>
    by_cases h : c = '"'
    · subst h
      exact .inr ⟨by decide, by decide, '"', by decide, by decide⟩
    · exact .inl (if_neg h)
  | json =>
    refine (jsonChar_cases c).imp id fun ⟨hne, hback, hslash⟩ => ⟨hne, hslash, '\\', hback, by decide⟩
  | shell =>
    by_cases h : c = '\''
    · subst h
      exact .inr ⟨by decide, by decide, '\'', by decide, by decide⟩
    · exact .inl (if_neg h)

theorem count_char (e : Escape) (c : Char) : (e.char c).count '/' = [c].count '/' := by
  rcases char_cases e c with h | ⟨hne, hslash, -⟩
  · rw [h]
  · have hsingle : '/' ∉ [c] := fun hmem => hne (List.mem_singleton.mp hmem).symm
    rw [List.count_eq_zero_of_not_mem hslash, List.count_eq_zero_of_not_mem hsingle]

theorem spell_cons : e.spell (c :: t) = e.char c ++ e.spell t := rfl

theorem count_spell (e : Escape) (t : Text) : (e.spell t).count '/' = t.count '/' := by
  induction t with
  | nil => rfl
  | cons c t ih =>
    have hcons : c :: t = [c] ++ t := rfl
    rw [spell_cons, List.count_append, count_char, ih, hcons, List.count_append]

theorem char_slash (e : Escape) : e.char '/' = ['/'] :=
  (char_cases e '/').resolve_right fun h => h.1 rfl

/-- A text whose spelling has neither quotes nor backslashes is spelled as it is. -/
theorem eq_of_spell (h : e.spell t = u) (hu : ∀ d ∈ u, d ∉ ['"', '\'', '\\']) : t = u := by
  subst h
  induction t with
  | nil => rfl
  | cons c t ih =>
    rw [spell_cons] at hu ⊢
    have hchar : e.char c = [c] :=
      (char_cases e c).resolve_right fun ⟨_, _, d, hd, hquote⟩ => hu d (List.mem_append_left _ hd) hquote
    rw [hchar, List.singleton_append, ← ih fun d hd => hu d (List.mem_append_right _ hd)]

/-- A character of a name. -/
def isNameChar (c : Char) : Bool := c.isLower || c.isDigit || c == '-'

theorem isNameChar_of_mem (h : Portable.isWorkflowName t = true) (hc : c ∈ t) : isNameChar c = true := by
  unfold Portable.isWorkflowName at h
  rw [Bool.and_eq_true] at h
  exact List.all_eq_true.mp h.2 c hc

theorem range_of_isNameChar (h : isNameChar c = true) : 45 ≤ c.toNat ∧ c.toNat ≤ 122 := by
  have hlower : c.isLower = (decide (97 ≤ c.val) && decide (c.val ≤ 122)) := rfl
  simp only [isNameChar, Bool.or_eq_true, beq_iff_eq, hlower, Char.isDigit, ge_iff_le, Bool.and_eq_true,
    decide_eq_true_eq, UInt32.le_iff_toNat_le] at h
  rcases h with (⟨hmin, hmax⟩ | ⟨hmin, hmax⟩) | rfl
  · exact ⟨le_trans (by decide) hmin, le_trans hmax (by decide)⟩
  · exact ⟨le_trans (by decide) hmin, le_trans hmax (by decide)⟩
  · decide

theorem char_of_isNameChar (h : isNameChar c = true) (e : Escape) : e.char c = [c] := by
  have hne {d : Char} (hd : isNameChar d = false) : c ≠ d := by
    rintro rfl
    rw [hd] at h
    cases h
  obtain ⟨hmin, hmax⟩ := range_of_isNameChar h
  cases e with
  | plain => rfl
  | csv => exact if_neg (hne (by decide))
  | shell => exact if_neg (hne (by decide))
  | json =>
    show Build.jsonChar c = [c]
    unfold Build.jsonChar
    rw [if_neg (hne (by decide)), if_neg (hne (by decide)), if_neg (hne (by decide)), if_neg (hne (by decide)),
      if_neg (hne (by decide)), if_neg (by omega), if_neg (by omega), if_pos (by omega)]

/-- A name is spelled as it is. -/
theorem spell_name (h : Portable.isWorkflowName t = true) : e.spell t = t := by
  have hall (c : Char) (hc : c ∈ t) : e.char c = [c] := char_of_isNameChar (isNameChar_of_mem h hc) e
  clear h
  induction t with
  | nil => rfl
  | cons c t ih =>
    rw [spell_cons, hall c List.mem_cons_self, ih fun d hd => hall d (List.mem_cons_of_mem c hd), List.singleton_append]

theorem not_quote_of_isWorkflowName (h : Portable.isWorkflowName t = true) : ∀ d ∈ t, d ∉ ['"', '\'', '\\'] := by
  intro d hd hquote
  have hname := isNameChar_of_mem h hd
  simp only [List.mem_cons, List.not_mem_nil, or_false] at hquote
  rcases hquote with rfl | rfl | rfl <;> exact absurd hname (by decide)

theorem slash_not_mem_name (h : Portable.isWorkflowName t = true) : '/' ∉ t :=
  fun hmem => absurd (isNameChar_of_mem h hmem) (by decide)

/-- The spellings of the two directories. -/
theorem Renaming.spelling (r : Renaming) :
    Template.Spelling '/' r.runs r.former r.name (fun e : Escape => e.spell r.runs) fun e => e.spell r.former where
  first := r.first
  last := r.last
  former := r.slash
  latter := slash_not_mem_name r.isName
  differ := r.differ
  first_spelled e := by
    obtain ⟨runs, hruns⟩ := List.head?_eq_some_iff.mp r.first
    rw [hruns, spell_cons, char_slash]
    rfl
  last_spelled e := by
    obtain ⟨runs, hruns⟩ := List.getLast?_eq_some_iff.mp r.last
    rw [hruns, spell_append, spell_cons, char_slash]
    exact List.getLast?_concat
  count_spelled e := count_spell e r.runs
  former_spelled e := by
    have hcount := count_spell e r.former
    rw [List.count_eq_zero_of_not_mem r.slash] at hcount
    exact List.count_eq_zero.mp hcount
  differ_spelled e h := r.differ (eq_of_spell h (not_quote_of_isWorkflowName r.isName))

section

variable (r : Renaming) {m : Marked} {v : Value}

/-- A file is right exactly where its paths are spelled as they are, and the directory begins nowhere else. -/
theorem Renaming.replace_text_iff : r.replace (Marked.text m) = Marked.textWith r.relocate m ↔
    (∀ e, .inr e ∈ Marked.holes r.source m → e.spell r.source = r.source) ∧ r.Exact m := by
  have hsource : (fun e : Escape => e.spell r.runs ++ e.spell r.former) = fun e => e.spell r.source :=
    funext fun e => (spell_append e r.runs r.former).symm
  have hdestination : (fun e : Escape => e.spell r.runs ++ r.name) = fun e => e.spell r.destination := by
    funext e
    show _ = e.spell (r.runs ++ r.name)
    rw [spell_append, spell_name r.isName]
  have h := r.spelling.replace_fill_iff (t := Marked.holes r.source m)
  rw [hsource, hdestination, Marked.fill_holes_self, Marked.fill_holes] at h
  refine h.trans (and_congr_left fun _ => forall₂_congr fun e _ => ?_)
  exact (congrArg (· = r.source) (spell_append e r.runs r.former).symm).to_iff

theorem mem_holes_under {e : Escape} (h : .inr e ∈ Marked.holes r.source (under .plain v)) : e = .plain := by
  obtain ⟨x, hx, hmem⟩ := List.mem_flatMap.mp h
  obtain ⟨part, -, rfl⟩ := List.mem_map.mp hx
  cases part with
  | text t =>
    obtain ⟨_, -, heq⟩ := List.mem_map.mp hmem
    cases heq
  | path p =>
    simp only [Piece.holes] at hmem
    split at hmem
    · rcases List.mem_cons.mp hmem with heq | hmem
      · exact Sum.inr.inj heq
      · obtain ⟨_, -, heq⟩ := List.mem_map.mp hmem
        cases heq
    · obtain ⟨_, -, heq⟩ := List.mem_map.mp hmem
      cases heq

/-- A string of the data is right exactly where the directory begins at its paths only. -/
theorem Renaming.replace_value_iff : r.replace v.text = r.relocateValue v ↔ r.Exact (under .plain v) := by
  have h := r.replace_text_iff (m := under .plain v)
  rw [text_under, spell_plain] at h
  refine h.trans (and_iff_right fun e he => ?_)
  rw [mem_holes_under r he, spell_plain]

end

/-! ### Strings in the data -/

section Forms

variable {β γ : Type} {f g : β → γ}

mutual

theorem Form.map_eq_iff : (x : Form β) → (x.map f = x.map g ↔ ∀ v ∈ x.texts, f v = g v)
  | .text v => by simp [Form.map, Form.texts]
  | .scalar t => by simp [Form.map, Form.texts]
  | .list items => by
      have h := Form.mapItems_eq_iff items
      simp only [Form.map, Form.texts, Form.list.injEq]
      exact h
  | .dict entries => by
      have h := Form.mapEntries_eq_iff entries
      simp only [Form.map, Form.texts, Form.dict.injEq]
      exact h

theorem Form.mapItems_eq_iff : (items : List (Form β)) →
    (Form.mapItems f items = Form.mapItems g items ↔ ∀ v ∈ Form.textsOfItems items, f v = g v)
  | [] => by simp [Form.mapItems, Form.textsOfItems]
  | item :: items => by
      have hitem := Form.map_eq_iff item
      have hitems := Form.mapItems_eq_iff items
      simp only [Form.mapItems, Form.textsOfItems, List.cons.injEq, List.forall_mem_append]
      exact and_congr hitem hitems

theorem Form.mapEntries_eq_iff : (entries : Dictionary β) →
    (Form.mapEntries f entries = Form.mapEntries g entries ↔ ∀ v ∈ Form.textsOfEntries entries, f v = g v)
  | [] => by simp [Form.mapEntries, Form.textsOfEntries]
  | (key, value) :: entries => by
      have hvalue := Form.map_eq_iff value
      have hentries := Form.mapEntries_eq_iff entries
      simp only [Form.mapEntries, Form.textsOfEntries, List.cons.injEq, Prod.mk.injEq, true_and, List.forall_mem_append]
      exact and_congr hvalue hentries

end

end Forms

section Data

variable (r : Renaming) {data saved : Dictionary Value} {v : Value} {entries : Dictionary Value}
  {items rest : List (Form Value)}

/-- A text without a slash is left alone. -/
theorem Renaming.replace_of_slash (h : '/' ∉ t) : r.replace t = t := by
  refine Replace.replace_of_absent r.spelling.word_ne_nil fun hinfix => h ?_
  have hmem : '/' ∈ r.source := List.mem_append_left _ (List.mem_of_mem_head? r.first)
  exact hinfix.subset hmem

theorem Renaming.relocateValue_literal (t : Text) : r.relocateValue (literal t) = t := by
  show Escape.plain.spell t ++ [] = t
  rw [spell_plain, List.append_nil]

/-- The role of a resource stays only if it has one, and another one than `prover`. -/
theorem solverRole_iff :
    Form.mapEntries (fun v => r.replace (Value.text v)) entries = Form.mapEntries r.relocateValue (solverRole entries) ↔
      (∃ role, Dict.get entries roleKey = some role ∧ isProver role = false) ∧
        ∀ v ∈ Form.textsOfEntries entries, r.Exact (under .plain v) := by
  induction entries with
  | nil => simp [Form.mapEntries, solverRole, Dict.get]
  | cons entry entries ih =>
    obtain ⟨key, value⟩ := entry
    have hvalue : value.map (fun v => r.replace v.text) = value.map r.relocateValue ↔
        ∀ v ∈ value.texts, r.Exact (under .plain v) :=
      (Form.map_eq_iff value).trans (forall₂_congr fun v _ => r.replace_value_iff)
    have hentries : Form.mapEntries (fun v => r.replace (Value.text v)) entries = Form.mapEntries r.relocateValue entries ↔
        ∀ v ∈ Form.textsOfEntries entries, r.Exact (under .plain v) :=
      (Form.mapEntries_eq_iff entries).trans (forall₂_congr fun v _ => r.replace_value_iff)
    unfold solverRole
    rw [Form.textsOfEntries, List.forall_mem_append, Dict.get_cons]
    by_cases hkey : key = roleKey
    · rw [if_pos hkey, if_pos hkey.symm]
      simp only [Form.mapEntries, List.cons.injEq, Prod.mk.injEq, true_and]
      rw [hentries]
      cases hprover : isProver value with
      | false =>
        rw [if_neg Bool.false_ne_true, hvalue]
        exact (and_iff_right ⟨value, rfl, hprover⟩).symm
      | true =>
        refine iff_of_false ?_ ?_
        · -- the role is replaced by another one
          rintro ⟨hmap, -⟩
          cases value with
          | text v =>
            have htext : v.text = "prover".toList := of_decide_eq_true hprover
            rw [if_pos rfl, Form.map, Form.map, htext, r.replace_of_slash (by decide +kernel),
              r.relocateValue_literal] at hmap
            exact absurd (Form.text.inj hmap) (by decide +kernel)
          | _ => cases hprover
        · rintro ⟨⟨role, hrole, hnot⟩, -⟩
          obtain rfl := Option.some.inj hrole
          rw [hprover] at hnot
          cases hnot
    · rw [if_neg hkey, if_neg (Ne.symm hkey)]
      simp only [Form.mapEntries, List.cons.injEq, Prod.mk.injEq, true_and]
      rw [hvalue, ih]
      tauto

theorem solverRoles_iff (h : solverRoles items = some rest) :
    Form.mapItems (fun v => r.replace (Value.text v)) items = Form.mapItems r.relocateValue rest ↔
      (∀ item ∈ items, IsResource item) ∧ ∀ v ∈ Form.textsOfItems items, r.Exact (under .plain v) := by
  induction items generalizing rest with
  | nil =>
    obtain rfl := Option.some.inj h
    simp [Form.mapItems, Form.textsOfItems]
  | cons item items ih =>
    cases item with
    | dict entries =>
      obtain ⟨rest, hrest, rfl⟩ := Option.map_eq_some_iff.mp h
      have hone : IsResource (.dict entries) ↔
          ∃ role, Dict.get entries roleKey = some role ∧ isProver role = false := by
        constructor
        · rintro ⟨_, role, heq, hrole⟩
          obtain rfl := Form.dict.inj heq
          exact ⟨role, hrole⟩
        · rintro ⟨role, hrole⟩
          exact ⟨entries, role, rfl, hrole⟩
      rw [Form.mapItems, Form.mapItems, Form.textsOfItems, List.forall_mem_cons, List.forall_mem_append, hone,
        List.cons.injEq, ih hrest, Form.map, Form.map, Form.dict.injEq, solverRole_iff r, Form.texts]
      tauto
    | _ => cases h

/-- The resources stay only if all of them have a role that stays. -/
theorem resources_iff (hitems : iterate (Dict.get data resourcesKey) = some items) (h : solverRoles items = some rest) :
    (Dict.get data resourcesKey).map (Form.map fun v => r.replace (Value.text v)) =
        some ((Form.list rest).map r.relocateValue) ↔
      (∃ items, Dict.get data resourcesKey = some (.list items) ∧ ∀ item ∈ items, IsResource item) ∧
        ∀ value, Dict.get data resourcesKey = some value → ∀ v ∈ value.texts, r.Exact (under .plain v) := by
  cases hvalue : Dict.get data resourcesKey with
  | none => simp
  | some value =>
    cases value with
    | list items' =>
      rw [hvalue] at hitems
      obtain rfl := Option.some.inj hitems
      have hiff := solverRoles_iff r h
      simp only [Option.map_some, Option.some.injEq, Form.map, Form.list.injEq, exists_eq_left', forall_eq', Form.texts]
      exact hiff
    | text v => simp [Form.map]
    | scalar t => simp [Form.map]
    | dict entries => simp [Form.map]

theorem slash_not_mem_reservation (h : Lines.strip t = [] ∨ isAlias (Lines.strip t) = true) : '/' ∉ t := by
  intro hmem
  have hstrip := Lines.mem_strip hmem (by decide)
  rcases h with hnil | halias
  · rw [hnil] at hstrip
    cases hstrip
  · unfold isAlias at halias
    rw [Bool.and_eq_true] at halias
    exact absurd (List.all_eq_true.mp halias.2 '/' hstrip) (by decide)

/-- In a text without a slash, the directory begins nowhere. -/
theorem Renaming.exact_of_slash (h : '/' ∉ v.text) : r.Exact (under .plain v) := by
  intro c s hs hstart
  obtain ⟨before, hbefore⟩ := hs
  have hfill := Marked.fill_holes_self r.source (under .plain v)
  rw [text_under, spell_plain, ← hbefore, Template.fill_append] at hfill
  have hmem : '/' ∈ r.source := List.mem_append_left _ (List.mem_of_mem_head? r.first)
  exact h (hfill ▸ List.mem_append_right _ (hstart.subset hmem))

/-- The reservation stays only if there is one, without blanks around it. -/
theorem reservation_iff {reservation : Text} (h : reservationOf (Dict.get data reservationKey) = some reservation) :
    (Dict.get data reservationKey).map (Form.map fun v => r.replace (Value.text v)) =
        some ((Form.text (literal reservation)).map r.relocateValue) ↔
      (∃ v, Dict.get data reservationKey = some (.text v) ∧ Lines.strip (Value.text v) = Value.text v) ∧
        ∀ value, Dict.get data reservationKey = some value → ∀ v ∈ value.texts, r.Exact (under .plain v) := by
  cases hvalue : Dict.get data reservationKey with
  | none => simp
  | some value =>
    cases value with
    | text v =>
      rw [hvalue] at h
      simp only [reservationOf] at h
      split at h
      case isFalse => cases h
      next hcases =>
      obtain rfl := Option.some.inj h
      have hslash := slash_not_mem_reservation hcases
      have hexact := r.exact_of_slash hslash
      simp only [Option.map_some, Option.some.injEq, Form.map, Form.text.injEq, exists_eq_left', forall_eq', Form.texts,
        List.mem_singleton, forall_eq]
      rw [r.replace_of_slash hslash, r.relocateValue_literal, and_iff_left hexact]
      exact eq_comm
    | scalar t => simp [Form.map]
    | list items => simp [Form.map]
    | dict entries => simp [Form.map]

/-! ### Where the renaming is right -/

theorem get_specified (key : Text) (h : specified data = some saved) :
    ∃ items rest reservation, iterate (Dict.get data resourcesKey) = some items ∧ solverRoles items = some rest ∧
      reservationOf (Dict.get data reservationKey) = some reservation ∧
      Dict.get saved key = if key = reservationKey then some (.text (literal reservation))
        else if key = resourcesKey then some (.list rest) else Dict.get data key := by
  unfold specified at h
  obtain ⟨items, hitems, h⟩ := Option.bind_eq_some_iff.mp h
  obtain ⟨rest, hrest, h⟩ := Option.bind_eq_some_iff.mp h
  obtain ⟨reservation, hreservation, h⟩ := Option.bind_eq_some_iff.mp h
  obtain rfl := Option.some.inj h
  exact ⟨items, rest, reservation, hitems, hrest, hreservation, by rw [Dict.get_put, Dict.get_put]⟩

/-- One entry of the data. -/
theorem entry_iff {key : Text} (h : specified data = some saved) :
    (Dict.get data key).map (Form.map fun v => r.replace (Value.text v)) = (Dict.get saved key).map (Form.map r.relocateValue) ↔
      (key = resourcesKey → ∃ items, Dict.get data resourcesKey = some (.list items) ∧ ∀ item ∈ items, IsResource item) ∧
        (key = reservationKey →
          ∃ v, Dict.get data reservationKey = some (.text v) ∧ Lines.strip (Value.text v) = Value.text v) ∧
        ∀ value, Dict.get data key = some value → ∀ v ∈ value.texts, r.Exact (under .plain v) := by
  obtain ⟨items, rest, reservation, hitems, hrest, hreservation, hsaved⟩ := get_specified key h
  have hdiffer : resourcesKey ≠ reservationKey := by decide +kernel
  rw [hsaved]
  by_cases hres : key = reservationKey
  · subst hres
    rw [if_pos rfl, Option.map_some, reservation_iff r hreservation]
    exact ⟨fun ⟨hv, hexact⟩ => ⟨fun heq => absurd heq.symm hdiffer, fun _ => hv, hexact⟩,
      fun ⟨_, hv, hexact⟩ => ⟨hv rfl, hexact⟩⟩
  · rw [if_neg hres]
    by_cases hkey : key = resourcesKey
    · subst hkey
      rw [if_pos rfl, Option.map_some, resources_iff r hitems hrest]
      exact ⟨fun ⟨hv, hexact⟩ => ⟨fun _ => hv, fun heq => absurd heq hres, hexact⟩,
        fun ⟨hv, _, hexact⟩ => ⟨hv rfl, hexact⟩⟩
    · rw [if_neg hkey]
      have hvalues : (Dict.get data key).map (Form.map fun v => r.replace (Value.text v)) =
          (Dict.get data key).map (Form.map r.relocateValue) ↔
            ∀ value, Dict.get data key = some value → ∀ v ∈ value.texts, r.Exact (under .plain v) := by
        cases Dict.get data key with
        | none => simp
        | some value =>
          rw [Option.map_some, Option.map_some, Option.some.injEq, Form.map_eq_iff]
          simp only [Option.some.injEq, forall_eq']
          exact forall₂_congr fun v _ => r.replace_value_iff
      rw [hvalues]
      exact ⟨fun hexact => ⟨fun heq => absurd heq hkey, fun heq => absurd heq hres, hexact⟩, fun hall => hall.2.2⟩

/-- Exactly the paths at and below the former directory are relocated if and only if the directory's text begins
nowhere else, is spelled as it is at them, and the data are as they are saved. -/
theorem relocated_iff (g : Contents) (previous : List (Form Text)) (h : specified data = some saved) :
    Relocated r g saved previous (renameAndSave r g data previous) ↔ Exactly r g data := by
  have hfiles : (renameAndSave r g data previous).files =
      ((Generated.files g).map fun f => (f.1, Marked.textWith r.relocate f.2)) ↔
        ∀ f ∈ files g, (∀ e, .inr e ∈ Marked.holes r.source f.2 → e.spell r.source = r.source) ∧ r.Exact f.2 := by
    refine List.map_inj_left.trans (forall₂_congr fun f _ => ?_)
    rw [Prod.mk.injEq, and_iff_right rfl, r.replace_text_iff]
  have hdata : (∀ key, Dict.get (renameAndSave r g data previous).data key =
      Dict.get (Dict.put (Dict.mapValues (Form.map r.relocateValue) saved) previousKey (r.formers previous)) key) ↔
        ∀ key, key ≠ previousKey → (Dict.get data key).map (Form.map fun v => r.replace (Value.text v)) =
          (Dict.get saved key).map (Form.map r.relocateValue) := by
    refine forall_congr' fun key => ?_
    unfold renameAndSave
    rw [Dict.get_put, Dict.get_put]
    by_cases hkey : key = previousKey
    · rw [if_pos hkey, if_pos hkey]
      exact iff_of_true rfl fun hne => absurd hkey hne
    · rw [if_neg hkey, if_neg hkey]
      unfold Dict.get
      rw [Dict.lookup_mapValues, Dict.lookup_mapValues]
      exact ⟨fun heq _ => heq, fun himp => himp hkey⟩
  constructor
  · intro hrelocated
    have hall := hdata.mp hrelocated.data
    have hkeys := fun key hkey => (entry_iff r h).mp (hall key hkey)
    exact {
      spelled := fun f hf => (hfiles.mp hrelocated.files f hf).1
      exact := fun f hf => (hfiles.mp hrelocated.files f hf).2
      resources := (hkeys resourcesKey (by decide +kernel)).1 rfl
      reservation := (hkeys reservationKey (by decide +kernel)).2.1 rfl
      values := fun key value hkey => (hkeys key hkey).2.2 value }
  · intro hexactly
    refine ⟨hfiles.mpr fun f hf => ⟨hexactly.spelled f hf, hexactly.exact f hf⟩, hdata.mpr fun key hkey => ?_⟩
    exact (entry_iff r h).mpr ⟨fun _ => hexactly.resources, fun _ => hexactly.reservation,
      fun value => hexactly.values key value hkey⟩

end Data

/-- `/r/w` becomes `/r/new`. -/
def sampleRenaming : Renaming where
  runs := "/r/".toList
  former := "w".toList
  name := "new".toList
  first := by decide +kernel
  last := by decide +kernel
  slash := by decide +kernel
  isName := by decide +kernel
  differ := by decide +kernel

/-- One pair, with a problem at this path. -/
def sampleGenerated (problem : Text) : Contents where
  pairs := [[literal "s".toList, literal "./run".toList, [.path "/r/w".toList], [.path problem], literal "10".toList,
    literal "10".toList, literal "1GB".toList, literal "1".toList, literal "1".toList, literal "1".toList,
    literal "false".toList, literal "false".toList]]
  configurations := []
  patterns := []
  axiomPatterns := []
  recipes := []
  existing := true
  builds := []
  executable := [.path "/bin/limit".toList]
  limiter := literal "$1".toList
  batchSize := 1
  maxOutstanding := 32
  pairOrder := "solver-major".toList
  host := "h".toList
  partition := "p".toList
  reservation := []

def sampleData : Dictionary Value := [(resourcesKey, .list []), (reservationKey, .text (literal []))]

theorem specified_sampleData : specified sampleData = some sampleData := by
  have hresources : Dict.get sampleData resourcesKey = some (.list []) := by
    unfold sampleData
    rw [Dict.get_cons, if_pos rfl]
  have hreservation : Dict.get sampleData reservationKey = some (.text (literal [])) := by
    unfold sampleData
    rw [Dict.get_cons, if_neg (by decide +kernel), Dict.get_cons, if_pos rfl]
  unfold specified
  rw [hresources, hreservation]
  rfl

theorem relocated_iff_sample : specified sampleData = some sampleData ∧
    (Relocated sampleRenaming (sampleGenerated "/r/w/p.p".toList) sampleData []
        (renameAndSave sampleRenaming (sampleGenerated "/r/w/p.p".toList) sampleData []) ↔
      Exactly sampleRenaming (sampleGenerated "/r/w/p.p".toList) sampleData) :=
  ⟨specified_sampleData, relocated_iff sampleRenaming (sampleGenerated "/r/w/p.p".toList) [] specified_sampleData⟩

/-- A problem of the workflow `w2` is looked for in a workflow `new2`. -/
theorem sibling_relocated :
    ¬ Relocated sampleRenaming (sampleGenerated "/r/w2/p.p".toList) sampleData []
      (renameAndSave sampleRenaming (sampleGenerated "/r/w2/p.p".toList) sampleData []) :=
  fun h => absurd h.files (by decide +kernel)

end Remap
end Workflow
end Slurmy
