import Mathlib.Tactic.TypeStar
import Mathlib.Data.List.Basic

/-!
# Comma-separated values

A writer that quotes every field, and the reader of Python's `csv` module with its default dialect.

* `row`: one record as text, every field in quotes, quotes inside a field doubled;
* `Reader`, `read`: the reader, a machine over characters.  A line ends after `\n`, after `\r` or
  `\r\n`, and at the end of the text; the end of a line ends a record unless a quoted field is open;
* `dictReader`: `csv.DictReader`, which names the fields of every further record by the first one;
* `read_rows`, `dictReader_rows`: what the writer has written is read back.
-/

namespace Csv

abbrev Field := List Char

abbrev Record := List Field

/-! ### The writer -/

/-- The text with its quotes doubled. -/
def escape (t : Field) : List Char := t.flatMap fun c => if c = '"' then ['"', '"'] else [c]

def quote (t : Field) : List Char := '"' :: (escape t ++ ['"'])

/-- A record on a line of its own (or on several, when a field contains newlines). -/
def row : Record → List Char
  | [] => ['\n']
  | [f] => quote f ++ ['\n']
  | f :: g :: fs => quote f ++ ',' :: row (g :: fs)

/-- A record without the newline at its end. -/
def line : Record → List Char
  | [] => []
  | [f] => quote f
  | f :: g :: fs => quote f ++ ',' :: line (g :: fs)

theorem row_eq_line (fs : Record) : row fs = line fs ++ ['\n'] := by
  induction fs with
  | nil => rfl
  | cons f fs ih =>
    cases fs with
    | nil => rfl
    | cons g fs => simp only [row, line, ih, List.append_assoc, List.cons_append]

theorem mem_escape {t : Field} {c : Char} : c ∈ escape t ↔ c ∈ t := by
  simp only [escape, List.mem_flatMap]
  constructor
  · rintro ⟨d, hd, hc⟩
    split at hc
    · next heq => simp_all
    · rwa [List.mem_singleton.1 hc]
  · intro hc
    refine ⟨c, hc, ?_⟩
    split
    · next heq => simp [heq]
    · exact List.mem_singleton_self c

theorem mem_quote {t : Field} {c : Char} (hc : c ≠ '"') : c ∈ quote t ↔ c ∈ t := by
  simp [quote, mem_escape, hc]

/-- The text of a record is on one line if its fields are. -/
theorem newline_not_mem_line {fs : Record} (h : ∀ f ∈ fs, '\n' ∉ f) : '\n' ∉ line fs := by
  have hq : ∀ f ∈ fs, '\n' ∉ quote f := fun f hf => mt (mem_quote (by decide)).1 (h f hf)
  induction fs with
  | nil => exact List.not_mem_nil
  | cons f fs ih =>
    have hf := hq f List.mem_cons_self
    cases fs with
    | nil => exact hf
    | cons g fs =>
      have hrest := ih (fun x hx => h x (List.mem_cons_of_mem f hx))
        fun x hx => hq x (List.mem_cons_of_mem f hx)
      simp only [line, List.mem_append, List.mem_cons, not_or]
      exact ⟨hf, by decide, hrest⟩

/-! ### The reader -/

inductive Mode
  | startRecord
  | startField
  | inField
  | inQuotedField
  | quoteInQuotedField
  | eatNewline
  deriving DecidableEq

/-- The reader between two characters: the field and the fields it has read of the record. -/
structure Reader where
  mode : Mode
  field : Field
  fields : Record

def isNewline (c : Char) : Bool := c = '\n' || c = '\r'

namespace Reader

/-- The reader before a record. -/
def init : Reader := ⟨.startRecord, [], []⟩

def save (r : Reader) (mode : Mode) : Reader := ⟨mode, [], r.fields ++ [r.field]⟩

def add (r : Reader) (c : Char) (mode : Mode) : Reader := ⟨mode, r.field ++ [c], r.fields⟩

/-- The first character of a field. -/
def startField (r : Reader) (c : Char) : Reader :=
  if isNewline c then r.save .eatNewline
  else if c = '"' then { r with mode := .inQuotedField }
  else if c = ',' then r.save .startField
  else r.add c .inField

/-- The next character, `none` when it is an error. -/
def char (r : Reader) (c : Char) : Option Reader :=
  match r.mode with
  | .startRecord => some (if isNewline c then { r with mode := .eatNewline } else r.startField c)
  | .startField => some (r.startField c)
  | .inField => some (
      if isNewline c then r.save .eatNewline
      else if c = ',' then r.save .startField
      else r.add c .inField)
  | .inQuotedField => some (
      if c = '"' then { r with mode := .quoteInQuotedField } else r.add c .inQuotedField)
  | .quoteInQuotedField => some (
      if c = '"' then r.add c .inQuotedField
      else if c = ',' then r.save .startField
      else if isNewline c then r.save .eatNewline
      else r.add c .inField)
  | .eatNewline => if isNewline c then some r else none

/-- The end of a line. -/
def eol (r : Reader) : Reader :=
  match r.mode with
  | .startRecord | .inQuotedField => r
  | .startField | .inField | .quoteInQuotedField => r.save .startRecord
  | .eatNewline => { r with mode := .startRecord }

/-- The record that is left open at the end of the text. -/
def finish (r : Reader) : List Record :=
  if r.field ≠ [] ∨ r.mode = .inQuotedField then [r.fields ++ [r.field]] else []

end Reader

/-- The character `c` before `rest` ends a line. -/
def endsLine (c : Char) (rest : List Char) : Bool :=
  c = '\n' || (c = '\r' && rest.head? ≠ some '\n') || rest.isEmpty

/-- The records in a text, read from the state `r`. -/
def readFrom : Reader → List Char → Option (List Record)
  | r, [] => some r.finish
  | r, c :: rest =>
      match r.char c with
      | none => none
      | some r =>
          if endsLine c rest then
            if r.eol.mode = .startRecord then (readFrom .init rest).map (r.eol.fields :: ·)
            else readFrom r.eol rest
          else readFrom r rest

/-- The records in a text. -/
def read (t : List Char) : Option (List Record) := readFrom .init t

/-! ### Dictionaries -/

/-- A row of a `DictReader`: the fields by name, `none` where the record is too short. -/
abbrev DictRow := List (Field × Option Field)

def dictRow (header record : Record) : DictRow :=
  header.zip (record.map some ++ List.replicate (header.length - record.length) none)

/-- `row[key]`, `none` for an unknown key.  The last field of a name counts. -/
def DictRow.get? (row : DictRow) (key : Field) : Option (Option Field) := row.reverse.lookup key

theorem get?_cons (h : Field) (v : Option Field) (row : DictRow) (key : Field) :
    DictRow.get? ((h, v) :: row) key = (row.get? key).or (if key = h then some v else none) := by
  unfold DictRow.get?
  rw [List.reverse_cons, List.lookup_append]
  congr 1
  by_cases hk : key = h
  · rw [if_pos hk, hk]
    exact List.lookup_cons_self
  · rw [if_neg hk, List.lookup_cons, beq_false_of_ne hk]
    rfl

theorem dictRow_cons (h f : Field) (hs fs : Record) :
    dictRow (h :: hs) (f :: fs) = (h, some f) :: dictRow hs fs := by
  simp [dictRow]

theorem get?_dictRow_of_not_mem {header record : Record} {key : Field} (h : key ∉ header) :
    (dictRow header record).get? key = none := by
  unfold DictRow.get?
  rw [List.lookup_eq_none_iff]
  intro p hp
  have hfst : p.1 ∈ header := (List.of_mem_zip (List.mem_reverse.1 hp)).1
  apply bne_iff_ne.2
  rintro rfl
  exact h hfst

/-- The first field, when its name does not come again. -/
theorem get?_dictRow_self {h f : Field} {hs fs : Record} (hh : h ∉ hs) :
    (dictRow (h :: hs) (f :: fs)).get? h = some (some f) := by
  rw [dictRow_cons, get?_cons, get?_dictRow_of_not_mem hh, if_pos rfl]
  rfl

/-- A field of another name. -/
theorem get?_dictRow_of_ne {h f key : Field} {hs fs : Record} (hk : key ≠ h) :
    (dictRow (h :: hs) (f :: fs)).get? key = (dictRow hs fs).get? key := by
  rw [dictRow_cons, get?_cons, if_neg hk, Option.or_none]

/-- `list(csv.DictReader(…))`, `none` when reading fails. -/
def dictReader (t : List Char) : Option (List DictRow) :=
  (read t).map fun
    | [] => []
    | header :: records => (records.filter (· ≠ [])).map (dictRow header)

/-! ### Reading back -/

section Quoted

variable {f : Field} {fs : Record} {c d : Char} {rest : List Char}

theorem readFrom_inQuotedField (hc : c ≠ '"') :
    readFrom ⟨.inQuotedField, f, fs⟩ (c :: rest) = readFrom ⟨.inQuotedField, f ++ [c], fs⟩ rest := by
  have hchar : Reader.char ⟨.inQuotedField, f, fs⟩ c = some ⟨.inQuotedField, f ++ [c], fs⟩ := by
    show some _ = some _
    rw [if_neg hc]
    rfl
  rw [readFrom, hchar]
  -- the end of a line inside quotes changes nothing
  show (if endsLine c rest then _ else _) = _
  split <;> rfl

theorem endsLine_quote : endsLine '"' (d :: rest) = false := by
  simp [endsLine]

theorem readFrom_closing :
    readFrom ⟨.inQuotedField, f, fs⟩ ('"' :: d :: rest) =
      readFrom ⟨.quoteInQuotedField, f, fs⟩ (d :: rest) := by
  rw [readFrom]
  show (if endsLine '"' (d :: rest) then _ else _) = _
  rw [endsLine_quote]
  rfl

theorem readFrom_doubled :
    readFrom ⟨.quoteInQuotedField, f, fs⟩ ('"' :: d :: rest) =
      readFrom ⟨.inQuotedField, f ++ ['"'], fs⟩ (d :: rest) := by
  rw [readFrom]
  show (if endsLine '"' (d :: rest) then _ else _) = _
  rw [endsLine_quote]
  rfl

theorem readFrom_quoted (t : Field) :
    readFrom ⟨.inQuotedField, f, fs⟩ (escape t ++ '"' :: d :: rest) =
      readFrom ⟨.quoteInQuotedField, f ++ t, fs⟩ (d :: rest) := by
  induction t generalizing f with
  | nil => rw [List.append_nil]; exact readFrom_closing
  | cons c t ih =>
    have happ : f ++ c :: t = f ++ [c] ++ t := by simp
    rw [happ, ← ih]
    by_cases hc : c = '"'
    · subst hc
      show readFrom _ ('"' :: '"' :: (escape t ++ '"' :: d :: rest)) = _
      rw [readFrom_closing]
      cases hrest : escape t ++ '"' :: d :: rest with
      | nil => simp at hrest
      | cons e u => exact readFrom_doubled
    · have hesc : escape (c :: t) = c :: escape t := by simp [escape, hc]
      rw [hesc, List.cons_append, readFrom_inQuotedField hc]

theorem readFrom_comma :
    readFrom ⟨.quoteInQuotedField, f, fs⟩ (',' :: d :: rest) =
      readFrom ⟨.startField, [], fs ++ [f]⟩ (d :: rest) := by
  rw [readFrom]
  show (if endsLine ',' (d :: rest) then _ else _) = _
  have hline : endsLine ',' (d :: rest) = false := by simp [endsLine]
  rw [hline]
  rfl

theorem readFrom_newline :
    readFrom ⟨.quoteInQuotedField, f, fs⟩ ('\n' :: rest) =
      (read rest).map ((fs ++ [f]) :: ·) := by
  rw [readFrom]
  show (if endsLine '\n' rest then _ else _) = _
  have hline : endsLine '\n' rest = true := by simp [endsLine]
  rw [hline]
  rfl

theorem readFrom_opening :
    readFrom ⟨.startField, [], fs⟩ ('"' :: d :: rest) =
      readFrom ⟨.inQuotedField, [], fs⟩ (d :: rest) := by
  rw [readFrom]
  show (if endsLine '"' (d :: rest) then _ else _) = _
  rw [endsLine_quote]
  rfl

theorem read_opening :
    read ('"' :: d :: rest) = readFrom ⟨.inQuotedField, [], []⟩ (d :: rest) := by
  rw [read, readFrom]
  show (if endsLine '"' (d :: rest) then _ else _) = _
  rw [endsLine_quote]
  rfl

end Quoted

theorem row_eq_cons (f : Field) (fs : Record) : ∃ d rest, row (f :: fs) = '"' :: d :: rest := by
  have hesc : ∃ d rest, escape f ++ ['"'] = d :: rest := by
    cases h : escape f ++ ['"'] with
    | nil => simp at h
    | cons d rest => exact ⟨d, rest, rfl⟩
  obtain ⟨d, rest, h⟩ := hesc
  cases fs with
  | nil => exact ⟨d, rest ++ ['\n'], by simp [row, quote, h]⟩
  | cons g fs => exact ⟨d, rest ++ ',' :: row (g :: fs), by simp [row, quote, h]⟩

/-- The fields of a record, from the quote that opens the first of them. -/
theorem readFrom_fields (f : Field) (fs acc : Record) (rest : List Char) :
    readFrom ⟨.startField, [], acc⟩ (row (f :: fs) ++ rest) =
      (read rest).map ((acc ++ f :: fs) :: ·) := by
  induction fs generalizing f acc with
  | nil =>
    have htext : row [f] ++ rest = '"' :: (escape f ++ '"' :: '\n' :: rest) := by simp [row, quote]
    rw [htext]
    cases h : escape f ++ '"' :: '\n' :: rest with
    | nil => simp at h
    | cons d u => rw [readFrom_opening, ← h, readFrom_quoted, List.nil_append, readFrom_newline]
  | cons g fs ih =>
    obtain ⟨d, u, hu⟩ := row_eq_cons g fs
    have htext : row (f :: g :: fs) ++ rest =
        '"' :: (escape f ++ '"' :: ',' :: (row (g :: fs) ++ rest)) := by simp [row, quote]
    rw [htext]
    cases h : escape f ++ '"' :: ',' :: (row (g :: fs) ++ rest) with
    | nil => simp at h
    | cons e v =>
      rw [readFrom_opening, ← h, readFrom_quoted, List.nil_append, hu, List.cons_append,
        readFrom_comma, ← List.cons_append, ← hu, ih]
      simp

/-- A record that starts with a quote is read as from the start of a field. -/
theorem read_row {fs : Record} (hne : fs ≠ []) (rest : List Char) :
    read (row fs ++ rest) = (read rest).map (fs :: ·) := by
  cases fs with
  | nil => exact absurd rfl hne
  | cons f fs =>
    have h := readFrom_fields f fs [] rest
    obtain ⟨d, u, hu⟩ := row_eq_cons f fs
    rw [hu, List.cons_append, List.cons_append, readFrom_opening] at h
    rw [hu, List.cons_append, List.cons_append, read_opening, h]
    rfl

/-- What has been written is read back. -/
theorem read_rows {rows : List Record} (hne : ∀ fs ∈ rows, fs ≠ []) :
    read (rows.flatMap row) = some rows := by
  induction rows with
  | nil => rfl
  | cons fs rows ih =>
    rw [List.flatMap_cons, read_row (hne fs List.mem_cons_self),
      ih fun gs hgs => hne gs (List.mem_cons_of_mem _ hgs)]
    rfl

/-- A written table is read back, its fields named by the header. -/
theorem dictReader_rows {header : Record} {rows : List Record} (hheader : header ≠ [])
    (hne : ∀ fs ∈ rows, fs ≠ []) :
    dictReader (row header ++ rows.flatMap row) = some (rows.map (dictRow header)) := by
  have hfilter : rows.filter (· ≠ []) = rows := by
    rw [List.filter_eq_self]
    intro fs hfs
    exact decide_eq_true (hne fs hfs)
  rw [dictReader, read_row hheader, read_rows hne]
  simp only [Option.map_some, hfilter]

end Csv
