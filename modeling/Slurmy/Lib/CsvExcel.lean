import Slurmy.Lib.Csv

/-!
# Writing comma-separated values as Python does

The writer of Python's `csv` module with its default dialect: a field is quoted where it must be, and a
record ends with `\r\n`.

* `field`, `excelFields`, `excelRow`: a field and a record as text;
* `read_excelRows`: what the writer has written is read back;
* `excelRows_injective`: different tables have different texts.
-/

namespace Csv

/-- The characters that have to be quoted. -/
def isSpecial (c : Char) : Bool := c = ',' || c = '"' || c = '\r' || c = '\n'

/-- A field of a record with several fields. -/
def field (f : Field) : List Char := if f.any isSpecial then quote f else f

/-- Fields, with commas between them. -/
def excelFields : Record → List Char
  | [] => ['\r', '\n']
  | [f] => field f ++ ['\r', '\n']
  | f :: g :: fs => field f ++ ',' :: excelFields (g :: fs)

/-- A record; a single empty field is quoted. -/
def excelRow (fs : Record) : List Char := if fs = [[]] then quote [] ++ ['\r', '\n'] else excelFields fs

/-! ### Unquoted fields -/

section Unquoted

variable {f : Field} {fs : Record} {c d : Char} {rest : List Char}

theorem endsLine_of_not_newline (hc : isNewline c = false) : endsLine c (d :: rest) = false := by
  simp only [isNewline, Bool.or_eq_false_iff, decide_eq_false_iff_not] at hc
  simp [endsLine, hc.1, hc.2]

theorem readFrom_inField (hc : isSpecial c = false) :
    readFrom ⟨.inField, f, fs⟩ (c :: d :: rest) = readFrom ⟨.inField, f ++ [c], fs⟩ (d :: rest) := by
  simp only [isSpecial, Bool.or_eq_false_iff, decide_eq_false_iff_not] at hc
  have hnewline : isNewline c = false := by simp [isNewline, hc.1.2, hc.2]
  have hchar : Reader.char ⟨.inField, f, fs⟩ c = some ⟨.inField, f ++ [c], fs⟩ := by
    show some _ = some _
    rw [hnewline, if_neg Bool.false_ne_true, if_neg hc.1.1.1]
    rfl
  rw [readFrom, hchar]
  simp only [endsLine_of_not_newline hnewline, Bool.false_eq_true, if_false]

theorem readFrom_unquoted {t : Field} (ht : t.any isSpecial = false) :
    readFrom ⟨.inField, f, fs⟩ (t ++ d :: rest) = readFrom ⟨.inField, f ++ t, fs⟩ (d :: rest) := by
  induction t generalizing f with
  | nil => simp
  | cons c t ih =>
    rw [List.any_cons, Bool.or_eq_false_iff] at ht
    have happ : f ++ c :: t = f ++ [c] ++ t := by simp
    rw [happ, ← ih ht.2]
    cases hrest : t ++ d :: rest with
    | nil => simp at hrest
    | cons e u => rw [List.cons_append, hrest, readFrom_inField ht.1]

/-- The first character of an unquoted field. -/
theorem readFrom_first (hc : isSpecial c = false) :
    readFrom ⟨.startField, [], fs⟩ (c :: d :: rest) = readFrom ⟨.inField, [c], fs⟩ (d :: rest) := by
  simp only [isSpecial, Bool.or_eq_false_iff, decide_eq_false_iff_not] at hc
  have hnewline : isNewline c = false := by simp [isNewline, hc.1.2, hc.2]
  have hchar : Reader.char ⟨.startField, [], fs⟩ c = some ⟨.inField, [c], fs⟩ := by
    show some (Reader.startField _ c) = some _
    rw [Reader.startField, hnewline, if_neg Bool.false_ne_true, if_neg hc.1.1.2, if_neg hc.1.1.1]
    rfl
  rw [readFrom, hchar]
  simp only [endsLine_of_not_newline hnewline, Bool.false_eq_true, if_false]

theorem readFrom_comma_of_mode {mode : Mode} (hmode : mode = .startField ∨ mode = .inField) :
    readFrom ⟨mode, f, fs⟩ (',' :: d :: rest) = readFrom ⟨.startField, [], fs ++ [f]⟩ (d :: rest) := by
  have hline : endsLine ',' (d :: rest) = false := by simp [endsLine]
  rcases hmode with rfl | rfl
  · rw [readFrom]
    show (if endsLine ',' (d :: rest) then _ else _) = _
    rw [hline]
    rfl
  · rw [readFrom]
    show (if endsLine ',' (d :: rest) then _ else _) = _
    rw [hline]
    rfl

theorem readFrom_crlf {mode : Mode}
    (hmode : mode = .startField ∨ mode = .inField ∨ mode = .quoteInQuotedField) :
    readFrom ⟨mode, f, fs⟩ ('\r' :: '\n' :: rest) = (read rest).map ((fs ++ [f]) :: ·) := by
  have hline : endsLine '\n' rest = true := by simp [endsLine]
  have hlast : readFrom ⟨.eatNewline, [], fs ++ [f]⟩ ('\n' :: rest) = (read rest).map ((fs ++ [f]) :: ·) := by
    rw [readFrom]
    show (if endsLine '\n' rest then _ else _) = _
    rw [hline]
    rfl
  rcases hmode with rfl | rfl | rfl
  · rw [readFrom]
    exact hlast
  · rw [readFrom]
    exact hlast
  · rw [readFrom]
    exact hlast

end Unquoted

/-! ### Reading back -/

theorem excelFields_ne_nil (fs : Record) : ∃ d rest, excelFields fs = d :: rest := by
  cases h : excelFields fs with
  | nil =>
    match fs with
    | [] => simp [excelFields] at h
    | [_] => simp [excelFields] at h
    | _ :: _ :: _ => simp [excelFields] at h
  | cons d rest => exact ⟨d, rest, rfl⟩

theorem readFrom_quotedField (f : Field) (acc : Record) (d : Char) (rest : List Char) :
    readFrom ⟨.startField, [], acc⟩ (quote f ++ d :: rest) = readFrom ⟨.quoteInQuotedField, f, acc⟩ (d :: rest) := by
  have htext : quote f ++ d :: rest = '"' :: (escape f ++ '"' :: d :: rest) := by simp [quote]
  rw [htext]
  cases h : escape f ++ '"' :: d :: rest with
  | nil => simp at h
  | cons e u => rw [readFrom_opening, ← h, readFrom_quoted, List.nil_append]

/-- A field, up to the character `d` after it. -/
theorem readFrom_field (f : Field) (acc : Record) (d : Char) (rest : List Char)
    {result : Option (List Record)}
    (hquoted : readFrom ⟨.quoteInQuotedField, f, acc⟩ (d :: rest) = result)
    (hunquoted : f ≠ [] → readFrom ⟨.inField, f, acc⟩ (d :: rest) = result)
    (hempty : f = [] → readFrom ⟨.startField, [], acc⟩ (d :: rest) = result) :
    readFrom ⟨.startField, [], acc⟩ (field f ++ d :: rest) = result := by
  unfold field
  split
  · rw [readFrom_quotedField, hquoted]
  · next hspecial =>
    rw [Bool.not_eq_true] at hspecial
    cases f with
    | nil => exact hempty rfl
    | cons c t =>
      rw [List.any_cons, Bool.or_eq_false_iff] at hspecial
      cases h : t ++ d :: rest with
      | nil => simp at h
      | cons e u =>
        rw [List.cons_append, h, readFrom_first hspecial.1, ← h, readFrom_unquoted hspecial.2]
        exact hunquoted (List.cons_ne_nil c t)

theorem readFrom_excelFields (f : Field) (fs acc : Record) (rest : List Char) :
    readFrom ⟨.startField, [], acc⟩ (excelFields (f :: fs) ++ rest) =
      (read rest).map ((acc ++ f :: fs) :: ·) := by
  induction fs generalizing f acc with
  | nil =>
    have htext : excelFields [f] ++ rest = field f ++ '\r' :: '\n' :: rest := by simp [excelFields]
    rw [htext]
    apply readFrom_field
    · exact readFrom_crlf (.inr (.inr rfl))
    · exact fun _ => readFrom_crlf (.inr (.inl rfl))
    · rintro rfl
      exact readFrom_crlf (.inl rfl)
  | cons g fs ih =>
    obtain ⟨d, u, hu⟩ := excelFields_ne_nil (g :: fs)
    have htext : excelFields (f :: g :: fs) ++ rest = field f ++ ',' :: (d :: (u ++ rest)) := by
      simp [excelFields, hu]
    have hrest : readFrom ⟨.startField, [], acc ++ [f]⟩ (d :: (u ++ rest)) =
        (read rest).map ((acc ++ f :: g :: fs) :: ·) := by
      rw [← List.cons_append, ← hu, ih g (acc ++ [f])]
      simp
    rw [htext]
    apply readFrom_field
    · rw [readFrom_comma, hrest]
    · intro _
      rw [readFrom_comma_of_mode (.inr rfl), hrest]
    · rintro rfl
      rw [readFrom_comma_of_mode (.inl rfl), hrest]

/-- The fields of a record do not start with a newline, unless there is only an empty one. -/
theorem excelFields_head {f : Field} {fs : Record} (hne : f :: fs ≠ [[]]) :
    ∃ d rest, excelFields (f :: fs) = d :: rest ∧ isNewline d = false := by
  have hfield : ∀ u : List Char, f ≠ [] → ∃ d rest, field f ++ u = d :: rest ∧ isNewline d = false := by
    intro u hf
    unfold field
    split
    · exact ⟨'"', escape f ++ ['"'] ++ u, by simp [quote], by decide⟩
    · next hspecial =>
      cases f with
      | nil => exact absurd rfl hf
      | cons c t =>
        rw [Bool.not_eq_true, List.any_cons, Bool.or_eq_false_iff] at hspecial
        have hc := hspecial.1
        simp only [isSpecial, Bool.or_eq_false_iff, decide_eq_false_iff_not] at hc
        exact ⟨c, t ++ u, rfl, by simp [isNewline, hc.1.2, hc.2]⟩
  cases fs with
  | nil => exact hfield _ fun hf => hne (by rw [hf])
  | cons g fs =>
    by_cases hf : f = []
    · subst hf
      exact ⟨',', excelFields (g :: fs), rfl, by decide⟩
    · exact hfield _ hf

theorem readFrom_startRecord {c : Char} (hc : isNewline c = false) (rest : List Char) :
    read (c :: rest) = readFrom ⟨.startField, [], []⟩ (c :: rest) := by
  rw [read, readFrom, readFrom]
  have hchar : Reader.char Reader.init c = Reader.char ⟨.startField, [], []⟩ c := by
    show some (if isNewline c then _ else _) = some _
    rw [hc, if_neg Bool.false_ne_true]
    rfl
  rw [hchar]

theorem read_excelRow {fs : Record} (hne : fs ≠ []) (rest : List Char) :
    read (excelRow fs ++ rest) = (read rest).map (fs :: ·) := by
  unfold excelRow
  split
  · next hempty =>
    subst hempty
    have htext : quote [] ++ ['\r', '\n'] ++ rest = '"' :: ('"' :: '\r' :: '\n' :: rest) := rfl
    rw [htext, readFrom_startRecord (by decide)]
    exact (readFrom_quotedField [] [] '\r' ('\n' :: rest)).trans (readFrom_crlf (.inr (.inr rfl)))
  · next hsingle =>
    cases fs with
    | nil => exact absurd rfl hne
    | cons f fs =>
      have h := readFrom_excelFields f fs [] rest
      obtain ⟨d, u, hu, hd⟩ := excelFields_head hsingle
      rw [hu, List.cons_append] at h
      rw [hu, List.cons_append, readFrom_startRecord hd, h]
      rfl

/-- What has been written is read back. -/
theorem read_excelRows {rows : List Record} (hne : ∀ fs ∈ rows, fs ≠ []) :
    read (rows.flatMap excelRow) = some rows := by
  induction rows with
  | nil => rfl
  | cons fs rows ih =>
    rw [List.flatMap_cons, read_excelRow (hne fs List.mem_cons_self),
      ih fun gs hgs => hne gs (List.mem_cons_of_mem _ hgs)]
    rfl

theorem excelRows_injective {rows rows' : List Record} (hne : ∀ fs ∈ rows, fs ≠ [])
    (hne' : ∀ fs ∈ rows', fs ≠ []) (h : rows.flatMap excelRow = rows'.flatMap excelRow) : rows = rows' := by
  have hread := read_excelRows hne
  rw [h, read_excelRows hne'] at hread
  exact (Option.some.inj hread).symm

end Csv
