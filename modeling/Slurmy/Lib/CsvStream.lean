import Slurmy.Lib.Csv

/-!
# Reading comma-separated values line by line

Python's `csv.reader` with its limit on the length of fields.  It reads lines, which end at `\n` only when they come
from `io.StringIO`, and at `\r` as well when they come from a file that is opened with `newline=''`.

* `Reader.charWithin`, `readLines`: the reader;
* `readStream`, `readFile`: the lines of a text in memory, and of a file; `dictReaderFile`;
* `readLines_rows`: what the writer that quotes every field has written is read back when no field is too long;
* `rows_of_readLines`: otherwise nothing is read.
-/

namespace Csv

/-- `csv.field_size_limit()`. -/
def fieldLimit : ℕ := 131072

/-- The next character, `none` when it is an error or the field becomes too long. -/
def Reader.charWithin (limit : ℕ) (r : Reader) (c : Char) : Option Reader :=
  (r.char c).bind fun r' => if r'.field.length ≤ limit then some r' else none

/-- The records in the text, read from the state `r`; `ends` says which characters end a line. -/
def readLines (ends : Char → List Char → Bool) (limit : ℕ) : Reader → List Char → Option (List Record)
  | r, [] => some r.finish
  | r, c :: rest =>
      match r.charWithin limit c with
      | none => none
      | some r =>
          if ends c rest then
            if r.eol.mode = .startRecord then (readLines ends limit .init rest).map (r.eol.fields :: ·)
            else readLines ends limit r.eol rest
          else readLines ends limit r rest

/-- The lines of `io.StringIO`. -/
def endsStreamLine (c : Char) (rest : List Char) : Bool := c = '\n' || rest.isEmpty

/-- The records in a text in memory, read from the state `r`. -/
def readStream (limit : ℕ) : Reader → List Char → Option (List Record) := readLines endsStreamLine limit

/-- The records in a file that is opened with `newline=''`. -/
def readFile (limit : ℕ) (t : List Char) : Option (List Record) := readLines endsLine limit .init t

/-- `list(csv.DictReader(…))` of such a file. -/
def dictReaderFile (limit : ℕ) (t : List Char) : Option (List DictRow) :=
  (readFile limit t).map fun
    | [] => []
    | header :: records => (records.filter (· ≠ [])).map (dictRow header)

/-- Lines end at `\n`, and not behind a quote or a comma. -/
structure EndsRows (ends : Char → List Char → Bool) : Prop where
  newline : ∀ rest, ends '\n' rest = true
  quote : ∀ d rest, ends '"' (d :: rest) = false
  comma : ∀ d rest, ends ',' (d :: rest) = false

theorem endsRows_stream : EndsRows endsStreamLine := ⟨fun _ => rfl, fun _ _ => rfl, fun _ _ => rfl⟩

theorem endsRows_file : EndsRows endsLine := ⟨fun _ => rfl, fun _ _ => rfl, fun _ _ => rfl⟩

variable {ends : Char → List Char → Bool} {limit : ℕ} {f : Field} {fs : Record} {c d : Char} {rest : List Char}

theorem charWithin_of_le {r r' : Reader} (hchar : r.char c = some r') (hle : r'.field.length ≤ limit) :
    r.charWithin limit c = some r' := by
  unfold Reader.charWithin
  rw [hchar, Option.bind_some, if_pos hle]

/-! ### Reading back -/

section Rows

variable (hends : EndsRows ends)

/-- A character in a line. -/
theorem readLines_inside {r r' : Reader} (hchar : r.char c = some r') (hle : r'.field.length ≤ limit)
    (hc : ends c rest = false) : readLines ends limit r (c :: rest) = readLines ends limit r' rest := by
  rw [readLines, charWithin_of_le hchar hle]
  exact if_neg (by rw [hc]; exact Bool.false_ne_true)

/-- A quoted character; the end of a line inside quotes changes nothing. -/
theorem readLines_quoted_char (hc : c ≠ '"') (hle : f.length < limit) :
    readLines ends limit ⟨.inQuotedField, f, fs⟩ (c :: rest) =
      readLines ends limit ⟨.inQuotedField, f ++ [c], fs⟩ rest := by
  have hchar : Reader.char ⟨.inQuotedField, f, fs⟩ c = some ⟨.inQuotedField, f ++ [c], fs⟩ := congrArg some (if_neg hc)
  have hlength : (f ++ [c]).length ≤ limit := by
    rw [List.length_append]
    exact hle
  rw [readLines, charWithin_of_le hchar hlength]
  show (if ends c rest then _ else _) = _
  split <;> rfl

include hends

/-- A field, from behind its opening quote to behind the closing one. -/
theorem readLines_quoted (t : Field) (hle : f.length + t.length ≤ limit) :
    readLines ends limit ⟨.inQuotedField, f, fs⟩ (escape t ++ '"' :: d :: rest) =
      readLines ends limit ⟨.quoteInQuotedField, f ++ t, fs⟩ (d :: rest) := by
  induction t generalizing f with
  | nil =>
    rw [List.append_nil]
    exact readLines_inside rfl hle (hends.quote d rest)
  | cons c t ih =>
    have happ : f ++ c :: t = f ++ [c] ++ t := by simp
    have hlength : f.length < limit := by
      rw [List.length_cons] at hle
      omega
    have hrest : (f ++ [c]).length + t.length ≤ limit := by
      rw [List.length_cons] at hle
      rw [List.length_append, List.length_singleton]
      omega
    rw [happ, ← ih hrest]
    by_cases hc : c = '"'
    · subst hc
      show readLines ends limit _ ('"' :: '"' :: (escape t ++ '"' :: d :: rest)) = _
      have hdoubled : Reader.char ⟨.quoteInQuotedField, f, fs⟩ '"' = some ⟨.inQuotedField, f ++ ['"'], fs⟩ := rfl
      have hle' : (f ++ ['"']).length ≤ limit := by
        rw [List.length_append]
        exact hlength
      have hquote : Reader.char ⟨.inQuotedField, f, fs⟩ '"' = some ⟨.quoteInQuotedField, f, fs⟩ := rfl
      rw [readLines_inside hquote (Nat.le_of_lt hlength) (hends.quote _ _)]
      cases hu : escape t ++ '"' :: d :: rest with
      | nil => exact absurd (List.append_eq_nil_iff.1 hu).2 (List.cons_ne_nil _ _)
      | cons e u => exact readLines_inside hdoubled hle' (hends.quote e u)
    · have hescape : escape (c :: t) = c :: escape t := by simp [escape, hc]
      rw [hescape, List.cons_append, readLines_quoted_char hc hlength]

/-- The end of a record. -/
theorem readLines_newline :
    readLines ends limit ⟨.quoteInQuotedField, f, fs⟩ ('\n' :: rest) =
      (readLines ends limit .init rest).map ((fs ++ [f]) :: ·) := by
  have hchar : Reader.char ⟨.quoteInQuotedField, f, fs⟩ '\n' = some ⟨.eatNewline, [], fs ++ [f]⟩ := rfl
  rw [readLines, charWithin_of_le hchar (Nat.zero_le limit)]
  exact if_pos (hends.newline rest)

/-- The fields of a record, from the quote that opens the first of them. -/
theorem readLines_fields {mode : Mode} (hmode : mode = .startRecord ∨ mode = .startField) (f : Field) (fs acc : Record)
    (rest : List Char) (hle : ∀ g ∈ f :: fs, g.length ≤ limit) :
    readLines ends limit ⟨mode, [], acc⟩ (row (f :: fs) ++ rest) =
      (readLines ends limit .init rest).map ((acc ++ f :: fs) :: ·) := by
  induction fs generalizing f acc mode with
  | nil =>
    have hf : f.length ≤ limit := hle f List.mem_cons_self
    have htext : row [f] ++ rest = '"' :: (escape f ++ '"' :: '\n' :: rest) := by simp [row, quote]
    have hopening : Reader.char ⟨mode, [], acc⟩ '"' = some ⟨.inQuotedField, [], acc⟩ := by
      rcases hmode with rfl | rfl <;> rfl
    have hquoted : readLines ends limit ⟨.inQuotedField, [], acc⟩ (escape f ++ '"' :: '\n' :: rest) =
        readLines ends limit ⟨.quoteInQuotedField, [] ++ f, acc⟩ ('\n' :: rest) :=
      readLines_quoted hends f (by simpa using hf)
    rw [htext]
    cases hu : escape f ++ '"' :: '\n' :: rest with
    | nil => exact absurd (List.append_eq_nil_iff.1 hu).2 (List.cons_ne_nil _ _)
    | cons d u =>
      rw [readLines_inside hopening (Nat.zero_le limit) (hends.quote d u), ← hu, hquoted, List.nil_append,
        readLines_newline hends]
  | cons g fs ih =>
    have hf : f.length ≤ limit := hle f List.mem_cons_self
    have htext : row (f :: g :: fs) ++ rest = '"' :: (escape f ++ '"' :: ',' :: (row (g :: fs) ++ rest)) := by
      simp [row, quote]
    have hopening : Reader.char ⟨mode, [], acc⟩ '"' = some ⟨.inQuotedField, [], acc⟩ := by
      rcases hmode with rfl | rfl <;> rfl
    have hcomma : Reader.char ⟨.quoteInQuotedField, f, acc⟩ ',' = some ⟨.startField, [], acc ++ [f]⟩ := rfl
    have hquoted : readLines ends limit ⟨.inQuotedField, [], acc⟩ (escape f ++ '"' :: ',' :: (row (g :: fs) ++ rest)) =
        readLines ends limit ⟨.quoteInQuotedField, [] ++ f, acc⟩ (',' :: (row (g :: fs) ++ rest)) :=
      readLines_quoted hends f (by simpa using hf)
    have hrest := ih (.inr rfl) g (acc ++ [f]) fun x hx => hle x (List.mem_cons_of_mem f hx)
    obtain ⟨e, v, hv⟩ := row_eq_cons g fs
    rw [htext]
    cases hu : escape f ++ '"' :: ',' :: (row (g :: fs) ++ rest) with
    | nil => exact absurd (List.append_eq_nil_iff.1 hu).2 (List.cons_ne_nil _ _)
    | cons d u =>
      rw [readLines_inside hopening (Nat.zero_le limit) (hends.quote d u), ← hu, hquoted, List.nil_append, hv,
        List.cons_append, readLines_inside hcomma (Nat.zero_le limit) (hends.comma '"' (e :: v ++ rest)), ← List.cons_append,
        ← hv, hrest, List.append_assoc, List.singleton_append]

theorem readLines_row (hne : fs ≠ []) (hle : ∀ g ∈ fs, g.length ≤ limit) (rest : List Char) :
    readLines ends limit .init (row fs ++ rest) = (readLines ends limit .init rest).map (fs :: ·) := by
  cases fs with
  | nil => exact absurd rfl hne
  | cons f fs => exact readLines_fields hends (.inl rfl) f fs [] rest hle

/-- What has been written is read back. -/
theorem readLines_rows {rows : List Record} (hne : ∀ fs ∈ rows, fs ≠ [])
    (hle : ∀ fs ∈ rows, ∀ g ∈ fs, g.length ≤ limit) : readLines ends limit .init (rows.flatMap row) = some rows := by
  induction rows with
  | nil => rfl
  | cons fs rows ih =>
    rw [List.flatMap_cons, readLines_row hends (hne fs List.mem_cons_self) (hle fs List.mem_cons_self),
      ih (fun gs hgs => hne gs (List.mem_cons_of_mem _ hgs)) fun gs hgs => hle gs (List.mem_cons_of_mem _ hgs)]
    rfl

end Rows

theorem readStream_rows {rows : List Record} (hne : ∀ fs ∈ rows, fs ≠ [])
    (hle : ∀ fs ∈ rows, ∀ g ∈ fs, g.length ≤ limit) : readStream limit .init (rows.flatMap row) = some rows :=
  readLines_rows endsRows_stream hne hle

/-! ### Long fields -/

theorem charWithin_some {r r' : Reader} (h : r.charWithin limit c = some r') :
    r.char c = some r' ∧ r'.field.length ≤ limit := by
  obtain ⟨r'', hchar, h⟩ := Option.bind_eq_some_iff.1 h
  obtain ⟨hle, ⟨⟩⟩ := Option.ite_none_right_eq_some.1 h
  exact ⟨hchar, hle⟩

/-- A reader with a larger limit reads the same. -/
theorem readLines_mono {limit' : ℕ} (hlimit : limit ≤ limit') {r : Reader} {t : List Char} {rows : List Record}
    (h : readLines ends limit r t = some rows) : readLines ends limit' r t = some rows := by
  induction t generalizing r rows with
  | nil => exact h
  | cons c t ih =>
    rw [readLines] at h ⊢
    cases hchar : r.charWithin limit c with
    | none =>
      rw [hchar] at h
      cases h
    | some r' =>
      obtain ⟨hchar', hle⟩ := charWithin_some hchar
      rw [hchar] at h
      rw [charWithin_of_le hchar' (Nat.le_trans hle hlimit)]
      dsimp only at h ⊢
      split_ifs at h ⊢
      · obtain ⟨rows', hrows, rfl⟩ := Option.map_eq_some_iff.1 h
        rw [ih hrows, Option.map_some]
      · exact ih h
      · exact ih h

/-- The fields that a reader has read are short. -/
def Reader.Within (limit : ℕ) (r : Reader) : Prop := r.field.length ≤ limit ∧ ∀ f ∈ r.fields, f.length ≤ limit

theorem Reader.Within.save {r : Reader} (h : r.Within limit) (mode : Mode) : (r.save mode).Within limit := by
  refine ⟨Nat.zero_le limit, fun f hf => ?_⟩
  rcases List.mem_append.1 hf with hf | hf
  · exact h.2 f hf
  · rw [List.mem_singleton.1 hf]
    exact h.1

theorem Reader.Within.startField {r : Reader} (h : r.Within limit) (c : Char) (hle : (r.startField c).field.length ≤ limit) :
    (r.startField c).Within limit := by
  unfold Reader.startField at hle ⊢
  split_ifs at hle ⊢
  · exact h.save _
  · exact h
  · exact h.save _
  · exact ⟨hle, h.2⟩

theorem Reader.Within.char {r r' : Reader} (h : r.Within limit) (hchar : r.charWithin limit c = some r') :
    r'.Within limit := by
  obtain ⟨hchar, hle⟩ := charWithin_some hchar
  unfold Reader.char at hchar
  cases hmode : r.mode with
  | startRecord =>
    rw [hmode] at hchar
    obtain rfl := Option.some.inj hchar
    split_ifs at hle ⊢
    · exact h
    · exact h.startField c hle
  | startField =>
    rw [hmode] at hchar
    obtain rfl := Option.some.inj hchar
    exact h.startField c hle
  | inField | inQuotedField | quoteInQuotedField =>
    rw [hmode] at hchar
    obtain rfl := Option.some.inj hchar
    split_ifs at hle ⊢ <;> first | exact h.save _ | exact ⟨hle, h.2⟩
  | eatNewline =>
    rw [hmode] at hchar
    obtain ⟨-, ⟨⟩⟩ := Option.ite_none_right_eq_some.1 hchar
    exact h

theorem Reader.Within.eol {r : Reader} (h : r.Within limit) : r.eol.Within limit := by
  unfold Reader.eol
  split
  · exact h
  · exact h
  · exact h.save _
  · exact h.save _
  · exact h.save _
  · exact h

/-- Only short fields are read. -/
theorem Reader.Within.rows {r : Reader} {t : List Char} {rows : List Record} (h : r.Within limit)
    (hrows : readLines ends limit r t = some rows) : ∀ fs ∈ rows, ∀ f ∈ fs, f.length ≤ limit := by
  induction t generalizing r rows with
  | nil =>
    obtain rfl := Option.some.inj hrows
    unfold Reader.finish
    split_ifs
    · intro fs hfs
      rw [List.mem_singleton.1 hfs]
      exact (h.save .startRecord).2
    · exact fun fs hfs => absurd hfs List.not_mem_nil
  | cons c t ih =>
    rw [readLines] at hrows
    cases hchar : r.charWithin limit c with
    | none =>
      rw [hchar] at hrows
      cases hrows
    | some r' =>
      have h' := h.char hchar
      rw [hchar] at hrows
      dsimp only at hrows
      split_ifs at hrows
      · obtain ⟨rows', hrows', rfl⟩ := Option.map_eq_some_iff.1 hrows
        have hinit : Reader.init.Within limit := ⟨Nat.zero_le limit, fun f hf => absurd hf List.not_mem_nil⟩
        exact List.forall_mem_cons.2 ⟨h'.eol.2, ih hinit hrows'⟩
      · exact ih h'.eol hrows
      · exact ih h' hrows

theorem exists_limit (fs : Record) : ∃ limit, ∀ f ∈ fs, f.length ≤ limit := by
  induction fs with
  | nil => exact ⟨0, fun f hf => absurd hf List.not_mem_nil⟩
  | cons f fs ih =>
    obtain ⟨limit, hlimit⟩ := ih
    exact ⟨max f.length limit, List.forall_mem_cons.2 ⟨Nat.le_max_left _ _, fun g hg =>
      Nat.le_trans (hlimit g hg) (Nat.le_max_right _ _)⟩⟩

/-- What a reader with a limit reads is what one without reads. -/
theorem readFrom_of_readLines {r : Reader} {t : List Char} {rows : List Record}
    (h : readLines endsLine limit r t = some rows) : readFrom r t = some rows := by
  induction t generalizing r rows with
  | nil => exact h
  | cons c t ih =>
    rw [readLines] at h
    rw [readFrom]
    cases hchar : r.charWithin limit c with
    | none =>
      rw [hchar] at h
      cases h
    | some r' =>
      obtain ⟨hchar', -⟩ := charWithin_some hchar
      rw [hchar] at h
      rw [hchar']
      dsimp only at h ⊢
      split_ifs at h ⊢
      · obtain ⟨rows', hrows, rfl⟩ := Option.map_eq_some_iff.1 h
        rw [ih hrows, Option.map_some]
      · exact ih h
      · exact ih h

/-- When something is read of what has been written, it is all of it, and no field is too long. -/
theorem rows_of_readLines (hends : EndsRows ends) {rows rows' : List Record} (hne : ∀ fs ∈ rows, fs ≠ [])
    (h : readLines ends limit .init (rows.flatMap row) = some rows') :
    rows' = rows ∧ ∀ fs ∈ rows, ∀ f ∈ fs, f.length ≤ limit := by
  have hsame : rows' = rows := by
    obtain ⟨limit', hlimit'⟩ := exists_limit rows.flatten
    have hread := readLines_mono (Nat.le_max_left limit limit') h
    rw [readLines_rows hends hne fun fs hfs f hf =>
      Nat.le_trans (hlimit' f (List.mem_flatten.2 ⟨fs, hfs, hf⟩)) (Nat.le_max_right limit limit')] at hread
    exact (Option.some.inj hread).symm
  have hinit : Reader.init.Within limit := ⟨Nat.zero_le limit, fun f hf => absurd hf List.not_mem_nil⟩
  exact ⟨hsame, hsame ▸ hinit.rows h⟩

end Csv
