import Mathlib.Tactic
import Mathlib.Data.Char
import Mathlib.Data.List.Lex
import Mathlib.Data.List.Infix
import Mathlib.Data.List.TakeWhile
import Mathlib.Data.List.DropRight
import Slurmy.Lib.Csv

/-!
# Texts

Command output, file contents and names are lists of characters, in the order Python and the shell
compare them (by code point).

* `isDigits`: Python's `str.isdigit` and the shell's `^[0-9]+$`, on ASCII text;
* `isJobId`: the pattern `[A-Za-z0-9._-]+` of Slurmy job IDs;
* `decimal`, `padded`: a number as `%d` and `%06d` print it; `toInt`: Python's `int`;
* `csvRow`: the shell function of `csv.sh`, one write per field and one for the newline.
-/

namespace Slurmy

abbrev Text := List Char

instance Text.lawfulBEq : LawfulBEq Text := inferInstanceAs (LawfulBEq (List Char))

/-- At least one character, all of them decimal digits. -/
def isDigits (t : Text) : Bool := !t.isEmpty && t.all Char.isDigit

/-- `JOB_ID.fullmatch`. -/
def isJobId (t : Text) : Bool :=
  !t.isEmpty && t.all fun c => c.isAlphanum || c == '.' || c == '_' || c == '-'

/-- `%d`. -/
def decimal (n : ℕ) : Text := Nat.toDigits 10 n

/-- `int(t)` of a text of decimal digits. -/
def number (t : Text) : ℕ := t.foldl (fun n c => 10 * n + (c.toNat - '0'.toNat)) 0

/-- `t.strip()`. -/
def strip (t : Text) : Text := (t.dropWhile Char.isWhitespace).rdropWhile Char.isWhitespace

/-- `t.replace("\n", " ")`. -/
def oneLine (t : Text) : Text := t.map fun c => if c = '\n' then ' ' else c

/-- The part of a text before its first `c` (all of it when there is none): `${t%%c*}`. -/
def before (c : Char) (t : Text) : Text := t.takeWhile (· != c)

/-- The part of a text after its first `c` (empty when there is none). -/
def after (c : Char) (t : Text) : Text := (t.dropWhile (· != c)).tail

/-- `int(t)`: blanks around the number, a sign and single underscores between digits are allowed. -/
def toInt (t : Text) : Option ℤ :=
  let unsigned (d : Text) : Option ℤ :=
    if (d.splitOn '_').all isDigits then some (number (d.filter (· ≠ '_'))) else none
  match strip t with
  | '-' :: d => (unsigned d).map (- ·)
  | '+' :: d => unsigned d
  | d => unsigned d

/-- `%0wd`. -/
def padded (w n : ℕ) : Text := (decimal n).leftpad w '0'

theorem before_append {c : Char} {t : Text} (h : c ∉ t) (r : Text) : before c (t ++ c :: r) = t := by
  induction t with
  | nil => simp [before]
  | cons a t ih =>
    simp only [List.mem_cons, not_or] at h
    have hrest := ih h.2
    simp only [before] at hrest ⊢
    simp [Ne.symm h.1, hrest]

theorem after_append {c : Char} {t : Text} (h : c ∉ t) (r : Text) : after c (t ++ c :: r) = r := by
  induction t with
  | nil => simp [after]
  | cons a t ih =>
    simp only [List.mem_cons, not_or] at h
    have hrest := ih h.2
    simp only [after] at hrest ⊢
    simp [Ne.symm h.1, hrest]

theorem strip_ne_nil {t : Text} {c : Char} (hc : c ∈ t) (hw : c.isWhitespace = false) :
    strip t ≠ [] := by
  have hd : t.dropWhile Char.isWhitespace ≠ [] := fun h => by
    rw [List.dropWhile_eq_nil_iff.1 h c hc] at hw
    cases hw
  -- the first character that is left is not blank, so the cut at the end leaves it
  intro h
  have hblank := List.rdropWhile_eq_nil_iff.1 h _ (List.head_mem hd)
  have hhead := List.head_dropWhile_not Char.isWhitespace hd
  rw [hblank] at hhead
  cases hhead

theorem not_mem_of_isDigits {t : Text} (h : isDigits t = true) {c : Char} (hc : c.isDigit = false) :
    c ∉ t := by
  simp only [isDigits, Bool.and_eq_true, List.all_eq_true] at h
  intro hm
  rw [h.2 c hm] at hc
  cases hc

/-! ### Numbers -/

theorem number_decimal (n : ℕ) : number (decimal n) = n := Nat.ofDigitChars_ten_toDigits

theorem isDigit_of_mem_decimal {n : ℕ} {c : Char} (h : c ∈ decimal n) : c.isDigit = true :=
  Nat.isDigit_of_mem_toDigits (by omega) (by omega) h

theorem isDigits_decimal (n : ℕ) : isDigits (decimal n) = true := by
  have hne : decimal n ≠ [] := Nat.toDigits_ne_nil
  simp only [isDigits, Bool.and_eq_true, List.all_eq_true]
  exact ⟨by simpa using hne, fun c hc => isDigit_of_mem_decimal hc⟩

theorem decimal_injective {m n : ℕ} (h : decimal m = decimal n) : m = n := by
  rw [← number_decimal m, h, number_decimal]

theorem isWhitespace_of_isDigit {c : Char} (h : c.isDigit = true) : c.isWhitespace = false := by
  by_contra hc
  simp only [Char.isWhitespace, Bool.not_eq_false, Bool.or_eq_true, decide_eq_true_eq] at hc
  rcases hc with ((rfl | rfl) | rfl) | rfl <;> cases h

theorem strip_of_isDigits {t : Text} (h : isDigits t = true) : strip t = t := by
  simp only [isDigits, Bool.and_eq_true, List.all_eq_true] at h
  have hblank : ∀ c ∈ t, ¬ c.isWhitespace = true := fun c hc => by
    rw [isWhitespace_of_isDigit (h.2 c hc)]
    exact Bool.false_ne_true
  have hleft : t.dropWhile Char.isWhitespace = t := by
    cases t with
    | nil => rfl
    | cons c t => exact List.dropWhile_cons_of_neg (hblank c List.mem_cons_self)
  rw [strip, hleft, List.rdropWhile_eq_self_iff]
  exact fun hl => hblank _ (List.getLast_mem hl)

theorem toInt_of_isDigits {t : Text} (h : isDigits t = true) : toInt t = some (number t : ℤ) := by
  have hall := h
  simp only [isDigits, Bool.and_eq_true, List.all_eq_true] at hall
  have hscore : ∀ c ∈ t, ¬ (c == '_') = true := fun c hc hu => by
    rw [beq_iff_eq] at hu
    rw [hu] at hc
    exact not_mem_of_isDigits h rfl hc
  have hsplit : t.splitOn '_' = [t] := List.splitOnP_eq_singleton fun c hc => by
    simpa using hscore c hc
  have hfilter : t.filter (· ≠ '_') = t := List.filter_eq_self.2 fun c hc => by
    simpa using hscore c hc
  have hunsigned : (if (t.splitOn '_').all isDigits then some (number (t.filter (· ≠ '_')) : ℤ)
      else none) = some (number t : ℤ) := by
    rw [hsplit, hfilter]
    exact if_pos (by simpa using h)
  unfold toInt
  rw [strip_of_isDigits h]
  cases t with
  | nil => cases h
  | cons c t =>
    have hc := hall.2 c List.mem_cons_self
    split
    · next heq => cases heq; cases hc
    · next heq => cases heq; cases hc
    · exact hunsigned

theorem toInt_decimal (n : ℕ) : toInt (decimal n) = some (n : ℤ) := by
  rw [toInt_of_isDigits (isDigits_decimal n), number_decimal]

theorem number_padded (w n : ℕ) : number (padded w n) = n := by
  show Nat.ofDigitChars 10 (List.replicate (w - (decimal n).length) '0' ++ decimal n) 0 = n
  rw [Nat.ofDigitChars_append, Nat.ofDigitChars_replicate_zero, Nat.mul_zero]
  exact number_decimal n

theorem length_padded {w n : ℕ} (h : n < 10 ^ (w + 1)) : (padded (w + 1) n).length = w + 1 := by
  have hlen : (decimal n).length ≤ w + 1 := (Nat.length_toDigits_le_iff (by omega) (by omega)).2 h
  rw [padded, List.leftpad, List.length_append, List.length_replicate]
  omega

theorem isDigit_of_mem_padded {w n : ℕ} {c : Char} (h : c ∈ padded w n) : c.isDigit = true := by
  rcases List.mem_append.1 h with hc | hc
  · rw [(List.mem_replicate.1 hc).2]
    rfl
  · exact isDigit_of_mem_decimal hc

theorem number_cons (c : Char) (t : Text) :
    number (c :: t) = 10 ^ t.length * (c.toNat - '0'.toNat) + number t := by
  show Nat.ofDigitChars 10 t (10 * 0 + (c.toNat - '0'.toNat)) = _
  rw [Nat.ofDigitChars_eq_ofDigitChars_zero, Nat.mul_zero, Nat.zero_add]
  rfl

theorem number_lt {t : Text} (h : ∀ c ∈ t, c.isDigit = true) : number t < 10 ^ t.length := by
  induction t with
  | nil => exact Nat.one_pos
  | cons c t ih =>
    have hc : c.toNat - '0'.toNat ≤ 9 := by
      have hd := h c List.mem_cons_self
      simp only [Char.isDigit, Bool.and_eq_true, decide_eq_true_eq] at hd
      have hle : c.toNat ≤ '9'.toNat := hd.2
      have h9 : '9'.toNat - '0'.toNat = 9 := rfl
      omega
    have ht := ih fun d hd => h d (List.mem_cons_of_mem c hd)
    have hmul := Nat.mul_le_mul_left (10 ^ t.length) hc
    rw [number_cons, List.length_cons, pow_succ]
    omega

/-- Texts of equally many digits are ordered as the numbers they denote. -/
theorem lt_of_number_lt {s t : Text} (hs : ∀ c ∈ s, c.isDigit = true)
    (ht : ∀ c ∈ t, c.isDigit = true) (hlen : s.length = t.length) (h : number s < number t) :
    s < t := by
  induction s generalizing t with
  | nil => cases t with
    | nil => exact absurd h (lt_irrefl _)
    | cons d t => cases hlen
  | cons c s ih => cases t with
    | nil => cases hlen
    | cons d t =>
      have hlen' : s.length = t.length := Nat.succ.inj hlen
      have hs' : ∀ e ∈ s, e.isDigit = true := fun e he => hs e (List.mem_cons_of_mem c he)
      have ht' : ∀ e ∈ t, e.isDigit = true := fun e he => ht e (List.mem_cons_of_mem d he)
      rw [number_cons, number_cons, hlen'] at h
      rcases lt_trichotomy c d with hcd | rfl | hcd
      · exact List.cons_lt_cons_iff.2 (.inl hcd)
      · exact List.cons_lt_cons_iff.2 (.inr ⟨rfl, ih hs' ht' hlen' (by omega)⟩)
      · -- a larger first digit outweighs all digits that follow
        exfalso
        have hd : '0'.toNat ≤ d.toNat := by
          have := ht d List.mem_cons_self
          simp only [Char.isDigit, Bool.and_eq_true, decide_eq_true_eq] at this
          exact this.1
        have hlt : d.toNat < c.toNat := hcd
        have hstep : d.toNat - '0'.toNat + 1 ≤ c.toNat - '0'.toNat := by omega
        have hmul := Nat.mul_le_mul_left (10 ^ t.length) hstep
        have hbound := number_lt ht'
        rw [Nat.mul_add] at hmul
        omega

/-- Padded numbers that fit into their width sort as numbers. -/
theorem padded_lt_padded {w m n : ℕ} (hmn : m < n) (hn : n < 10 ^ (w + 1)) :
    padded (w + 1) m < padded (w + 1) n := by
  apply lt_of_number_lt
  · exact fun c hc => isDigit_of_mem_padded hc
  · exact fun c hc => isDigit_of_mem_padded hc
  · rw [length_padded (hmn.trans hn), length_padded hn]
  · rwa [number_padded, number_padded]

/-! ### `csv.sh` -/

/-- The writes of `csv_row`: one for every field, with the separator before it, and the newline. -/
def csvRowWrites : Text → List Text → List Text
  | _, [] => [['\n']]
  | separator, field :: fields => (separator ++ Csv.quote field) :: csvRowWrites [','] fields

/-- The output of `csv_row`. -/
def csvRow (fields : List Text) : Text := (csvRowWrites [] fields).flatten

theorem flatten_csvRowWrites (separator : Text) (field : Text) (fields : List Text) :
    (csvRowWrites separator (field :: fields)).flatten = separator ++ Csv.row (field :: fields) := by
  induction fields generalizing separator field with
  | nil => simp [csvRowWrites, Csv.row]
  | cons g fields ih =>
    rw [csvRowWrites, List.flatten_cons, ih]
    simp [Csv.row]

theorem csvRow_eq_row : csvRow = Csv.row := by
  funext fields
  cases fields with
  | nil => rfl
  | cons f fields => exact flatten_csvRowWrites [] f fields

end Slurmy
