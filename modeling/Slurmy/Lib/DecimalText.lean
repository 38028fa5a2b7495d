import Mathlib.Data.List.TakeWhile
import Slurmy.Lib.Decimal
import Slurmy.Lib.Lines

/-!
# The text of decimal numbers

* `parse`: the finite number that Python's `Decimal` makes of a text;
* `Number.str`: the text of a number, with an exponent where it is very small or has trailing zeros left out;
* `takeNumber`, `isPlain`: the numbers that a pattern such as `\d+(?:\.\d+)?` reads;
* `isPlain_str`: which numbers are written so.
-/

namespace Decimal

/-! ### Reading -/

/-- The digits zero of Unicode; nine other digits follow each of them. -/
def zeros : List ℕ :=
  [48, 1632, 1776, 1984, 2406, 2534, 2662, 2790, 2918, 3046, 3174, 3302, 3430, 3558, 3664, 3792, 3872, 4160, 4240, 6112,
    6160, 6470, 6608, 6784, 6800, 6992, 7088, 7232, 7248, 42528, 43216, 43264, 43472, 43504, 43600, 44016, 65296, 66720,
    68912, 69734, 69872, 69942, 70096, 70384, 70736, 70864, 71248, 71360, 71472, 71904, 72016, 72784, 73040, 73120, 92768,
    92864, 93008, 120782, 120792, 120802, 120812, 120822, 123200, 123632, 125264, 130032]

/-- Every digit as one of ASCII. -/
def asciiDigit (c : Char) : Char :=
  match zeros.find? fun z => decide (z ≤ c.toNat ∧ c.toNat ≤ z + 9) with
  | some z => Char.ofNat (48 + (c.toNat - z))
  | none => c

/-- The value of digits. -/
def ofDigits (t : List Char) : ℕ := Nat.ofDigitChars 10 t 0

/-- `[-+]?\d+`. -/
def parseExponent (t : List Char) : Option ℤ :=
  let unsigned (t : List Char) : Option ℤ :=
    if t ≠ [] ∧ t.all Char.isDigit = true then some (ofDigits t : ℤ) else none
  match t with
  | '-' :: t => (unsigned t).map (- ·)
  | '+' :: t => unsigned t
  | t => unsigned t

/-- The digits behind a point, and what follows them. -/
def parseFraction : List Char → List Char × List Char
  | '.' :: t => (t.takeWhile Char.isDigit, t.dropWhile Char.isDigit)
  | t => ([], t)

/-- `(?=\d|\.\d)\d*(\.\d*)?(E[-+]?\d+)?`: the coefficient and the exponent. -/
def parseUnsigned (t : List Char) : Option (ℕ × ℤ) :=
  let whole := t.takeWhile Char.isDigit
  let fraction := parseFraction (t.dropWhile Char.isDigit)
  if whole = [] ∧ fraction.1 = [] then none
  else
    match fraction.2 with
    | [] => some (ofDigits (whole ++ fraction.1), -fraction.1.length)
    | c :: t =>
        if c = 'e' ∨ c = 'E' then
          (parseExponent t).map fun exponent => (ofDigits (whole ++ fraction.1), exponent - fraction.1.length)
        else none

/-- The number is in the range that all contexts share, from `MIN_ETINY` to `MAX_EMAX`. -/
def Number.InRange (d : Number) : Prop :=
  -1999999999999999997 ≤ d.exponent ∧
    (if d.coefficient = 0 then d.exponent else d.exponent + digits d.coefficient - 1) ≤ 999999999999999999

instance (d : Number) : Decidable d.InRange := inferInstanceAs (Decidable (_ ∧ _))

/-- The sign, and what follows it. -/
def parseSign : List Char → Bool × List Char
  | '-' :: t => (true, t)
  | '+' :: t => (false, t)
  | t => (false, t)

/-- `Decimal(t)`, if it is a finite number. -/
def parse (t : List Char) : Option Number :=
  let signed := parseSign (((Lines.strip t).filter (· ≠ '_')).map asciiDigit)
  (parseUnsigned signed.2).bind fun parts =>
    let d : Number := ⟨signed.1, parts.1, parts.2⟩
    if d.InRange then some d else none

/-! ### Writing -/

/-- `'%+d' % z`. -/
def signedText (z : ℤ) : List Char := (if z < 0 then '-' else '+') :: Nat.toDigits 10 z.natAbs

/-- The digits with the point before the place `dot`. -/
def placePoint (int : List Char) (dot : ℤ) : List Char :=
  if dot ≤ 0 then '0' :: '.' :: (List.replicate (-dot).toNat '0' ++ int)
  else if int.length ≤ dot then int ++ List.replicate (dot - int.length).toNat '0'
  else int.take dot.toNat ++ '.' :: int.drop dot.toNat

/-- `str(d)`. -/
def Number.str (d : Number) : List Char :=
  let int := Nat.toDigits 10 d.coefficient
  let left := d.exponent + int.length
  let dot := if d.exponent ≤ 0 ∧ -6 < left then left else 1
  (if d.negative then ['-'] else []) ++ placePoint int dot ++ if left = dot then [] else 'E' :: signedText (left - dot)

/-! ### Plain numbers -/

/-- What follows `\d+(?:\.\d+)?` at the start of a text. -/
def takeNumber (t : List Char) : Option (List Char) :=
  if t.takeWhile Char.isDigit = [] then none
  else
    match t.dropWhile Char.isDigit with
    | '.' :: rest =>
        if rest.takeWhile Char.isDigit = [] then some ('.' :: rest) else some (rest.dropWhile Char.isDigit)
    | rest => some rest

/-- `\d+(?:\.\d+)?`. -/
def isPlain (t : List Char) : Bool := decide (takeNumber t = some [])

section Plain

variable {t rest : List Char} {c : Char}

theorem takeWhile_append_cons (hc : c.isDigit = false) :
    (t ++ c :: rest).takeWhile Char.isDigit = t.takeWhile Char.isDigit := by
  induction t with
  | nil => rw [List.nil_append, List.takeWhile_cons_of_neg (by rw [hc]; decide), List.takeWhile_nil]
  | cons a t ih =>
    rw [List.cons_append, List.takeWhile_cons, List.takeWhile_cons, ih]

theorem dropWhile_append_cons (hc : c.isDigit = false) :
    (t ++ c :: rest).dropWhile Char.isDigit = t.dropWhile Char.isDigit ++ c :: rest := by
  induction t with
  | nil => rw [List.nil_append, List.dropWhile_cons_of_neg (by rw [hc]; decide), List.dropWhile_nil, List.nil_append]
  | cons a t ih =>
    rw [List.cons_append, List.dropWhile_cons, List.dropWhile_cons, ih]
    split <;> rfl

/-- A number ends before any other character. -/
theorem takeNumber_append_cons (hc : c.isDigit = false) (hdot : c ≠ '.') :
    takeNumber (t ++ c :: rest) = (takeNumber t).map (· ++ c :: rest) := by
  unfold takeNumber
  rw [takeWhile_append_cons hc, dropWhile_append_cons hc]
  by_cases hne : t.takeWhile Char.isDigit = []
  · rw [if_pos hne, if_pos hne]
    rfl
  rw [if_neg hne, if_neg hne]
  cases hdrop : t.dropWhile Char.isDigit with
  | nil =>
    rw [List.nil_append]
    split
    · next heq => exact absurd (List.cons.inj heq).1 hdot
    · rfl
  | cons a u =>
    rw [List.cons_append]
    by_cases ha : a = '.'
    · subst ha
      show (if (u ++ c :: rest).takeWhile Char.isDigit = [] then some ('.' :: (u ++ c :: rest))
        else some ((u ++ c :: rest).dropWhile Char.isDigit)) = (if u.takeWhile Char.isDigit = [] then some ('.' :: u)
        else some (u.dropWhile Char.isDigit)).map (· ++ c :: rest)
      rw [takeWhile_append_cons hc, dropWhile_append_cons hc]
      split <;> rfl
    · split
      · next heq => exact absurd (List.cons.inj heq).1 ha
      · split
        · next heq => exact absurd (List.cons.inj heq).1 ha
        · rfl

theorem takeNumber_suffix {u : List Char} (h : takeNumber t = some u) : u <:+ t := by
  have hdrop : t.dropWhile Char.isDigit <:+ t := List.dropWhile_suffix _
  unfold takeNumber at h
  split at h
  · cases h
  split at h
  · next rest heq =>
    split at h
    · rwa [← Option.some.inj h, ← heq]
    · rw [← Option.some.inj h]
      rw [heq] at hdrop
      exact (List.dropWhile_suffix _).trans ((List.suffix_cons _ _).trans hdrop)
  · rwa [← Option.some.inj h]

theorem isPlain_of_digits (hne : t ≠ []) (h : ∀ c ∈ t, c.isDigit = true) : isPlain t = true := by
  unfold isPlain takeNumber
  rw [List.takeWhile_eq_self_iff.2 h, if_neg hne, List.dropWhile_eq_nil_iff.2 h]
  rfl

theorem isPlain_of_point {u : List Char} (ht : t ≠ []) (hu : u ≠ []) (htdigits : ∀ c ∈ t, c.isDigit = true)
    (hudigits : ∀ c ∈ u, c.isDigit = true) : isPlain (t ++ '.' :: u) = true := by
  unfold isPlain takeNumber
  rw [takeWhile_append_cons (by decide), dropWhile_append_cons (by decide), List.takeWhile_eq_self_iff.2 htdigits,
    if_neg ht, List.dropWhile_eq_nil_iff.2 htdigits]
  show decide ((if u.takeWhile Char.isDigit = [] then some ('.' :: u) else some (u.dropWhile Char.isDigit)) = some []) = true
  rw [List.takeWhile_eq_self_iff.2 hudigits, if_neg hu, List.dropWhile_eq_nil_iff.2 hudigits]
  rfl

/-- Digits and points. -/
theorem mem_of_isPlain (h : isPlain t = true) (hc : c ∈ t) : c.isDigit = true ∨ c = '.' := by
  have hsplit := List.takeWhile_append_dropWhile (p := Char.isDigit) (l := t)
  have htake := of_decide_eq_true h
  unfold takeNumber at htake
  rw [← hsplit, List.mem_append] at hc
  rcases hc with hc | hc
  · exact Or.inl (List.mem_takeWhile_imp hc)
  split at htake
  · cases htake
  split at htake
  · next rest heq =>
    rw [heq] at hc
    split at htake
    · cases htake
    · rcases List.mem_cons.1 hc with rfl | hc
      · exact Or.inr rfl
      · exact Or.inl (List.dropWhile_eq_nil_iff.1 (Option.some.inj htake) c hc)
  · rw [Option.some.inj htake] at hc
    cases hc

end Plain

theorem isDigit_of_mem_toDigits {n : ℕ} {c : Char} (h : c ∈ Nat.toDigits 10 n) : c.isDigit = true :=
  Nat.isDigit_of_mem_toDigits (by decide) (by decide) h

/-- **The numbers without an exponent**, and without a sign. -/
theorem isPlain_str (d : Number) :
    isPlain d.str = true ↔ d.negative = false ∧ d.exponent ≤ 0 ∧ -6 < d.exponent + digits d.coefficient := by
  have hint : Nat.toDigits 10 d.coefficient ≠ [] := List.ne_nil_of_length_pos (digits_pos d.coefficient)
  constructor
  · intro h
    have hchars := fun {c : Char} => mem_of_isPlain (c := c) h
    unfold Number.str at hchars
    dsimp only at hchars
    refine ⟨?_, ?_⟩
    · by_contra hsign
      rw [if_pos (by simpa using hsign)] at hchars
      exact absurd (hchars (c := '-') (by simp)) (by decide)
    · by_contra hplain
      rw [show (Nat.toDigits 10 d.coefficient).length = digits d.coefficient from rfl, if_neg hplain] at hchars
      have hleft : ¬d.exponent + (digits d.coefficient : ℤ) = 1 := by
        have := digits_pos d.coefficient
        omega
      rw [if_neg hleft] at hchars
      exact absurd (hchars (c := 'E') (by simp)) (by decide)
  · rintro ⟨hsign, hplain⟩
    have hstr : d.str = placePoint (Nat.toDigits 10 d.coefficient) (d.exponent + digits d.coefficient) := by
      unfold Number.str
      dsimp only
      rw [show (Nat.toDigits 10 d.coefficient).length = digits d.coefficient from rfl, if_pos hplain, if_pos rfl, hsign,
        if_neg Bool.false_ne_true, List.nil_append, List.append_nil]
    rw [hstr, placePoint]
    split_ifs with hzero hall
    · refine isPlain_of_point (t := ['0']) (List.cons_ne_nil _ _) (by simp [hint])
        (fun c hc => List.mem_singleton.1 hc ▸ rfl) fun c hc => ?_
      rcases List.mem_append.1 hc with hc | hc
      · rw [List.eq_of_mem_replicate hc]
        decide
      · exact isDigit_of_mem_toDigits hc
    · refine isPlain_of_digits (by simp [hint]) fun c hc => ?_
      rcases List.mem_append.1 hc with hc | hc
      · exact isDigit_of_mem_toDigits hc
      · rw [List.eq_of_mem_replicate hc]
        decide
    · refine isPlain_of_point (fun h => ?_) (fun h => ?_) (fun c hc => isDigit_of_mem_toDigits (List.mem_of_mem_take hc))
        fun c hc => isDigit_of_mem_toDigits (List.mem_of_mem_drop hc)
      · rcases List.take_eq_nil_iff.1 h with h | h
        · omega
        · exact hint h
      · rw [List.drop_eq_nil_iff] at h
        omega

/-- The characters of a number. -/
theorem mem_str {d : Number} {c : Char} (h : c ∈ d.str) : c.isDigit = true ∨ c ∈ ['-', '.', 'E', '+'] := by
  have hplace {int : List Char} {dot : ℤ} (hint : ∀ c ∈ int, c.isDigit = true) (hc : c ∈ placePoint int dot) :
      c.isDigit = true ∨ c ∈ ['-', '.', 'E', '+'] := by
    have hzero {n : ℕ} (hc : c ∈ List.replicate n '0') : c.isDigit = true := by
      rw [List.eq_of_mem_replicate hc]
      decide
    unfold placePoint at hc
    split_ifs at hc
    · rw [List.mem_cons, List.mem_cons, List.mem_append] at hc
      rcases hc with rfl | rfl | hc | hc
      · exact Or.inl (by decide)
      · exact Or.inr (by decide)
      · exact Or.inl (hzero hc)
      · exact Or.inl (hint c hc)
    · exact Or.inl ((List.mem_append.1 hc).elim (hint c) hzero)
    · rcases List.mem_append.1 hc with hc | hc
      · exact Or.inl (hint c (List.mem_of_mem_take hc))
      · rcases List.mem_cons.1 hc with rfl | hc
        · exact Or.inr (by decide)
        · exact Or.inl (hint c (List.mem_of_mem_drop hc))
  unfold Number.str at h
  dsimp only at h
  generalize (if d.exponent ≤ 0 ∧ -6 < d.exponent + ((Nat.toDigits 10 d.coefficient).length : ℤ) then
    d.exponent + ((Nat.toDigits 10 d.coefficient).length : ℤ) else 1) = dot at h
  rw [List.mem_append, List.mem_append] at h
  rcases h with (h | h) | h
  · split_ifs at h
    · rw [List.mem_singleton.1 h]
      exact Or.inr (by decide)
    · cases h
  · exact hplace (fun c => isDigit_of_mem_toDigits) h
  · split_ifs at h
    · cases h
    · rcases List.mem_cons.1 h with rfl | h
      · exact Or.inr (by decide)
      · rcases List.mem_cons.1 h with rfl | h
        · split_ifs
          · exact Or.inr (by decide)
          · exact Or.inr (by decide)
        · exact Or.inl (isDigit_of_mem_toDigits h)

end Decimal
