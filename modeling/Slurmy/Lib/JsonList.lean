import Mathlib.Tactic.Cases
import Mathlib.Tactic.SplitIfs
import Slurmy.Lib.JsonString

/-!
# JSON lists of strings

* `dumps`: a list of strings, in ASCII;
* `Reader`, `next`, `loads`: the reader of a list of strings, one byte after the other;
* `run_dumps`: a list is read as it was written;
* `Torn`, `eq_of_torn`: what an unfinished write leaves of the text is not read as a list.
-/

namespace JsonList

open JsonString

/-! ### Writing and reading -/

def items : List (List ℕ) → List UInt8
  | [] => []
  | [s] => string s
  | s :: t => string s ++ 44 :: 32 :: items t

/-- `json.dumps` of a list of strings. -/
def dumps (l : List (List ℕ)) : List UInt8 := 91 :: items l ++ [93]

/-- A character of a string, or a `\uXXXX`. -/
structure Piece where
  escaped : Bool
  value : ℕ
  deriving DecidableEq

/-- Two surrogates that follow each other are one character. -/
def combine : List Piece → List ℕ
  | [] => []
  | [p] => [p.value]
  | p :: q :: ps =>
      if p.escaped ∧ q.escaped ∧ (55296 ≤ p.value ∧ p.value < 56320) ∧ (56320 ≤ q.value ∧ q.value < 57344) then
        (65536 + (p.value - 55296) * 1024 + (q.value - 56320)) :: combine ps
      else p.value :: combine (q :: ps)

/-- Where the reader is, with the strings that it has read. -/
inductive Reader
  | before
  | first
  | text (done : List (List ℕ)) (pieces : List Piece)
  | escape (done : List (List ℕ)) (pieces : List Piece)
  | hex (done : List (List ℕ)) (pieces : List Piece) (left value : ℕ)
  | after (done : List (List ℕ))
  | comma (done : List (List ℕ))
  | closed (done : List (List ℕ))
  | failed
  deriving DecidableEq

def isSpace (b : UInt8) : Bool := b ∈ [32, 9, 10, 13]

/-- The character of a one-letter escape. -/
def letter (b : UInt8) : Option ℕ :=
  if b = 34 ∨ b = 92 ∨ b = 47 then some b.toNat
  else if b = 110 then some 10
  else if b = 114 then some 13
  else if b = 116 then some 9
  else if b = 98 then some 8
  else if b = 102 then some 12
  else none

def digit (b : UInt8) : Option ℕ :=
  let n := b.toNat
  if 48 ≤ n ∧ n < 58 then some (n - 48)
  else if 65 ≤ n ∧ n < 71 then some (n - 55)
  else if 97 ≤ n ∧ n < 103 then some (n - 87)
  else none

/-- One byte of a text in ASCII. -/
def Reader.next : Reader → UInt8 → Reader
  | .before, b => if isSpace b then .before else if b = 91 then .first else .failed
  | .first, b => if isSpace b then .first else if b = 34 then .text [] [] else if b = 93 then .closed [] else .failed
  | .text done pieces, b =>
      if b = 34 then .after (done ++ [combine pieces])
      else if b = 92 then .escape done pieces
      else if b < 32 then .failed
      else .text done (pieces ++ [⟨false, b.toNat⟩])
  | .escape done pieces, b =>
      if b = 117 then .hex done pieces 4 0
      else
        match letter b with
        | some n => .text done (pieces ++ [⟨false, n⟩])
        | none => .failed
  | .hex done pieces left value, b =>
      match digit b with
      | some d =>
          if left = 1 then .text done (pieces ++ [⟨true, value * 16 + d⟩])
          else .hex done pieces (left - 1) (value * 16 + d)
      | none => .failed
  | .after done, b =>
      if isSpace b then .after done else if b = 44 then .comma done else if b = 93 then .closed done else .failed
  | .comma done, b => if isSpace b then .comma done else if b = 34 then .text done [] else .failed
  | .closed done, b => if isSpace b then .closed done else .failed
  | .failed, _ => .failed

def Reader.run (r : Reader) (bs : List UInt8) : Reader := bs.foldl Reader.next r

/-- `json.loads` of a list of strings. -/
def loads (bs : List UInt8) : Option (List (List ℕ)) :=
  match Reader.run .before bs with
  | .closed done => some done
  | _ => none

variable {r : Reader} {done l : List (List ℕ)} {ps qs : List Piece} {s : List ℕ} {n d : ℕ} {bs cs : List UInt8}

theorem run_append (r : Reader) (bs cs : List UInt8) : r.run (bs ++ cs) = (r.run bs).run cs := List.foldl_append

/-! ### Characters -/

/-- What is read of a character. -/
def pieces (n : ℕ) : List Piece :=
  if (shortEscape n).isSome ∨ (32 ≤ n ∧ n ≤ 126) then [⟨false, n⟩]
  else if n < 65536 then [⟨true, n⟩]
  else [⟨true, 55296 + (n - 65536) / 1024⟩, ⟨true, 56320 + (n - 65536) % 1024⟩]

theorem digit_hexDigit (h : d < 16) : digit (hexDigit d) = some d := by
  revert d
  decide

theorem run_escape (h : n < 65536) (done : List (List ℕ)) (ps : List Piece) :
    (Reader.text done ps).run (escape n) = .text done (ps ++ [⟨true, n⟩]) := by
  have hvalue : (((0 * 16 + n / 4096 % 16) * 16 + n / 256 % 16) * 16 + n / 16 % 16) * 16 + n % 16 = n := by omega
  have hdigit : ∀ (left value d : ℕ), d < 16 → (Reader.hex done ps left value).next (hexDigit d) =
      if left = 1 then .text done (ps ++ [⟨true, value * 16 + d⟩]) else .hex done ps (left - 1) (value * 16 + d) := by
    intro left value d hd
    rw [Reader.next, digit_hexDigit hd]
  show (((((Reader.hex done ps 4 0).next _).next _).next _).next _) = _
  rw [hdigit _ _ _ (by omega), if_neg (by omega), hdigit _ _ _ (by omega), if_neg (by omega),
    hdigit _ _ _ (by omega), if_neg (by omega), hdigit _ _ _ (by omega), if_pos (by omega), hvalue]

theorem letter_of_shortEscape {b : UInt8} (h : shortEscape n = some b) : letter b = some n ∧ b ≠ 117 := by
  unfold shortEscape at h
  split_ifs at h
  all_goals
    cases h
    subst_vars
    decide

theorem run_point (h : IsPoint n) (done : List (List ℕ)) (ps : List Piece) :
    (Reader.text done ps).run (point n) = .text done (ps ++ pieces n) := by
  unfold point pieces
  cases hshort : shortEscape n with
  | some b =>
    obtain ⟨hletter, hne⟩ := letter_of_shortEscape hshort
    have hshow : (some b).isSome = true ∨ (32 ≤ n ∧ n ≤ 126) := .inl rfl
    dsimp only
    rw [if_pos hshow]
    show (Reader.escape done ps).next b = _
    rw [Reader.next, if_neg hne, hletter]
  | none =>
    have hnone : ¬ (none : Option UInt8).isSome = true := nofun
    dsimp only
    by_cases hplain : 32 ≤ n ∧ n ≤ 126
    · have hbyte : n.toUInt8.toNat = n := by
        rw [Nat.toUInt8, UInt8.toNat_ofNat']
        omega
      have hne : ∀ m : UInt8, (shortEscape m.toNat).isSome = true → n.toUInt8 ≠ m := by
        rintro m hm rfl
        rw [hbyte, hshort] at hm
        exact hnone hm
      have hlow : ¬ n.toUInt8 < 32 := by
        rw [UInt8.lt_iff_toNat_lt, hbyte]
        exact Nat.not_lt.mpr hplain.1
      rw [if_pos hplain, if_pos (.inr hplain)]
      show (Reader.text done ps).next n.toUInt8 = _
      rw [Reader.next, if_neg (hne 34 rfl), if_neg (hne 92 rfl), if_neg hlow, hbyte]
    · rw [if_neg hplain, if_neg (not_or.mpr ⟨hnone, hplain⟩)]
      by_cases hsmall : n < 65536
      · rw [if_pos hsmall, if_pos hsmall]
        exact run_escape hsmall done ps
      · have hbound : n < 1114112 := by rcases h with h | h <;> omega
        rw [if_neg hsmall, if_neg hsmall, run_append, run_escape (by omega), run_escape (by omega), List.append_assoc]
        rfl

theorem run_points (h : ∀ n ∈ s, IsPoint n) (done : List (List ℕ)) (ps : List Piece) :
    (Reader.text done ps).run (s.flatMap point) = .text done (ps ++ s.flatMap pieces) := by
  induction s generalizing ps with
  | nil => exact congrArg (Reader.text done) (List.append_nil ps).symm
  | cons n s ih =>
    rw [List.flatMap_cons, List.flatMap_cons, run_append, run_point (h n List.mem_cons_self),
      ih (fun m hm => h m (List.mem_cons_of_mem n hm)), List.append_assoc]

/-- A piece that is no high surrogate is a character of its own. -/
theorem combine_cons {p : Piece} (h : p.escaped = false ∨ ¬ (55296 ≤ p.value ∧ p.value < 56320)) (ps : List Piece) :
    combine (p :: ps) = p.value :: combine ps := by
  cases ps with
  | nil => rfl
  | cons q ps =>
    rw [combine, if_neg]
    rintro ⟨hescaped, -, hhigh, -⟩
    rcases h with h | h
    · rw [h] at hescaped
      exact nomatch hescaped
    · exact h hhigh

theorem combine_pieces_append (h : IsPoint n) (ps : List Piece) : combine (pieces n ++ ps) = n :: combine ps := by
  unfold pieces
  split_ifs with hshow hsmall
  · rw [List.singleton_append, combine_cons (.inl rfl)]
  · have hhigh : ¬ (55296 ≤ n ∧ n < 56320) := by rcases h with h | h <;> omega
    rw [List.singleton_append, combine_cons (.inr hhigh)]
  · have hbound : n < 1114112 := by rcases h with h | h <;> omega
    have hhigh : 55296 ≤ 55296 + (n - 65536) / 1024 ∧ 55296 + (n - 65536) / 1024 < 56320 := by omega
    have hlow : 56320 ≤ 56320 + (n - 65536) % 1024 ∧ 56320 + (n - 65536) % 1024 < 57344 := by omega
    have hvalue : 65536 + (55296 + (n - 65536) / 1024 - 55296) * 1024 + (56320 + (n - 65536) % 1024 - 56320) = n := by
      omega
    rw [List.cons_append, List.singleton_append, combine, if_pos ⟨rfl, rfl, hhigh, hlow⟩, hvalue]

theorem combine_pieces (h : ∀ n ∈ s, IsPoint n) : combine (s.flatMap pieces) = s := by
  induction s with
  | nil => rfl
  | cons n s ih =>
    rw [List.flatMap_cons, combine_pieces_append (h n List.mem_cons_self),
      ih fun m hm => h m (List.mem_cons_of_mem n hm)]

/-! ### Lists -/

theorem run_string (h : ∀ n ∈ s, IsPoint n) (done : List (List ℕ)) :
    (Reader.text done []).run (s.flatMap point ++ [34]) = .after (done ++ [s]) := by
  rw [run_append, run_points h, List.nil_append]
  show Reader.after (done ++ [combine (s.flatMap pieces)]) = _
  rw [combine_pieces h]

theorem run_items (hl : l ≠ []) (h : ∀ s ∈ l, ∀ n ∈ s, IsPoint n) (hr : r.next 34 = .text done []) :
    r.run (items l) = .after (done ++ l) := by
  have hstring : ∀ {r : Reader} {done : List (List ℕ)} {s}, r.next 34 = .text done [] → (∀ n ∈ s, IsPoint n) →
      r.run (string s) = .after (done ++ [s]) := by
    intro r done s hr hs
    show (r.next 34).run _ = _
    rw [hr, run_string hs]
  induction l generalizing r done with
  | nil => exact absurd rfl hl
  | cons s t ih =>
    have hs := h s List.mem_cons_self
    cases t with
    | nil => exact hstring hr hs
    | cons s' t =>
      have hitems : items (s :: s' :: t) = string s ++ 44 :: 32 :: items (s' :: t) := rfl
      have hcomma : (Reader.comma (done ++ [s])).next 34 = .text (done ++ [s]) [] := rfl
      rw [hitems, run_append, hstring hr hs]
      show (Reader.comma (done ++ [s])).run (items (s' :: t)) = _
      rw [ih (List.cons_ne_nil _ _) (fun u hu => h u (List.mem_cons_of_mem s hu)) hcomma, List.append_assoc]
      rfl

theorem run_dumps (h : ∀ s ∈ l, ∀ n ∈ s, IsPoint n) : Reader.run .before (dumps l) = .closed l := by
  show (Reader.run .first (items l ++ [93])) = _
  rw [run_append]
  cases l with
  | nil => rfl
  | cons s t =>
    have hfirst : Reader.first.next 34 = .text [] [] := rfl
    rw [run_items (List.cons_ne_nil _ _) h hfirst]
    rfl

/-! ### Unfinished writes -/

/-- What writers of one text leave of it: no more than the text, with zeros where nothing has been written. -/
def Torn : List UInt8 → List UInt8 → Prop
  | [], _ => True
  | _ :: _, [] => False
  | b :: bs, c :: cs => (b = c ∨ b = 0) ∧ Torn bs cs

theorem torn_refl (bs : List UInt8) : Torn bs bs := by
  induction bs with
  | nil => trivial
  | cons b bs ih => exact ⟨.inl rfl, ih⟩

theorem Torn.length_le (h : Torn bs cs) : bs.length ≤ cs.length := by
  induction bs generalizing cs with
  | nil => exact Nat.zero_le _
  | cons b bs ih =>
    cases cs with
    | nil => exact h.elim
    | cons c cs => exact Nat.succ_le_succ (ih h.2)

theorem Torn.take (h : Torn bs cs) (k : ℕ) : Torn (bs.take k) (cs.take k) := by
  induction bs generalizing cs k with
  | nil =>
    rw [List.take_nil]
    trivial
  | cons b bs ih =>
    cases cs with
    | nil => exact h.elim
    | cons c cs =>
      cases k with
      | zero => trivial
      | succ k => exact ⟨h.1, ih h.2 k⟩

theorem Torn.drop (h : Torn bs cs) (k : ℕ) : Torn (bs.drop k) (cs.drop k) := by
  induction bs generalizing cs k with
  | nil =>
    rw [List.drop_nil]
    trivial
  | cons b bs ih =>
    cases cs with
    | nil => exact h.elim
    | cons c cs =>
      cases k with
      | zero => exact h
      | succ k => exact ih h.2 k

theorem Torn.append {bs' cs' : List UInt8} (h : Torn bs cs) (hlength : bs.length = cs.length) (h' : Torn bs' cs') :
    Torn (bs ++ bs') (cs ++ cs') := by
  induction bs generalizing cs with
  | nil =>
    have hnil : cs = [] := List.eq_nil_of_length_eq_zero hlength.symm
    rwa [hnil]
  | cons b bs ih =>
    cases cs with
    | nil => exact h.elim
    | cons c cs => exact ⟨h.1, ih h.2 (Nat.succ.inj hlength)⟩

theorem torn_zeros {n : ℕ} (h : n ≤ cs.length) : Torn (List.replicate n 0) cs := by
  induction n generalizing cs with
  | zero => trivial
  | succ n ih =>
    cases cs with
    | nil => exact absurd h (Nat.not_succ_le_zero n)
    | cons c cs => exact ⟨.inr rfl, ih (Nat.le_of_succ_le_succ h)⟩

theorem Torn.append_zeros {n : ℕ} (h : Torn bs cs) (hlength : bs.length + n ≤ cs.length) :
    Torn (bs ++ List.replicate n 0) cs := by
  induction bs generalizing cs with
  | nil => exact torn_zeros (by simpa using hlength)
  | cons b bs ih =>
    cases cs with
    | nil => exact h.elim
    | cons c cs =>
      rw [List.length_cons, List.length_cons] at hlength
      exact ⟨h.1, ih h.2 (by omega)⟩

/-- A part of the text, written where it belongs. -/
theorem Torn.overwrite (h : Torn bs cs) {k : ℕ} (hk : k ≤ cs.length) (n : ℕ) :
    Torn ((bs ++ List.replicate (k - bs.length) 0).take k ++ (cs.drop k).take n ++
      bs.drop (k + ((cs.drop k).take n).length)) cs := by
  have hbs := h.length_le
  have hfront := (h.append_zeros (n := k - bs.length) (by omega)).take k
  have hfrontLength : ((bs ++ List.replicate (k - bs.length) 0).take k).length = (cs.take k).length := by
    rw [List.length_take, List.length_take, List.length_append, List.length_replicate]
    omega
  have hsplit : cs = cs.take k ++ (cs.drop k).take n ++ cs.drop (k + ((cs.drop k).take n).length) := by
    have hrest : cs.drop (k + ((cs.drop k).take n).length) = (cs.drop k).drop n := by
      rw [← List.drop_drop, List.length_take]
      by_cases hn : n ≤ (cs.drop k).length
      · rw [min_eq_left hn]
      · have hlong : (cs.drop k).length ≤ n := by omega
        rw [min_eq_right hlong, List.drop_length, List.drop_eq_nil_of_le hlong]
    rw [hrest, List.append_assoc, List.take_append_drop, List.take_append_drop]
  have hmiddle := hfront.append hfrontLength (torn_refl ((cs.drop k).take n))
  have hall := hmiddle.append (by rw [List.length_append, List.length_append, hfrontLength])
    (h.drop (k + ((cs.drop k).take n).length))
  rwa [← hsplit] at hall

theorem run_failed (bs : List UInt8) : Reader.run .failed bs = .failed := by
  induction bs with
  | nil => rfl
  | cons b bs ih => exact ih

theorem next_zero (r : Reader) : r.next 0 = .failed := by
  cases r <;> rfl

/-- Behind the end there is only space. -/
theorem isSpace_of_closed (h : (Reader.closed done).run bs = .closed l) : ∀ b ∈ bs, isSpace b = true := by
  induction bs with
  | nil => exact nofun
  | cons b bs ih =>
    have hnext : ((if isSpace b then Reader.closed done else .failed).run bs) = .closed l := h
    split at hnext
    · next hspace =>
      intro c hc
      rcases List.mem_cons.mp hc with rfl | hc
      · exact hspace
      · exact ih hnext c hc
    · rw [run_failed] at hnext
      exact nomatch hnext

/-- A torn text that is read as a list is the whole text, or what is missing is space. -/
theorem torn_closed {done' : List (List ℕ)} (h : Torn bs cs) (hbs : r.run bs = .closed done)
    (hcs : r.run cs = .closed done') : ∃ rest, cs = bs ++ rest ∧ ∀ b ∈ rest, isSpace b = true := by
  induction bs generalizing r cs with
  | nil =>
    have hr : r = .closed done := hbs
    subst hr
    exact ⟨cs, rfl, isSpace_of_closed hcs⟩
  | cons b bs ih =>
    cases cs with
    | nil => exact h.elim
    | cons c cs =>
      rcases h.1 with rfl | rfl
      · obtain ⟨rest, rfl, hrest⟩ := ih h.2 hbs hcs
        exact ⟨rest, rfl, hrest⟩
      · have hzero : (r.next 0).run bs = .closed done := hbs
        rw [next_zero, run_failed] at hzero
        exact nomatch hzero

/-- What an unfinished write leaves is not read as a list. -/
theorem eq_of_torn (h : ∀ s ∈ l, ∀ n ∈ s, IsPoint n) (htorn : Torn bs (dumps l)) (hread : loads bs = some done) :
    done = l := by
  unfold loads at hread
  split at hread
  · next done' hbs =>
    cases hread
    obtain ⟨rest, hrest, hspace⟩ := torn_closed htorn hbs (run_dumps h)
    have hnil : rest = [] := by
      rcases List.eq_nil_or_concat rest with hnil | ⟨front, b, rfl⟩
      · exact hnil
      · -- the last byte of the text is the bracket
        have hdumps : (91 :: items l) ++ [93] = (bs ++ front) ++ [b] := by
          rw [List.concat_eq_append] at hrest
          rw [List.append_assoc]
          exact hrest
        have hlast : (93 : UInt8) = b := (List.cons.inj (List.append_inj_right' hdumps rfl)).1
        have hb := hspace b (by rw [List.concat_eq_append]; exact List.mem_append_right _ List.mem_cons_self)
        rw [← hlast] at hb
        exact absurd hb (by decide)
    have hclosed := run_dumps h
    rw [hrest, hnil, List.append_nil, hbs] at hclosed
    exact Reader.closed.inj hclosed
  · exact nomatch hread

end JsonList
