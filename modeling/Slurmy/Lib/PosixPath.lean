import Mathlib.Data.List.Basic
import Mathlib.Data.List.SplitOn
import Mathlib.Tactic.TypeStar

/-!
# POSIX paths

Paths as `pathlib` keeps them: the slashes in front, and the components.

* `parse`, `str`: a path from its text and back; empty components and single dots are dropped;
* `join`: `base / path`, `isRelativeTo`;
* `normalize`: `os.path.abspath` of an absolute path, which resolves `..` in the text;
* `parse_str`, `normalize_of_normal`: what has been written is read back, and a second normalization
  changes nothing;
* `isRelativeTo_iff`, `str_append`: the paths below a directory and their texts.
-/

/-- `slashes` is 0 for a relative path, and 2 only for a path that starts with exactly two slashes. -/
structure PosixPath where
  slashes : ℕ
  parts : List (List Char)
  deriving DecidableEq

namespace PosixPath

variable {p q : PosixPath}

def isPart (part : List Char) : Bool := decide (part ≠ [] ∧ part ≠ ['.'])

/-- The slashes that count of those in front of a text. -/
def leading (t : List Char) : ℕ :=
  match (t.takeWhile (· = '/')).length with
  | 0 => 0
  | 2 => 2
  | _ => 1

/-- `Path(t)`. -/
def parse (t : List Char) : PosixPath := ⟨leading t, (t.splitOn '/').filter isPart⟩

/-- `str(p)`. -/
def str (p : PosixPath) : List Char :=
  if p.slashes = 0 ∧ p.parts = [] then ['.']
  else List.replicate p.slashes '/' ++ ['/'].intercalate p.parts

/-- `p.name`. -/
def name (p : PosixPath) : List Char := p.parts.getLast?.getD []

def isAbsolute (p : PosixPath) : Bool := decide (p.slashes ≠ 0)

/-- `base / p`. -/
def join (base p : PosixPath) : PosixPath := if p.isAbsolute then p else ⟨base.slashes, base.parts ++ p.parts⟩

/-- `p.is_relative_to(base)`. -/
def isRelativeTo (p base : PosixPath) : Bool := decide (p.slashes = base.slashes) && base.parts.isPrefixOf p.parts

/-- The components of `p.relative_to(base)`. -/
def relativeTo (p base : PosixPath) : PosixPath := ⟨0, p.parts.drop base.parts.length⟩

/-- One component after the components `acc` of an absolute path. -/
def climb (acc : List (List Char)) (part : List Char) : List (List Char) :=
  if part = ['.', '.'] then acc.dropLast else acc ++ [part]

/-- `os.path.abspath` of an absolute path. -/
def normalize (p : PosixPath) : PosixPath := ⟨p.slashes, p.parts.foldl climb []⟩

/-- The path is as `parse` makes it. -/
structure Valid (p : PosixPath) : Prop where
  slashes_le : p.slashes ≤ 2
  isPart : ∀ part ∈ p.parts, isPart part = true
  noSlash : ∀ part ∈ p.parts, '/' ∉ part

/-- No component is `..`. -/
def Normal (p : PosixPath) : Prop := ['.', '.'] ∉ p.parts

theorem parse_valid (t : List Char) : (parse t).Valid where
  slashes_le := by
    show leading t ≤ 2
    unfold leading
    split <;> omega
  isPart part hpart := (List.mem_filter.1 hpart).2
  noSlash part hpart := by
    have hmem := (List.mem_filter.1 hpart).1
    clear hpart
    induction t generalizing part with
    | nil =>
      rw [List.splitOn_nil, List.mem_singleton] at hmem
      rw [hmem]
      exact List.not_mem_nil
    | cons c t ih =>
      rw [List.splitOn_cons_eq_if_modifyHead] at hmem
      split at hmem
      · rcases List.mem_cons.1 hmem with rfl | hmem
        · exact List.not_mem_nil
        · exact ih part hmem
      · next hc =>
        cases hs : t.splitOn '/' with
        | nil => exact absurd hs (List.splitOn_ne_nil _ _)
        | cons first rest =>
          rw [hs, List.modifyHead_cons] at hmem
          rcases List.mem_cons.1 hmem with rfl | hmem
          · rw [List.mem_cons, not_or]
            exact ⟨fun heq => hc (by simp [← heq]), ih first (hs ▸ List.mem_cons_self)⟩
          · exact ih part (hs ▸ List.mem_cons_of_mem first hmem)

theorem Valid.join (hp : p.Valid) (hq : q.Valid) : (p.join q).Valid := by
  unfold PosixPath.join
  split
  · exact hq
  · refine ⟨hp.slashes_le, fun part hpart => ?_, fun part hpart => ?_⟩
    · exact (List.mem_append.1 hpart).elim (hp.isPart part) (hq.isPart part)
    · exact (List.mem_append.1 hpart).elim (hp.noSlash part) (hq.noSlash part)

/-! ### Normalization -/

theorem mem_foldl_climb {parts acc : List (List Char)} {part : List Char}
    (h : part ∈ parts.foldl climb acc) : part ∈ acc ∨ (part ∈ parts ∧ part ≠ ['.', '.']) := by
  induction parts generalizing acc with
  | nil => exact .inl h
  | cons a parts ih =>
    rcases ih h with hdone | ⟨hmem, hne⟩
    · unfold climb at hdone
      split at hdone
      · exact .inl ((List.dropLast_sublist _).subset hdone)
      · next ha =>
        rcases List.mem_append.1 hdone with hdone | hdone
        · exact .inl hdone
        · rw [List.mem_singleton] at hdone
          subst hdone
          exact .inr ⟨List.mem_cons_self, ha⟩
    · exact .inr ⟨List.mem_cons_of_mem a hmem, hne⟩

theorem normalize_normal (p : PosixPath) : p.normalize.Normal := by
  intro hmem
  rcases mem_foldl_climb hmem with hnil | ⟨-, hne⟩
  · cases hnil
  · exact hne rfl

theorem Valid.normalize (h : p.Valid) : p.normalize.Valid := by
  have hsub : ∀ part ∈ p.normalize.parts, part ∈ p.parts := fun part hpart =>
    (mem_foldl_climb hpart).elim (fun hnil => by cases hnil) And.left
  exact ⟨h.slashes_le, fun part hpart => h.isPart part (hsub part hpart),
    fun part hpart => h.noSlash part (hsub part hpart)⟩

theorem foldl_climb_of_normal {parts acc : List (List Char)} (h : ['.', '.'] ∉ parts) :
    parts.foldl climb acc = acc ++ parts := by
  induction parts generalizing acc with
  | nil => simp
  | cons a parts ih =>
    rw [List.mem_cons, not_or] at h
    rw [List.foldl_cons, ih h.2, climb, if_neg (Ne.symm h.1)]
    simp

/-- A second normalization changes nothing. -/
theorem normalize_of_normal (h : p.Normal) : p.normalize = p := by
  unfold PosixPath.normalize
  rw [foldl_climb_of_normal h]
  rfl

/-! ### Reading back -/

theorem takeWhile_slashes {n : ℕ} {t : List Char} (h : t.head? ≠ some '/') :
    ((List.replicate n '/' ++ t).takeWhile (· = '/')).length = n := by
  have htail : t.takeWhile (fun c => decide (c = '/')) = [] := by
    cases t with
    | nil => rfl
    | cons c t =>
      apply List.takeWhile_cons_of_neg
      simpa using h
  rw [List.takeWhile_append_of_pos (by simp), htail]
  simp

theorem head?_intercalate {parts : List (List Char)} (h : ∀ part ∈ parts, isPart part = true)
    (hslash : ∀ part ∈ parts, '/' ∉ part) : (['/'].intercalate parts).head? ≠ some '/' := by
  cases parts with
  | nil => simp
  | cons a parts =>
    have ha : a ≠ [] := by
      have := h a List.mem_cons_self
      simp only [isPart, decide_eq_true_eq] at this
      exact this.1
    have hnot : '/' ∉ a := hslash a List.mem_cons_self
    cases a with
    | nil => exact absurd rfl ha
    | cons c a =>
      have hhead : (['/'].intercalate ((c :: a) :: parts)).head? = some c := by
        cases parts <;> rfl
      rw [hhead]
      intro heq
      exact hnot (by rw [Option.some.inj heq]; exact List.mem_cons_self)

theorem filter_splitOn_slashes (n : ℕ) (t : List Char) :
    ((List.replicate n '/' ++ t).splitOn '/').filter isPart = (t.splitOn '/').filter isPart := by
  induction n with
  | zero => rfl
  | succ n ih =>
    rw [List.replicate_succ, List.cons_append, List.splitOn_cons_eq_if_modifyHead, if_pos (by simp),
      List.filter_cons_of_neg (by decide), ih]

theorem parts_append_slash (s t : List Char) : (parse (s ++ '/' :: t)).parts = (parse s).parts ++ (parse t).parts := by
  unfold parse
  rw [List.splitOn_append_cons_self, List.filter_append]

/-- The slashes in front make no component. -/
theorem parts_dropWhile (t : List Char) : (parse (t.dropWhile (· = '/'))).parts = (parse t).parts := by
  induction t with
  | nil => rfl
  | cons c t ih =>
    by_cases hc : c = '/'
    · subst hc
      rw [List.dropWhile_cons_of_pos (by simp), ih]
      exact (parts_append_slash [] t).symm
    · rw [List.dropWhile_cons_of_neg (by rwa [decide_eq_true_eq])]

/-- What has been written is read back. -/
theorem parse_str (h : p.Valid) : parse p.str = p := by
  obtain ⟨slashes, parts⟩ := p
  unfold str
  split
  · next hempty =>
    obtain ⟨rfl, rfl⟩ := hempty
    rfl
  · next hne =>
    have hleading : leading (List.replicate slashes '/' ++ ['/'].intercalate parts) = slashes := by
      have hle : slashes ≤ 2 := h.slashes_le
      unfold leading
      rw [takeWhile_slashes (head?_intercalate h.isPart h.noSlash)]
      match slashes, hle with
      | 0, _ => rfl
      | 1, _ => rfl
      | 2, _ => rfl
    have hparts : ((List.replicate slashes '/' ++ ['/'].intercalate parts).splitOn '/').filter isPart =
        parts := by
      rw [filter_splitOn_slashes]
      cases parts with
      | nil => decide
      | cons a parts =>
        rw [List.splitOn_intercalate '/' h.noSlash (List.cons_ne_nil a parts)]
        exact List.filter_eq_self.2 h.isPart
    rw [parse, hleading, hparts]

/-- The text of an absolute path starts with a slash. -/
theorem head?_str (h : p.slashes ≠ 0) : p.str.head? = some '/' := by
  unfold str
  rw [if_neg fun hempty => h hempty.1]
  obtain ⟨n, hn⟩ := Nat.exists_eq_succ_of_ne_zero h
  rw [hn, List.replicate_succ]
  rfl

theorem parse_slashes_of_head? {t : List Char} (h : t.head? = some '/') : (parse t).slashes ≠ 0 := by
  cases t with
  | nil => cases h
  | cons c t =>
    cases h
    show leading ('/' :: t) ≠ 0
    unfold leading
    rw [List.takeWhile_cons_of_pos (by simp), List.length_cons]
    split
    · next heq => omega
    · exact Nat.succ_ne_zero 1
    · exact Nat.one_ne_zero

theorem head?_of_slashes {t : List Char} (h : (parse t).slashes ≠ 0) : t.head? = some '/' := by
  cases t with
  | nil => exact absurd rfl h
  | cons c t =>
    by_cases hc : c = '/'
    · rw [hc]
      rfl
    · refine absurd ?_ h
      show leading (c :: t) = 0
      unfold leading
      rw [List.takeWhile_cons_of_neg (by simpa using hc)]
      rfl

/-! ### Below a directory -/

/-- `d / n` of a name. -/
def child (d : PosixPath) (n : List Char) : PosixPath := ⟨d.slashes, d.parts ++ [n]⟩

theorem isRelativeTo_iff {d : PosixPath} :
    p.isRelativeTo d = true ↔ ∃ rest, p = ⟨d.slashes, d.parts ++ rest⟩ := by
  obtain ⟨slashes, parts⟩ := p
  unfold isRelativeTo
  rw [Bool.and_eq_true, decide_eq_true_eq, List.isPrefixOf_iff_prefix]
  constructor
  · rintro ⟨hslashes, rest, hrest⟩
    exact ⟨rest, by rw [← hslashes, hrest]⟩
  · rintro ⟨rest, hrest⟩
    cases hrest
    exact ⟨rfl, rest, rfl⟩

theorem join_relativeTo {d e : PosixPath} (rest : List (List Char)) :
    e.join (relativeTo ⟨d.slashes, d.parts ++ rest⟩ d) = ⟨e.slashes, e.parts ++ rest⟩ := by
  unfold relativeTo
  rw [List.drop_left]
  rfl

theorem intercalate_cons (a : List Char) (rest : List (List Char)) :
    ['/'].intercalate (a :: rest) = a ++ rest.flatMap ('/' :: ·) := by
  induction rest generalizing a with
  | nil => rw [List.intercalate_singleton, List.flatMap_nil, List.append_nil]
  | cons b rest ih =>
    rw [List.intercalate_cons_cons, ih b, List.flatMap_cons, List.cons_append, List.append_assoc]
    rfl

theorem intercalate_append {parts : List (List Char)} (h : parts ≠ []) (rest : List (List Char)) :
    ['/'].intercalate (parts ++ rest) = ['/'].intercalate parts ++ rest.flatMap ('/' :: ·) := by
  obtain ⟨a, parts, rfl⟩ := List.exists_cons_of_ne_nil h
  rw [List.cons_append, intercalate_cons, intercalate_cons, List.flatMap_append, List.append_assoc]

/-- The text of a path below a directory. -/
theorem str_append {d : PosixPath} (h : d.parts ≠ []) (rest : List (List Char)) :
    str ⟨d.slashes, d.parts ++ rest⟩ = d.str ++ rest.flatMap ('/' :: ·) := by
  unfold str
  rw [if_neg fun hempty => h (List.append_eq_nil_iff.mp hempty.2).1, if_neg fun hempty => h hempty.2,
    intercalate_append h, List.append_assoc]

end PosixPath
