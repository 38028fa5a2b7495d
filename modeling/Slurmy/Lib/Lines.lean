import Mathlib.Data.List.DropRight

/-!
# Lines of a text

* `splitlines`: Python's `str.splitlines`, which knows more line boundaries than `\n`;
* `isSpace`, `strip`: `str.isspace` and `str.strip`;
* `strip_ne_nil`: a text with another character is not blank;
* `splitlines_unlines`: lines that are joined with `\n` come back when they contain no boundary.
-/

namespace Lines

/-- The characters that end a line. -/
def isBoundary (c : Char) : Bool :=
  c.toNat ∈ [10, 11, 12, 13, 28, 29, 30, 133, 8232, 8233]

/-- `t.splitlines()`. -/
def splitlines : List Char → List (List Char)
  | [] => []
  | '\r' :: '\n' :: t => [] :: splitlines t
  | c :: t =>
      if isBoundary c then [] :: splitlines t
      else
        match splitlines t with
        | [] => [[c]]
        | l :: ls => (c :: l) :: ls

/-- Whitespace. -/
def isSpace (c : Char) : Bool :=
  c.toNat ∈ [9, 10, 11, 12, 13, 28, 29, 30, 31, 32, 133, 160, 5760, 8192, 8193, 8194, 8195, 8196, 8197, 8198,
    8199, 8200, 8201, 8202, 8232, 8233, 8239, 8287, 12288]

/-- `t.strip()`. -/
def strip (t : List Char) : List Char := (t.dropWhile isSpace).rdropWhile isSpace

/-- Every line, with a newline after it. -/
def unlines (ls : List (List Char)) : List Char := ls.flatMap fun l => l ++ ['\n']

theorem strip_ne_nil {t : List Char} {c : Char} (hc : c ∈ t) (hspace : isSpace c = false) : strip t ≠ [] := by
  have hd : t.dropWhile isSpace ≠ [] := fun h => by
    rw [List.dropWhile_eq_nil_iff.1 h c hc] at hspace
    cases hspace
  -- the first character that is left is not blank
  intro h
  have hblank := List.rdropWhile_eq_nil_iff.1 h _ (List.head_mem hd)
  rw [List.head_dropWhile_not isSpace hd] at hblank
  cases hblank

/-- Only blanks are stripped. -/
theorem mem_strip {t : List Char} {c : Char} (hc : c ∈ t) (hspace : isSpace c = false) : c ∈ strip t := by
  have hnot {u : List Char} (hu : ∀ d ∈ u, isSpace d = true) : c ∉ u := fun hmem => by
    rw [hu c hmem] at hspace
    cases hspace
  have hdrop : c ∈ t.dropWhile isSpace := by
    rw [← List.takeWhile_append_dropWhile (p := isSpace) (l := t)] at hc
    exact (List.mem_append.mp hc).resolve_left (hnot fun d hd => List.mem_takeWhile_imp hd)
  rw [← List.rdropWhile_append_rtakeWhile (p := isSpace) (l := t.dropWhile isSpace)] at hdrop
  exact (List.mem_append.mp hdrop).resolve_right (hnot fun d hd => List.mem_rtakeWhile_imp hd)

/-- A stripped text begins with no blank, and ends with none. -/
theorem head_strip (t : List Char) : ∀ c ∈ (strip t).head?, isSpace c = false := by
  intro c hc
  have hprefix : strip t <+: t.dropWhile isSpace := List.rdropWhile_prefix _ _
  obtain ⟨u, hu⟩ := hprefix
  have hhead : (t.dropWhile isSpace).head? = some c := by
    rw [← hu, List.head?_append, Option.mem_def.mp hc]
    rfl
  have hspace := List.head?_dropWhile_not isSpace t
  rw [hhead] at hspace
  simpa using hspace

theorem last_strip (t : List Char) : ∀ c ∈ (strip t).getLast?, isSpace c = false := by
  intro c hc
  have hne : strip t ≠ [] := List.ne_nil_of_mem (List.mem_of_getLast? hc)
  have hlast : (strip t).getLast hne = c := List.getLast_of_getLast?_eq_some hc
  rw [← hlast]
  exact Bool.eq_false_iff.2 (List.rdropWhile_last_not isSpace (t.dropWhile isSpace) hne)

theorem strip_of_ends {t : List Char} (hhead : ∀ c ∈ t.head?, isSpace c = false)
    (hlast : ∀ c ∈ t.getLast?, isSpace c = false) : strip t = t := by
  have hdrop : t.dropWhile isSpace = t := by
    cases t with
    | nil => rfl
    | cons c t => rw [List.dropWhile_cons, hhead c rfl, if_neg Bool.false_ne_true]
  rw [strip, hdrop, List.rdropWhile_eq_self_iff]
  intro hne
  rw [hlast _ (List.getLast?_eq_getLast_of_ne_nil hne)]
  exact Bool.false_ne_true

theorem strip_strip (t : List Char) : strip (strip t) = strip t := strip_of_ends (head_strip t) (last_strip t)

theorem length_strip_le (t : List Char) : (strip t).length ≤ t.length :=
  (List.rdropWhile_prefix _ _).length_le.trans (List.dropWhile_sublist _).length_le

theorem splitlines_cons {c : Char} (hc : isBoundary c = false) (t : List Char) :
    splitlines (c :: t) = match splitlines t with
      | [] => [[c]]
      | l :: ls => (c :: l) :: ls := by
  have hcr : c ≠ '\r' := by
    rintro rfl
    exact absurd hc (by decide)
  rw [splitlines]
  · rw [hc, if_neg Bool.false_ne_true]
  · intro u heq
    exact absurd heq hcr

theorem splitlines_append {l : List Char} (h : l.any isBoundary = false) (t : List Char) :
    splitlines (l ++ '\n' :: t) = l :: splitlines t := by
  induction l with
  | nil =>
    rw [List.nil_append, splitlines]
    · rfl
    · intro u heq
      cases heq
  | cons c l ih =>
    rw [List.any_cons, Bool.or_eq_false_iff] at h
    rw [List.cons_append, splitlines_cons h.1, ih h.2]

/-- The lines come back. -/
theorem splitlines_unlines {ls : List (List Char)} (h : ∀ l ∈ ls, l.any isBoundary = false) :
    splitlines (unlines ls) = ls := by
  induction ls with
  | nil => rfl
  | cons l ls ih =>
    have htext : unlines (l :: ls) = l ++ '\n' :: unlines ls := by simp [unlines]
    rw [htext, splitlines_append (h l List.mem_cons_self), ih fun m hm => h m (List.mem_cons_of_mem l hm)]

end Lines
