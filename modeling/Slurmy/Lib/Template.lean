import Mathlib.Data.List.TakeWhile
import Slurmy.Lib.Replace

/-!
# Texts with holes

The holes of a text stand for a word, such as a directory, in one of several spellings; another word in their place
is what a replacement of the first one should give.

* `fill`: a text with words in the holes;
* `upTo`: a text up to one of its separators;
* `Exact`: the word begins at no character of the text;
* `Spelling`: the spellings of two words that differ behind their last separator;
* `replace_fill_iff`: where exactly the replacement puts the other word into the holes.
-/

namespace Template

variable {α κ : Type*}

/-- The words in the holes. -/
def fill (d : κ → List α) (t : List (α ⊕ κ)) : List α := t.flatMap (Sum.elim (fun c => [c]) d)

/-- The word begins at no character of the text. -/
def Exact (w : List α) (d : κ → List α) (t : List (α ⊕ κ)) : Prop :=
  ∀ c s, .inl c :: s <:+ t → ¬ w <+: fill d (.inl c :: s)

variable {w : List α} {d e : κ → List α} {s t : List (α ⊕ κ)} {c : α} {k : κ}

@[simp] theorem fill_nil (d : κ → List α) : fill d [] = [] := rfl

@[simp] theorem fill_inl (d : κ → List α) (c : α) (t : List (α ⊕ κ)) : fill d (.inl c :: t) = c :: fill d t := rfl

@[simp] theorem fill_inr (d : κ → List α) (k : κ) (t : List (α ⊕ κ)) : fill d (.inr k :: t) = d k ++ fill d t := rfl

theorem fill_append (d : κ → List α) (s t : List (α ⊕ κ)) : fill d (s ++ t) = fill d s ++ fill d t :=
  List.flatMap_append

theorem fill_map_inl (d : κ → List α) (u : List α) : fill d (u.map .inl) = u := by
  induction u with
  | nil => rfl
  | cons c u ih => rw [List.map_cons, fill_inl, ih]

theorem Exact.suffix (h : Exact w d t) (hs : s <:+ t) : Exact w d s := fun c u hu => h c u (hu.trans hs)

theorem exact_nil : Exact w d [] := fun c s hs => by cases List.suffix_nil.mp hs

theorem exact_inl : Exact w d (.inl c :: t) ↔ ¬ w <+: fill d (.inl c :: t) ∧ Exact w d t := by
  refine ⟨fun h => ⟨h c t List.suffix_rfl, h.suffix (List.suffix_cons _ t)⟩, fun ⟨hnot, h⟩ a s hs => ?_⟩
  rcases List.suffix_cons_iff.mp hs with heq | hs
  · obtain ⟨ha, rfl⟩ := List.cons.inj heq
    obtain rfl := Sum.inl.inj ha
    exact hnot
  · exact h a s hs

theorem exact_inr : Exact w d (.inr k :: t) ↔ Exact w d t := by
  refine ⟨fun h => h.suffix (List.suffix_cons _ t), fun h a s hs => ?_⟩
  rcases List.suffix_cons_iff.mp hs with heq | hs
  · cases heq
  · exact h a s hs

variable [DecidableEq α]

/-! ### Up to a separator -/

/-- The text before its separator number `j`, counted from zero. -/
def upTo (c : α) : ℕ → List α → List α
  | _, [] => []
  | 0, a :: t => if a = c then [] else a :: upTo c 0 t
  | j + 1, a :: t => a :: upTo c (if a = c then j else j + 1) t

variable {u v p o n : List α} {j : ℕ}

theorem upTo_cons_self (c : α) (j : ℕ) (t : List α) : upTo c (j + 1) (c :: t) = c :: upTo c j t := by
  rw [upTo, if_pos rfl]

theorem upTo_zero_self (c : α) (t : List α) : upTo c 0 (c :: t) = [] := by rw [upTo, if_pos rfl]

theorem upTo_cons_of_ne {a : α} (h : a ≠ c) (j : ℕ) (t : List α) : upTo c j (a :: t) = a :: upTo c j t := by
  cases j with
  | zero => rw [upTo, if_neg h]
  | succ j => rw [upTo, if_neg h]

/-- Enough separators in front hide what follows. -/
theorem upTo_append (h : j < u.count c) (v : List α) : upTo c j (u ++ v) = upTo c j u := by
  induction u generalizing j with
  | nil => cases h
  | cons a u ih =>
    rw [List.cons_append]
    by_cases ha : a = c
    · subst ha
      rw [List.count_cons_self] at h
      cases j with
      | zero => rw [upTo_zero_self, upTo_zero_self]
      | succ j => rw [upTo_cons_self, upTo_cons_self, ih (by omega)]
    · rw [List.count_cons_of_ne (by simpa using ha)] at h
      rw [upTo_cons_of_ne ha, upTo_cons_of_ne ha, ih h]

/-- Behind its separators. -/
theorem upTo_count_append (c : α) (u v : List α) : upTo c (u.count c) (u ++ v) = u ++ upTo c 0 v := by
  induction u with
  | nil => rfl
  | cons a u ih =>
    rw [List.cons_append]
    by_cases ha : a = c
    · subst ha
      rw [List.count_cons_self, upTo_cons_self, ih, List.cons_append]
    · rw [List.count_cons_of_ne (by simpa using ha), upTo_cons_of_ne ha, ih, List.cons_append]

theorem upTo_zero_append (h : c ∉ u) (v : List α) : upTo c 0 (u ++ v) = u ++ upTo c 0 v := by
  have hcount := upTo_count_append c u v
  rwa [List.count_eq_zero_of_not_mem h] at hcount

/-! ### Where the word occurs -/

theorem occurs_iff : Replace.occurs w (fun _ => true) u = true ↔ w <+: u := by
  unfold Replace.occurs
  rw [Bool.and_true, decide_eq_true_eq]

theorem replace_cons_of_not {a : α} (h : ¬ w <+: a :: u) : Replace.replace w v (a :: u) = a :: Replace.replace w v u :=
  Replace.sub_cons_of_not (by rwa [← Bool.not_eq_true, occurs_iff])

/-- A word with all its separators changes nothing before the last of them. -/
theorem upTo_replace (hfirst : p.head? = some c) (h : j < p.count c) (u : List α) :
    upTo c j (Replace.replace (p ++ o) (p ++ n) u) = upTo c j u := by
  have hword : p ++ o ≠ [] := by
    intro hnil
    rw [(List.append_eq_nil_iff.mp hnil).1] at hfirst
    cases hfirst
  induction u generalizing j with
  | nil => rfl
  | cons a u ih =>
    by_cases hoccurs : p ++ o <+: a :: u
    · obtain ⟨z, hz⟩ := hoccurs
      rw [← hz, Replace.replace_append_left hword, List.append_assoc, List.append_assoc, upTo_append h, upTo_append h]
    · rw [replace_cons_of_not hoccurs]
      by_cases ha : a = c
      · subst ha
        cases j with
        | zero => rw [upTo_zero_self, upTo_zero_self]
        | succ j => rw [upTo_cons_self, upTo_cons_self, ih (Nat.lt_of_succ_lt h)]
      · rw [upTo_cons_of_ne ha, upTo_cons_of_ne ha, ih h]

/-- Nor before the next one, where the text does not begin with the word. -/
theorem upTo_replace_of_not (hfirst : p.head? = some c) (h : ¬ p ++ o <+: c :: u) :
    upTo c (p.count c) (Replace.replace (p ++ o) (p ++ n) (c :: u)) = upTo c (p.count c) (c :: u) := by
  obtain ⟨p', rfl⟩ := List.head?_eq_some_iff.mp hfirst
  rw [replace_cons_of_not h, List.count_cons_self, upTo_cons_self, upTo_cons_self,
    upTo_replace hfirst (by rw [List.count_cons_self]; exact Nat.lt_succ_self _)]

theorem upTo_zero_replace (hfirst : p.head? = some c) (u : List α) :
    upTo c 0 (Replace.replace (p ++ o) (p ++ n) u) = upTo c 0 u :=
  upTo_replace hfirst (List.count_pos_iff.mpr (List.mem_of_mem_head? hfirst)) u

/-! ### Texts around holes -/

/-- Two fillings that begin with separators, up to as many separators as the first word in a hole has. -/
theorem upTo_fill {q r r' : κ → List α} {m : ℕ} (hd : ∀ k, d k = q k ++ r k) (he : ∀ k, e k = q k ++ r' k)
    (hm : ∀ k, (q k).count c = m) (hj : j < m) (t : List (α ⊕ κ)) : upTo c j (fill d t) = upTo c j (fill e t) := by
  induction t generalizing j with
  | nil => rfl
  | cons x t ih =>
    cases x with
    | inl a =>
      rw [fill_inl, fill_inl]
      by_cases ha : a = c
      · subst ha
        cases j with
        | zero => rw [upTo_zero_self, upTo_zero_self]
        | succ j => rw [upTo_cons_self, upTo_cons_self, ih (Nat.lt_of_succ_lt hj)]
      · rw [upTo_cons_of_ne ha, upTo_cons_of_ne ha, ih hj]
    | inr k =>
      have hcount : j < (q k).count c := by rwa [hm k]
      rw [fill_inr, fill_inr, hd, he, List.append_assoc, List.append_assoc, upTo_append hcount, upTo_append hcount]

/-- What is in front of a last separator. -/
theorem append_inj_of_last (hp : p.getLast? = some c) (hv : v.getLast? = some c) (ho : c ∉ o) (hu : c ∉ u)
    (h : v ++ u = p ++ o) : v = p ∧ u = o := by
  have hcount : v.count c = p.count c := by
    have := congrArg (List.count c) h
    rwa [List.count_append, List.count_append, List.count_eq_zero_of_not_mem ho, List.count_eq_zero_of_not_mem hu,
      Nat.add_zero, Nat.add_zero] at this
  obtain ⟨p', rfl⟩ := List.getLast?_eq_some_iff.mp hp
  obtain ⟨v', rfl⟩ := List.getLast?_eq_some_iff.mp hv
  have hcut (x : List α) (y : List α) : upTo c (x.count c) (x ++ [c] ++ y) = x := by
    rw [List.append_assoc, upTo_count_append, List.singleton_append, upTo_zero_self, List.append_nil]
  have hcount' : v'.count c = p'.count c := by
    rw [List.count_append, List.count_append] at hcount
    omega
  have hvp : v' = p' := by
    have := hcut v' u
    rw [h, hcount', hcut p' o] at this
    exact this.symm
  subst hvp
  exact ⟨rfl, List.append_cancel_left h⟩

/-- The spellings of the words `p ++ o` and `p ++ n`, whose last separator is at the end of `p`; what follows it in
the second word is spelled as it is. -/
structure Spelling (c : α) (p o n : List α) (q r : κ → List α) : Prop where
  first : p.head? = some c
  last : p.getLast? = some c
  former : c ∉ o
  latter : c ∉ n
  differ : o ≠ n
  first_spelled : ∀ k, (q k).head? = some c
  last_spelled : ∀ k, (q k).getLast? = some c
  count_spelled : ∀ k, (q k).count c = p.count c
  former_spelled : ∀ k, c ∉ r k
  differ_spelled : ∀ k, r k ≠ n

variable {q r : κ → List α}

theorem Spelling.word_ne_nil (h : Spelling c p o n q r) : p ++ o ≠ [] := by
  intro hnil
  have hfirst := h.first
  rw [(List.append_eq_nil_iff.mp hnil).1] at hfirst
  cases hfirst

/-- A word that begins at a hole is the word of the hole. -/
theorem Spelling.eq_of_start (h : Spelling c p o n q r) {x y : List α} (hstart : p ++ x = q k ++ y) : q k = p := by
  have hcut (z : List α) (v : List α) (hlast : z.getLast? = some c) (hcount : z.count c = p.count c) :
      upTo c (p.count c - 1) (z ++ v) ++ [c] = z := by
    obtain ⟨z', rfl⟩ := List.getLast?_eq_some_iff.mp hlast
    have hpred : p.count c - 1 = z'.count c := by
      rw [← hcount, List.count_append, List.count_singleton_self, Nat.add_sub_cancel]
    rw [hpred, List.append_assoc, upTo_count_append, List.singleton_append, upTo_zero_self, List.append_nil]
  have hp := hcut p x h.last rfl
  rw [hstart, hcut (q k) y (h.last_spelled k) (h.count_spelled k)] at hp
  exact hp

/-- At a hole, the word has to be spelled as it is. -/
theorem Spelling.plain_of_replace (h : Spelling c p o n q r) {x y : List α} (hxy : upTo c 0 x = upTo c 0 y)
    (hreplace : Replace.replace (p ++ o) (p ++ n) (q k ++ r k ++ x) = q k ++ n ++ y) : q k ++ r k = p ++ o := by
  have hn : upTo c 0 (n ++ y) = n ++ upTo c 0 x := by rw [upTo_zero_append h.latter, hxy]
  have hr : upTo c 0 (r k ++ x) = r k ++ upTo c 0 x := upTo_zero_append (h.former_spelled k) x
  rw [List.append_assoc, List.append_assoc] at hreplace
  obtain ⟨q', hq'⟩ := List.head?_eq_some_iff.mp (h.first_spelled k)
  by_cases hstart : p ++ o <+: q k ++ (r k ++ x)
  · -- the word occurs at the hole
    obtain ⟨z, hz⟩ := hstart
    rw [List.append_assoc] at hz
    have hqp := h.eq_of_start hz
    rw [hqp] at hz hreplace ⊢
    have hrest := List.append_cancel_left hz
    rw [← hrest, ← List.append_assoc, Replace.replace_append_left h.word_ne_nil, List.append_assoc] at hreplace
    have hend := congrArg (upTo c 0) (List.append_cancel_left hreplace)
    rw [hn, upTo_zero_append h.latter, upTo_zero_replace h.first] at hend
    rw [← hrest, upTo_zero_append h.former, List.append_cancel_left hend] at hr
    rw [List.append_cancel_right hr]
  · -- and otherwise its last part stays
    exfalso
    have hsame := upTo_replace_of_not (n := n) h.first (by rwa [hq', List.cons_append] at hstart)
    rw [← List.cons_append, ← hq', hreplace, ← h.count_spelled k, upTo_count_append, upTo_count_append, hn, hr] at hsame
    exact h.differ_spelled k (List.append_cancel_right (List.append_cancel_left hsame)).symm

/-- At a character, the word must not begin. -/
theorem Spelling.not_start_of_replace (h : Spelling c p o n q r) {a : α}
    (hreplace : Replace.replace (p ++ o) (p ++ n) (fill (fun k => q k ++ r k) (.inl a :: t)) =
      fill (fun k => q k ++ n) (.inl a :: t)) : ¬ p ++ o <+: fill (fun k => q k ++ r k) (.inl a :: t) := by
  rintro ⟨z, hz⟩
  rw [fill_inl, fill_inl] at hreplace
  rw [fill_inl] at hz
  obtain ⟨p', hp'⟩ := List.head?_eq_some_iff.mp h.first
  have ha : a = c := by
    rw [hp'] at hz
    exact (List.cons.inj hz).1.symm
  subst ha
  have hsame : upTo a (p.count a) (a :: fill (fun k => q k ++ r k) t) =
      upTo a (p.count a) (a :: fill (fun k => q k ++ n) t) := by
    rw [hp', List.count_cons_self, upTo_cons_self, upTo_cons_self,
      upTo_fill (fun _ => rfl) (fun _ => rfl) h.count_spelled]
    rw [hp', List.count_cons_self]
    exact Nat.lt_succ_self _
  rw [← hreplace, ← hz, Replace.replace_append_left h.word_ne_nil, List.append_assoc, List.append_assoc,
    upTo_count_append, upTo_count_append, upTo_zero_append h.former, upTo_zero_append h.latter,
    upTo_zero_replace h.first] at hsame
  exact h.differ (List.append_cancel_right (List.append_cancel_left hsame))

/-- The replacement is right exactly where the word is spelled as it is in every hole, and begins nowhere else. -/
theorem Spelling.replace_fill_iff (h : Spelling c p o n q r) :
    Replace.replace (p ++ o) (p ++ n) (fill (fun k => q k ++ r k) t) = fill (fun k => q k ++ n) t ↔
      (∀ k, .inr k ∈ t → q k ++ r k = p ++ o) ∧ Exact (p ++ o) (fun k => q k ++ r k) t := by
  induction t with
  | nil => exact ⟨fun _ => ⟨fun k hk => (List.not_mem_nil hk).elim, exact_nil⟩, fun _ => rfl⟩
  | cons x t ih =>
    cases x with
    | inl a =>
      have hmem : (∀ k, .inr k ∈ Sum.inl a :: t → q k ++ r k = p ++ o) ↔ ∀ k, .inr k ∈ t → q k ++ r k = p ++ o := by
        simp
      rw [hmem, exact_inl, and_left_comm, ← ih]
      constructor
      · intro hreplace
        have hnot := h.not_start_of_replace hreplace
        refine ⟨hnot, ?_⟩
        rw [fill_inl] at hnot hreplace
        rw [fill_inl, replace_cons_of_not hnot] at hreplace
        exact (List.cons.inj hreplace).2
      · rintro ⟨hnot, hrest⟩
        rw [fill_inl] at hnot ⊢
        rw [fill_inl, replace_cons_of_not hnot, hrest]
    | inr k =>
      have hmem : (∀ k', .inr k' ∈ Sum.inr k :: t → q k' ++ r k' = p ++ o) ↔
          q k ++ r k = p ++ o ∧ ∀ k', .inr k' ∈ t → q k' ++ r k' = p ++ o := by
        simp
      rw [hmem, exact_inr, and_assoc, ← ih, fill_inr, fill_inr]
      have hsplit (heq : q k ++ r k = p ++ o) : q k = p :=
        (append_inj_of_last h.last (h.last_spelled k) h.former (h.former_spelled k) heq).1
      have hzero : upTo c 0 (fill (fun k => q k ++ r k) t) = upTo c 0 (fill (fun k => q k ++ n) t) :=
        upTo_fill (fun _ => rfl) (fun _ => rfl) h.count_spelled
          (List.count_pos_iff.mpr (List.mem_of_mem_head? h.first)) t
      constructor
      · intro hreplace
        have heq := h.plain_of_replace hzero hreplace
        refine ⟨heq, ?_⟩
        rw [heq, Replace.replace_append_left h.word_ne_nil, hsplit heq] at hreplace
        exact List.append_cancel_left hreplace
      · rintro ⟨heq, hrest⟩
        rw [heq, Replace.replace_append_left h.word_ne_nil, hrest, hsplit heq]

end Template
