import Slurmy.Lib.Template

/-!
# Replacing with a lookahead in texts with holes

The word that is replaced may stand in a hole with something in front of it, and an occurrence of it counts only
before certain characters.

* `Right`: an occurrence ends at every hole, and none begins elsewhere;
* `upTo_sub`: what a replacement leaves in front of a separator;
* `Spelled`: holes that begin with a separator and spell a word;
* `sub_fill_iff`: where exactly the replacement puts the other word into the holes.
-/

namespace Template

open Replace (occurs sub)

variable {α κ : Type*} [DecidableEq α]

/-- The word ends every hole, with what it needs behind it, and begins at no other character. -/
structure Right (w : List α) (ahead : Option α → Bool) (d : κ → List α) (t : List (α ⊕ κ)) : Prop where
  holes : ∀ k s, .inr k :: s <:+ t → w <:+ d k ∧ ahead (fill d s).head? = true
  exact : ∀ a s, .inl a :: s <:+ t → occurs w ahead (fill d (.inl a :: s)) = false

variable {c : α} {u v x y p o n w : List α} {j m : ℕ} {ahead : Option α → Bool} {d e : κ → List α} {t : List (α ⊕ κ)}

/-- A replacement changes nothing before a separator that every occurrence has in it or in front of it. -/
theorem upTo_sub (hword : p ++ o ≠ [])
    (h : ∀ x y, u = x ++ y → x.count c + p.count c ≤ j → occurs (p ++ o) ahead y = false) :
    upTo c j (sub (p ++ o) (p ++ n) ahead 0 u) = upTo c j u := by
  induction u generalizing j with
  | nil => rfl
  | cons a u ih =>
    by_cases hoccurs : occurs (p ++ o) ahead (a :: u) = true
    · have hj : j < p.count c := by
        by_contra hle
        have hnot := h [] (a :: u) rfl (by rw [List.count_nil]; omega)
        rw [hoccurs] at hnot
        cases hnot
      obtain ⟨z, hz, hahead⟩ := Replace.occurs_start hoccurs
      rw [hz, Replace.sub_append_left hword hahead, List.append_assoc, List.append_assoc, upTo_append hj, upTo_append hj]
    · rw [Replace.sub_cons_of_not (Bool.eq_false_iff.mpr hoccurs)]
      by_cases ha : a = c
      · subst ha
        cases j with
        | zero => rw [upTo_zero_self, upTo_zero_self]
        | succ j =>
          rw [upTo_cons_self, upTo_cons_self, ih]
          intro x y hxy hcount
          refine h (a :: x) y (by rw [hxy, List.cons_append]) ?_
          rw [List.count_cons_self]
          omega
      · rw [upTo_cons_of_ne ha, upTo_cons_of_ne ha, ih]
        intro x y hxy hcount
        refine h (a :: x) y (by rw [hxy, List.cons_append]) ?_
        rwa [List.count_cons_of_ne (by simpa using ha)]

/-- The beginning of a text is known from its last separator. -/
theorem eq_of_count (hu : u.getLast? = some c) (hv : v.getLast? = some c) (hcount : u.count c = v.count c)
    (h : u ++ x = v ++ y) : u = v := by
  have hcut (z r : List α) (hz : z.getLast? = some c) : upTo c (z.count c - 1) (z ++ r) ++ [c] = z := by
    obtain ⟨z', rfl⟩ := List.getLast?_eq_some_iff.mp hz
    rw [List.count_append, List.count_singleton_self, Nat.add_sub_cancel, List.append_assoc, upTo_count_append,
      List.singleton_append, upTo_zero_self, List.append_nil]
  calc u = upTo c (u.count c - 1) (u ++ x) ++ [c] := (hcut u x hu).symm
    _ = upTo c (v.count c - 1) (v ++ y) ++ [c] := by rw [hcount, h]
    _ = v := hcut v y hv

theorem Right.suffix {s : List (α ⊕ κ)} (h : Right w ahead d t) (hs : s <:+ t) : Right w ahead d s :=
  ⟨fun k u hu => h.holes k u (hu.trans hs), fun a u hu => h.exact a u (hu.trans hs)⟩

theorem right_nil : Right w ahead d [] :=
  ⟨fun _ _ hs => absurd (List.suffix_nil.mp hs) (List.cons_ne_nil _ _),
    fun _ _ hs => absurd (List.suffix_nil.mp hs) (List.cons_ne_nil _ _)⟩

theorem right_inl {a : α} :
    Right w ahead d (.inl a :: t) ↔ occurs w ahead (fill d (.inl a :: t)) = false ∧ Right w ahead d t := by
  refine ⟨fun h => ⟨h.exact a t List.suffix_rfl, h.suffix (List.suffix_cons _ t)⟩, fun ⟨hnot, h⟩ => ⟨?_, ?_⟩⟩
  · intro k s hs
    rcases List.suffix_cons_iff.mp hs with heq | hs
    · cases heq
    · exact h.holes k s hs
  · intro b s hs
    rcases List.suffix_cons_iff.mp hs with heq | hs
    · obtain ⟨hb, rfl⟩ := List.cons.inj heq
      obtain rfl := Sum.inl.inj hb
      exact hnot
    · exact h.exact b s hs

theorem right_inr {k : κ} :
    Right w ahead d (.inr k :: t) ↔ (w <:+ d k ∧ ahead (fill d t).head? = true) ∧ Right w ahead d t := by
  refine ⟨fun h => ⟨h.holes k t List.suffix_rfl, h.suffix (List.suffix_cons _ t)⟩, fun ⟨hhole, h⟩ => ⟨?_, ?_⟩⟩
  · intro k' s hs
    rcases List.suffix_cons_iff.mp hs with heq | hs
    · obtain ⟨hk, rfl⟩ := List.cons.inj heq
      obtain rfl := Sum.inr.inj hk
      exact hhole
    · exact h.holes k' s hs
  · intro b s hs
    rcases List.suffix_cons_iff.mp hs with heq | hs
    · cases heq
    · exact h.exact b s hs

/-! ### Holes that begin with a separator -/

/-- The words `p ++ o` and `p ++ n`, whose last separator is at the end of `p`; the holes begin with a separator,
and what follows the last one is spelled as it is in the second word. -/
structure Spelled (c : α) (p o n : List α) (m : ℕ) (g r : κ → List α) : Prop where
  count : p.tail.count c + 1 = m
  last : p.getLast? = some c
  former : c ∉ o
  latter : c ∉ n
  differ : o ≠ n
  first_spelled : ∀ k, (g k).head? = some c
  last_spelled : ∀ k, (g k).getLast? = some c
  count_spelled : ∀ k, (g k).count c = m
  former_spelled : ∀ k, c ∉ r k
  differ_spelled : ∀ k, r k ≠ n

variable {g r : κ → List α} {k : κ}

theorem Spelled.word_ne_nil (h : Spelled c p o n m g r) : p ++ o ≠ [] := by
  intro hnil
  have hlast := h.last
  rw [(List.append_eq_nil_iff.mp hnil).1] at hlast
  cases hlast

theorem Spelled.count_pos (h : Spelled c p o n m g r) : 0 < p.count c :=
  List.count_pos_iff.mpr (List.mem_of_getLast? h.last)

/-- The first word has all separators of a hole, or all but the first one. -/
theorem Spelled.count_word (h : Spelled c p o n m g r) : p.count c = m ∧ p.head? = some c ∨
    p.count c + 1 = m ∧ p.head? ≠ some c := by
  have hcount := h.count
  cases p with
  | nil => exact absurd h.last (by simp)
  | cons a p =>
    by_cases ha : a = c
    · subst ha
      rw [List.count_cons_self]
      exact .inl ⟨hcount, rfl⟩
    · rw [List.count_cons_of_ne (by simpa using ha)]
      exact .inr ⟨hcount, fun hhead => ha (Option.some.inj hhead)⟩

/-- An occurrence that begins early in a hole ends with it. -/
theorem Spelled.eq_of_early (h : Spelled c p o n m g r) (hxy : g k ++ v = x ++ y) (hstart : p ++ o <+: y)
    (hcount : x.count c + p.count c ≤ m) : x ++ p = g k := by
  obtain ⟨z, rfl⟩ := hstart
  obtain ⟨g', hg'⟩ := List.head?_eq_some_iff.mp (h.first_spelled k)
  have hall : x.count c + p.count c = m := by
    rcases h.count_word with ⟨hp, -⟩ | ⟨hp, hhead⟩
    · omega
    · cases x with
      | nil =>
        -- the hole begins with a separator, and the word does not
        exfalso
        obtain ⟨a, p', rfl⟩ := List.exists_cons_of_ne_nil (l := p) (by rintro rfl; exact absurd h.last (by simp))
        rw [hg'] at hxy
        exact hhead (by rw [List.head?_cons, (List.cons.inj hxy).1])
      | cons b x =>
        rw [hg'] at hxy
        obtain rfl := (List.cons.inj hxy).1
        rw [List.count_cons_self] at hcount ⊢
        omega
  have hlast : (x ++ p).getLast? = some c := by
    rw [List.getLast?_append, h.last]
    rfl
  refine eq_of_count hlast (h.last_spelled k) ?_ (x := o ++ z) (y := v) ?_
  · rw [List.count_append, hall, h.count_spelled]
  · rw [hxy, List.append_assoc, List.append_assoc]

/-- The two fillings up to their first separators. -/
theorem Spelled.upTo_fill (h : Spelled c p o n m g r) (hj : j < m) (t : List (α ⊕ κ)) :
    upTo c j (fill (fun k => g k ++ r k) t) = upTo c j (fill (fun k => g k ++ n) t) :=
  Template.upTo_fill (fun _ => rfl) (fun _ => rfl) h.count_spelled hj t

theorem Spelled.pos (h : Spelled c p o n m g r) : 0 < m := by
  rw [← h.count]
  exact Nat.succ_pos _

/-- Up to its first separator a text stays. -/
theorem Spelled.upTo_zero_sub (h : Spelled c p o n m g r) (u : List α) :
    upTo c 0 (sub (p ++ o) (p ++ n) ahead 0 u) = upTo c 0 u :=
  upTo_sub h.word_ne_nil fun x y _ hcount => absurd h.count_pos (by omega)

/-- At a character, no occurrence begins. -/
theorem Spelled.not_occurs_of_sub (h : Spelled c p o n m g r) {a : α}
    (hsub : sub (p ++ o) (p ++ n) ahead 0 (fill (fun k => g k ++ r k) (.inl a :: t)) =
      fill (fun k => g k ++ n) (.inl a :: t)) :
    occurs (p ++ o) ahead (fill (fun k => g k ++ r k) (.inl a :: t)) = false := by
  by_contra hoccurs
  rw [Bool.not_eq_false] at hoccurs
  obtain ⟨z, hz, hahead⟩ := Replace.occurs_start hoccurs
  have hsame : upTo c (p.count c) (fill (fun k => g k ++ r k) (.inl a :: t)) =
      upTo c (p.count c) (fill (fun k => g k ++ n) (.inl a :: t)) := by
    have hcount := h.count
    obtain ⟨b, p', rfl⟩ := List.exists_cons_of_ne_nil (l := p) (by rintro rfl; exact absurd h.last (by simp))
    obtain rfl : a = b := (List.cons.inj hz).1
    rw [List.tail_cons] at hcount
    rw [fill_inl, fill_inl]
    by_cases ha : a = c
    · subst ha
      rw [List.count_cons_self, upTo_cons_self, upTo_cons_self, h.upTo_fill (by omega)]
    · rw [List.count_cons_of_ne (by simpa using ha), upTo_cons_of_ne ha, upTo_cons_of_ne ha, h.upTo_fill (by omega)]
  rw [← hsub, hz, Replace.sub_append_left h.word_ne_nil hahead, List.append_assoc, List.append_assoc, upTo_count_append,
    upTo_count_append, upTo_zero_append h.former, upTo_zero_append h.latter, h.upTo_zero_sub] at hsame
  exact h.differ (List.append_cancel_right (List.append_cancel_left hsame))

/-- At a hole, an occurrence has to end with it. -/
theorem Spelled.hole_of_sub (h : Spelled c p o n m g r) (hxy : upTo c 0 u = upTo c 0 v)
    (hsub : sub (p ++ o) (p ++ n) ahead 0 (g k ++ r k ++ u) = g k ++ n ++ v) :
    ∃ x, g k = x ++ p ∧ r k = o ∧ ahead u.head? = true := by
  have hr : upTo c 0 (r k ++ u) = r k ++ upTo c 0 u := upTo_zero_append (h.former_spelled k) u
  have hn : upTo c 0 (n ++ v) = n ++ upTo c 0 u := by rw [upTo_zero_append h.latter, hxy]
  rw [List.append_assoc, List.append_assoc] at hsub
  by_cases hearly : ∃ x y, g k ++ (r k ++ u) = x ++ y ∧ x.count c + p.count c ≤ m ∧ occurs (p ++ o) ahead y = true
  · obtain ⟨x, y, hsplit, hcount, hoccurs⟩ := hearly
    obtain ⟨z, rfl, hahead⟩ := Replace.occurs_start hoccurs
    have hgk := h.eq_of_early hsplit (List.prefix_append (p ++ o) z) hcount
    refine ⟨x, hgk.symm, ?_⟩
    have hrest : o ++ z = r k ++ u := by
      rw [← hgk, List.append_assoc, List.append_assoc] at hsplit
      exact (List.append_cancel_left (List.append_cancel_left hsplit)).symm
    have hbefore : ∀ x' s, x = x' ++ s → s ≠ [] → occurs (p ++ o) ahead (s ++ (p ++ o ++ z)) = false := by
      intro x' s hx hs
      by_contra hsome
      rw [Bool.not_eq_false] at hsome
      obtain ⟨z', hz', -⟩ := Replace.occurs_start hsome
      have hgk' := h.eq_of_early (x := x') (y := s ++ (p ++ o ++ z)) (by rw [hsplit, hx, List.append_assoc])
        ⟨z', hz'.symm⟩ (by rw [hx, List.count_append] at hcount; omega)
      rw [← hgk, hx, List.append_left_inj] at hgk'
      exact hs (List.append_cancel_left (hgk'.symm.trans (List.append_nil x').symm))
    rw [hsplit, Replace.sub_append_of_not hbefore, Replace.sub_append_left h.word_ne_nil hahead, ← hgk, List.append_assoc,
      List.append_assoc] at hsub
    have hend : upTo c 0 z = upTo c 0 u := by
      have := congrArg (upTo c 0) (List.append_cancel_left (List.append_cancel_left (List.append_cancel_left hsub)))
      rw [h.upTo_zero_sub] at this
      rw [this, hxy]
    have hro : r k = o := by
      rw [← hrest, upTo_zero_append h.former, hend] at hr
      exact (List.append_cancel_right hr).symm
    rw [hro] at hrest
    exact ⟨hro, by rwa [← List.append_cancel_left hrest]⟩
  · -- no occurrence is early enough to change the last part of the hole
    exfalso
    have hsame : upTo c m (sub (p ++ o) (p ++ n) ahead 0 (g k ++ (r k ++ u))) = upTo c m (g k ++ (r k ++ u)) := by
      refine upTo_sub h.word_ne_nil fun x y hsplit hcount => ?_
      by_contra hsome
      exact hearly ⟨x, y, hsplit, hcount, Bool.not_eq_false _ ▸ hsome⟩
    rw [hsub, ← h.count_spelled k, upTo_count_append, upTo_count_append, hn, hr] at hsame
    exact h.differ_spelled k (List.append_cancel_right (List.append_cancel_left hsame)).symm

/-- At a hole with an occurrence that ends with it. -/
theorem Spelled.sub_hole (h : Spelled c p o n m g r) (hgk : g k = x ++ p) (hr : r k = o) (hahead : ahead u.head? = true) :
    sub (p ++ o) (p ++ n) ahead 0 (g k ++ r k ++ u) = g k ++ n ++ sub (p ++ o) (p ++ n) ahead 0 u := by
  have hsplit : g k ++ r k ++ u = x ++ (p ++ o ++ u) := by rw [hgk, hr]; simp only [List.append_assoc]
  have hbefore : ∀ x' s, x = x' ++ s → s ≠ [] → occurs (p ++ o) ahead (s ++ (p ++ o ++ u)) = false := by
    intro x' s hx hs
    by_contra hsome
    rw [Bool.not_eq_false] at hsome
    obtain ⟨z, hz, -⟩ := Replace.occurs_start hsome
    have hcount : x'.count c + p.count c ≤ m := by
      rw [← h.count_spelled k, hgk, hx, List.count_append, List.count_append]
      omega
    have hgk' := h.eq_of_early (k := k) (v := r k ++ u) (x := x') (y := s ++ (p ++ o ++ u))
      (by rw [← List.append_assoc, hsplit, hx, List.append_assoc]) ⟨z, hz.symm⟩ hcount
    rw [hgk, hx, List.append_left_inj] at hgk'
    exact hs (List.append_cancel_left (hgk'.symm.trans (List.append_nil x').symm))
  rw [hsplit, Replace.sub_append_of_not hbefore, Replace.sub_append_left h.word_ne_nil hahead, hgk]
  simp only [List.append_assoc]

/-- The replacement is right exactly where an occurrence ends every hole and none begins elsewhere. -/
theorem Spelled.sub_fill_iff (h : Spelled c p o n m g r) (ahead : Option α → Bool) (t : List (α ⊕ κ)) :
    sub (p ++ o) (p ++ n) ahead 0 (fill (fun k => g k ++ r k) t) = fill (fun k => g k ++ n) t ↔
      Right (p ++ o) ahead (fun k => g k ++ r k) t := by
  induction t with
  | nil => exact ⟨fun _ => right_nil, fun _ => rfl⟩
  | cons x t ih =>
    cases x with
    | inl a =>
      rw [right_inl, ← ih]
      constructor
      · intro hsub
        have hnot := h.not_occurs_of_sub hsub
        refine ⟨hnot, ?_⟩
        rw [fill_inl] at hnot hsub
        rw [fill_inl, Replace.sub_cons_of_not hnot] at hsub
        exact (List.cons.inj hsub).2
      · rintro ⟨hnot, hrest⟩
        rw [fill_inl] at hnot ⊢
        rw [fill_inl, Replace.sub_cons_of_not hnot, hrest]
    | inr k =>
      rw [right_inr, ← ih, fill_inr, fill_inr]
      constructor
      · intro hsub
        obtain ⟨x, hgk, hr, hahead⟩ := h.hole_of_sub (h.upTo_fill h.pos t) hsub
        rw [h.sub_hole hgk hr hahead] at hsub
        refine ⟨⟨⟨x, ?_⟩, hahead⟩, List.append_cancel_left hsub⟩
        show x ++ (p ++ o) = g k ++ r k
        rw [hgk, hr, List.append_assoc]
      · rintro ⟨⟨⟨x, hx⟩, hahead⟩, hrest⟩
        rw [← List.append_assoc] at hx
        have hlast : (x ++ p).getLast? = some c := by
          rw [List.getLast?_append, h.last]
          rfl
        obtain ⟨hgk, hr⟩ := append_inj_of_last (h.last_spelled k) hlast (h.former_spelled k) h.former hx
        rw [h.sub_hole hgk.symm hr.symm hahead, hrest]

end Template
