import Mathlib.Algebra.BigOperators.Group.List.Basic
import Mathlib.Algebra.Order.BigOperators.Group.List
import Mathlib.Data.List.Nodup
import Mathlib.Tactic.Ring

/-!
# Counters

Python's `collections.Counter`, as a list of keys with their counts in the order of insertion.

* `add`, `count`: `c[k] += n` and `c[k]`;
* `totalWhere`: the sum of the counts of some keys, `totalWhere_add`, `totalWhere_foldl`;
* `sum_count`: the same sum, taken over a list of the keys;
* `totalWhere_ones`, `count_ones`, `exists_of_mem_ones`: each element counts once;
* `sum_positive`: sums without zeros;
* `totalWhere_eq`, `count_eq_totalWhere`: the count of one key.
-/

namespace Counter

variable {α κ : Type*} [DecidableEq κ]

/-- `c[k] += n`. -/
def add : List (κ × ℤ) → κ → ℤ → List (κ × ℤ)
  | [], k, n => [(k, n)]
  | (k', m) :: c, k, n => if k' = k then (k', m + n) :: c else (k', m) :: add c k n

/-- `c[k]`. -/
def count : List (κ × ℤ) → κ → ℤ
  | [], _ => 0
  | (k', m) :: c, k => if k' = k then m else count c k

/-- The sum of the counts of these keys. -/
def totalWhere (p : κ → Bool) (c : List (κ × ℤ)) : ℤ := (c.map fun e => if p e.1 then e.2 else 0).sum

variable {c : List (κ × ℤ)} {k : κ} {n : ℤ} {p : κ → Bool}

theorem totalWhere_cons (p : κ → Bool) (e : κ × ℤ) (c : List (κ × ℤ)) :
    totalWhere p (e :: c) = (if p e.1 then e.2 else 0) + totalWhere p c := List.sum_cons

theorem totalWhere_add (p : κ → Bool) (c : List (κ × ℤ)) (k : κ) (n : ℤ) :
    totalWhere p (add c k n) = totalWhere p c + if p k then n else 0 := by
  induction c with
  | nil =>
    rw [add, totalWhere_cons]
    exact add_comm _ _
  | cons e c ih =>
    obtain ⟨k', m⟩ := e
    unfold add
    by_cases hk : k' = k
    · subst hk
      rw [if_pos rfl, totalWhere_cons, totalWhere_cons]
      cases p k' with
      | true =>
        rw [if_pos rfl, if_pos rfl, if_pos rfl]
        ring
      | false => simp
    · rw [if_neg hk, totalWhere_cons, totalWhere_cons, ih, add_assoc]

/-- One more for each element. -/
theorem totalWhere_foldl (p : κ → Bool) (f : α → κ) (g : α → ℤ) (l : List α) (c : List (κ × ℤ)) :
    totalWhere p (l.foldl (fun c a => add c (f a) (g a)) c) =
      totalWhere p c + (l.map fun a => if p (f a) then g a else 0).sum := by
  induction l generalizing c with
  | nil => exact (add_zero _).symm
  | cons a l ih => rw [List.foldl_cons, ih, totalWhere_add, List.map_cons, List.sum_cons, add_assoc]

/-- A number of elements. -/
theorem sum_indicator (q : α → Bool) (l : List α) :
    (l.map fun a => if q a then (1 : ℤ) else 0).sum = ((l.filter q).length : ℤ) := by
  induction l with
  | nil => rfl
  | cons a l ih =>
    rw [List.map_cons, List.sum_cons, ih]
    cases hq : q a with
    | true =>
      rw [List.filter_cons_of_pos hq, List.length_cons, if_pos rfl]
      push_cast
      ring
    | false => rw [List.filter_cons_of_neg (by rw [hq]; exact Bool.false_ne_true), if_neg Bool.false_ne_true, zero_add]

/-- What is zero adds nothing. -/
theorem sum_positive {M : Type*} [AddMonoid M] [LinearOrder M] {g : α → M} {l : List α} (h : ∀ a ∈ l, 0 ≤ g a) :
    ((l.filter fun a => decide (0 < g a)).map g).sum = (l.map g).sum := by
  induction l with
  | nil => rfl
  | cons a l ih =>
    rw [List.forall_mem_cons] at h
    have ih := ih h.2
    by_cases ha : 0 < g a
    · rw [List.filter_cons, if_pos (decide_eq_true ha), List.map_cons, List.sum_cons, ih, List.map_cons, List.sum_cons]
    · have hzero : g a = 0 := le_antisymm (not_lt.1 ha) h.1
      rw [List.filter_cons, if_neg (by simpa using ha), ih, List.map_cons, List.sum_cons, hzero, zero_add]

/-- What is left out adds nothing. -/
theorem sum_filter_of_zero {M : Type*} [AddMonoid M] {q : α → Bool} {g : α → M} {l : List α}
    (h : ∀ a ∈ l, q a = false → g a = 0) : ((l.filter q).map g).sum = (l.map g).sum := by
  induction l with
  | nil => rfl
  | cons a l ih =>
    rw [List.forall_mem_cons] at h
    rw [List.map_cons, List.sum_cons, ← ih h.2]
    cases hq : q a with
    | true => rw [List.filter_cons_of_pos hq, List.map_cons, List.sum_cons]
    | false => rw [List.filter_cons_of_neg (by rw [hq]; exact Bool.false_ne_true), h.1 hq, zero_add]

/-! ### Keys -/

theorem mem_keys_add {k' : κ} : k' ∈ (add c k n).map Prod.fst ↔ k' = k ∨ k' ∈ c.map Prod.fst := by
  induction c with
  | nil => simp [add]
  | cons e c ih =>
    obtain ⟨k'', m⟩ := e
    unfold add
    by_cases hk : k'' = k
    · subst hk
      rw [if_pos rfl]
      simp
    · rw [if_neg hk, List.map_cons, List.mem_cons, ih, List.map_cons, List.mem_cons]
      exact or_left_comm

theorem nodup_keys_add (h : (c.map Prod.fst).Nodup) : ((add c k n).map Prod.fst).Nodup := by
  induction c with
  | nil => exact List.nodup_singleton k
  | cons e c ih =>
    obtain ⟨k', m⟩ := e
    rw [List.map_cons, List.nodup_cons] at h
    unfold add
    by_cases hk : k' = k
    · rw [if_pos hk]
      exact List.nodup_cons.2 h
    · rw [if_neg hk, List.map_cons, List.nodup_cons, mem_keys_add, not_or]
      exact ⟨⟨hk, h.1⟩, ih h.2⟩

theorem nodup_keys_foldl {f : α → κ} {g : α → ℤ} {l : List α} (h : (c.map Prod.fst).Nodup) :
    ((l.foldl (fun c a => add c (f a) (g a)) c).map Prod.fst).Nodup := by
  induction l generalizing c with
  | nil => exact h
  | cons a l ih => exact ih (nodup_keys_add h)

theorem nonneg_add (h : ∀ e ∈ c, 0 ≤ e.2) (hn : 0 ≤ n) : ∀ e ∈ add c k n, 0 ≤ e.2 := by
  induction c with
  | nil =>
    intro e he
    rw [add, List.mem_singleton] at he
    rwa [he]
  | cons e' c ih =>
    obtain ⟨k', m⟩ := e'
    rw [List.forall_mem_cons] at h
    unfold add
    by_cases hk : k' = k
    · rw [if_pos hk, List.forall_mem_cons]
      exact ⟨add_nonneg h.1 hn, h.2⟩
    · rw [if_neg hk, List.forall_mem_cons]
      exact ⟨h.1, ih h.2⟩

theorem nonneg_foldl {f : α → κ} {g : α → ℤ} {l : List α} (h : ∀ e ∈ c, 0 ≤ e.2) (hg : ∀ a ∈ l, 0 ≤ g a) :
    ∀ e ∈ l.foldl (fun c a => add c (f a) (g a)) c, 0 ≤ e.2 := by
  induction l generalizing c with
  | nil => exact h
  | cons a l ih =>
    rw [List.forall_mem_cons] at hg
    exact ih (nonneg_add h hg.1) hg.2

/-! ### The counts of some keys -/

theorem count_of_not_mem (h : k ∉ c.map Prod.fst) : count c k = 0 := by
  induction c with
  | nil => rfl
  | cons e c ih =>
    rw [List.map_cons, List.mem_cons, not_or] at h
    unfold count
    rw [if_neg (Ne.symm h.1), ih h.2]

/-- Summed over a list that has all of the keys. -/
theorem sum_count {f : α → κ} {l : List α} (hc : (c.map Prod.fst).Nodup) (hl : (l.map f).Nodup)
    (hp : ∀ a ∈ l, p (f a) = true) (hall : ∀ k ∈ c.map Prod.fst, p k = true → k ∈ l.map f) :
    (l.map fun a => count c (f a)).sum = totalWhere p c := by
  induction c with
  | nil =>
    simp [count, totalWhere]
  | cons e c ih =>
    obtain ⟨k', m⟩ := e
    rw [List.map_cons, List.nodup_cons] at hc
    rw [List.map_cons, List.forall_mem_cons] at hall
    have hrest := ih hc.2 hall.2
    -- only the key `k'` counts differently
    have hsplit (a : α) : count ((k', m) :: c) (f a) = (if f a = k' then m else 0) + count c (f a) := by
      show (if k' = f a then m else count c (f a)) = _
      by_cases ha : f a = k'
      · rw [if_pos ha.symm, if_pos ha, ha, count_of_not_mem hc.1, add_zero]
      · rw [if_neg (Ne.symm ha), if_neg ha, zero_add]
    have hone : (l.map fun a => if f a = k' then m else 0).sum = if p k' then m else 0 := by
      have hcount : (l.map fun a => if f a = k' then m else 0).sum = ((l.map f).count k' : ℤ) * m := by
        clear hl hp hall ih hrest hsplit
        induction l with
        | nil => simp
        | cons a l ih =>
          rw [List.map_cons, List.sum_cons, ih, List.map_cons]
          by_cases ha : f a = k'
          · rw [if_pos ha, ha, List.count_cons_self]
            push_cast
            ring
          · rw [if_neg ha, List.count_cons_of_ne ha, zero_add]
      rw [hcount]
      cases hpk : p k' with
      | true =>
        rw [List.count_eq_one_of_mem hl (hall.1 hpk), if_pos rfl]
        push_cast
        ring
      | false =>
        have hnot : k' ∉ l.map f := by
          intro hmem
          obtain ⟨a, ha, rfl⟩ := List.mem_map.1 hmem
          rw [hp a ha] at hpk
          cases hpk
        rw [List.count_eq_zero_of_not_mem hnot, if_neg Bool.false_ne_true]
        simp
    rw [totalWhere_cons, ← hrest, ← hone, ← List.sum_map_add]
    exact congrArg List.sum (List.map_congr_left fun a _ => hsplit a)

/-- The count of an entry. -/
theorem totalWhere_eq (hc : (c.map Prod.fst).Nodup) {e : κ × ℤ} (he : e ∈ c) : totalWhere (fun k => decide (k = e.1)) c = e.2 := by
  induction c with
  | nil => cases he
  | cons e' c ih =>
    rw [List.map_cons, List.nodup_cons] at hc
    have hzero {c : List (κ × ℤ)} {k : κ} (hk : k ∉ c.map Prod.fst) : totalWhere (fun k' => decide (k' = k)) c = 0 := by
      induction c with
      | nil => rfl
      | cons e'' c ih =>
        rw [List.map_cons, List.mem_cons, not_or] at hk
        rw [totalWhere_cons, ih hk.2, if_neg (by simpa using Ne.symm hk.1), add_zero]
    rw [totalWhere_cons]
    rcases List.mem_cons.1 he with rfl | he
    · rw [if_pos (decide_eq_true rfl), hzero hc.1, add_zero]
    · have hne : e'.1 ≠ e.1 := fun heq => hc.1 (heq ▸ List.mem_map_of_mem he)
      rw [ih hc.2 he, if_neg (by simpa using hne), zero_add]

theorem count_eq_totalWhere (hc : (c.map Prod.fst).Nodup) (k : κ) : count c k = totalWhere (fun k' => decide (k' = k)) c := by
  induction c with
  | nil => rfl
  | cons e c ih =>
    obtain ⟨k', m⟩ := e
    rw [List.map_cons, List.nodup_cons] at hc
    rw [totalWhere_cons, ← ih hc.2]
    show (if k' = k then m else count c k) = _
    by_cases hk : k' = k
    · subst hk
      rw [if_pos rfl, if_pos (decide_eq_true rfl), count_of_not_mem hc.1, add_zero]
    · rw [if_neg hk, if_neg (by simpa using hk), zero_add]

/-- The number of elements whose key is counted. -/
theorem totalWhere_ones (p : κ → Bool) (f : α → κ) (l : List α) :
    totalWhere p (l.foldl (fun c a => add c (f a) 1) []) = ((l.filter fun a => p (f a)).length : ℤ) := by
  rw [totalWhere_foldl, sum_indicator]
  exact zero_add _

theorem nodup_keys_ones (f : α → κ) (l : List α) :
    ((l.foldl (fun c a => add c (f a) (1 : ℤ)) []).map Prod.fst).Nodup := nodup_keys_foldl List.nodup_nil

/-- The number of elements with a key. -/
theorem count_ones (f : α → κ) (l : List α) (k : κ) :
    count (l.foldl (fun c a => add c (f a) 1) []) k = ((l.filter fun a => decide (f a = k)).length : ℤ) := by
  rw [count_eq_totalWhere (nodup_keys_ones f l), totalWhere_ones]

/-- Every key is that of an element. -/
theorem exists_of_mem_ones {f : α → κ} {l : List α} {e : κ × ℤ} (h : e ∈ l.foldl (fun c a => add c (f a) 1) []) :
    ∃ a ∈ l, f a = e.1 := by
  have hkeys (c : List (κ × ℤ)) : e.1 ∈ (l.foldl (fun c a => add c (f a) 1) c).map Prod.fst →
      e.1 ∈ c.map Prod.fst ∨ ∃ a ∈ l, f a = e.1 := by
    clear h
    induction l generalizing c with
    | nil => exact .inl
    | cons a l ih =>
      intro h
      rcases ih (add c (f a) 1) h with h | ⟨b, hb, heq⟩
      · rcases mem_keys_add.mp h with h | h
        · exact .inr ⟨a, List.mem_cons_self, h.symm⟩
        · exact .inl h
      · exact .inr ⟨b, List.mem_cons_of_mem a hb, heq⟩
  exact (hkeys [] (List.mem_map_of_mem h)).resolve_left List.not_mem_nil

omit [DecidableEq κ] in
theorem totalWhere_perm {c' : List (κ × ℤ)} (h : c.Perm c') (p : κ → Bool) : totalWhere p c = totalWhere p c' :=
  (h.map _).sum_eq

end Counter
