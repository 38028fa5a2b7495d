import Mathlib.Data.List.TakeWhile
import Mathlib.Order.Lattice

/-!
# Reading ahead in a stream

A tape that is only read forwards, where one element with a key is known in advance. What the element holds can be read
until the tape moves on.

* `next`, `Reader`: the elements that are looked for, and a reader with the one it has found;
* `Reader.skip`, `Reader.read`: going on to a key, and reading what has been found;
* `Represents`: what a reader still has before it, `represents_skip`, `read_of_represents`;
* `take`: the element of a key, `take_of_le` for elements in the order of their keys.
-/

namespace Lookahead

variable {α κ β : Type*}

/-- An element that has been found, after so many elements of the tape. -/
structure Handle (κ β : Type*) where
  key : κ
  content : β
  reads : ℕ

structure Reader (α κ β : Type*) where
  current : Option (Handle κ β)
  rest : List α
  reads : ℕ

/-- The next element that is looked for. -/
def next (select : α → Option (κ × β)) : List α → ℕ → Reader α κ β
  | [], n => ⟨none, [], n + 1⟩
  | a :: rest, n =>
      match select a with
      | some (k, b) => ⟨some ⟨k, b, n + 1⟩, rest, n + 1⟩
      | none => next select rest (n + 1)

section Definitions

variable [LinearOrder κ] (select : α → Option (κ × β)) (k : κ) (r : Reader α κ β)

def Reader.advance : Reader α κ β := next select r.rest r.reads

/-- As long as the key comes first, so many times at most. -/
def Reader.skipTimes : ℕ → Reader α κ β → Reader α κ β
  | 0, r => r
  | n + 1, r =>
      match r.current with
      | some h => if h.key < k then skipTimes n (r.advance select) else r
      | none => r

/-- `while current is not None and current.key < k: current = next(…)`. -/
def Reader.skip : Reader α κ β := r.skipTimes select k (r.rest.length + 1)

def Reader.isAt : Bool := r.current.any fun h => decide (h.key = k)

/-- What has been found, `none` when the tape has moved on. -/
def Reader.read : Option β := r.current.bind fun h => if h.reads = r.reads then some h.content else none

/-- The element of a key out of those that are left, and what is left after it. -/
def take (l : List (κ × β)) : Option β × List (κ × β) :=
  match l.dropWhile fun e => decide (e.1 < k) with
  | [] => (none, [])
  | e :: l => if e.1 = k then (some e.2, l) else (none, e :: l)

end Definitions

/-! ### What a reader has before it -/

/-- These elements are left, and the first one is known. -/
structure Represents (select : α → Option (κ × β)) (r : Reader α κ β) (l : List (κ × β)) : Prop where
  current : r.current = l.head?.map fun e => ⟨e.1, e.2, r.reads⟩
  rest : r.rest.filterMap select = l.tail

section Represents

variable {select : α → Option (κ × β)} {r : Reader α κ β} {l : List (κ × β)}

theorem represents_next (rest : List α) (n : ℕ) : Represents select (next select rest n) (rest.filterMap select) := by
  induction rest generalizing n with
  | nil => exact ⟨rfl, rfl⟩
  | cons a rest ih =>
    unfold next
    cases hselect : select a with
    | none =>
      rw [List.filterMap_cons_none hselect]
      exact ih (n + 1)
    | some e =>
      rw [List.filterMap_cons_some hselect]
      exact ⟨rfl, rfl⟩

theorem represents_advance (h : Represents select r l) : Represents select (r.advance select) l.tail := by
  rw [← h.rest]
  exact represents_next r.rest r.reads

/-- What has been found can be read. -/
theorem read_of_represents {e : κ × β} (h : Represents select r (e :: l)) : r.read = some e.2 := by
  rw [Reader.read, h.current]
  exact if_pos rfl

variable [LinearOrder κ] {k : κ}

theorem isAt_of_represents (h : Represents select r l) : r.isAt k = l.head?.any fun e => decide (e.1 = k) := by
  rw [Reader.isAt, h.current]
  cases l <;> rfl

theorem represents_skipTimes {n : ℕ} (hn : l.length ≤ n) (h : Represents select r l) :
    Represents select (r.skipTimes select k n) (l.dropWhile fun e => decide (e.1 < k)) := by
  induction n generalizing r l with
  | zero =>
    obtain rfl := List.eq_nil_of_length_eq_zero (Nat.le_zero.1 hn)
    exact h
  | succ n ih =>
    unfold Reader.skipTimes
    cases l with
    | nil =>
      rw [h.current]
      exact h
    | cons e l =>
      rw [h.current]
      show Represents select (if e.1 < k then _ else r) _
      by_cases hlt : e.1 < k
      · rw [if_pos hlt, List.dropWhile_cons_of_pos (by simpa using hlt)]
        exact ih (Nat.le_of_succ_le_succ hn) (represents_advance h)
      · rw [if_neg hlt, List.dropWhile_cons_of_neg (by simpa using hlt)]
        exact h

theorem represents_skip (h : Represents select r l) :
    Represents select (r.skip select k) (l.dropWhile fun e => decide (e.1 < k)) := by
  refine represents_skipTimes ?_ h
  have hlength := List.length_filterMap_le select r.rest
  rw [h.rest, List.length_tail] at hlength
  omega

end Represents

/-! ### Elements in the order of their keys -/

section Take

variable [LinearOrder κ] {k : κ} {l : List (κ × β)}

/-- When no key comes before `k`, the first element is looked at. -/
theorem take_of_le (h : ∀ e ∈ l, k ≤ e.1) (hl : l.Pairwise fun e f => e.1 < f.1) :
    take k l = ((l.find? fun e => decide (e.1 = k)).map Prod.snd, l.filter fun e => decide (e.1 ≠ k)) := by
  unfold take
  cases l with
  | nil => rfl
  | cons e l =>
    rw [List.forall_mem_cons] at h
    rw [List.pairwise_cons] at hl
    rw [List.dropWhile_cons_of_neg (by simpa using h.1)]
    have hrest : ∀ f ∈ l, f.1 ≠ k := fun f hf => ne_of_gt (h.1.trans_lt (hl.1 f hf))
    have hfilter : l.filter (fun f => decide (f.1 ≠ k)) = l :=
      List.filter_eq_self.2 fun f hf => decide_eq_true (hrest f hf)
    show (if e.1 = k then _ else _) = _
    by_cases he : e.1 = k
    · rw [if_pos he, List.find?_cons_of_pos (by simpa using he), List.filter_cons_of_neg (by simpa using he), hfilter]
      rfl
    · have hfind : l.find? (fun f => decide (f.1 = k)) = none :=
        List.find?_eq_none.2 fun f hf => by simpa using hrest f hf
      rw [if_neg he, List.find?_cons_of_neg (by simpa using he), hfind, List.filter_cons_of_pos (by simpa using he),
        hfilter]
      rfl

end Take

end Lookahead
