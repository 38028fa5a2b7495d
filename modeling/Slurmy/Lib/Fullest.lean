import Mathlib.Data.List.Sort
import Mathlib.Algebra.BigOperators.Group.Finset.Basic
import Mathlib.Algebra.Order.BigOperators.Group.Finset
import Mathlib.Tactic.Linarith

/-!
# The greatest sum of some values

Among the sets of at most `k` entries of a list, the first `k` in descending order of their values have the
greatest sum.

* `fullest`: the list in descending order;
* `sum_le_fullest`: no set has a greater sum;
* `exists_sum_iff`: a sum is reached by some set when the first ones reach it.
-/

namespace Fullest

variable {α : Type*} [DecidableEq α] (f : α → ℕ)

/-- In descending order of the values. -/
def fullest (l : List α) : List α := l.insertionSort fun a b => f b ≤ f a

theorem perm_fullest (l : List α) : (fullest f l).Perm l := List.perm_insertionSort _ _

theorem pairwise_fullest (l : List α) : (fullest f l).Pairwise fun a b => f b ≤ f a := by
  have : Std.Total fun a b : α => f b ≤ f a := ⟨fun a b => le_total (f b) (f a)⟩
  have : IsTrans α fun a b : α => f b ≤ f a := ⟨fun _ _ _ h h' => le_trans h' h⟩
  exact List.pairwise_insertionSort _ l

variable {f}

/-- At most `k` entries of a descending list. -/
theorem sum_le_take {l : List α} (hl : l.Pairwise fun a b => f b ≤ f a) {S : Finset α} {k : ℕ} (hS : ∀ a ∈ S, a ∈ l)
    (hk : S.card ≤ k) : ∑ a ∈ S, f a ≤ ((l.take k).map f).sum := by
  induction l generalizing S k with
  | nil =>
    have hempty : S = ∅ := Finset.eq_empty_of_forall_notMem fun a ha => List.not_mem_nil (hS a ha)
    rw [hempty, Finset.sum_empty]
    exact Nat.zero_le _
  | cons a l ih =>
    obtain ⟨hle, hl'⟩ := List.pairwise_cons.1 hl
    rcases Finset.eq_empty_or_nonempty S with rfl | ⟨b, hb⟩
    · rw [Finset.sum_empty]
      exact Nat.zero_le _
    · -- the first entry is worth as much as any other one that leaves for it
      obtain ⟨c, hc, hmax⟩ : ∃ c ∈ S, f c ≤ f a ∧ ∀ d ∈ S.erase c, d ∈ l := by
        by_cases ha : a ∈ S
        · refine ⟨a, ha, le_rfl, fun d hd => ?_⟩
          exact (List.mem_cons.1 (hS d (Finset.mem_of_mem_erase hd))).resolve_left (Finset.ne_of_mem_erase hd)
        · have hrest : ∀ d ∈ S, d ∈ l := fun d hd =>
            (List.mem_cons.1 (hS d hd)).resolve_left fun heq => ha (heq ▸ hd)
          exact ⟨b, hb, hle b (hrest b hb), fun d hd => hrest d (Finset.mem_of_mem_erase hd)⟩
      have hcard := Finset.card_erase_add_one hc
      obtain ⟨m, rfl⟩ : ∃ m, k = m + 1 := ⟨k - 1, by omega⟩
      have hrest := ih hl' hmax.2 (k := m) (by omega)
      have hsum : f c + ∑ d ∈ S.erase c, f d = ∑ d ∈ S, f d := Finset.add_sum_erase S f hc
      rw [List.take_succ_cons, List.map_cons, List.sum_cons]
      omega

theorem sum_le_fullest {l : List α} {S : Finset α} {k : ℕ} (hS : ∀ a ∈ S, a ∈ l) (hk : S.card ≤ k) :
    ∑ a ∈ S, f a ≤ (((fullest f l).take k).map f).sum :=
  sum_le_take (pairwise_fullest f l) (fun a ha => (perm_fullest f l).symm.subset (hS a ha)) hk

/-- The first `k` entries are a set. -/
theorem exists_fullest {l : List α} (hl : l.Nodup) (k : ℕ) :
    ∃ S : Finset α, (∀ a ∈ S, a ∈ l) ∧ S.card = min k l.length ∧
      ∑ a ∈ S, f a = (((fullest f l).take k).map f).sum := by
  have hnodup : ((fullest f l).take k).Nodup :=
    (List.take_sublist _ _).nodup ((perm_fullest f l).nodup_iff.2 hl)
  refine ⟨((fullest f l).take k).toFinset, fun a ha => ?_, ?_, ?_⟩
  · exact (perm_fullest f l).subset (List.mem_of_mem_take (List.mem_toFinset.1 ha))
  · rw [List.toFinset_card_of_nodup hnodup, List.length_take, (perm_fullest f l).length_eq]
  · exact List.sum_toFinset f hnodup

/-- `m` is reached by a set of at most `k` entries. -/
theorem exists_sum_iff {l : List α} (hl : l.Nodup) {k m : ℕ} :
    (∃ S : Finset α, (∀ a ∈ S, a ∈ l) ∧ S.card ≤ k ∧ m ≤ ∑ a ∈ S, f a) ↔
      m ≤ (((fullest f l).take k).map f).sum := by
  constructor
  · rintro ⟨S, hS, hcard, hm⟩
    exact hm.trans (sum_le_fullest hS hcard)
  · intro hm
    obtain ⟨S, hS, hcard, hsum⟩ := exists_fullest (f := f) hl k
    exact ⟨S, hS, hcard ▸ min_le_left _ _, hsum ▸ hm⟩

/-- `m` is reached by a set of exactly `k` entries. -/
theorem exists_sum_eq_iff {l : List α} (hl : l.Nodup) {k m : ℕ} :
    (∃ S : Finset α, (∀ a ∈ S, a ∈ l) ∧ S.card = k ∧ m ≤ ∑ a ∈ S, f a) ↔
      k ≤ l.length ∧ m ≤ (((fullest f l).take k).map f).sum := by
  constructor
  · rintro ⟨S, hS, rfl, hm⟩
    refine ⟨?_, hm.trans (sum_le_fullest hS le_rfl)⟩
    rw [← List.toFinset_card_of_nodup hl]
    exact Finset.card_le_card fun a ha => List.mem_toFinset.2 (hS a ha)
  · rintro ⟨hk, hm⟩
    obtain ⟨S, hS, hcard, hsum⟩ := exists_fullest (f := f) hl k
    exact ⟨S, hS, hcard.trans (min_eq_left hk), hsum ▸ hm⟩

end Fullest
