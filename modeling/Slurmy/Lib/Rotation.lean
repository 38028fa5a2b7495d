import Mathlib.Data.List.Rotate
import Mathlib.Data.Int.ModEq
import Mathlib.Algebra.Order.Group.Int
import Mathlib.Data.Finset.Card
import Mathlib.Data.Finset.Range

/-!
# Windows of a rotated list

The first `m` entries of a list that is rotated by one more place on every turn: over as many turns as the
list has entries, each entry is among them `m` times.

* `mem_take_rotate_iff`: the entry at `j` is among the first `m` when `(j - k) % n < m`;
* `card_turns`: the number of turns with that.
-/

namespace Rotation

variable {α : Type*} {l : List α}

/-- An entry of the rotated list comes from the place that many further on. -/
theorem mem_take_rotate_iff (hl : l.Nodup) {j k m : ℕ} (hj : j < l.length) (hk : k < l.length)
    (hm : m ≤ l.length) : l[j] ∈ (l.drop k ++ l.take k).take m ↔ (((j : ℤ) - k) % l.length).toNat < m := by
  rw [← List.rotate_eq_drop_append_take hk.le, List.mem_take_iff_getElem]
  have hn : (0 : ℤ) < l.length := by omega
  constructor
  · rintro ⟨i, hi, heq⟩
    rw [List.getElem_rotate, hl.getElem_inj_iff] at heq
    rw [List.length_rotate] at hi
    have hmod : ((j : ℤ) - k) % l.length = i := by
      rw [← heq, Int.natCast_mod, Int.emod_sub_emod, Int.natCast_add, add_sub_cancel_right]
      exact Int.emod_eq_of_lt (by omega) (by omega)
    omega
  · intro hlt
    have hnonneg := Int.emod_nonneg ((j : ℤ) - k) hn.ne'
    have hbound := Int.emod_lt_of_pos ((j : ℤ) - k) hn
    refine ⟨(((j : ℤ) - k) % l.length).toNat, by rw [List.length_rotate]; omega, ?_⟩
    rw [List.getElem_rotate, hl.getElem_inj_iff]
    have hmod : (((((j : ℤ) - k) % l.length).toNat + k) % l.length : ℤ) = j := by
      rw [Int.toNat_of_nonneg hnonneg, Int.emod_add_emod, sub_add_cancel]
      exact Int.emod_eq_of_lt (by omega) (by omega)
    exact_mod_cast hmod

/-- Among `n` turns in a row, `m` have their distance to `c` below `m`. The distance is its own inverse. -/
theorem card_turns {n m : ℕ} (hm : m ≤ n) (c : ℤ) :
    ((Finset.range n).filter fun s : ℕ => ((c - s) % n).toNat < m).card = m := by
  have hinv : ∀ s < n, ((c - ((c - s) % n).toNat) % n).toNat = s := by
    intro s hs
    have hn : (0 : ℤ) < n := by omega
    rw [Int.toNat_of_nonneg (Int.emod_nonneg _ hn.ne'), Int.sub_emod_emod, sub_sub_cancel]
    rw [Int.emod_eq_of_lt (by omega) (by omega)]
    rfl
  have hlt : ∀ s < n, ((c - s) % n).toNat < n := by
    intro s hs
    have hn : (0 : ℤ) < n := by omega
    have hbound := Int.emod_lt_of_pos (c - s) hn
    omega
  have hcard : ((Finset.range n).filter fun s : ℕ => ((c - s) % n).toNat < m).card = (Finset.range m).card := by
    refine Finset.card_nbij' (fun s => ((c - s) % n).toNat) (fun s => ((c - s) % n).toNat) ?_ ?_ ?_ ?_
    · intro s hs
      exact Finset.mem_coe.2 (Finset.mem_range.2 (Finset.mem_filter.1 hs).2)
    · intro s hs
      have hsm : s < m := Finset.mem_range.1 hs
      refine Finset.mem_coe.2 (Finset.mem_filter.2 ⟨Finset.mem_range.2 (hlt s (by omega)), ?_⟩)
      rw [hinv s (by omega)]
      exact hsm
    · intro s hs
      exact hinv s (Finset.mem_range.1 (Finset.mem_filter.1 hs).1)
    · intro s hs
      have hsm : s < m := Finset.mem_range.1 hs
      exact hinv s (by omega)
  rw [hcard, Finset.card_range]

end Rotation
