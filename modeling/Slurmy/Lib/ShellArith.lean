import Mathlib.Algebra.Order.Ring.Int
import Mathlib.Tactic.SplitIfs

/-!
# Shell arithmetic

Numbers in `$((…))` and `((…))` of bash: integers of 64 bits that wrap around, written in decimal, or in octal with a
leading zero.

* `wrap`: the value of a result;
* `Fits`, `wrap_of_fits`: where it is the result itself;
* `div`, `div_pos_iff`: quotients;
* `value`: the value of a text of digits.
-/

namespace ShellArith

/-- The value of a result, in 64 bits with a sign. -/
@[irreducible]
def wrap (n : ℤ) : ℤ := (BitVec.ofInt 64 n).toInt

/-- The result is a number of 64 bits. -/
def Fits (n : ℤ) : Prop := -2 ^ 63 ≤ n ∧ n < 2 ^ 63

instance (n : ℤ) : Decidable (Fits n) := inferInstanceAs (Decidable (_ ∧ _))

theorem wrap_eq_bmod (n : ℤ) : wrap n = n.bmod (2 ^ 64) := by
  unfold wrap
  exact BitVec.toInt_ofInt n

theorem wrap_of_fits {n : ℤ} (h : Fits n) : wrap n = n := by
  obtain ⟨hlow, hhigh⟩ := h
  rw [wrap_eq_bmod, Int.bmod_def]
  split_ifs <;> omega

theorem wrap_natCast {n : ℕ} (h : n < 2 ^ 63) : wrap n = n := wrap_of_fits ⟨by omega, by omega⟩

theorem fits_wrap (n : ℤ) : Fits (wrap n) := by
  unfold Fits
  rw [wrap_eq_bmod, Int.bmod_def]
  split_ifs <;> omega

/-- A number that is not negative only gets smaller. -/
theorem wrap_le {n : ℤ} (h : 0 ≤ n) : wrap n ≤ n := by
  rw [wrap_eq_bmod, Int.bmod_def]
  split_ifs <;> omega

/-- Nothing is lost by wrapping the parts first. -/
theorem wrap_wrap_add (m n : ℤ) : wrap (wrap m + n) = wrap (m + n) := by
  simp only [wrap_eq_bmod]
  exact Int.bmod_add_bmod

/-- A quotient, rounded towards zero; zero for a division by zero, which is an error. -/
def div (m n : ℤ) : ℤ := wrap ((wrap m).tdiv (wrap n))

theorem wrap_zero : wrap 0 = 0 := wrap_of_fits (by decide)

theorem wrap_wrap (n : ℤ) : wrap (wrap n) = wrap n := wrap_of_fits (fits_wrap n)

theorem div_natCast {m n : ℕ} (hm : m < 2 ^ 63) (hn : n < 2 ^ 63) : div m n = (m / n : ℕ) := by
  unfold div
  rw [wrap_natCast hm, wrap_natCast hn, ← Int.ofNat_tdiv]
  exact wrap_natCast ((Nat.div_le_self m n).trans_lt hm)

theorem wrap_div (m n : ℤ) : wrap (div m n) = div m n := wrap_wrap _

/-- Only the values of the parts count. -/
theorem div_congr {m m' n n' : ℤ} (hm : wrap m = wrap m') (hn : wrap n = wrap n') : div m n = div m' n' := by
  unfold div
  rw [hm, hn]

/-- A quotient fits, but for that of the smallest number by `-1`. -/
theorem natAbs_tdiv_le (m n : ℤ) : (m.tdiv n).natAbs ≤ m.natAbs := by
  rw [Int.natAbs_tdiv]
  exact Nat.div_le_self _ _

theorem div_nonpos {m : ℤ} {n : ℕ} (hm : wrap m < n) (hn : n < 2 ^ 63) : div m n ≤ 0 := by
  have hfits := fits_wrap m
  have hle : (wrap m).tdiv n ≤ 0 := by
    rcases lt_or_ge (wrap m) 0 with hneg | hpos
    · have hneg' : 0 ≤ (-wrap m).tdiv n := Int.tdiv_nonneg (by omega) (Int.natCast_nonneg n)
      rw [Int.neg_tdiv] at hneg'
      omega
    · rw [Int.tdiv_eq_zero_of_lt hpos hm]
  have habs := natAbs_tdiv_le (wrap m) n
  unfold Fits at hfits
  unfold div
  rw [wrap_natCast hn, wrap_of_fits ⟨by omega, by omega⟩]
  exact hle

/-- A quotient is positive where the divisor is, and fits. -/
theorem div_pos_iff {m : ℕ} {n : ℤ} (hm : m < 2 ^ 63) : 0 < div m n ↔ 0 < wrap n ∧ wrap n ≤ m := by
  rcases lt_or_ge 0 (wrap n) with hpos | hneg
  · obtain ⟨k, hk⟩ := Int.eq_ofNat_of_zero_le hpos.le
    have hfits := fits_wrap n
    have hlt : k < 2 ^ 63 := by
      unfold Fits at hfits
      omega
    rw [div_congr rfl (hk.trans (wrap_natCast hlt).symm), div_natCast hm hlt, and_iff_right hpos]
    rw [hk] at hpos ⊢
    rw [Int.natCast_pos, Nat.div_pos_iff, Int.ofNat_le]
    exact and_iff_right (Int.natCast_pos.mp hpos)
  · refine iff_of_false (not_lt.mpr ?_) fun h => absurd h.1 (not_lt.mpr hneg)
    have hle : (m : ℤ).tdiv (wrap n) ≤ 0 := Int.tdiv_nonpos_of_nonneg_of_nonpos (by omega) hneg
    have habs := natAbs_tdiv_le m (wrap n)
    unfold div
    rw [wrap_natCast hm, wrap_of_fits ⟨by omega, by omega⟩]
    exact hle

/-! ### Numbers that are written -/

/-- The number that the digits of base `b` stand for. -/
def ofDigits (b : ℕ) (t : List Char) : ℕ := t.foldl (fun n c => b * n + (c.toNat - '0'.toNat)) 0

/-- The value of a text of decimal digits, `none` for an error. -/
def value (t : List Char) : Option ℤ :=
  if t.head? = some '0' ∧ 1 < t.length then
    if t.all fun c => decide (c.toNat < '8'.toNat) then some (wrap (ofDigits 8 t)) else none
  else some (wrap (ofDigits 10 t))

theorem ofDigits_mono {b b' : ℕ} (h : b ≤ b') (t : List Char) : ofDigits b t ≤ ofDigits b' t := by
  have hfold : ∀ (t : List Char) (n n' : ℕ), n ≤ n' →
      t.foldl (fun n c => b * n + (c.toNat - '0'.toNat)) n ≤ t.foldl (fun n c => b' * n + (c.toNat - '0'.toNat)) n' := by
    intro t
    induction t with
    | nil => exact fun _ _ hn => hn
    | cons c t ih =>
      intro n n' hn
      exact ih _ _ (Nat.add_le_add_right (Nat.mul_le_mul h hn) _)
  exact hfold t 0 0 le_rfl

/-- The value is not larger than what the text stands for in decimal. -/
theorem value_le {t : List Char} {v : ℤ} (h : value t = some v) : v ≤ ofDigits 10 t := by
  unfold value at h
  split_ifs at h with hoctal hdigits
  · rw [← Option.some.inj h]
    exact (wrap_le (Int.natCast_nonneg _)).trans (Int.ofNat_le.mpr (ofDigits_mono (by omega) t))
  · rw [← Option.some.inj h]
    exact wrap_le (Int.natCast_nonneg _)

example : value "0174".toList = some 124 ∧ value "089".toList = none ∧ value "18446744073709551617".toList = some 1 := by
  decide +kernel

end ShellArith
