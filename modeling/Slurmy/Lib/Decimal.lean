import Mathlib.Algebra.Order.Field.Power
import Mathlib.Algebra.Order.Field.Rat
import Mathlib.Tactic.FieldSimp
import Mathlib.Tactic.Linarith
import Mathlib.Tactic.Positivity
import Mathlib.Tactic.Ring

/-!
# Decimal numbers

The finite numbers of Python's `decimal`, and how a context rounds them: to the nearest number of so many digits, and to
the even one of two.

* `Number`, `Context`, `Context.fix`: the numbers, and rounding with overflow and underflow;
* `halfway`: from where on a number of `prec` digits is rounded to the next power of ten;
* `fix_eq_none_iff`, `fix_zero_iff`: which numbers overflow, and which become zero;
* `fix_plain_iff`: which of them have a short exponent after rounding.
-/

namespace Decimal

/-- The sign counts for zero as well. -/
structure Number where
  negative : Bool
  coefficient : ℕ
  exponent : ℤ
  deriving DecidableEq

/-- The precision, and the least and the greatest exponent of a number with one digit before the point. -/
structure Context where
  prec : ℕ
  emin : ℤ
  emax : ℤ

def Context.etiny (ctx : Context) : ℤ := ctx.emin - ctx.prec + 1

def Context.etop (ctx : Context) : ℤ := ctx.emax - ctx.prec + 1

/-- The number of digits. -/
def digits (n : ℕ) : ℕ := (Nat.toDigits 10 n).length

/-- `c / m`, rounded. -/
def roundHalfEven (c m : ℕ) : ℕ :=
  if m < 2 * (c % m) ∨ 2 * (c % m) = m ∧ c / m % 2 = 1 then c / m + 1 else c / m

section Definitions

variable (ctx : Context) (d : Number)

/-- After rounding, which may have made a digit too many. -/
def Context.carry : Option Number :=
  let d := if ctx.prec < digits d.coefficient then
    { d with coefficient := d.coefficient / 10, exponent := d.exponent + 1 } else d
  if ctx.etop < d.exponent then none else some d

/-- The number in the context, `none` for an overflow. -/
def Context.fix : Option Number :=
  if d.coefficient = 0 then some { d with exponent := min (max d.exponent ctx.etiny) ctx.emax }
  else
    let low := digits d.coefficient + d.exponent - ctx.prec
    if ctx.etop < low then none
    else
      let low := max low ctx.etiny
      if d.exponent < low then
        ctx.carry ⟨d.negative, roundHalfEven d.coefficient (10 ^ (low - d.exponent).toNat), low⟩
      else some d

/-- `d * e`. -/
def Context.mul (e : Number) : Option Number :=
  ctx.fix ⟨d.negative != e.negative, d.coefficient * e.coefficient, d.exponent + e.exponent⟩

/-- The absolute value. -/
def Number.magnitude : ℚ := d.coefficient * 10 ^ d.exponent

/-- The middle between the greatest number of `prec` digits with the exponent `j`, and the next power of ten. -/
def halfway (prec : ℕ) (j : ℤ) : ℚ := (10 ^ prec - 1 / 2) * 10 ^ j

end Definitions

/-! ### Digits -/

theorem digits_pos (n : ℕ) : 0 < digits n := Nat.length_toDigits_pos

theorem digits_le_iff {n k : ℕ} (hk : 0 < k) : digits n ≤ k ↔ n < 10 ^ k :=
  Nat.length_toDigits_le_iff (by decide) hk

theorem lt_pow_digits (n : ℕ) : n < 10 ^ digits n := (digits_le_iff (digits_pos n)).1 le_rfl

theorem pow_digits_le {n : ℕ} (hn : 0 < n) : 10 ^ (digits n - 1) ≤ n := by
  by_contra hlt
  rw [not_le] at hlt
  by_cases hone : digits n - 1 = 0
  · rw [hone, pow_zero] at hlt
    omega
  · have hle := (digits_le_iff (Nat.pos_of_ne_zero hone)).2 hlt
    omega

/-! ### Rounding to the nearest number -/

section Rounding

variable {c m N : ℕ} (hm : 0 < m)
include hm

/-- An even number is reached from one half below. -/
theorem le_roundHalfEven_iff (heven : N % 2 = 0) (hN : 0 < N) : N ≤ roundHalfEven c m ↔ (2 * N - 1) * m ≤ 2 * c := by
  have hc := Nat.div_add_mod c m
  have hr := Nat.mod_lt c hm
  unfold roundHalfEven
  generalize c / m = q at *
  generalize c % m = r at *
  have hRHS : (2 * N - 1) * m ≤ 2 * c ↔ (2 * N - 1) * m ≤ 2 * q * m + 2 * r := by
    rw [← hc]
    ring_nf
  rw [hRHS]
  rcases Nat.lt_trichotomy N (q + 1) with hlt | heq | hgt
  · have hmul : (2 * N - 1) * m ≤ 2 * q * m := Nat.mul_le_mul_right m (by omega)
    refine iff_of_true ?_ (by omega)
    split_ifs <;> omega
  · subst heq
    have hmul : (2 * (q + 1) - 1) * m = 2 * q * m + m := by
      rw [show 2 * (q + 1) - 1 = 2 * q + 1 by omega, Nat.add_mul, Nat.one_mul]
    rw [hmul]
    split_ifs <;> omega
  · have hmul : (2 * q + 3) * m ≤ (2 * N - 1) * m := Nat.mul_le_mul_right m (by omega)
    have hexpand : (2 * q + 3) * m = 2 * q * m + 3 * m := Nat.add_mul ..
    refine iff_of_false ?_ (by omega)
    split_ifs <;> omega

theorem roundHalfEven_eq_zero_iff : roundHalfEven c m = 0 ↔ 2 * c ≤ m := by
  unfold roundHalfEven
  by_cases hlt : c < m
  · rw [Nat.div_eq_of_lt hlt, Nat.mod_eq_of_lt hlt]
    by_cases hup : m < 2 * c
    · rw [if_pos (Or.inl hup)]
      exact iff_of_false (Nat.succ_ne_zero 0) (by omega)
    · rw [if_neg (by omega)]
      exact iff_of_true rfl (not_lt.1 hup)
  · have hq : 0 < c / m := Nat.div_pos (not_lt.1 hlt) hm
    refine iff_of_false (Nat.ne_of_gt ?_) (by omega)
    by_cases hup : m < 2 * (c % m) ∨ 2 * (c % m) = m ∧ c / m % 2 = 1
    · rw [if_pos hup]
      exact Nat.succ_pos _
    · rwa [if_neg hup]

theorem roundHalfEven_le (h : c ≤ N * m) : roundHalfEven c m ≤ N := by
  have hc := Nat.div_add_mod c m
  unfold roundHalfEven
  have hq : c / m ≤ N := Nat.div_le_of_le_mul (by rwa [Nat.mul_comm])
  by_cases heq : c / m = N
  · rw [heq] at hc ⊢
    have hr : c % m = 0 := by
      rw [Nat.mul_comm] at hc
      omega
    rw [hr, if_neg (by omega)]
  · split_ifs <;> omega

end Rounding

/-! ### Halfway numbers -/

section Halfway

variable {p : ℕ} {j k : ℤ}

theorem halfway_lt (p : ℕ) (j : ℤ) : halfway p j < 10 ^ (j + p) := by
  unfold halfway
  rw [zpow_add₀ (by norm_num), zpow_natCast, mul_comm ((10 : ℚ) ^ j)]
  exact mul_lt_mul_of_pos_right (by norm_num) (by positivity)

theorem lt_halfway (hp : 0 < p) (j : ℤ) : (10 : ℚ) ^ (j + p - 1) < halfway p j := by
  obtain ⟨q, rfl⟩ := Nat.exists_eq_succ_of_ne_zero hp.ne'
  have hq : (1 : ℚ) ≤ 10 ^ q := one_le_pow₀ (by norm_num)
  unfold halfway
  rw [show j + ((q + 1 : ℕ) : ℤ) - 1 = q + j by push_cast; ring, zpow_add₀ (by norm_num), zpow_natCast]
  refine mul_lt_mul_of_pos_right ?_ (by positivity)
  rw [pow_succ]
  linarith

theorem halfway_mono (p : ℕ) (h : j ≤ k) : halfway p j ≤ halfway p k := by
  have hp : (1 : ℚ) ≤ 10 ^ p := one_le_pow₀ (by norm_num)
  unfold halfway
  exact mul_le_mul_of_nonneg_left (zpow_le_zpow_right₀ (by norm_num) h) (by linarith)

/-- The exponent that a number of `p` digits next to `v` has. -/
structure IsRounded (p : ℕ) (v : ℚ) (j : ℤ) : Prop where
  ge : halfway p (j - 1) ≤ v
  lt : v < halfway p j

theorem IsRounded.le_iff {v : ℚ} (h : IsRounded p v j) (k : ℤ) : halfway p k ≤ v ↔ k < j := by
  constructor
  · intro hk
    by_contra hjk
    exact absurd (hk.trans_lt h.lt) (not_lt.2 (halfway_mono p (not_lt.1 hjk)))
  · intro hk
    exact (halfway_mono p (by omega)).trans h.ge

end Halfway

/-! ### Rounding in a context -/

/-- The numbers from `10 ^ (-7)` to 1 are in the range. -/
structure Context.Wide (ctx : Context) : Prop where
  prec : 0 < ctx.prec
  emin : ctx.emin ≤ -7
  emax : 0 ≤ ctx.emax

section Fix

variable {ctx : Context} {d : Number}

/-- The exponent of the last of `prec` digits. -/
def Context.low (ctx : Context) (d : Number) : ℤ := digits d.coefficient + d.exponent - ctx.prec

theorem fix_eq (hc : d.coefficient ≠ 0) : ctx.fix d =
    if ctx.etop < ctx.low d then none
    else if d.exponent < max (ctx.low d) ctx.etiny then
      ctx.carry ⟨d.negative,
        roundHalfEven d.coefficient (10 ^ (max (ctx.low d) ctx.etiny - d.exponent).toNat), max (ctx.low d) ctx.etiny⟩
    else some d := by
  unfold Context.fix
  rw [if_neg hc]
  rfl

theorem carry_of_le (hdigits : digits d.coefficient ≤ ctx.prec) (hexp : d.exponent ≤ ctx.etop) :
    ctx.carry d = some d := by
  unfold Context.carry
  dsimp only
  rw [if_neg (not_lt.2 hdigits), if_neg (not_lt.2 hexp)]

theorem carry_of_lt (hdigits : ctx.prec < digits d.coefficient) : ctx.carry d =
    if ctx.etop < d.exponent + 1 then none else some ⟨d.negative, d.coefficient / 10, d.exponent + 1⟩ := by
  unfold Context.carry
  dsimp only
  rw [if_pos hdigits]

variable (ctx) in
theorem magnitude_bounds (hc : d.coefficient ≠ 0) :
    (10 : ℚ) ^ (ctx.low d + ctx.prec - 1) ≤ d.magnitude ∧ d.magnitude < 10 ^ (ctx.low d + ctx.prec) := by
  have hpos := digits_pos d.coefficient
  have hge : ((10 ^ (digits d.coefficient - 1) : ℕ) : ℚ) ≤ d.coefficient :=
    Nat.cast_le.2 (pow_digits_le (Nat.pos_of_ne_zero hc))
  have hlt : (d.coefficient : ℚ) < ((10 ^ digits d.coefficient : ℕ) : ℚ) := Nat.cast_lt.2 (lt_pow_digits d.coefficient)
  have hexp : (0 : ℚ) < 10 ^ d.exponent := by positivity
  push_cast at hge hlt
  unfold Number.magnitude Context.low
  constructor
  · rw [show (digits d.coefficient + d.exponent - ctx.prec + ctx.prec - 1 : ℤ) =
      ((digits d.coefficient - 1 : ℕ) : ℤ) + d.exponent by omega, zpow_add₀ (by norm_num), zpow_natCast]
    exact mul_le_mul_of_nonneg_right hge hexp.le
  · rw [show (digits d.coefficient + d.exponent - ctx.prec + ctx.prec : ℤ) =
      ((digits d.coefficient : ℕ) : ℤ) + d.exponent by omega, zpow_add₀ (by norm_num), zpow_natCast]
    exact mul_lt_mul_of_pos_right hlt hexp

/-- Rounding reaches a power of ten from the halfway number on. -/
theorem pow_le_round_iff {prec : ℕ} (hprec : 0 < prec) {low : ℤ} (hlow : d.exponent ≤ low) :
    10 ^ prec ≤ roundHalfEven d.coefficient (10 ^ (low - d.exponent).toNat) ↔ halfway prec low ≤ d.magnitude := by
  have heven : 10 ^ prec % 2 = 0 := by
    obtain ⟨q, rfl⟩ := Nat.exists_eq_succ_of_ne_zero hprec.ne'
    rw [pow_succ]
    omega
  have hpow : 0 < 10 ^ prec := Nat.pow_pos (by decide)
  rw [le_roundHalfEven_iff (Nat.pow_pos (by decide)) heven hpow, ← Nat.cast_le (α := ℚ)]
  have hexp : (0 : ℚ) < 10 ^ d.exponent := by positivity
  have hsplit : (10 : ℚ) ^ low = 10 ^ (low - d.exponent).toNat * 10 ^ d.exponent := by
    rw [← zpow_natCast, ← zpow_add₀ (by norm_num), Int.toNat_of_nonneg (by omega), sub_add_cancel]
  unfold halfway Number.magnitude
  rw [hsplit, ← mul_assoc, mul_le_mul_iff_left₀ hexp]
  have hone : 1 ≤ 2 * 10 ^ prec := by omega
  push_cast [Nat.cast_sub hone]
  constructor <;> intro h <;> linarith

/-- A number that needs no rounding lies below. -/
theorem magnitude_lt_halfway {j : ℤ} (hexp : j ≤ d.exponent) (hlow : ctx.low d ≤ j) :
    d.magnitude < halfway ctx.prec j := by
  have hsplit : (10 : ℚ) ^ d.exponent = 10 ^ (d.exponent - j).toNat * 10 ^ j := by
    rw [← zpow_natCast, ← zpow_add₀ (by norm_num), Int.toNat_of_nonneg (by omega), sub_add_cancel]
  have hnat : d.coefficient * 10 ^ (d.exponent - j).toNat + 1 ≤ 10 ^ ctx.prec := by
    have hlt := lt_pow_digits d.coefficient
    have hle : 10 ^ digits d.coefficient * 10 ^ (d.exponent - j).toNat ≤ 10 ^ ctx.prec := by
      rw [← pow_add]
      refine Nat.pow_le_pow_right (by decide) ?_
      unfold Context.low at hlow
      omega
    have hmul : (d.coefficient + 1) * 10 ^ (d.exponent - j).toNat ≤ 10 ^ digits d.coefficient * 10 ^ (d.exponent - j).toNat :=
      Nat.mul_le_mul_right _ hlt
    have hone : 1 ≤ 10 ^ (d.exponent - j).toNat := Nat.one_le_pow _ _ (by decide)
    rw [Nat.add_mul] at hmul
    omega
  have hcast : (d.coefficient : ℚ) * 10 ^ (d.exponent - j).toNat + 1 ≤ 10 ^ ctx.prec := by exact_mod_cast hnat
  unfold Number.magnitude halfway
  rw [hsplit, ← mul_assoc]
  exact mul_lt_mul_of_pos_right (by linarith) (by positivity)

theorem exists_rounded (hprec : 0 < ctx.prec) (hc : d.coefficient ≠ 0) : ∃ j, IsRounded ctx.prec d.magnitude j ∧
    (halfway ctx.prec (ctx.low d) ≤ d.magnitude ∧ j = ctx.low d + 1 ∨
      d.magnitude < halfway ctx.prec (ctx.low d) ∧ j = ctx.low d) := by
  obtain ⟨hge, hlt⟩ := magnitude_bounds ctx hc
  by_cases hup : halfway ctx.prec (ctx.low d) ≤ d.magnitude
  · refine ⟨ctx.low d + 1, ⟨by rwa [add_sub_cancel_right], hlt.trans ?_⟩, Or.inl ⟨hup, rfl⟩⟩
    have hnext := lt_halfway hprec (ctx.low d + 1)
    rwa [show ctx.low d + 1 + ctx.prec - 1 = ctx.low d + ctx.prec by ring] at hnext
  · rw [not_le] at hup
    refine ⟨ctx.low d, ⟨le_trans (le_of_lt ?_) hge, hup⟩, Or.inr ⟨hup, rfl⟩⟩
    have hprev := halfway_lt ctx.prec (ctx.low d - 1)
    rwa [show ctx.low d - 1 + ctx.prec = ctx.low d + ctx.prec - 1 by ring] at hprev

/-- A number that is not too small, after rounding. -/
structure IsFixed (ctx : Context) (d : Number) (j : ℤ) (r : Number) : Prop where
  negative : r.negative = d.negative
  nonzero : r.coefficient ≠ 0
  adjusted : r.exponent + digits r.coefficient = j + ctx.prec
  nonpos : r.exponent ≤ 0 ↔ d.exponent ≤ 0 ∧ j ≤ 0

theorem digits_eq {n k : ℕ} (hge : 10 ^ k ≤ n) (hlt : n < 10 ^ (k + 1)) : digits n = k + 1 := by
  have hle := (digits_le_iff (Nat.succ_pos k)).2 hlt
  by_cases hk : k = 0
  · have := digits_pos n
    omega
  · have hnot := mt (digits_le_iff (Nat.pos_of_ne_zero hk)).1 (not_lt.2 hge)
    omega

/-- The coefficient that rounding to `prec` digits gives. -/
theorem round_bounds (hc : d.coefficient ≠ 0) (hexp : d.exponent < ctx.low d) (hprec : 0 < ctx.prec) :
    10 ^ (ctx.prec - 1) ≤ roundHalfEven d.coefficient (10 ^ (ctx.low d - d.exponent).toNat) ∧
      roundHalfEven d.coefficient (10 ^ (ctx.low d - d.exponent).toNat) ≤ 10 ^ ctx.prec := by
  have hdigits : digits d.coefficient = ctx.prec + (ctx.low d - d.exponent).toNat := by
    unfold Context.low at *
    omega
  have hge := pow_digits_le (Nat.pos_of_ne_zero hc)
  have hlt := lt_pow_digits d.coefficient
  rw [hdigits] at hlt
  rw [hdigits, show ctx.prec + (ctx.low d - d.exponent).toNat - 1 = ctx.prec - 1 + (ctx.low d - d.exponent).toNat by omega,
    pow_add] at hge
  rw [pow_add] at hlt
  have hm : 0 < 10 ^ (ctx.low d - d.exponent).toNat := Nat.pow_pos (by decide)
  refine ⟨?_, roundHalfEven_le hm hlt.le⟩
  have hdiv := (Nat.le_div_iff_mul_le hm).2 hge
  unfold roundHalfEven
  split_ifs
  · exact hdiv.trans (Nat.le_succ _)
  · exact hdiv

theorem fix_normal (hprec : 0 < ctx.prec) (hc : d.coefficient ≠ 0) (hlow : ctx.etiny ≤ ctx.low d) {j : ℤ}
    (hj : halfway ctx.prec (ctx.low d) ≤ d.magnitude ∧ j = ctx.low d + 1 ∨
      d.magnitude < halfway ctx.prec (ctx.low d) ∧ j = ctx.low d) :
    ctx.fix d = none ∧ ctx.etop < j ∨ ∃ r, ctx.fix d = some r ∧ j ≤ ctx.etop ∧ IsFixed ctx d j r := by
  rw [fix_eq hc, max_eq_left hlow]
  by_cases hover : ctx.etop < ctx.low d
  · rw [if_pos hover]
    exact Or.inl ⟨rfl, by omega⟩
  rw [if_neg hover]
  by_cases hexp : d.exponent < ctx.low d
  · rw [if_pos hexp]
    obtain ⟨hge, hle⟩ := round_bounds hc hexp hprec
    have hreach := pow_le_round_iff hprec hexp.le
    generalize roundHalfEven d.coefficient (10 ^ (ctx.low d - d.exponent).toNat) = q at hge hle hreach
    rcases hj with ⟨hup, rfl⟩ | ⟨hdown, rfl⟩
    · -- one digit more
      have hq : q = 10 ^ ctx.prec := le_antisymm hle (hreach.2 hup)
      obtain ⟨p, hp⟩ := Nat.exists_eq_succ_of_ne_zero hprec.ne'
      have hdigits : ctx.prec < digits q := by
        rw [hq, digits_eq le_rfl (Nat.pow_lt_pow_right (by decide) (Nat.lt_succ_self _))]
        exact Nat.lt_succ_self _
      have hq10 : q / 10 = 10 ^ p := by
        rw [hq, hp, pow_succ, Nat.mul_div_cancel _ (by decide)]
      rw [carry_of_lt hdigits]
      dsimp only
      by_cases hlast : ctx.etop < ctx.low d + 1
      · rw [if_pos hlast]
        exact Or.inl ⟨rfl, hlast⟩
      · rw [if_neg hlast]
        refine Or.inr ⟨_, rfl, not_lt.1 hlast, rfl, ?_, ?_, ?_⟩
        · show q / 10 ≠ 0
          rw [hq10]
          exact (Nat.pow_pos (by decide)).ne'
        · show ctx.low d + 1 + (digits (q / 10) : ℤ) = _
          rw [hq10, digits_eq le_rfl (Nat.pow_lt_pow_right (by decide) (Nat.lt_succ_self _)), hp]
        · show ctx.low d + 1 ≤ 0 ↔ _
          omega
    · have hq : q < 10 ^ ctx.prec := not_le.1 fun h => absurd (hreach.1 h) (not_le.2 hdown)
      obtain ⟨p, hp⟩ := Nat.exists_eq_succ_of_ne_zero hprec.ne'
      have hdigits : digits q = ctx.prec := by
        rw [hp] at hge hq ⊢
        exact digits_eq hge hq
      rw [carry_of_le hdigits.le (not_lt.1 hover)]
      refine Or.inr ⟨_, rfl, not_lt.1 hover, rfl, ?_, ?_, ?_⟩
      · have : 0 < 10 ^ (ctx.prec - 1) := Nat.pow_pos (by decide)
        show q ≠ 0
        omega
      · show ctx.low d + (digits q : ℤ) = _
        rw [hdigits]
      · show ctx.low d ≤ 0 ↔ _
        omega
  · rw [if_neg hexp]
    have hbelow := magnitude_lt_halfway (not_lt.1 hexp) le_rfl
    rcases hj with ⟨hup, -⟩ | ⟨-, rfl⟩
    · exact absurd hbelow (not_lt.2 hup)
    · refine Or.inr ⟨d, rfl, not_lt.1 hover, rfl, hc, ?_, ?_⟩
      · unfold Context.low
        ring
      · omega

/-- A number below the range of the context. -/
theorem fix_subnormal (hw : ctx.Wide) (hc : d.coefficient ≠ 0) (hlow : ctx.low d < ctx.etiny) :
    ∃ r, ctx.fix d = some r ∧ r.negative = d.negative ∧ (r.coefficient = 0 ↔ d.magnitude ≤ 10 ^ ctx.etiny / 2) ∧
      r.exponent + digits r.coefficient ≤ ctx.etiny + ctx.prec := by
  have hrange : ctx.etiny ≤ ctx.etop := by
    have := hw.emin
    have := hw.emax
    unfold Context.etiny Context.etop
    omega
  rw [fix_eq hc, if_neg (by omega), max_eq_right hlow.le]
  by_cases hexp : d.exponent < ctx.etiny
  · rw [if_pos hexp]
    have hm : 0 < 10 ^ (ctx.etiny - d.exponent).toNat := Nat.pow_pos (by decide)
    have hprec := hw.prec
    have hle : d.coefficient ≤ 10 ^ (ctx.prec - 1) * 10 ^ (ctx.etiny - d.exponent).toNat := by
      rw [← pow_add]
      refine (lt_pow_digits d.coefficient).le.trans (Nat.pow_le_pow_right (by decide) ?_)
      unfold Context.low at hlow
      omega
    have hq := roundHalfEven_le hm hle
    have hzero : roundHalfEven d.coefficient (10 ^ (ctx.etiny - d.exponent).toNat) = 0 ↔
        d.magnitude ≤ 10 ^ ctx.etiny / 2 := by
      rw [roundHalfEven_eq_zero_iff hm, ← Nat.cast_le (α := ℚ)]
      have hpos : (0 : ℚ) < 10 ^ d.exponent := by positivity
      have hsplit : (10 : ℚ) ^ ctx.etiny = 10 ^ (ctx.etiny - d.exponent).toNat * 10 ^ d.exponent := by
        rw [← zpow_natCast, ← zpow_add₀ (by norm_num), Int.toNat_of_nonneg (by omega), sub_add_cancel]
      unfold Number.magnitude
      rw [hsplit, mul_div_right_comm, mul_le_mul_iff_left₀ hpos]
      push_cast
      constructor <;> intro h <;> linarith
    generalize roundHalfEven d.coefficient (10 ^ (ctx.etiny - d.exponent).toNat) = q at hq hzero
    have hdigits : digits q ≤ ctx.prec :=
      (digits_le_iff hprec).2 (hq.trans_lt (Nat.pow_lt_pow_right (by decide) (by omega)))
    refine ⟨_, carry_of_le hdigits hrange, rfl, hzero, ?_⟩
    show ctx.etiny + (digits q : ℤ) ≤ _
    omega
  · rw [if_neg hexp]
    refine ⟨d, rfl, rfl, iff_of_false hc (not_le.2 ?_), ?_⟩
    · have hone : (1 : ℚ) ≤ d.coefficient := by exact_mod_cast Nat.pos_of_ne_zero hc
      have hpow : (10 : ℚ) ^ ctx.etiny ≤ 10 ^ d.exponent := zpow_le_zpow_right₀ (by norm_num) (not_lt.1 hexp)
      have hpos : (0 : ℚ) < 10 ^ ctx.etiny := by positivity
      have hmul : 1 * 10 ^ d.exponent ≤ d.magnitude := mul_le_mul_of_nonneg_right hone (by positivity)
      linarith
    · unfold Context.low at hlow
      omega

/-! ### What is rounded -/

theorem magnitude_zero (hc : d.coefficient = 0) : d.magnitude = 0 := by
  unfold Number.magnitude
  rw [hc, Nat.cast_zero, zero_mul]

theorem fix_zero (hc : d.coefficient = 0) :
    ctx.fix d = some { d with exponent := min (max d.exponent ctx.etiny) ctx.emax } := by
  unfold Context.fix
  rw [if_pos hc]

theorem halfway_pos (hprec : 0 < ctx.prec) (j : ℤ) : 0 < halfway ctx.prec j :=
  lt_trans (by positivity) (lt_halfway hprec j)

/-- A number below the range is less than all halfway numbers of the range. -/
theorem magnitude_lt_of_low (hw : ctx.Wide) (hc : d.coefficient ≠ 0) (hlow : ctx.low d < ctx.etiny) {j : ℤ}
    (hj : ctx.etiny ≤ j) : d.magnitude < halfway ctx.prec j := by
  have hlt := (magnitude_bounds ctx hc).2
  have hle : (10 : ℚ) ^ (ctx.low d + ctx.prec) ≤ 10 ^ (j + ctx.prec - 1) :=
    zpow_le_zpow_right₀ (by norm_num) (by omega)
  exact (hlt.trans_le hle).trans (lt_halfway hw.prec j)

/-- **Overflow** begins halfway between the greatest number and the next power of ten. -/
theorem fix_eq_none_iff (hw : ctx.Wide) : ctx.fix d = none ↔ halfway ctx.prec ctx.etop ≤ d.magnitude := by
  by_cases hc : d.coefficient = 0
  · rw [fix_zero hc, magnitude_zero hc]
    exact iff_of_false nofun (not_le.2 (halfway_pos hw.prec _))
  by_cases hlow : ctx.low d < ctx.etiny
  · obtain ⟨r, hr, -⟩ := fix_subnormal hw hc hlow
    have hrange : ctx.etiny ≤ ctx.etop := by
      have hmin := hw.emin
      have hmax := hw.emax
      unfold Context.etiny Context.etop
      omega
    rw [hr]
    exact iff_of_false nofun (not_le.2 (magnitude_lt_of_low hw hc hlow hrange))
  · obtain ⟨j, hj, hcases⟩ := exists_rounded hw.prec hc
    rw [hj.le_iff]
    rcases fix_normal hw.prec hc (not_lt.1 hlow) hcases with ⟨hnone, hover⟩ | ⟨r, hr, hle, -⟩
    · exact iff_of_true hnone hover
    · rw [hr]
      exact iff_of_false nofun (not_lt.2 hle)

theorem negative_fix (hw : ctx.Wide) {r : Number} (h : ctx.fix d = some r) : r.negative = d.negative := by
  by_cases hc : d.coefficient = 0
  · rw [fix_zero hc] at h
    rw [← Option.some.inj h]
  by_cases hlow : ctx.low d < ctx.etiny
  · obtain ⟨r', hr', hnegative, -⟩ := fix_subnormal hw hc hlow
    rw [← Option.some.inj (hr'.symm.trans h), hnegative]
  · obtain ⟨j, -, hcases⟩ := exists_rounded hw.prec hc
    rcases fix_normal hw.prec hc (not_lt.1 hlow) hcases with ⟨hnone, -⟩ | ⟨r', hr', -, hfixed⟩
    · rw [hnone] at h
      cases h
    · rw [← Option.some.inj (hr'.symm.trans h), hfixed.negative]

/-- **Underflow**: up to half of the least number, numbers become zero. -/
theorem fix_zero_iff (hw : ctx.Wide) {r : Number} (h : ctx.fix d = some r) :
    r.coefficient = 0 ↔ d.magnitude ≤ 10 ^ ctx.etiny / 2 := by
  by_cases hc : d.coefficient = 0
  · rw [fix_zero hc] at h
    rw [magnitude_zero hc, ← Option.some.inj h]
    exact iff_of_true hc (by positivity)
  by_cases hlow : ctx.low d < ctx.etiny
  · obtain ⟨r', hr', -, hzero, -⟩ := fix_subnormal hw hc hlow
    rwa [← Option.some.inj (hr'.symm.trans h)]
  · obtain ⟨j, -, hcases⟩ := exists_rounded hw.prec hc
    rcases fix_normal hw.prec hc (not_lt.1 hlow) hcases with ⟨hnone, -⟩ | ⟨r', hr', -, hfixed⟩
    · rw [hnone] at h
      cases h
    · rw [← Option.some.inj (hr'.symm.trans h)]
      refine iff_of_false hfixed.nonzero (not_le.2 ?_)
      have hge := (magnitude_bounds ctx hc).1
      have hprec := hw.prec
      have hpow : (10 : ℚ) ^ ctx.etiny ≤ 10 ^ (ctx.low d + ctx.prec - 1) :=
        zpow_le_zpow_right₀ (by norm_num) (by omega)
      have hpos : (0 : ℚ) < 10 ^ ctx.etiny := by positivity
      linarith

/-- **A number is written without an exponent** after rounding when it has none above zero, and lies between the
halfway numbers next to `10 ^ (-6)` and to `10 ^ prec`. -/
theorem fix_plain_iff (hw : ctx.Wide) (hc : d.coefficient ≠ 0) {r : Number} (h : ctx.fix d = some r) :
    r.exponent ≤ 0 ∧ -6 < r.exponent + digits r.coefficient ↔
      d.exponent ≤ 0 ∧ halfway ctx.prec (-ctx.prec - 6) ≤ d.magnitude ∧ d.magnitude < halfway ctx.prec 0 := by
  have hmin := hw.emin
  by_cases hlow : ctx.low d < ctx.etiny
  · obtain ⟨r', hr', -, -, hsmall⟩ := fix_subnormal hw hc hlow
    rw [← Option.some.inj (hr'.symm.trans h)]
    have hlt : d.magnitude < halfway ctx.prec (-ctx.prec - 6) :=
      magnitude_lt_of_low hw hc hlow (by unfold Context.etiny; omega)
    refine iff_of_false (fun hplain => ?_) fun hplain => absurd hplain.2.1 (not_le.2 hlt)
    unfold Context.etiny at hsmall
    omega
  · obtain ⟨j, hj, hcases⟩ := exists_rounded hw.prec hc
    rcases fix_normal hw.prec hc (not_lt.1 hlow) hcases with ⟨hnone, -⟩ | ⟨r', hr', -, hfixed⟩
    · rw [hnone] at h
      cases h
    · rw [← Option.some.inj (hr'.symm.trans h), hfixed.nonpos, hfixed.adjusted, hj.le_iff,
        ← not_le (a := halfway ctx.prec 0), hj.le_iff]
      omega

end Fix

end Decimal
