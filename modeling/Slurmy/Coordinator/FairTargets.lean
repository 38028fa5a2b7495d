import Mathlib.Tactic
import Mathlib.Data.List.Sort
import Mathlib.Data.Prod.Lex
import Mathlib.Algebra.Order.BigOperators.Group.List

/-!
# Fair shares of the submission window

`fair_targets` of `submit_coordinator.py`: max-min fair allocation of `capacity` slots among the
jobs of `demands`, redistributing unused shares.  The jobs wait in the order of
`(demands[name], name)`; while the smallest demand fits under the level `remaining // waiting` it is
granted in full and leaves, and the jobs left when it no longer fits share the level, the remainder
going to the `extra` jobs that come first after rotating the names by `turn`.

* `fairTargets`: the function, over any linearly ordered type of names;
* `fairTargets_le`: no target exceeds its demand;
* `sum_fairTargets`: the targets add up to `min (max 0 capacity) (Σ demands)`;
* `exists_lt_fairTargets`: slots that are not all taken leave some job below its target.
-/

namespace Slurmy
namespace Coordinator

variable {ι : Type*}

/-- The names that get one slot more: the first `extra` of
`ordered[turn % len(ordered):] + ordered[:turn % len(ordered)]`. -/
def bonus (ordered : List ι) (turn : ℤ) (extra : ℕ) : List ι :=
  let k := (turn % ordered.length).toNat
  (ordered.drop k ++ ordered.take k).take extra

theorem bonus_eq_take (ordered : List ι) (turn : ℤ) (extra : ℕ) :
    ∃ rotated : List ι, rotated.Perm ordered ∧ bonus ordered turn extra = rotated.take extra := by
  refine ⟨_, ?_, rfl⟩
  exact List.perm_append_comm.trans (List.Perm.of_eq (List.take_append_drop _ _))

theorem length_bonus {ordered : List ι} {turn : ℤ} {extra : ℕ} (h : extra ≤ ordered.length) :
    (bonus ordered turn extra).length = extra := by
  obtain ⟨rotated, hperm, heq⟩ := bonus_eq_take ordered turn extra
  rw [heq, List.length_take, hperm.length_eq]
  omega

theorem bonus_subset {ordered : List ι} {turn : ℤ} {extra : ℕ} {name : ι}
    (h : name ∈ bonus ordered turn extra) : name ∈ ordered := by
  obtain ⟨rotated, hperm, heq⟩ := bonus_eq_take ordered turn extra
  rw [heq] at h
  exact hperm.subset (List.mem_of_mem_take h)

theorem nodup_bonus {ordered : List ι} (hnd : ordered.Nodup) (turn : ℤ) (extra : ℕ) :
    (bonus ordered turn extra).Nodup := by
  obtain ⟨rotated, hperm, heq⟩ := bonus_eq_take ordered turn extra
  rw [heq]
  exact (List.take_sublist _ _).nodup (hperm.nodup_iff.2 hnd)

variable [LinearOrder ι]

instance (ordered : List ι) (turn : ℤ) (extra : ℕ) (name : ι) : Decidable (name ∈ bonus ordered turn extra) :=
  inferInstance

/-- `sorted(demands, key=lambda name: (demands[name], name))`. -/
def byDemand (demands : ι → ℕ) (names : List ι) : List ι :=
  names.insertionSort fun a b => toLex (demands a, a) ≤ toLex (demands b, b)

/-- The round in which the smallest demand exceeds the level: every waiting job gets the level, and
the jobs of the bonus one slot more, up to its demand. -/
def lastRound (demands : ι → ℕ) (turn : ℤ) (waiting : List ι) (remaining : ℕ)
    (targets : ι → ℕ) : ι → ℕ :=
  let level := remaining / waiting.length
  let extra := remaining % waiting.length
  let ordered := waiting.insertionSort (· ≤ ·)
  fun name =>
    if name ∈ ordered then
      min (demands name) (level + if name ∈ bonus ordered turn extra then 1 else 0)
    else targets name

/-- The `while waiting` loop. -/
def fillRounds (demands : ι → ℕ) (turn : ℤ) : List ι → ℕ → (ι → ℕ) → ι → ℕ
  | [], _, targets => targets
  | name :: waiting, remaining, targets =>
      if remaining / (waiting.length + 1) < demands name then
        lastRound demands turn (name :: waiting) remaining targets
      else
        fillRounds demands turn waiting (remaining - demands name)
          (Function.update targets name (demands name))

/-- `fair_targets`: the target of every name, `0` outside `names`. -/
def fairTargets (demands : ι → ℕ) (names : List ι) (capacity : ℤ) (turn : ℤ) : ι → ℕ :=
  fillRounds demands turn (byDemand demands names) capacity.toNat fun _ => 0

/-! ### The order in which the jobs wait -/

theorem perm_byDemand (demands : ι → ℕ) (names : List ι) :
    (byDemand demands names).Perm names :=
  List.perm_insertionSort _ _

theorem pairwise_byDemand (demands : ι → ℕ) (names : List ι) :
    (byDemand demands names).Pairwise fun a b => demands a ≤ demands b := by
  let key : ι → ℕ ×ₗ ι := fun a => toLex (demands a, a)
  have : Std.Total fun a b : ι => key a ≤ key b := ⟨fun a b => le_total (key a) (key b)⟩
  have : IsTrans ι fun a b : ι => key a ≤ key b := ⟨fun _ _ _ h h' => le_trans h h'⟩
  refine (List.pairwise_insertionSort (fun a b : ι => key a ≤ key b) names).imp ?_
  intro a b hab
  exact Prod.Lex.monotone_fst _ _ hab

/-! ### The last round -/

/-- Giving one slot to each member of `chosen` gives out `chosen.length` slots. -/
theorem sum_level_add_indicator {names chosen : List ι} (hnd : names.Nodup) (hch : chosen.Nodup)
    (hsub : ∀ a ∈ chosen, a ∈ names) (level : ℕ) :
    (names.map fun a => level + if a ∈ chosen then 1 else 0).sum =
      names.length * level + chosen.length := by
  have hlen : (names.filter (· ∈ chosen)).length = chosen.length := by
    refine List.Perm.length_eq ((List.perm_ext_iff_of_nodup (hnd.filter _) hch).2 fun a => ?_)
    simp only [List.mem_filter, decide_eq_true_eq, and_iff_right_iff_imp]
    exact hsub a
  rw [← hlen]
  clear hlen hsub hnd
  induction names with
  | nil => simp
  | cons a names ih =>
    by_cases ha : a ∈ chosen
    · simp only [List.map_cons, List.sum_cons, ih, ha, if_true, List.filter_cons, decide_true,
        List.length_cons]
      ring
    · simp only [List.map_cons, List.sum_cons, ih, ha, if_false, List.filter_cons, decide_false,
        List.length_cons, Bool.false_eq_true]
      ring

theorem lastRound_of_not_mem {demands : ι → ℕ} {turn : ℤ} {waiting : List ι} {remaining : ℕ}
    {targets : ι → ℕ} {name : ι} (h : name ∉ waiting) :
    lastRound demands turn waiting remaining targets name = targets name := by
  have hns : name ∉ waiting.insertionSort (· ≤ ·) := fun hm =>
    h ((List.perm_insertionSort _ _).subset hm)
  simp only [lastRound, if_neg hns]

theorem sum_lastRound {demands : ι → ℕ} {turn : ℤ} {waiting : List ι} {remaining : ℕ}
    {targets : ι → ℕ} (hnd : waiting.Nodup) (hne : waiting ≠ [])
    (hlow : ∀ a ∈ waiting, remaining / waiting.length < demands a) :
    (waiting.map (lastRound demands turn waiting remaining targets)).sum = remaining := by
  have hpos : 0 < waiting.length := List.length_pos_iff.2 hne
  set ordered := waiting.insertionSort (· ≤ ·) with hord
  have hperm : ordered.Perm waiting := List.perm_insertionSort _ _
  have hextra : remaining % waiting.length ≤ ordered.length := by
    rw [hperm.length_eq]
    exact (Nat.mod_lt _ hpos).le
  have hval : waiting.map (lastRound demands turn waiting remaining targets) =
      waiting.map fun a => remaining / waiting.length +
        if a ∈ bonus ordered turn (remaining % waiting.length) then 1 else 0 := by
    refine List.map_congr_left fun a ha => ?_
    have hd := hlow a ha
    simp only [lastRound, ← hord, if_pos (hperm.symm.subset ha)]
    split_ifs <;> omega
  rw [hval, sum_level_add_indicator hnd (nodup_bonus (hperm.nodup_iff.2 hnd) _ _)
    (fun a ha => hperm.subset (bonus_subset ha)), length_bonus hextra]
  exact Nat.div_add_mod _ _

/-! ### The loop -/

theorem fillRounds_of_not_mem {demands : ι → ℕ} {turn : ℤ} {waiting : List ι} {remaining : ℕ}
    {targets : ι → ℕ} {name : ι} (h : name ∉ waiting) :
    fillRounds demands turn waiting remaining targets name = targets name := by
  induction waiting generalizing remaining targets with
  | nil => rfl
  | cons a waiting ih =>
    rw [fillRounds]
    split_ifs with hlow
    · exact lastRound_of_not_mem h
    · rw [ih (fun hm => h (List.mem_cons_of_mem _ hm)),
        Function.update_of_ne (List.ne_of_not_mem_cons h)]

theorem fillRounds_le {demands : ι → ℕ} {turn : ℤ} {waiting : List ι} {remaining : ℕ}
    {targets : ι → ℕ} (ht : ∀ a, targets a ≤ demands a) (name : ι) :
    fillRounds demands turn waiting remaining targets name ≤ demands name := by
  induction waiting generalizing remaining targets with
  | nil => exact ht name
  | cons a waiting ih =>
    rw [fillRounds]
    split_ifs with hlow
    · simp only [lastRound]
      split_ifs
      · exact min_le_left _ _
      · exact min_le_left _ _
      · exact ht name
    · refine ih fun b => ?_
      by_cases hb : b = a
      · subst hb; simp
      · rw [Function.update_of_ne hb]; exact ht b

/-- The loop hands out all that remains, or all that is asked for.  Induction on the waiting jobs:
the one granted in full takes its demand out of both. -/
theorem sum_fillRounds {demands : ι → ℕ} {turn : ℤ} {waiting : List ι} {remaining : ℕ}
    {targets : ι → ℕ} (hnd : waiting.Nodup)
    (hord : waiting.Pairwise fun a b => demands a ≤ demands b) :
    (waiting.map (fillRounds demands turn waiting remaining targets)).sum =
      min remaining (waiting.map demands).sum := by
  induction waiting generalizing remaining targets with
  | nil => simp
  | cons a waiting ih =>
    obtain ⟨ha, hnd'⟩ := List.nodup_cons.1 hnd
    obtain ⟨hle, hord'⟩ := List.pairwise_cons.1 hord
    by_cases hlow : remaining / (waiting.length + 1) < demands a
    · have hall : ∀ b ∈ a :: waiting, remaining / (a :: waiting).length < demands b := by
        intro b hb
        rcases List.mem_cons.1 hb with rfl | hb
        · exact hlow
        · exact hlow.trans_le (hle b hb)
      have hlast : fillRounds demands turn (a :: waiting) remaining targets =
          lastRound demands turn (a :: waiting) remaining targets := by
        rw [fillRounds, if_pos hlow]
      rw [hlast, sum_lastRound hnd (List.cons_ne_nil _ _) hall]
      -- what remains is at most the level plus one for each job, hence at most the demands
      have hmany : (a :: waiting).length * (remaining / (a :: waiting).length + 1) ≤
          ((a :: waiting).map demands).sum := by
        have := List.card_nsmul_le_sum ((a :: waiting).map demands)
          (remaining / (a :: waiting).length + 1) (by
            intro d hd
            obtain ⟨b, hb, rfl⟩ := List.mem_map.1 hd
            exact hall b hb)
        simpa using this
      have hrem : remaining < (a :: waiting).length * (remaining / (a :: waiting).length + 1) :=
        Nat.lt_mul_div_succ _ (by simp)
      omega
    · have hstep : (a :: waiting).map (fillRounds demands turn (a :: waiting) remaining targets) =
          demands a :: waiting.map (fillRounds demands turn waiting (remaining - demands a)
            (Function.update targets a (demands a))) := by
        simp only [List.map_cons, fillRounds, if_neg hlow, fillRounds_of_not_mem ha,
          Function.update_self]
      have hfit : demands a ≤ remaining := (not_lt.1 hlow).trans (Nat.div_le_self _ _)
      rw [hstep, List.sum_cons, ih hnd' hord', List.map_cons, List.sum_cons]
      omega

/-! ### The allocation -/

variable {demands : ι → ℕ} {names : List ι} {capacity turn : ℤ}

theorem fairTargets_le (name : ι) : fairTargets demands names capacity turn name ≤ demands name :=
  fillRounds_le (fun _ => Nat.zero_le _) name

theorem sum_fairTargets (hnd : names.Nodup) :
    (names.map (fairTargets demands names capacity turn)).sum =
      min capacity.toNat (names.map demands).sum := by
  have hperm := perm_byDemand demands names
  have hsum : ((byDemand demands names).map (fairTargets demands names capacity turn)).sum =
      min capacity.toNat ((byDemand demands names).map demands).sum :=
    sum_fillRounds (hperm.nodup_iff.2 hnd) (pairwise_byDemand demands names)
  rwa [(hperm.map _).sum_eq, (hperm.map _).sum_eq] at hsum

/-- When the slots in use leave part of the capacity free, or the capacity covers every demand, and
some job has fewer slots than it asks for, then some job is below its target. -/
theorem exists_lt_fairTargets (turn : ℤ) (hnd : names.Nodup) {own : ι → ℕ}
    (hfree : ((names.map own).sum : ℤ) < capacity ∨ ((names.map demands).sum : ℤ) ≤ capacity)
    (hneed : ∃ a ∈ names, own a < demands a) :
    ∃ a ∈ names, own a < fairTargets demands names capacity turn a := by
  by_contra hcon
  push Not at hcon
  obtain ⟨a, ha, hlt⟩ := hneed
  have hown : (names.map (fairTargets demands names capacity turn)).sum ≤ (names.map own).sum :=
    List.sum_le_sum hcon
  have hdem : (names.map (fairTargets demands names capacity turn)).sum < (names.map demands).sum :=
    List.sum_lt_sum _ _ (fun b _ => fairTargets_le b) ⟨a, ha, (hcon a ha).trans_lt hlt⟩
  rw [sum_fairTargets hnd] at hown hdem
  omega

end Coordinator
end Slurmy
