import Slurmy.Lib.Dict
import Slurmy.Coordinator.FairTargets

/-!
# The allocation is max-min fair

`fair_targets` as it fills its dictionary, and what its result means for the jobs: they get all of the
capacity, nobody more than it asks for, and nobody more than one slot above a job that would take more.

* `Demands`: the dictionary `demands`;
* `Locals`, `fillTargets`, `Demands.locals`: the variables of `fair_targets` at its return;
* `get_targets`, `waiting_locals`: the targets and the jobs of the last round;
* `Demands.targets_maxMin`: the properties of the result.
-/

namespace Slurmy
namespace Coordinator

/-- `demands`: a job has one entry. -/
structure Demands (ι : Type*) where
  entries : List (ι × ℕ)
  nodup : (entries.map Prod.fst).Nodup

/-- The variables of `fair_targets` when it returns. -/
structure Locals (ι : Type*) where
  targets : List (ι × ℕ)
  waiting : List ι
  remaining : ℕ
  deriving DecidableEq

variable {ι : Type*} [LinearOrder ι]

/-- The loop of the last round. -/
def assignLast (demands : ι → ℕ) (turn : ℤ) (waiting : List ι) (remaining : ℕ) (targets : List (ι × ℕ)) :
    List (ι × ℕ) :=
  let level := remaining / waiting.length
  let extra := remaining % waiting.length
  let ordered := waiting.insertionSort (· ≤ ·)
  ordered.foldl (fun targets name => Dict.put targets name
    (min (demands name) (level + if name ∈ bonus ordered turn extra then 1 else 0))) targets

/-- The `while waiting` loop, with its variables. -/
def fillTargets (demands : ι → ℕ) (turn : ℤ) : List ι → ℕ → List (ι × ℕ) → Locals ι
  | [], remaining, targets => ⟨targets, [], remaining⟩
  | name :: waiting, remaining, targets =>
      if remaining / (waiting.length + 1) < demands name then
        ⟨assignLast demands turn (name :: waiting) remaining targets, name :: waiting, remaining⟩
      else
        fillTargets demands turn waiting (remaining - demands name) (Dict.put targets name (demands name))

namespace Demands

variable (d : Demands ι)

/-- `demands[name]`. -/
def demand (name : ι) : ℕ := (Dict.get d.entries name).getD 0

def names : List ι := d.entries.map Prod.fst

/-- `fair_targets(demands, capacity, turn)`. -/
def locals (capacity turn : ℤ) : Locals ι :=
  fillTargets d.demand turn (byDemand d.demand d.names) capacity.toNat (d.entries.map fun entry => (entry.1, 0))

/-- What it returns. -/
def targets (capacity turn : ℤ) : List (ι × ℕ) := (d.locals capacity turn).targets

/-- The target of a job. -/
def target (capacity turn : ℤ) (name : ι) : ℕ := (Dict.get (d.targets capacity turn) name).getD 0

end Demands

/-! ### The dictionary -/

section Dictionary

variable {demands : ι → ℕ} {turn : ℤ} {waiting : List ι} {remaining : ℕ} {targets : List (ι × ℕ)}

/-- Values for names that have one already. -/
theorem foldl_put {f : ι → ℕ} {names : List ι} (h : names ⊆ targets.map Prod.fst) :
    (names.foldl (fun targets name => Dict.put targets name (f name)) targets).map Prod.fst = targets.map Prod.fst ∧
      ∀ name, Dict.get (names.foldl (fun targets name => Dict.put targets name (f name)) targets) name =
        if name ∈ names then some (f name) else Dict.get targets name := by
  induction names generalizing targets with
  | nil => exact ⟨rfl, fun name => (if_neg List.not_mem_nil).symm⟩
  | cons a names ih =>
    have hkeys : (Dict.put targets a (f a)).map Prod.fst = targets.map Prod.fst := by
      rw [Dict.keys_put, if_pos (Dict.mem_keys.1 (h List.mem_cons_self))]
    have hsub : names ⊆ (Dict.put targets a (f a)).map Prod.fst := fun b hb => hkeys ▸ h (List.mem_cons_of_mem a hb)
    obtain ⟨hall, hget⟩ := ih hsub
    refine ⟨hall.trans hkeys, fun name => ?_⟩
    rw [List.foldl_cons, hget]
    by_cases hmem : name ∈ names
    · rw [if_pos hmem, if_pos (List.mem_cons_of_mem a hmem)]
    · rw [if_neg hmem]
      by_cases hname : name = a
      · rw [hname, if_pos List.mem_cons_self, Dict.get_put_self]
      · rw [if_neg fun hcons => (List.mem_cons.1 hcons).elim hname hmem, Dict.get_put_of_ne _ _ hname]

/-- The dictionary follows the rounds on functions. -/
theorem fillTargets_eq (h : waiting ⊆ targets.map Prod.fst) :
    (fillTargets demands turn waiting remaining targets).targets.map Prod.fst = targets.map Prod.fst ∧
      ∀ name, (Dict.get (fillTargets demands turn waiting remaining targets).targets name).getD 0 =
        fillRounds demands turn waiting remaining (fun name => (Dict.get targets name).getD 0) name := by
  induction waiting generalizing remaining targets with
  | nil => exact ⟨rfl, fun _ => rfl⟩
  | cons a waiting ih =>
    have hkeys : (Dict.put targets a (demands a)).map Prod.fst = targets.map Prod.fst := by
      rw [Dict.keys_put, if_pos (Dict.mem_keys.1 (h List.mem_cons_self))]
    rw [fillTargets, fillRounds]
    by_cases hlow : remaining / (waiting.length + 1) < demands a
    · rw [if_pos hlow, if_pos hlow]
      have hsub : (a :: waiting).insertionSort (· ≤ ·) ⊆ targets.map Prod.fst := fun b hb =>
        h ((List.perm_insertionSort _ _).subset hb)
      obtain ⟨hlast, hget⟩ := foldl_put (f := fun name => min (demands name)
        (remaining / (a :: waiting).length + if name ∈ bonus ((a :: waiting).insertionSort (· ≤ ·)) turn
          (remaining % (a :: waiting).length) then 1 else 0)) hsub
      refine ⟨hlast, fun name => ?_⟩
      show (Dict.get (assignLast demands turn (a :: waiting) remaining targets) name).getD 0 =
        lastRound demands turn (a :: waiting) remaining _ name
      unfold assignLast lastRound
      rw [hget]
      split
      · rfl
      · rfl
    · rw [if_neg hlow, if_neg hlow]
      have hsub : waiting ⊆ (Dict.put targets a (demands a)).map Prod.fst := fun b hb =>
        hkeys ▸ h (List.mem_cons_of_mem a hb)
      refine ⟨(ih hsub).1.trans hkeys, fun name => ?_⟩
      have hget := (@ih (remaining - demands a) _ hsub).2
      rw [hget]
      congr 1
      funext b
      by_cases hb : b = a
      · rw [hb, Dict.get_put_self, Function.update_self]
        rfl
      · rw [Dict.get_put_of_ne _ _ hb, Function.update_of_ne hb]

end Dictionary

/-! ### The levels -/

section Levels

variable {demands : ι → ℕ} {turn : ℤ} {waiting : List ι} {remaining : ℕ} {targets : ι → ℕ} {a : ι}

theorem lastRound_lt (ha : a ∈ waiting) (hlt : lastRound demands turn waiting remaining targets a < demands a) :
    remaining / waiting.length ≤ lastRound demands turn waiting remaining targets a := by
  have hmem : a ∈ waiting.insertionSort (· ≤ ·) := (List.perm_insertionSort _ _).symm.subset ha
  simp only [lastRound, if_pos hmem] at hlt ⊢
  omega

/-- The level rises when a job leaves that asks for no more than it. -/
theorem level_le_level {n s : ℕ} (hn : 0 < n) (hs : s ≤ remaining / (n + 1)) :
    remaining / (n + 1) ≤ (remaining - s) / n := by
  rw [Nat.le_div_iff_mul_le hn]
  have hmul := Nat.div_mul_le_self remaining (n + 1)
  rw [Nat.mul_add, Nat.mul_one] at hmul
  omega

/-- A job that gets less than it asks for gets the level at least. -/
theorem level_le_fillRounds (hnd : waiting.Nodup) (ha : a ∈ waiting)
    (hlt : fillRounds demands turn waiting remaining targets a < demands a) :
    remaining / waiting.length ≤ fillRounds demands turn waiting remaining targets a := by
  induction waiting generalizing remaining targets with
  | nil => cases ha
  | cons b waiting ih =>
    obtain ⟨hb, hnd'⟩ := List.nodup_cons.1 hnd
    rw [fillRounds] at hlt ⊢
    split_ifs at hlt ⊢ with hlow
    · exact lastRound_lt ha hlt
    · rcases List.mem_cons.1 ha with rfl | ha'
      · rw [fillRounds_of_not_mem hb, Function.update_self] at hlt
        exact absurd hlt (lt_irrefl _)
      · exact (level_le_level (List.length_pos_of_mem ha') (not_lt.1 hlow)).trans (ih hnd' ha' hlt)

/-- No job gets more than one slot above such a job. -/
theorem fillRounds_fair (hnd : waiting.Nodup) (ha : a ∈ waiting)
    (hlt : fillRounds demands turn waiting remaining targets a < demands a) {b : ι} (hb : b ∈ waiting) :
    fillRounds demands turn waiting remaining targets b ≤
      fillRounds demands turn waiting remaining targets a + 1 := by
  have hlevel := level_le_fillRounds hnd ha hlt
  induction waiting generalizing remaining targets with
  | nil => cases ha
  | cons c waiting ih =>
    obtain ⟨hc, hnd'⟩ := List.nodup_cons.1 hnd
    rw [fillRounds] at hlt hlevel ⊢
    split_ifs at hlt hlevel ⊢ with hlow
    · have hmem : b ∈ (c :: waiting).insertionSort (· ≤ ·) := (List.perm_insertionSort _ _).symm.subset hb
      have hle : lastRound demands turn (c :: waiting) remaining targets b ≤ remaining / (c :: waiting).length + 1 := by
        simp only [lastRound, if_pos hmem]
        split_ifs <;> omega
      omega
    · rcases List.mem_cons.1 ha with rfl | ha'
      · rw [fillRounds_of_not_mem hc, Function.update_self] at hlt
        exact absurd hlt (lt_irrefl _)
      · rcases List.mem_cons.1 hb with rfl | hb'
        · -- the job that leaves asks for no more than the level
          rw [fillRounds_of_not_mem hc, Function.update_self]
          have hleaves : demands b ≤ remaining / (b :: waiting).length := not_lt.1 hlow
          omega
        · exact ih hnd' ha' hlt hb' (level_le_fillRounds hnd' ha' hlt)

end Levels

/-! ### The result -/

namespace Demands

variable (d : Demands ι) (capacity turn : ℤ)

theorem names_subset : byDemand d.demand d.names ⊆ (d.entries.map fun entry => (entry.1, 0)).map Prod.fst := by
  rw [List.map_map]
  exact (perm_byDemand d.demand d.names).subset

theorem keys_targets : (d.targets capacity turn).map Prod.fst = d.names := by
  have hkeys : (d.targets capacity turn).map Prod.fst = (d.entries.map fun entry => (entry.1, 0)).map Prod.fst :=
    (fillTargets_eq d.names_subset).1
  rw [List.map_map] at hkeys
  exact hkeys

theorem target_eq (name : ι) : d.target capacity turn name = fairTargets d.demand d.names capacity turn name := by
  have hget : d.target capacity turn name = _ := (fillTargets_eq d.names_subset).2 name
  have hzero : (fun name => (Dict.get (d.entries.map fun entry => (entry.1, 0)) name).getD 0) = fun _ => 0 := by
    funext name
    induction d.entries with
    | nil => rfl
    | cons e entries ih =>
      rw [List.map_cons, Dict.get_cons]
      split
      · rfl
      · exact ih
  rw [hzero] at hget
  exact hget

theorem target_of_mem {e : ι × ℕ} (he : e ∈ d.targets capacity turn) : d.target capacity turn e.1 = e.2 := by
  have hnodup : ((d.targets capacity turn).map Prod.fst).Nodup := keys_targets d capacity turn ▸ d.nodup
  unfold target
  rw [Dict.get_of_mem hnodup he]
  rfl

theorem demand_of_mem {e : ι × ℕ} (he : e ∈ d.entries) : d.demand e.1 = e.2 := by
  unfold demand
  rw [Dict.get_of_mem d.nodup he]
  rfl

theorem sum_targets : ((d.targets capacity turn).map Prod.snd).sum = min capacity.toNat (d.entries.map Prod.snd).sum := by
  have htargets : (d.targets capacity turn).map Prod.snd = d.names.map (fairTargets d.demand d.names capacity turn) := by
    have hkeys : d.names.map (fairTargets d.demand d.names capacity turn) =
        ((d.targets capacity turn).map Prod.fst).map (fairTargets d.demand d.names capacity turn) :=
      congrArg _ (keys_targets d capacity turn).symm
    rw [hkeys, List.map_map]
    refine List.map_congr_left fun e he => ?_
    rw [Function.comp_apply, ← target_eq, target_of_mem d capacity turn he]
  have hdemands : d.entries.map Prod.snd = d.names.map d.demand := by
    unfold names
    rw [List.map_map]
    exact List.map_congr_left fun e he => (demand_of_mem d he).symm
  rw [htargets, hdemands]
  exact sum_fairTargets d.nodup

/-- `fair_targets` has a target for every job, which is at most its demand, hands out the whole capacity or
all that is asked for, and gives no job more than one slot above a job that it does not satisfy. -/
theorem targets_maxMin :
    (d.targets capacity turn).map Prod.fst = d.entries.map Prod.fst ∧
      (∀ e ∈ d.targets capacity turn, e.2 ≤ d.demand e.1) ∧
      (((d.targets capacity turn).map Prod.snd).sum : ℤ) = min (max 0 capacity) (d.entries.map Prod.snd).sum ∧
      ∀ a ∈ d.targets capacity turn, a.2 < d.demand a.1 → ∀ b ∈ d.targets capacity turn, b.2 ≤ a.2 + 1 := by
  refine ⟨keys_targets d capacity turn, fun e he => ?_, ?_, fun a ha hlt b hb => ?_⟩
  · rw [← target_of_mem d capacity turn he, target_eq]
    exact fairTargets_le e.1
  · rw [sum_targets]
    omega
  · have hperm := perm_byDemand d.demand d.names
    have hmem : ∀ e ∈ d.targets capacity turn, e.1 ∈ byDemand d.demand d.names := fun e he =>
      hperm.symm.subset (keys_targets d capacity turn ▸ List.mem_map_of_mem he)
    rw [← target_of_mem d capacity turn ha, target_eq] at hlt ⊢
    rw [← target_of_mem d capacity turn hb, target_eq]
    exact fillRounds_fair (hperm.nodup_iff.2 d.nodup) (hmem a ha) hlt (hmem b hb)

end Demands

end Coordinator
end Slurmy
