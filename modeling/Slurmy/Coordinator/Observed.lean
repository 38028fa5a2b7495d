import Slurmy.Coordinator.Conservation

/-!
# The expiry of an observed ceiling

An observed ceiling counts for `OBSERVATION_SECONDS`.  The admission ignores an expired one, but the
branch that records a new limit rejection merges it with whatever is stored, expired or not.  Two
records that differ only in expired observations therefore lead to the same kind of answer always,
and to the same live ceiling exactly when that branch is not taken or merges both to one value
(`expired_observed_iff`).
-/

namespace Slurmy
namespace Coordinator

/-- The record with another observation. -/
def CapacityRecord.withObserved (c : CapacityRecord) (observed : Option ℤ) (observedAt : Option ℚ) :
    CapacityRecord :=
  { c with observed := observed, observedAt := observedAt }

/-- An observation that is absent or older than `OBSERVATION_SECONDS`. -/
def Expired (now : ℚ) (observed : Option ℤ) (observedAt : Option ℚ) : Prop :=
  observed = none ∨ observationSeconds ≤ now - observedAt.getD 0

/-- The attempt reaches `sbatch`, which reports a submit limit while the queue is not empty. -/
def LimitReached (cfg : Config) (env : Environment) (req : Request) (s : Store) : Prop :=
  ∃ lines, env.squeue = .ok lines ∧ (decision cfg env req s lines).admits = true ∧
    env.sbatch.limitRejected = true ∧ (queueSnapshot cfg.root lines).total ≠ 0

/-- The number of tasks in the queue, `0` when it cannot be read. -/
def queueTotal (cfg : Config) (env : Environment) : ℕ :=
  match env.squeue with
  | .ok lines => (queueSnapshot cfg.root lines).total
  | .error _ => 0

theorem queueTotal_ok {cfg : Config} {env : Environment} {lines : List Text}
    (hq : env.squeue = .ok lines) : queueTotal cfg env = (queueSnapshot cfg.root lines).total := by
  simp [queueTotal, hq]

section Expired

variable {now : ℚ} {observed : Option ℤ} {observedAt : Option ℚ}

theorem Expired.liveObserved (h : Expired now observed observedAt) {t : ℚ} (ht : now ≤ t)
    (c : CapacityRecord) : (c.withObserved observed observedAt).liveObserved t = none := by
  show (if t - observedAt.getD 0 < observationSeconds then observed else none) = none
  rcases h with h | h
  · rw [h, ite_self]
  · exact if_neg (by linarith)

theorem refresh_withObserved (c : CapacityRecord) (cfg : Config) (env : Environment) :
    (c.withObserved observed observedAt).refresh cfg env =
      (c.refresh cfg env).withObserved observed observedAt := by
  unfold CapacityRecord.refresh
  by_cases h : env.now - c.checked.getD 0 > observationSeconds
  · rw [if_pos h]
    exact if_pos h
  · rw [if_neg h]
    exact if_neg h

/-- The comparison before `sbatch` ignores an expired observation. -/
theorem decision_withObserved (cfg : Config) (env : Environment) (req : Request) (d : Leases)
    (c : CapacityRecord) (lines : List Text) (h : Expired env.now observed observedAt) :
    decision cfg env req ⟨d, c.withObserved observed observedAt⟩ lines =
      decision cfg env req ⟨d, c.withObserved none none⟩ lines := by
  have hceil : ((c.refresh cfg env).withObserved observed observedAt).ceiling env.now =
      ((c.refresh cfg env).withObserved none none).ceiling env.now := by
    have hnone : Expired env.now none none := .inl rfl
    simp only [CapacityRecord.ceiling, h.liveObserved le_rfl, hnone.liveObserved le_rfl]
    rfl
  simp only [decision, admission, refresh_withObserved, hceil]
  rfl

end Expired

/-! ### The reply of `sbatch` -/

section Submit

variable {env : Environment} {a : Admission} {observed : Option ℤ} {observedAt : Option ℚ}

theorem kind_submit_withObserved (c : CapacityRecord) :
    (submit env a (c.withObserved observed observedAt)).1.kind = (submit env a c).1.kind := by
  unfold submit
  cases env.sbatch with
  | unconfirmed exc => rfl
  | exited returncode stdout stderr =>
    simp only
    split_ifs <;> rfl

/-- Only a limit rejection with tasks in the queue touches the observation. -/
theorem submit_observed (c : CapacityRecord) :
    (submit env a c).2.observed = c.observed ∧ (submit env a c).2.observedAt = c.observedAt ∨
      env.sbatch.limitRejected = true ∧ a.total ≠ 0 := by
  unfold submit
  cases hs : env.sbatch with
  | unconfirmed exc => exact .inl ⟨rfl, rfl⟩
  | exited returncode stdout stderr =>
    simp only
    split_ifs with hrc hid hlim htot
    · exact .inl ⟨rfl, rfl⟩
    · exact .inl ⟨rfl, rfl⟩
    · exact .inl ⟨rfl, rfl⟩
    · exact .inr ⟨by simp [SbatchResult.limitRejected, hrc, hlim], htot⟩
    · exact .inl ⟨rfl, rfl⟩

theorem submit_limit (c : CapacityRecord) (hlim : env.sbatch.limitRejected = true)
    (htot : a.total ≠ 0) :
    (submit env a c).2 = c.withObserved (some (mergeObserved a.total c.observed)) (some env.now) := by
  unfold submit
  cases hs : env.sbatch with
  | unconfirmed exc => simp [hs, SbatchResult.limitRejected] at hlim
  | exited returncode stdout stderr =>
    simp only [hs, SbatchResult.limitRejected, Bool.and_eq_true, decide_eq_true_eq] at hlim
    simp only [if_neg hlim.1, if_pos hlim.2, if_neg htot]
    rfl

end Submit

/-! ### The attempt -/

section Attempt

variable {cfg : Config} {env : Environment} {req : Request} {d : Leases} {c : CapacityRecord}
  {observed : Option ℤ} {observedAt : Option ℚ}

/-- The kind of the answer does not depend on an expired observation. -/
theorem kind_attempt_withObserved (h : Expired env.now observed observedAt) :
    (attempt cfg env req ⟨d, c.withObserved observed observedAt⟩).1.kind =
      (attempt cfg env req ⟨d, c.withObserved none none⟩).1.kind := by
  unfold attempt
  cases env.squeue with
  | error message => rfl
  | ok lines =>
    simp only [decision_withObserved cfg env req d c lines h, refresh_withObserved]
    split_ifs
    · simp only [kind_submit_withObserved]
    · rfl

theorem limitReached_withObserved (h : Expired env.now observed observedAt) :
    LimitReached cfg env req ⟨d, c.withObserved observed observedAt⟩ ↔
      LimitReached cfg env req ⟨d, c.withObserved none none⟩ := by
  simp only [LimitReached, decision_withObserved cfg env req d c _ h]

/-- Without a limit rejection no observation is live afterwards. -/
theorem liveObserved_of_not_limitReached (h : Expired env.now observed observedAt)
    (hlim : ¬ LimitReached cfg env req ⟨d, c.withObserved observed observedAt⟩) {t : ℚ}
    (ht : env.now ≤ t) :
    (attempt cfg env req ⟨d, c.withObserved observed observedAt⟩).2.capacity.liveObserved t =
      none := by
  have hkeep : ∀ r : CapacityRecord, r.observed = observed → r.observedAt = observedAt →
      r.liveObserved t = none := fun r ho hat => by
    have hr : r = r.withObserved observed observedAt := by cases r; simp_all [CapacityRecord.withObserved]
    rw [hr]
    exact h.liveObserved ht r
  unfold attempt
  cases hq : env.squeue with
  | error message => exact hkeep _ rfl rfl
  | ok lines =>
    simp only [refresh_withObserved]
    split_ifs with hadm
    · rcases @submit_observed env _ ((c.refresh cfg env).withObserved observed observedAt)
        with hobs | hobs
      · exact hkeep _ hobs.1 hobs.2
      · exact absurd ⟨lines, hq, hadm, hobs⟩ hlim
    · exact hkeep _ rfl rfl

/-- A limit rejection stores the merged observation, fresh. -/
theorem liveObserved_of_limitReached
    (hlim : LimitReached cfg env req ⟨d, c.withObserved observed observedAt⟩) (t : ℚ) :
    (attempt cfg env req ⟨d, c.withObserved observed observedAt⟩).2.capacity.liveObserved t =
      if t - env.now < observationSeconds then some (mergeObserved (queueTotal cfg env) observed)
      else none := by
  obtain ⟨lines, hq, hadm, hrej, htot⟩ := hlim
  have htot' : (decision cfg env req ⟨d, c.withObserved observed observedAt⟩ lines).total ≠ 0 := htot
  simp only [attempt, hq, hadm, if_true, refresh_withObserved, queueTotal_ok hq]
  rw [submit_limit _ hrej htot']
  rfl

end Attempt

/-- **The influence of expired observations.**  Two records that differ only in expired (or absent)
observations lead to the same kind of answer and afterwards to the same live ceiling, if and only if
no submit limit is reported with tasks in the queue, or both stored values give the same minimum with
the number of tasks. -/
theorem expired_observed_iff (cfg : Config) (env : Environment) (req : Request) (d : Leases)
    (c : CapacityRecord) (o₁ o₂ : Option ℤ) (t₁ t₂ : Option ℚ) (h₁ : Expired env.now o₁ t₁)
    (h₂ : Expired env.now o₂ t₂) :
    ((attempt cfg env req ⟨d, c.withObserved o₁ t₁⟩).1.kind =
        (attempt cfg env req ⟨d, c.withObserved o₂ t₂⟩).1.kind ∧
      ∀ t, env.now ≤ t →
        (attempt cfg env req ⟨d, c.withObserved o₁ t₁⟩).2.capacity.liveObserved t =
          (attempt cfg env req ⟨d, c.withObserved o₂ t₂⟩).2.capacity.liveObserved t) ↔
      (LimitReached cfg env req ⟨d, c.withObserved none none⟩ →
        mergeObserved (queueTotal cfg env) o₁ = mergeObserved (queueTotal cfg env) o₂) := by
  constructor
  · rintro ⟨-, hlive⟩ hlim
    have h := hlive env.now le_rfl
    rw [liveObserved_of_limitReached ((limitReached_withObserved h₁).2 hlim),
      liveObserved_of_limitReached ((limitReached_withObserved h₂).2 hlim)] at h
    simpa [observationSeconds] using h
  · intro hmerge
    refine ⟨(kind_attempt_withObserved h₁).trans (kind_attempt_withObserved h₂).symm, fun t ht => ?_⟩
    by_cases hlim : LimitReached cfg env req ⟨d, c.withObserved none none⟩
    · rw [liveObserved_of_limitReached ((limitReached_withObserved h₁).2 hlim),
        liveObserved_of_limitReached ((limitReached_withObserved h₂).2 hlim), hmerge hlim]
    · rw [liveObserved_of_not_limitReached h₁ (mt (limitReached_withObserved h₁).1 hlim) ht,
        liveObserved_of_not_limitReached h₂ (mt (limitReached_withObserved h₂).1 hlim) ht]

/-- A ceiling of one task observed 1000 seconds ago comes back to life when SLURM reports a limit at
two tasks: with it stored the ceiling is one task afterwards, without it two. -/
theorem expired_observed_revived :
    ¬ ∀ (cfg : Config) (env : Environment) (req : Request) (d : Leases) (c : CapacityRecord)
      (o₁ o₂ : Option ℤ) (t₁ t₂ : Option ℚ), Expired env.now o₁ t₁ → Expired env.now o₂ t₂ →
      (attempt cfg env req ⟨d, c.withObserved o₁ t₁⟩).1.kind =
          (attempt cfg env req ⟨d, c.withObserved o₂ t₂⟩).1.kind ∧
        ∀ t, env.now ≤ t →
          (attempt cfg env req ⟨d, c.withObserved o₁ t₁⟩).2.capacity.liveObserved t =
            (attempt cfg env req ⟨d, c.withObserved o₂ t₂⟩).2.capacity.liveObserved t := by
  intro hall
  let cfg : Config := ⟨['u'], ['/', 'j']⟩
  let env : Environment :=
    ⟨2000, none, .ok [['8', '|', '/'], ['9', '|', '/']], .exited 1 [] "job submit limit".toList⟩
  have h := (hall cfg env ⟨['a'], 1⟩ ⟨[], List.nodup_nil⟩ ⟨none, some 2000, none, none, none⟩
    (some 1) none (some 1000) none (.inr (by decide +kernel)) (.inl rfl)).2 2000 (by decide +kernel)
  exact absurd h (by decide +kernel)

/-- Stored values of two and three tasks make no difference when the limit is reported at two. -/
theorem expired_observed_same_minimum :
    let cfg : Config := ⟨['u'], ['/', 'j']⟩
    let env : Environment :=
      ⟨2000, none, .ok [['8', '|', '/'], ['9', '|', '/']], .exited 1 [] "job submit limit".toList⟩
    let c : CapacityRecord := ⟨none, some 2000, none, none, none⟩
    (attempt cfg env ⟨['a'], 1⟩ ⟨⟨[], List.nodup_nil⟩, c.withObserved (some 2) (some 1000)⟩).1.kind =
        (attempt cfg env ⟨['a'], 1⟩
          ⟨⟨[], List.nodup_nil⟩, c.withObserved (some 3) (some 1000)⟩).1.kind ∧
      ∀ t, env.now ≤ t →
        (attempt cfg env ⟨['a'], 1⟩
            ⟨⟨[], List.nodup_nil⟩, c.withObserved (some 2) (some 1000)⟩).2.capacity.liveObserved t =
          (attempt cfg env ⟨['a'], 1⟩
            ⟨⟨[], List.nodup_nil⟩, c.withObserved (some 3) (some 1000)⟩).2.capacity.liveObserved t := by
  intro cfg env c
  refine (expired_observed_iff cfg env ⟨['a'], 1⟩ ⟨[], List.nodup_nil⟩ c (some 2) (some 3) (some 1000)
    (some 1000) (.inr (by decide +kernel)) (.inr (by decide +kernel))).2 fun _ => by decide +kernel

end Coordinator
end Slurmy
