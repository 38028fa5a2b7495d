import Slurmy.Lib.Machine
import Slurmy.Lib.Rotation
import Slurmy.Coordinator.Attempt
import Slurmy.Coordinator.MaxMin

/-!
# The extra slots go round

What does not divide evenly in the last round goes to the jobs in turn.

* `waiting_fillTargets`, `fillRounds_final`: the last round, which does not depend on the turn;
* `card_extra`: over as many turns as it has jobs, each gets the extra slot equally often;
* `Call`, `step`: attempts and releases, one after the other;
* `rotation_equity`: both, with the turn that is stored.
-/

namespace Slurmy
namespace Coordinator

section LastRound

variable {ι : Type*} [LinearOrder ι] {demands : ι → ℕ} {turn : ℤ} {waiting : List ι} {remaining : ℕ} {name : ι}

/-- The jobs of the last round, and what it has left to give. -/
theorem waiting_fillTargets (turn turn' : ℤ) (targets targets' : List (ι × ℕ)) :
    (fillTargets demands turn waiting remaining targets).waiting =
        (fillTargets demands turn' waiting remaining targets').waiting ∧
      (fillTargets demands turn waiting remaining targets).remaining =
        (fillTargets demands turn' waiting remaining targets').remaining := by
  induction waiting generalizing remaining targets targets' with
  | nil => exact ⟨rfl, rfl⟩
  | cons a waiting ih =>
    rw [fillTargets, fillTargets]
    split
    · exact ⟨rfl, rfl⟩
    · exact ih _ _

theorem sublist_fillTargets {targets : List (ι × ℕ)} :
    (fillTargets demands turn waiting remaining targets).waiting.Sublist waiting := by
  induction waiting generalizing remaining targets with
  | nil => exact List.Sublist.refl _
  | cons a waiting ih =>
    rw [fillTargets]
    split
    · exact List.Sublist.refl _
    · exact ih.cons a

/-- A job that is not satisfied is in the last round. -/
theorem mem_final {targets : ι → ℕ} {assigned : List (ι × ℕ)} (hnd : waiting.Nodup) (hname : name ∈ waiting)
    (hlt : fillRounds demands turn waiting remaining targets name < demands name) :
    name ∈ (fillTargets demands turn waiting remaining assigned).waiting := by
  induction waiting generalizing remaining targets assigned with
  | nil => cases hname
  | cons a waiting ih =>
    obtain ⟨ha, hnd'⟩ := List.nodup_cons.1 hnd
    rw [fillRounds] at hlt
    rw [fillTargets]
    split_ifs at hlt ⊢ with hlow
    · exact hname
    · rcases List.mem_cons.1 hname with rfl | hname'
      · rw [fillRounds_of_not_mem ha, Function.update_self] at hlt
        exact absurd hlt (lt_irrefl _)
      · exact ih hnd' hname' hlt

/-- In the last round a job gets the level, or one slot more. -/
theorem fillRounds_final {targets : ι → ℕ} {assigned : List (ι × ℕ)} {l : Locals ι}
    (hl : fillTargets demands turn waiting remaining assigned = l) (hnd : waiting.Nodup)
    (hord : waiting.Pairwise fun a b => demands a ≤ demands b) (hname : name ∈ l.waiting) :
    fillRounds demands turn waiting remaining targets name = l.remaining / l.waiting.length +
      if name ∈ bonus (l.waiting.insertionSort (· ≤ ·)) turn (l.remaining % l.waiting.length) then 1 else 0 := by
  induction waiting generalizing remaining targets assigned with
  | nil =>
    subst hl
    cases hname
  | cons a waiting ih =>
    obtain ⟨ha, hnd'⟩ := List.nodup_cons.1 hnd
    obtain ⟨hle, hord'⟩ := List.pairwise_cons.1 hord
    rw [fillTargets] at hl
    rw [fillRounds]
    by_cases hlow : remaining / (waiting.length + 1) < demands a
    · rw [if_pos hlow] at hl ⊢
      subst hl
      have hmem : name ∈ (a :: waiting).insertionSort (· ≤ ·) := (List.perm_insertionSort _ _).symm.subset hname
      have hdemand : remaining / (a :: waiting).length < demands name := by
        rcases List.mem_cons.1 hname with rfl | hname'
        · exact hlow
        · exact lt_of_lt_of_le hlow (hle name hname')
      simp only [lastRound, if_pos hmem]
      split_ifs <;> omega
    · rw [if_neg hlow] at hl ⊢
      exact ih hl hnd' hord'

/-- Of as many turns as there are jobs, each job has the bonus in `extra` ones. -/
theorem card_bonus {ordered : List ι} (hnd : ordered.Nodup) (hname : name ∈ ordered) {extra : ℕ}
    (hextra : extra ≤ ordered.length) (turn : ℤ) :
    ((Finset.range ordered.length).filter fun s : ℕ => name ∈ bonus ordered (turn + s) extra).card = extra := by
  obtain ⟨j, hj, rfl⟩ := List.getElem_of_mem hname
  have hn : (0 : ℤ) < ordered.length := by omega
  have hiff : ∀ s : ℕ, ordered[j] ∈ bonus ordered (turn + s) extra ↔
      (((j - turn : ℤ) - s) % ordered.length).toNat < extra := by
    intro s
    have hnonneg := Int.emod_nonneg (turn + s) hn.ne'
    have hbound := Int.emod_lt_of_pos (turn + s) hn
    have hk : ((turn + s) % (ordered.length : ℤ)).toNat < ordered.length := by omega
    have hmod : ((j : ℤ) - ((turn + s) % (ordered.length : ℤ)).toNat) % ordered.length =
        ((j - turn : ℤ) - s) % ordered.length := by
      rw [Int.toNat_of_nonneg hnonneg, Int.sub_emod_emod, sub_sub]
    unfold bonus
    rw [Rotation.mem_take_rotate_iff hnd hj hk hextra, hmod]
  simp only [hiff]
  exact Rotation.card_turns hextra _

end LastRound

/-! ### The last round of a dictionary -/

namespace Demands

variable {ι : Type*} [LinearOrder ι] (d : Demands ι) (capacity : ℤ)

/-- The jobs of the last round. -/
def finalRound (turn : ℤ) : List ι := (d.locals capacity turn).waiting

/-- What divides evenly there, and what does not. -/
def level (turn : ℤ) : ℕ := (d.locals capacity turn).remaining / (d.finalRound capacity turn).length

def extra (turn : ℤ) : ℕ := (d.locals capacity turn).remaining % (d.finalRound capacity turn).length

theorem finalRound_eq (turn turn' : ℤ) : d.finalRound capacity turn = d.finalRound capacity turn' :=
  (waiting_fillTargets turn turn' _ _).1

theorem remaining_eq (turn turn' : ℤ) : (d.locals capacity turn).remaining = (d.locals capacity turn').remaining :=
  (waiting_fillTargets turn turn' _ _).2

theorem level_eq (turn turn' : ℤ) : d.level capacity turn = d.level capacity turn' := by
  unfold level
  rw [remaining_eq d capacity turn turn', finalRound_eq d capacity turn turn']

theorem extra_eq (turn turn' : ℤ) : d.extra capacity turn = d.extra capacity turn' := by
  unfold extra
  rw [remaining_eq d capacity turn turn', finalRound_eq d capacity turn turn']

theorem nodup_byDemand : (byDemand d.demand d.names).Nodup :=
  (perm_byDemand d.demand d.names).nodup_iff.2 d.nodup

theorem nodup_finalRound (turn : ℤ) : (d.finalRound capacity turn).Nodup :=
  sublist_fillTargets.nodup (nodup_byDemand d)

theorem target_final {turn : ℤ} {name : ι} (h : name ∈ d.finalRound capacity turn) :
    d.target capacity turn name = d.level capacity turn +
      if name ∈ bonus ((d.finalRound capacity turn).insertionSort (· ≤ ·)) turn (d.extra capacity turn) then 1 else 0 := by
  rw [target_eq]
  exact fillRounds_final rfl (nodup_byDemand d) (pairwise_byDemand d.demand d.names) h

theorem mem_finalRound {turn : ℤ} {name : ι} (hname : name ∈ d.names)
    (hlt : d.target capacity turn name < d.demand name) : name ∈ d.finalRound capacity turn := by
  rw [target_eq] at hlt
  exact mem_final (nodup_byDemand d) ((perm_byDemand d.demand d.names).symm.subset hname) hlt

/-- Over as many turns as there are jobs in the last round, each of them gets the extra slot `extra` times. -/
theorem card_extra {turn : ℤ} {name : ι} (h : name ∈ d.finalRound capacity turn) :
    ((Finset.range (d.finalRound capacity turn).length).filter fun s : ℕ =>
      d.target capacity (turn + s) name = d.level capacity turn + 1).card = d.extra capacity turn := by
  have hperm : ((d.finalRound capacity turn).insertionSort (· ≤ ·)).Perm (d.finalRound capacity turn) :=
    List.perm_insertionSort _ _
  have hiff : ∀ s : ℕ, d.target capacity (turn + s) name = d.level capacity turn + 1 ↔
      name ∈ bonus ((d.finalRound capacity turn).insertionSort (· ≤ ·)) (turn + s) (d.extra capacity turn) := by
    intro s
    rw [target_final d capacity (finalRound_eq d capacity turn _ ▸ h), level_eq d capacity (turn + s) turn,
      finalRound_eq d capacity (turn + s) turn, extra_eq d capacity (turn + s) turn]
    split
    · next hmem => exact iff_of_true rfl hmem
    · next hmem => exact iff_of_false (by omega) hmem
  have hpos : 0 < (d.finalRound capacity turn).length := List.length_pos_of_mem h
  have hextra : d.extra capacity turn ≤ ((d.finalRound capacity turn).insertionSort (· ≤ ·)).length := by
    rw [hperm.length_eq]
    exact (Nat.mod_lt _ hpos).le
  simp only [hiff]
  rw [← hperm.length_eq]
  exact card_bonus (hperm.nodup_iff.2 (nodup_finalRound d capacity turn)) (hperm.symm.subset h) hextra turn

end Demands

/-! ### The stored turn -/

/-- A call of the coordinator, with what it reads from outside. -/
inductive Call
  | attempt (env : Environment) (req : Request)
  | release (job : Text)

/-- The stored turn, as the next attempt reads it. -/
def Store.turn (s : Store) : ℤ := s.capacity.turn.getD 0

def Leases.release (d : Leases) (job : Text) : Leases :=
  ⟨d.files.filter fun l => l.jobId ≠ job, (List.filter_sublist.map _).nodup d.nodup⟩

/-- The answer of a call, and the files after it; arguments that are not valid are refused at once. -/
def call (cfg : Config) (s : Store) : Call → Option Answer × Store
  | .attempt env req =>
      if isJobId req.jobId ∧ 0 < req.requested then
        let r := attempt cfg env req s
        (some r.1, r.2)
      else (none, s)
  | .release job => (none, if isJobId job then { s with leases := s.leases.release job } else s)

/-- The answers of calls one after the other, and the files in the end. -/
def calls (cfg : Config) : Store → List Call → List (Option Answer) × Store
  | s, [] => ([], s)
  | s, c :: cs =>
      let r := call cfg s c
      let rest := calls cfg r.2 cs
      (r.1 :: rest.1, rest.2)

def isAccepted (answer : Option Answer) : Bool := answer.any fun a => a.kind = .accepted

/-- `sbatch` moves the turn on when it accepts. -/
theorem turn_submit (env : Environment) (a : Admission) (c : CapacityRecord) :
    (submit env a c).2.turn.getD 0 = c.turn.getD 0 + if (submit env a c).1.kind = .accepted then 1 else 0 := by
  unfold submit
  cases env.sbatch with
  | unconfirmed exc => exact (add_zero _).symm
  | exited returncode stdout stderr =>
    simp only
    by_cases hreturn : returncode = 0
    · rw [if_pos hreturn]
      by_cases hid : isDigits (before ';' (strip stdout)) = true
      · rw [if_pos hid]
        rfl
      · rw [if_neg hid]
        exact (add_zero _).symm
    · rw [if_neg hreturn]
      by_cases hlimit : isLimitError (sbatchMessage stdout stderr) = true
      · rw [if_pos hlimit]
        by_cases htotal : a.total = 0
        · rw [if_pos htotal]
          exact (add_zero _).symm
        · rw [if_neg htotal]
          exact (add_zero _).symm
      · rw [if_neg hlimit]
        exact (add_zero _).symm

theorem turn_refresh (c : CapacityRecord) (cfg : Config) (env : Environment) : (c.refresh cfg env).turn = c.turn := by
  unfold CapacityRecord.refresh
  split
  · rfl
  · rfl

theorem turn_attempt (cfg : Config) (env : Environment) (req : Request) (s : Store) :
    (attempt cfg env req s).2.turn = s.turn + if (attempt cfg env req s).1.kind = .accepted then 1 else 0 := by
  unfold attempt
  cases env.squeue with
  | error message => exact (add_zero _).symm
  | ok lines =>
    simp only
    by_cases hadmits : (decision cfg env req s lines).admits = true
    · rw [if_pos hadmits]
      have hturn := turn_submit env (decision cfg env req s lines) (s.capacity.refresh cfg env)
      rw [turn_refresh] at hturn
      exact hturn
    · rw [if_neg hadmits]
      show ((s.capacity.refresh cfg env).turn).getD 0 = s.turn + 0
      rw [turn_refresh, add_zero]
      rfl

theorem turn_call (cfg : Config) (s : Store) (c : Call) :
    (call cfg s c).2.turn = s.turn + if isAccepted (call cfg s c).1 then 1 else 0 := by
  cases c with
  | attempt env req =>
    unfold call
    simp only
    by_cases hvalid : isJobId req.jobId ∧ 0 < req.requested
    · rw [if_pos hvalid, turn_attempt]
      simp only [isAccepted, Option.any_some, decide_eq_true_eq]
    · rw [if_neg hvalid]
      exact (add_zero _).symm
  | release job =>
    unfold call
    simp only
    by_cases hjob : isJobId job = true
    · rw [if_pos hjob]
      exact (add_zero _).symm
    · rw [if_neg hjob]
      exact (add_zero _).symm

/-- Of the answers in a run, those that accept move the turn on, each by one. -/
theorem turn_calls (cfg : Config) (s : Store) (cs : List Call) :
    (calls cfg s cs).2.turn = s.turn + (calls cfg s cs).1.countP isAccepted := by
  induction cs generalizing s with
  | nil => exact (add_zero _).symm
  | cons c cs ih =>
    have hcons : calls cfg s (c :: cs) =
        ((call cfg s c).1 :: (calls cfg (call cfg s c).2 cs).1, (calls cfg (call cfg s c).2 cs).2) := rfl
    rw [hcons, ih, turn_call, List.countP_cons]
    push_cast
    ring

/-! ### Both -/

/-- In the last round, which is the same for every turn, everyone has the extra slot equally often; and a
run of calls moves the turn on by one with every submission that is accepted, and not otherwise. -/
theorem rotation_equity (cfg : Config) :
    (∀ {ι : Type} [LinearOrder ι] (d : Demands ι) (capacity turn : ℤ),
      (∀ turn', d.finalRound capacity turn' = d.finalRound capacity turn ∧
        d.extra capacity turn' = d.extra capacity turn) ∧
      (∀ name ∈ d.names, d.target capacity turn name < d.demand name → name ∈ d.finalRound capacity turn) ∧
      ∀ name ∈ d.finalRound capacity turn,
        (∀ turn', d.target capacity turn' name = d.level capacity turn ∨
          d.target capacity turn' name = d.level capacity turn + 1) ∧
        ((Finset.range (d.finalRound capacity turn).length).filter fun s : ℕ =>
          d.target capacity (turn + s) name = d.level capacity turn + 1).card = d.extra capacity turn) ∧
      ∀ (s : Store) (cs : List Call),
        (calls cfg s cs).2.turn = s.turn + (calls cfg s cs).1.countP isAccepted := by
  refine ⟨fun d capacity turn => ⟨fun turn' => ?_, fun name hname hlt => ?_, fun name hname => ⟨fun turn' => ?_, ?_⟩⟩,
    fun s cs => turn_calls cfg s cs⟩
  · exact ⟨d.finalRound_eq capacity turn' turn, d.extra_eq capacity turn' turn⟩
  · exact d.mem_finalRound capacity hname hlt
  · rw [d.target_final capacity (d.finalRound_eq capacity turn turn' ▸ hname), d.level_eq capacity turn' turn]
    split
    · exact .inr rfl
    · exact .inl rfl
  · exact d.card_extra capacity hname

end Coordinator
end Slurmy
