import Mathlib.Data.List.ReduceOption
import Slurmy.Coordinator.Attempt

/-!
# Work conservation of the coordinator

While slots remain below the ceiling (or no ceiling is known) and some live lease holder has fewer
active tasks than it requested, the attempt of some live lease holder calls `sbatch`.  What `sbatch`
then replies is SLURM's affair: a submit-limit rejection is answered `WAIT` as well, so the answer is
not `WAIT` only as far as the coordinator itself decides.

The attempts of two lease holders in one state see the same demands, because renewing a live lease
with the window it holds changes its time stamp only (`demand_renewed_live`).
-/

namespace Slurmy
namespace Coordinator

/-- A file of `submitters/` that the scan keeps and that asks for something. -/
def Leases.Holder (d : Leases) (now : ℚ) (l : Lease) : Prop :=
  l ∈ d.files ∧ l.live now = true ∧ 0 < l.requested

instance (d : Leases) (now : ℚ) (l : Lease) : Decidable (d.Holder now l) :=
  inferInstanceAs (Decidable (_ ∧ _))

/-- The request of a lease holder that asks again for the same window. -/
def Lease.request (l : Lease) : Request := ⟨l.jobId, l.requested⟩

/-- `sbatch` fails with a submit-limit message. -/
def SbatchResult.limitRejected : SbatchResult → Bool
  | .unconfirmed _ => false
  | .exited returncode stdout stderr =>
      decide (returncode ≠ 0) && isLimitError (sbatchMessage stdout stderr)

/-! ### The demands that an attempt sees -/

/-- What `demands` is built from. -/
def Leases.entries (d : Leases) : List (Text × ℕ) := d.files.map fun l => (l.jobId, l.requested)

theorem names_eq_of_entries {d d' : Leases} (h : d.entries = d'.entries) : d.names = d'.names := by
  have hnames : ∀ d : Leases, d.names = (d.entries.filter fun e => 0 < e.2).map Prod.fst := fun d => by
    simp only [Leases.names, Leases.entries, List.filter_map, List.map_map]
    rfl
  rw [hnames, hnames, h]

theorem demand_eq_of_entries {d d' : Leases} (h : d.entries = d'.entries) : d.demand = d'.demand := by
  have hdemand : ∀ (d : Leases) (name : Text),
      d.demand name = ((d.entries.find? fun e => e.1 = name).map Prod.snd).getD 0 := fun d name => by
    simp only [Leases.demand, Leases.entries, List.find?_map, Option.map_map]
    rfl
  funext name
  rw [hdemand, hdemand, h]

/-- Renewing a live lease with its own window leaves the demands as they are. -/
theorem entries_renewed_live (env : Environment) {d : Leases} {l : Lease} (hl : d.Holder env.now l) :
    (renewed env l.request d).entries = (d.keepLive env.now).entries := by
  have hreq : l.request.Valid := ⟨by
    have := hl.2.1
    simp only [Lease.live, Bool.and_eq_true] at this
    exact this.2, hl.2.2⟩
  have hmem : l.jobId ∈ d.files.map Lease.jobId := List.mem_map_of_mem hl.1
  have hsame : ∀ old ∈ d.files, old.jobId = l.jobId → old = l := fun old hold he =>
    List.inj_on_of_nodup_map d.nodup hold hl.1 he
  have hsave : saveFiles ⟨l.jobId, l.requested, env.now⟩ d.files = d.files.map fun old =>
      if old.jobId = l.jobId then ⟨l.jobId, l.requested, env.now⟩ else old := if_pos hmem
  have hfilter : d.files.filter (Lease.live env.now ∘ fun old =>
      if old.jobId = l.jobId then ⟨l.jobId, l.requested, env.now⟩ else old) =
      d.files.filter (Lease.live env.now) := by
    refine List.filter_congr fun old hold => ?_
    simp only [Function.comp_apply]
    split_ifs with he
    · rw [hsame old hold he, hl.2.1]
      exact live_renewed env hreq
    · rfl
  show ((saveFiles ⟨l.jobId, l.requested, env.now⟩ d.files).filter (Lease.live env.now)).map
      (fun l => (l.jobId, l.requested)) =
    (d.files.filter (Lease.live env.now)).map fun l => (l.jobId, l.requested)
  rw [hsave, List.filter_map, hfilter, List.map_map]
  refine List.map_congr_left fun old hold => ?_
  simp only [Function.comp_apply]
  split_ifs with he
  · rw [hsame old (List.mem_of_mem_filter hold) he]
  · rfl

/-! ### Counting the queue -/

theorem length_reduceOption_add {α : Type*} (l : List (Option α)) :
    l.reduceOption.length + (l.filter Option.isNone).length = l.length := by
  induction l with
  | nil => rfl
  | cons o l ih =>
    cases o with
    | none => simp only [List.reduceOption_cons_of_none, List.filter_cons, Option.isNone_none, if_true,
        List.length_cons]; omega
    | some a => simp only [List.reduceOption_cons_of_some, List.filter_cons, Option.isNone_some,
        Bool.false_eq_true, if_false, List.length_cons]; omega

theorem total_queueSnapshot (root : Text) (lines : List Text) :
    (queueSnapshot root lines).own.length + (queueSnapshot root lines).other =
      (queueSnapshot root lines).total := by
  simp only [queueSnapshot]
  rw [length_reduceOption_add, List.length_map]

/-- Splitting a list into the entries of a name of `names` and the others. -/
theorem sum_count_add_filter {α : Type*} [DecidableEq α] [BEq α] [LawfulBEq α] {names : List α}
    (hnd : names.Nodup) (own : List α) :
    (names.map fun a => own.count a).sum + (own.filter fun a => a ∉ names).length = own.length := by
  induction own with
  | nil => simp
  | cons b own ih =>
    have hcount : (names.map fun a => (b :: own).count a).sum =
        (names.map fun a => own.count a).sum + if b ∈ names then 1 else 0 := by
      clear ih
      induction names with
      | nil => simp
      | cons a names ihn =>
        obtain ⟨ha, hnd'⟩ := List.nodup_cons.1 hnd
        simp only [List.map_cons, List.sum_cons, ihn hnd', List.mem_cons]
        rw [List.count_cons]
        by_cases hba : b = a
        · subst hba; simp [ha]; omega
        · simp [hba]; omega
    rw [hcount, List.filter_cons]
    by_cases hb : b ∈ names
    · simp only [hb, if_true, not_true_eq_false, decide_false, Bool.false_eq_true, if_false,
        List.length_cons]
      omega
    · simp only [hb, if_false, not_false_eq_true, decide_true, if_true, List.length_cons]
      omega

/-! ### The attempt -/

theorem kind_submit_wait {env : Environment} {a : Admission} {c : CapacityRecord}
    (h : (submit env a c).1.kind = .wait) : env.sbatch.limitRejected = true := by
  unfold submit at h
  cases hs : env.sbatch with
  | unconfirmed exc => simp [hs, Answer.kind] at h
  | exited returncode stdout stderr =>
    simp only [hs] at h
    split_ifs at h with hrc hid hlim htot
    · simp [Answer.kind] at h
    · simp [Answer.kind] at h
    · simp [Answer.kind] at h
    · simp [SbatchResult.limitRejected, hrc, hlim]
    · simp [Answer.kind] at h

/-- An attempt that calls `sbatch` is answered `WAIT` only when SLURM reports a submit limit. -/
theorem kind_attempt_wait {cfg : Config} (env : Environment) {req : Request} {s : Store}
    {lines : List Text} (hq : env.squeue = .ok lines)
    (hadm : (decision cfg env req s lines).admits = true)
    (h : (attempt cfg env req s).1.kind = .wait) : env.sbatch.limitRejected = true := by
  simp only [attempt, hq, hadm, if_true] at h
  exact kind_submit_wait h

/-- In a state with free slots and an under-served lease holder, some lease holder is admitted. -/
theorem exists_admitted (cfg : Config) (env : Environment) (s : Store) (lines : List Text)
    (hfree : ∀ c, (s.capacity.refresh cfg env).ceiling env.now = some c →
      ((queueSnapshot cfg.root lines).total : ℤ) < c)
    (hneed : ∃ l, s.leases.Holder env.now l ∧
      (queueSnapshot cfg.root lines).own.count l.jobId < l.requested) :
    ∃ l, s.leases.Holder env.now l ∧ (decision cfg env l.request s lines).admits = true := by
  set snap := queueSnapshot cfg.root lines with hsnap
  set d := s.leases.keepLive env.now with hd
  have hholder : ∀ {l}, s.leases.Holder env.now l → l ∈ d.files := fun h =>
    List.mem_filter.2 ⟨h.1, h.2.1⟩
  have hname : ∀ a, a ∈ d.names ↔ ∃ l, s.leases.Holder env.now l ∧ l.jobId = a := by
    intro a
    rw [Leases.mem_names]
    constructor
    · rintro ⟨l, hl, hpos, rfl⟩
      obtain ⟨hmem, hlive⟩ := List.mem_filter.1 hl
      exact ⟨l, ⟨hmem, hlive, hpos⟩, rfl⟩
    · rintro ⟨l, hl, rfl⟩
      exact ⟨l, hholder hl, hl.2.2, rfl⟩
  -- the slots in use by lease holders are those in use, less the ones charged to nobody's share
  have hused := sum_count_add_filter d.nodup_names snap.own
  have htotal : snap.own.length + snap.other = snap.total := total_queueSnapshot cfg.root lines
  have hcap : (((d.names.map fun a => snap.own.count a).sum : ℕ) : ℤ) <
        available d snap ((s.capacity.refresh cfg env).ceiling env.now) ∨
      ((d.names.map d.demand).sum : ℤ) ≤
        available d snap ((s.capacity.refresh cfg env).ceiling env.now) := by
    cases hc : (s.capacity.refresh cfg env).ceiling env.now with
    | none => exact .inr le_rfl
    | some c =>
      refine .inl ?_
      have hlt := hfree c hc
      simp only [available, withoutSubmitter]
      omega
  have hunder : ∃ a ∈ d.names, snap.own.count a < d.demand a := by
    obtain ⟨l, hl, hlt⟩ := hneed
    refine ⟨l.jobId, (hname _).2 ⟨l, hl, rfl⟩, ?_⟩
    rwa [Leases.demand_of_mem (hholder hl)]
  obtain ⟨a, ha, hlt⟩ :=
    exists_lt_fairTargets ((s.capacity.refresh cfg env).turn.getD 0) d.nodup_names hcap hunder
  obtain ⟨l, hl, rfl⟩ := (hname a).1 ha
  refine ⟨l, hl, admits_iff.2 ⟨?_, hfree⟩⟩
  have hnames : (renewed env l.request s.leases).names = d.names :=
    names_eq_of_entries (entries_renewed_live env hl)
  have hdemand : (renewed env l.request s.leases).demand = d.demand :=
    demand_eq_of_entries (entries_renewed_live env hl)
  have havail : ∀ C, available (renewed env l.request s.leases) snap C = available d snap C :=
    fun C => by simp only [available, withoutSubmitter, hnames, hdemand]
  have hmem : l.request.jobId ∈ d.names := ha
  simp only [decision, admission, hnames, hdemand, ← hsnap, havail, if_pos hmem]
  exact hlt

/-- **Work conservation.**  In a state with free slots and an under-served lease holder, there is a
lease holder whose attempt is answered `WAIT` only when SLURM itself reports a submit limit. -/
theorem work_conservation (cfg : Config) (env : Environment) (s : Store) (lines : List Text)
    (hq : env.squeue = .ok lines)
    (hfree : ∀ c, (s.capacity.refresh cfg env).ceiling env.now = some c →
      ((queueSnapshot cfg.root lines).total : ℤ) < c)
    (hneed : ∃ l, s.leases.Holder env.now l ∧
      (queueSnapshot cfg.root lines).own.count l.jobId < l.requested) :
    ∃ l, s.leases.Holder env.now l ∧ ∀ reply,
      (attempt cfg { env with sbatch := reply } l.request s).1.kind = .wait →
        reply.limitRejected = true := by
  obtain ⟨l, hl, hadm⟩ := exists_admitted cfg env s lines hfree hneed
  refine ⟨l, hl, fun reply hwait => ?_⟩
  exact kind_attempt_wait { env with sbatch := reply } hq hadm hwait

/-- The only live lease holder is below its window and no ceiling is known, but SLURM, with a foreign
task in the queue, reports a submit limit: its attempt is answered `WAIT`. -/
theorem limit_rejection_waits :
    ¬ ∀ (cfg : Config) (env : Environment) (s : Store) (lines : List Text),
      env.squeue = .ok lines →
      (∀ c, (s.capacity.refresh cfg env).ceiling env.now = some c →
        ((queueSnapshot cfg.root lines).total : ℤ) < c) →
      (∃ l, s.leases.Holder env.now l ∧
        (queueSnapshot cfg.root lines).own.count l.jobId < l.requested) →
      ∃ l, s.leases.Holder env.now l ∧ (attempt cfg env l.request s).1.kind ≠ .wait := by
  intro hall
  let cfg : Config := ⟨['u'], ['/', 'j']⟩
  let env : Environment :=
    ⟨1000, none, .ok [['9', '|', '/']], .exited 1 [] "job submit limit".toList⟩
  let lease : Lease := ⟨['a'], 1, 1000⟩
  let s : Store := ⟨⟨[lease], List.nodup_singleton _⟩, ⟨none, some 1000, none, none, none⟩⟩
  obtain ⟨l, hl, hkind⟩ := hall cfg env s [['9', '|', '/']] rfl
    (by decide +kernel) ⟨lease, by decide +kernel, by decide +kernel⟩
  rw [List.mem_singleton.1 hl.1] at hkind
  exact hkind (by decide +kernel)

/-- With one slot left and job `a` holding none of it, its attempt is accepted. -/
theorem work_conservation_one_slot :
    let cfg : Config := ⟨['u'], ['/', 'j']⟩
    let env : Environment := ⟨1000, none, .ok [['9', '|', '/']], .exited 0 ['7'] []⟩
    let lease : Lease := ⟨['a'], 1, 1000⟩
    let s : Store := ⟨⟨[lease], List.nodup_singleton _⟩, ⟨some 2, some 1000, none, none, none⟩⟩
    (attempt cfg env lease.request s).1.kind = .accepted ∧
      ∃ l, s.leases.Holder env.now l ∧ ∀ reply,
        (attempt cfg { env with sbatch := reply } l.request s).1.kind = .wait →
          reply.limitRejected = true := by
  intro cfg env lease s
  exact ⟨by decide +kernel, work_conservation cfg env s [['9', '|', '/']] rfl (by decide +kernel)
    ⟨lease, by decide +kernel, by decide +kernel⟩⟩

end Coordinator
end Slurmy
