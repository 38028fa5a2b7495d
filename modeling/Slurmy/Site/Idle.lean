import Slurmy.Site.Duplicates
import Slurmy.Site.Stop

/-!
# An idle site

* `takesLock`, `Event.accepts`: a controller takes its lock, SLURM accepts a batch;
* `NoNewHolder`: nobody has begun to hold the controller's lock; only a controller that takes it
  does (`noNewHolder_of_step`);
* `Idle`: SLURM has no allocation and no undecided request of the job, and nobody holds the
  controller's lock;
* `Idle.step`, `Idle.not_accepts`: while no controller takes its lock the site stays idle, and no
  batch is accepted.
-/

namespace Slurmy
namespace Site

open Submission

/-- A controller takes its lock. -/
def takesLock (s : State) : Event → Bool
  | .move i .next =>
      match s.procs[i]? with
      | some (.controller _ .lock _) => true
      | _ => false
  | _ => false

/-- SLURM accepts a batch. -/
def Event.accepts : Event → Bool
  | .accept _ | .late _ true => true
  | _ => false

/-! ### Holders of the controller's lock -/

/-- The processes that hold the lock afterwards did so before. -/
def NoNewHolder (ps qs : List Proc) : Prop :=
  ∀ (i : ℕ) (q : Proc), qs[i]? = some q → q.holdsSubmit = true →
    ∃ p, ps[i]? = some p ∧ p.holdsSubmit = true

namespace NoNewHolder

variable {ps qs rs : List Proc}

theorem refl (ps : List Proc) : NoNewHolder ps ps := fun _ q hq hhold => ⟨q, hq, hhold⟩

theorem trans (h : NoNewHolder ps qs) (h' : NoNewHolder qs rs) : NoNewHolder ps rs := by
  intro i r hr hhold
  obtain ⟨q, hq, hhold⟩ := h' i r hr hhold
  exact h i q hq hhold

theorem set {i : ℕ} {p : Proc}
    (h : p.holdsSubmit = true → ∃ p₀, ps[i]? = some p₀ ∧ p₀.holdsSubmit = true) :
    NoNewHolder ps (ps.set i p) := by
  intro j q hq hhold
  rw [List.getElem?_set] at hq
  split_ifs at hq with hij hlt
  · subst hij
    cases hq
    exact h hhold
  · exact ⟨q, hq, hhold⟩

/-- A process that does not hold the lock takes the place of another. -/
theorem set_free {i : ℕ} {p : Proc} (hp : p.holdsSubmit = false) : NoNewHolder ps (ps.set i p) :=
  set fun hhold => by rw [hp] at hhold; cases hhold

theorem append (hrs : ∀ r ∈ rs, r.holdsSubmit = false) : NoNewHolder ps (ps ++ rs) := by
  intro i q hq hhold
  rw [List.getElem?_append] at hq
  split at hq
  · exact ⟨q, hq, hhold⟩
  · rw [hrs q (List.mem_of_getElem? hq)] at hhold
    cases hhold

theorem free (h : NoNewHolder ps qs) (hps : ∀ p ∈ ps, p.holdsSubmit = false) :
    ∀ q ∈ qs, q.holdsSubmit = false := by
  intro q hq
  obtain ⟨i, hi⟩ := List.mem_iff_getElem?.1 hq
  by_contra hhold
  obtain ⟨p, hp, hp'⟩ := h i q hi (by simpa using hhold)
  rw [hps p (List.mem_of_getElem? hp)] at hp'
  cases hp'

end NoNewHolder

theorem not_holdsSubmit_launched {kind : Kind} {launches : Bool} :
    ∀ p ∈ State.launched kind launches, p.holdsSubmit = false := by
  intro p hp
  unfold State.launched at hp
  split_ifs at hp
  · rw [List.mem_singleton.1 hp]
    rfl
  · cases hp

/-- A controller that holds its lock after a move held it before, or takes it. -/
theorem holdsSubmit_moved {job : Job} {kind : Kind} {pc pc' : Pc} {m : Move} {f f' : JobFiles}
    {call call' : Call} (hmove : Moves job kind.incomplete f pc m f' pc')
    (hhold : (Proc.controller kind pc' call').holdsSubmit = true) :
    (pc = .lock ∧ m = .next) ∨ (Proc.controller kind pc call).holdsSubmit = true := by
  cases pc with
  | lock =>
    cases hmove with
    | locked => exact .inl ⟨rfl, rfl⟩
    | unlocked => cases hhold
    | trapped _ habort => cases habort
  | exited rc => exact absurd rfl (not_exited_of_moves hmove rc)
  | _ => exact .inr rfl

section Steps

variable {job : Job} {s t : State} {e : Event}

theorem noNewHolder_of_step (htakes : takesLock s e = false) (hstep : s.step job e = some t) :
    NoNewHolder s.procs t.procs := by
  cases State.steps_of_step hstep with
  | spawnedLauncher | spawnedStop =>
    exact .append fun p hp => by
      rw [List.mem_singleton.1 hp]
      rfl
  | launcher i ok kind pc pc' f hp hpc =>
    exact (NoNewHolder.set_free rfl).trans (.append not_holdsSubmit_launched)
  | stop i ok pc pc' f hp hpc => exact .set_free rfl
  | moved i m kind pc pc' call f hp hallow hmove =>
    refine .set fun hhold => ⟨_, hp, ?_⟩
    rcases holdsSubmit_moved hmove hhold with ⟨rfl, rfl⟩ | hold
    · simp [takesLock, hp] at htakes
    · exact hold
  | sent i p b hp hcall | accepted i p b hp hcall | refused i p b hp hcall
  | lost i p b hp hcall => exact .set fun _ => ⟨p, hp, holdsSubmit_of_call hcall⟩
  | orphaned i kind l b call hp => exact .set fun _ => ⟨_, hp, rfl⟩
  | orphanLost | killed => exact .set_free rfl
  | ended | lateAccepted | lateRefused | published => exact .refl _

end Steps

/-! ### The idle site -/

/-- Neither an allocation nor anybody who could still submit one. -/
structure Idle (s : State) : Prop where
  queue : s.queue = []
  pending : s.pending = []
  free : ∀ p ∈ s.procs, p.holdsSubmit = false

section Idle

variable {job : Job} {s t : State} {e : Event}

/-- An idle site has no coordinator. -/
theorem Idle.not_call (h : Idle s) {i b : ℕ} {p : Proc} {call : Call} (hp : s.procs[i]? = some p)
    (hcall : p.call? = some (b, call)) : False := by
  have hfree := h.free p (List.mem_of_getElem? hp)
  rw [holdsSubmit_of_call hcall] at hfree
  cases hfree

/-- While no controller takes its lock, an idle site stays idle. -/
theorem Idle.step (h : Idle s) (htakes : takesLock s e = false) (hstep : s.step job e = some t) :
    Idle t := by
  have hfree := (noNewHolder_of_step htakes hstep).free h.free
  cases State.steps_of_step hstep with
  | sent i p b hp hcall | accepted i p b hp hcall | refused i p b hp hcall
  | lost i p b hp hcall => exact (h.not_call hp hcall).elim
  | orphanLost i kind b hp => exact (h.not_call hp rfl).elim
  | ended id => exact ⟨by rw [h.queue]; rfl, h.pending, hfree⟩
  | lateAccepted b hb | lateRefused b hb =>
    rw [h.pending] at hb
    cases hb
  | _ => exact ⟨h.queue, h.pending, hfree⟩

/-- At an idle site nothing is accepted. -/
theorem Idle.not_accepts (h : Idle s) (hstep : s.step job e = some t) : e.accepts = false := by
  cases State.steps_of_step hstep with
  | accepted i p b hp hcall => exact (h.not_call hp hcall).elim
  | lateAccepted b hb =>
    rw [h.pending] at hb
    cases hb
  | _ => rfl

end Idle

end Site
end Slurmy
