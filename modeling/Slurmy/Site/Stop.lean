import Slurmy.Site.Machine

/-!
# What a confirmed stop confirms

* `Quiescent`: the stop marker is set, nothing is queued, and no request can still be accepted;
  without new scripts this stays so (`Quiescent.step`), since a controller tests the marker before
  every call of its coordinator;
* `stopSafe`: what must hold at the two observations of `remote_stop.sh`, its empty queue snapshot
  and its test of the controller's lock;
* `stop_confirmation`: then the exit status 0 is true;
* `stop_confirmed_too_early`: a coordinator that is called before the snapshot and accepted after it.
-/

namespace Slurmy
namespace Site

open Submission

/-- A coordinator whose request SLURM may still accept. -/
def Proc.inFlight (p : Proc) : Bool := p.call?.any fun c => c.2.undecided

/-- A controller process that has not ended. -/
def Proc.runsController : Proc → Bool
  | .controller _ (.exited _) _ => false
  | .controller .. => true
  | _ => false

def Proc.isLauncher : Proc → Bool
  | .launcher .. => true
  | _ => false

/-- A controller process that has not tried its lock yet. -/
def Proc.isStarting : Proc → Bool
  | .controller _ .lock _ => true
  | _ => false

/-- The event starts a script. -/
def Event.spawns : Event → Bool
  | .spawnLauncher _ | .spawnStop => true
  | _ => false

/-- The marker is set, nothing is queued, and nothing can still be accepted. -/
structure Quiescent (s : State) : Prop where
  stopped : s.files.stopped = true
  queue : s.queue = []
  pending : s.pending = []
  inFlight : ∀ p ∈ s.procs, p.inFlight = false

/-- No controller of the job is running either. -/
structure Confirmed (s : State) : Prop extends Quiescent s where
  controller : ∀ p ∈ s.procs, p.runsController = false

/-- At an empty queue snapshot of `remote_stop.sh` no coordinator is between its controller's test
for `.stopped` and the decision of SLURM, and no `sbatch` request is undecided; at its successful
lock test no controller process is about to take its lock. -/
def stopSafe (s : State) : Event → Bool
  | .script i true =>
      match s.procs[i]? with
      | some (.stop (.snapshot _)) =>
          s.queue ≠ [] || s.pending = [] && s.procs.all fun p => !p.inFlight
      | some (.stop (.lockTest _)) => s.procs.all fun p => !p.isStarting
      | _ => true
  | _ => true

theorem pending_of_stopSafe {s : State} {i attempt : ℕ} (h : stopSafe s (.script i true) = true)
    (hp : s.procs[i]? = some (.stop (.snapshot attempt))) (hqueue : s.queue = []) :
    s.pending = [] ∧ ∀ p ∈ s.procs, p.inFlight = false := by
  simpa [stopSafe, hp, hqueue] using h

theorem starting_of_stopSafe {s : State} {i attempt : ℕ} (h : stopSafe s (.script i true) = true)
    (hp : s.procs[i]? = some (.stop (.lockTest attempt))) :
    ∀ p ∈ s.procs, p.isStarting = false := by
  simpa [stopSafe, hp] using h

/-! ### Moves under the stop marker -/

theorem stopped_move {job : Job} {incomplete : Bool} {f f' : JobFiles} {pc pc' : Pc} {m : Move}
    (h : Moves job incomplete f pc m f' pc') : f'.stopped = f.stopped := by
  cases h <;> rfl

/-- Under the stop marker no coordinator is called. -/
theorem not_calling_of_stopped {job : Job} {incomplete : Bool} {f f' : JobFiles} {pc pc' : Pc}
    {m : Move} (h : Moves job incomplete f pc m f' pc') (hstop : f.stopped = true) (l : Loop)
    (b : ℕ) : pc' ≠ .calling l b := by
  rintro rfl
  cases h with
  | called l b hs =>
    rw [hstop] at hs
    cases hs

theorem not_inFlight_controller {kind : Kind} {pc : Pc} {call : Call}
    (h : ∀ l b, pc ≠ .calling l b) : (Proc.controller kind pc call).inFlight = false := by
  cases pc with
  | calling l b => exact absurd rfl (h l b)
  | _ => rfl

theorem not_exited_of_moves {job : Job} {incomplete : Bool} {f f' : JobFiles} {pc pc' : Pc}
    {m : Move} (h : Moves job incomplete f pc m f' pc') (rc : ℕ) : pc ≠ .exited rc := by
  rintro rfl
  cases h with
  | trapped _ habort => cases habort

section Quiescent

variable {s t : State}

/-- There is no script that could launch a controller. -/
def NoLauncher (s : State) : Prop := ∀ p ∈ s.procs, p.isLauncher = false

theorem mem_set {i : ℕ} {p q : Proc} (h : q ∈ s.procs.set i p) : q = p ∨ q ∈ s.procs :=
  (List.mem_or_eq_of_mem_set h).symm

theorem NoLauncher.step {job : Job} {e : Event} (h : NoLauncher s) (hspawn : e.spawns = false)
    (hstep : s.step job e = some t) : NoLauncher t := by
  have hset : ∀ {i : ℕ} {p : Proc}, p.isLauncher = false →
      ∀ q ∈ s.procs.set i p, q.isLauncher = false := fun hp q hq => by
    rcases mem_set hq with rfl | hq
    · exact hp
    · exact h q hq
  cases State.steps_of_step hstep with
  | spawnedLauncher | spawnedStop => cases hspawn
  | launcher i ok kind pc pc' f hp => cases h _ (List.mem_of_getElem? hp)
  | stop | moved | orphaned | orphanLost | killed => exact hset rfl
  | sent i p b hp hcall | accepted i p b hp hcall | refused i p b hp hcall
  | lost i p b hp hcall =>
    rcases call?_eq_some hcall with ⟨kind, l, rfl⟩ | ⟨kind, rfl⟩ <;> exact hset rfl
  | ended | lateAccepted | lateRefused | published => exact h

/-- Without launchers nobody takes the marker away. -/
theorem marker_step {job : Job} {e : Event} (hl : NoLauncher s) (hstop : s.files.stopped = true)
    (hstep : s.step job e = some t) : t.files.stopped = true := by
  cases State.steps_of_step hstep with
  | launcher i ok kind pc pc' f hp => cases hl _ (List.mem_of_getElem? hp)
  | stop i ok pc pc' f hp hpc => exact StopPc.stopped_step hpc hstop
  | moved i m kind pc pc' call f hp hallow hmove => exact (stopped_move hmove).trans hstop
  | _ => exact hstop

/-- Process `i` changes while the site is quiescent. -/
theorem Quiescent.set (h : Quiescent s) {i : ℕ} {p : Proc} {f : JobFiles}
    (hstop : f.stopped = true) (hflight : p.inFlight = false) :
    Quiescent ({ s with files := f }.set i p) where
  stopped := hstop
  queue := h.queue
  pending := h.pending
  inFlight q hq := by
    rcases mem_set hq with rfl | hq
    · exact hflight
    · exact h.inFlight q hq

theorem inFlight_of_call {p : Proc} {b : ℕ} {call : Call} (h : p.call? = some (b, call)) :
    p.inFlight = call.undecided := by
  unfold Proc.inFlight
  rw [h]
  rfl

/-- No decision of SLURM is left, and no call is made. -/
theorem Quiescent.step {job : Job} {e : Event} (h : Quiescent s) (hl : NoLauncher s)
    (hspawn : e.spawns = false) (hstep : s.step job e = some t) : Quiescent t := by
  cases State.steps_of_step hstep with
  | spawnedLauncher | spawnedStop => cases hspawn
  | launcher i ok kind pc pc' f hp => cases hl _ (List.mem_of_getElem? hp)
  | stop i ok pc pc' f hp hpc => exact h.set (StopPc.stopped_step hpc h.stopped) rfl
  | moved i m kind pc pc' call f hp hallow hmove =>
    have hcall := not_calling_of_stopped hmove h.stopped
    exact h.set ((stopped_move hmove).trans h.stopped) (not_inFlight_controller hcall)
  | sent i p b hp hcall | accepted i p b hp hcall | refused i p b hp hcall
  | lost i p b hp hcall =>
    have hflight := h.inFlight p (List.mem_of_getElem? hp)
    rw [inFlight_of_call hcall] at hflight
    cases hflight
  | orphaned i kind l b call hp =>
    have hflight : (Proc.orphan kind b call).inFlight = false :=
      h.inFlight (.controller kind (.calling l b) call) (List.mem_of_getElem? hp)
    exact h.set h.stopped hflight
  | orphanLost i kind b hp => cases h.inFlight _ (List.mem_of_getElem? hp)
  | killed i p hp => exact h.set h.stopped rfl
  | ended id =>
    refine ⟨h.stopped, ?_, h.pending, h.inFlight⟩
    rw [h.queue]
    rfl
  | lateAccepted b hb | lateRefused b hb =>
    rw [h.pending] at hb
    cases hb
  | published r => exact ⟨h.stopped, h.queue, h.pending, h.inFlight⟩

theorem Confirmed.step {job : Job} {e : Event} (h : Confirmed s) (hl : NoLauncher s)
    (hspawn : e.spawns = false) (hstep : s.step job e = some t) : Confirmed t := by
  refine ⟨h.toQuiescent.step hl hspawn hstep, ?_⟩
  have hset : ∀ {i : ℕ} {p : Proc}, p.runsController = false →
      ∀ q ∈ s.procs.set i p, q.runsController = false := fun hctl q hq => by
    rcases mem_set hq with rfl | hq
    · exact hctl
    · exact h.controller q hq
  cases State.steps_of_step hstep with
  | spawnedLauncher | spawnedStop => cases hspawn
  | launcher i ok kind pc pc' f hp => cases hl _ (List.mem_of_getElem? hp)
  | stop | killed | orphaned | orphanLost => exact hset rfl
  | moved i m kind pc pc' call f hp hallow hmove =>
    have hctl := h.controller _ (List.mem_of_getElem? hp)
    cases pc with
    | exited rc => exact absurd rfl (not_exited_of_moves hmove rc)
    | _ => cases hctl
  | sent i p b hp hcall | accepted i p b hp hcall | refused i p b hp hcall
  | lost i p b hp hcall =>
    have hctl := h.controller _ (List.mem_of_getElem? hp)
    rcases call?_eq_some hcall with ⟨kind, l, rfl⟩ | ⟨kind, rfl⟩
    · cases hctl
    · exact hset rfl
  | ended | lateAccepted | lateRefused | published => exact h.controller

end Quiescent

/-! ### The two observations -/

/-- What `remote_stop.sh` has made sure of at each place. -/
def StopPc.Knows (s : State) : StopPc → Prop
  | .snapshot _ | .cancel _ _ => s.files.stopped = true
  | .lockTest _ => Quiescent s
  | .report => Confirmed s
  | _ => True

/-- A controller that does not hold the lock has not tried it or has ended. -/
theorem not_runsController {p : Proc} (hlock : p.holdsSubmit = false)
    (hstart : p.isStarting = false) : p.runsController = false := by
  cases p with
  | controller kind pc call => cases pc with
    | lock => cases hstart
    | exited => rfl
    | _ => cases hlock
  | _ => rfl

theorem StopPc.Knows.other {job : Job} {s t : State} {e : Event} {pc : StopPc} (h : pc.Knows s)
    (hl : NoLauncher s) (hspawn : e.spawns = false) (hstep : s.step job e = some t) :
    pc.Knows t := by
  cases pc with
  | snapshot | cancel => exact marker_step hl h hstep
  | lockTest => exact Quiescent.step h hl hspawn hstep
  | report => exact Confirmed.step h hl hspawn hstep
  | start | mark | exited => trivial

/-- A process that is `remote_stop.sh` after a step was so before, unless it has just started, and
has moved only if the step was its own. -/
theorem stop_of_step {job : Job} {s t : State} {e : Event} {i : ℕ} {pc' : StopPc}
    (hstep : s.step job e = some t) (ht : t.procs[i]? = some (.stop pc')) :
    s.procs[i]? = some (.stop pc') ∨ pc' = .start ∨ ∃ ok pc f, e = .script i ok ∧
      s.procs[i]? = some (.stop pc) ∧ pc.step s.view ok = some (f, pc') ∧
        t = { s with files := f }.set i (.stop pc') := by
  have hset : ∀ {j : ℕ} {p : Proc}, (∀ pc, p ≠ .stop pc) →
      (s.procs.set j p)[i]? = some (.stop pc') → s.procs[i]? = some (.stop pc') := by
    intro j p hp hget
    rw [List.getElem?_set] at hget
    split_ifs at hget with hji hlt
    · exact absurd (Option.some.inj hget) (hp pc')
    · exact hget
  have happend : ∀ {ps qs : List Proc}, (ps ++ qs)[i]? = some (.stop pc') →
      ps[i]? = some (.stop pc') ∨ .stop pc' ∈ qs := by
    intro ps qs hget
    rw [List.getElem?_append] at hget
    split at hget
    · exact .inl hget
    · exact .inr (List.mem_of_getElem? hget)
  cases State.steps_of_step hstep with
  | spawnedLauncher kind =>
    rcases happend ht with hs | hmem
    · exact .inl hs
    · cases List.mem_singleton.1 hmem
  | spawnedStop =>
    rcases happend ht with hs | hmem
    · exact .inl hs
    · cases List.mem_singleton.1 hmem
      exact .inr (.inl rfl)
  | launcher j ok kind pc pc₁ f hp hpc =>
    rcases happend ht with hs | hmem
    · exact .inl (hset (fun _ => by rintro ⟨⟩) hs)
    · unfold State.launched at hmem
      split at hmem
      · cases List.mem_singleton.1 hmem
      · cases hmem
  | stop j ok pc pc₁ f hp hpc =>
    by_cases hji : j = i
    · subst hji
      have hlt : j < s.procs.length := (List.getElem?_eq_some_iff.1 hp).1
      have heq : (s.procs.set j (.stop pc₁))[j]? = some (.stop pc') := ht
      rw [List.getElem?_set_self hlt] at heq
      cases heq
      exact .inr (.inr ⟨ok, pc, f, rfl, hp, hpc, rfl⟩)
    · have heq : (s.procs.set j (.stop pc₁))[i]? = some (.stop pc') := ht
      rw [List.getElem?_set_ne hji] at heq
      exact .inl heq
  | moved | orphaned | orphanLost | killed => exact .inl (hset (fun _ => by rintro ⟨⟩) ht)
  | sent j p b hp hcall | accepted j p b hp hcall | refused j p b hp hcall
  | lost j p b hp hcall =>
    rcases call?_eq_some hcall with ⟨kind, l, rfl⟩ | ⟨kind, rfl⟩ <;>
      exact .inl (hset (fun _ => by rintro ⟨⟩) ht)
  | ended | lateAccepted | lateRefused | published => exact .inl ht

/-- The step of `remote_stop.sh` itself. -/
theorem StopPc.Knows.own {s : State} {i : ℕ} {pc pc' : StopPc} {ok : Bool} {f : JobFiles}
    (h : pc.Knows s) (hp : s.procs[i]? = some (.stop pc)) (hsafe : stopSafe s (.script i ok) = true)
    (hpc : pc.step s.view ok = some (f, pc')) :
    pc'.Knows ({ s with files := f }.set i (.stop pc')) := by
  cases StopPc.steps_of_step hpc with
  | start | back | fail | exited | report => trivial
  | mark => rfl
  | idle attempt hempty =>
    have hqueue : s.queue = [] := List.map_eq_nil_iff.1 hempty
    obtain ⟨hpending, hflight⟩ := pending_of_stopSafe hsafe hp hqueue
    exact Quiescent.set ⟨h, hqueue, hpending, hflight⟩ h rfl
  | busy => exact h
  | free attempt hfree =>
    refine ⟨Quiescent.set h (Quiescent.stopped h) rfl, fun q hq => ?_⟩
    rcases mem_set hq with rfl | hq
    · rfl
    · exact not_runsController (submitFree_iff.1 hfree q hq) (starting_of_stopSafe hsafe hp q hq)

/-- What process `i` knows if it is `remote_stop.sh`. -/
def Informed (i : ℕ) (s : State) : Prop :=
  ∀ pc : StopPc, s.procs[i]? = some (.stop pc) → pc.Knows s

theorem Informed.step {job : Job} {s t : State} {e : Event} {i : ℕ} (h : Informed i s)
    (hl : NoLauncher s) (hsafe : stopSafe s e = true) (hspawn : e.spawns = false)
    (hstep : s.step job e = some t) : Informed i t := by
  intro pc' ht
  rcases stop_of_step hstep ht with hs | rfl | ⟨ok, pc, f, rfl, hp, hpc, rfl⟩
  · exact (h pc' hs).other hl hspawn hstep
  · trivial
  · exact (h pc hp).own hp hsafe hpc

/-- `remote_stop.sh` exits with status 0 only after its report. -/
theorem StopPc.report_of_step {v : View} {pc : StopPc} {ok : Bool} {f : JobFiles}
    (h : pc.step v ok = some (f, .exited 0)) : pc = .report ∨ pc = .exited 0 := by
  cases steps_of_step h with
  | report => exact .inl rfl
  | exited => exact .inr rfl

/-- **A confirmed stop is true.**  `remote_stop.sh` runs among controllers, coordinators and
allocations of the job, with no script starting meanwhile.  If its two observations are safe, then
at the moment it exits with status 0 nothing of the job is queued and no controller is running. -/
theorem stop_confirmation (job : Job) (s₀ s t : State) (i : ℕ) (es : List Event) (e : Event)
    (hlauncher : NoLauncher s₀) (hstart : s₀.procs[i]? = some (.stop .start))
    (hspawn : ∀ e' ∈ es ++ [e], e'.spawns = false)
    (hsafe : Machine.Along (State.step job) (fun s e => stopSafe s e = true) s₀ es)
    (hrun : Machine.run (State.step job) s₀ es = some s) (hstep : s.step job e = some t)
    (hbefore : s.procs[i]? ≠ some (.stop (.exited 0)))
    (hexit : t.procs[i]? = some (.stop (.exited 0))) :
    t.queue = [] ∧ ∀ p ∈ t.procs, p.runsController = false := by
  have hends : ∀ e' ∈ es, e'.spawns = false := fun e' he =>
    hspawn e' (List.mem_append_left _ he)
  have hlast : e.spawns = false := hspawn e (List.mem_append_right _ (List.mem_singleton_self e))
  have hkeep : ∀ u e' v, (NoLauncher u ∧ Informed i u) →
      (stopSafe u e' = true ∧ e'.spawns = false) → u.step job e' = some v →
      NoLauncher v ∧ Informed i v := fun u e' v hu hc huv =>
    ⟨hu.1.step hc.2 huv, hu.2.step hu.1 hc.1 hc.2 huv⟩
  have hinit : NoLauncher s₀ ∧ Informed i s₀ := by
    refine ⟨hlauncher, fun pc hpc => ?_⟩
    rw [hstart] at hpc
    cases hpc
    trivial
  obtain ⟨hl, hs⟩ := Machine.invariant_along hkeep hinit
    (hsafe.and (Machine.along_of_forall hends s₀)) hrun
  rcases stop_of_step hstep hexit with hs' | hnew | ⟨ok, pc, f, rfl, hp, hpc, rfl⟩
  · exact absurd hs' hbefore
  · cases hnew
  · rcases StopPc.report_of_step hpc with rfl | rfl
    · have hend := Confirmed.step (hs .report hp) hl hlast hstep
      exact ⟨hend.queue, hend.controller⟩
    · exact absurd hp hbefore

/-- A site with a controller at this place, and `remote_stop.sh` starting. -/
def stopping (pc : Pc) : State :=
  ⟨⟨false, .written, some (table []), ⟨true, [], [], []⟩⟩, [], [], 2,
    [.controller .dispatch pc .asked, .stop .start]⟩

/-- The controller is about to test the stop marker when the stop begins. -/
theorem stop_confirmation_in_time :
    let job : Job := ⟨2, [[0], [1]], by decide⟩
    let s₀ : State := stopping (.attempt ⟨0, [], [1]⟩ 0)
    let es : List Event := List.replicate 3 (.script 1 true) ++
      [.move 0 .next, .move 0 .next, .script 1 true]
    ∃ s t, Machine.run (State.step job) s₀ es = some s ∧ s.step job (.script 1 true) = some t ∧
      t.queue = [] ∧ ∀ p ∈ t.procs, p.runsController = false := by
  intro job s₀ es
  have hsafe : Machine.Along (State.step job) (fun s e => stopSafe s e = true) s₀ es := by
    decide +kernel
  have hreport : (Machine.run (State.step job) s₀ es).map (fun s => s.procs[1]?) =
      some (some (.stop .report)) := by decide +kernel
  have hexit : ((Machine.run (State.step job) s₀ es).bind fun s =>
      s.step job (.script 1 true)).map (fun t => t.procs[1]?) =
        some (some (.stop (.exited 0))) := by decide +kernel
  obtain ⟨s, hrun, hs⟩ := Option.map_eq_some_iff.1 hreport
  obtain ⟨t, ht, hp⟩ := Option.map_eq_some_iff.1 hexit
  obtain ⟨s', hrun', hstep⟩ := Option.bind_eq_some_iff.1 ht
  obtain rfl := Option.some.inj (hrun.symm.trans hrun')
  have hlauncher : NoLauncher s₀ := by
    unfold NoLauncher
    decide
  refine ⟨s, t, hrun, hstep, ?_⟩
  exact stop_confirmation job s₀ s t 1 es (.script 1 true) hlauncher rfl (by decide) hsafe hrun
    hstep (by rw [hs]; decide) hp

/-- The controller has tested the stop marker and called its coordinator when the stop begins; the
queue snapshot is still empty; SLURM then accepts the batch, the controller records it, sees the
marker and exits, and the lock test passes. -/
theorem stop_confirmed_too_early :
    ¬ ∀ (job : Job) (s₀ s t : State) (i : ℕ) (es : List Event) (e : Event), NoLauncher s₀ →
      s₀.procs[i]? = some (.stop .start) → (∀ e' ∈ es ++ [e], e'.spawns = false) →
      Machine.run (State.step job) s₀ es = some s → s.step job e = some t →
      s.procs[i]? ≠ some (.stop (.exited 0)) → t.procs[i]? = some (.stop (.exited 0)) →
      t.queue = [] ∧ ∀ p ∈ t.procs, p.runsController = false := by
  intro hall
  let job : Job := ⟨2, [[0], [1]], by decide⟩
  let s₀ : State := stopping (.attempt ⟨0, [], [1]⟩ 0)
  let es : List Event := .move 0 .next :: List.replicate 3 (.script 1 true) ++
    [.send 0, .accept 0, .move 0 (.reply 0 "ACCEPTED|2|1/32 fair share; 1 user jobs".toList),
      .move 0 (.append 5), .move 0 .next, .move 0 .next, .script 1 true]
  have hreport : (Machine.run (State.step job) s₀ es).map (fun s => s.procs[1]?) =
      some (some (.stop .report)) := by decide +kernel
  have hexit : ((Machine.run (State.step job) s₀ es).bind fun s =>
      s.step job (.script 1 true)).map (fun t => (t.procs[1]?, t.queue)) =
        some (some (.stop (.exited 0)), [⟨2, 0⟩]) := by decide +kernel
  obtain ⟨s, hrun, hs⟩ := Option.map_eq_some_iff.1 hreport
  obtain ⟨t, ht, hp⟩ := Option.map_eq_some_iff.1 hexit
  obtain ⟨s', hrun', hstep⟩ := Option.bind_eq_some_iff.1 ht
  obtain rfl := Option.some.inj (hrun.symm.trans hrun')
  have hlauncher : NoLauncher s₀ := by
    unfold NoLauncher
    decide
  have hqueue := (hall job s₀ s t 1 es (.script 1 true) hlauncher rfl (by decide) hrun hstep
    (by rw [hs]; decide) (congrArg Prod.fst hp)).1
  rw [show t.queue = [⟨2, 0⟩] from congrArg Prod.snd hp] at hqueue
  cases hqueue

end Site
end Slurmy
