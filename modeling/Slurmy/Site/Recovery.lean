import Slurmy.Site.Stop

/-!
# A stop against automatic recovery

* `activity`: a controller is launched, a coordinator runs `sbatch`, SLURM accepts a batch;
* `Closed`: the stop marker is set, no launcher is armed, no request is undecided, and no controller
  has passed its first test for the marker; kept by every step but a user's Resume
  (`Closed.step`), and without activity (`Closed.silent`);
* `unarmed`: what must hold at the lock test of `remote_stop.sh`;
* `stop_not_undone`: then nothing happens until the user asks for Resume;
* `stop_undone`: recovery that has passed its test for the marker takes the user's marker away.
-/

namespace Slurmy
namespace Site

open Submission

/-- The event launches a controller, runs `sbatch`, or has a batch accepted. -/
def active (s : State) : Event → Bool
  | .script i ok =>
      match s.procs[i]? with
      | some (.launcher _ pc) => pc.launches ok
      | _ => false
  | .send _ | .accept _ | .late _ true => true
  | _ => false

/-- What an observer of controllers and submissions sees of a step. -/
def activity (s : State) (e : Event) : List Event := if active s e then [e] else []

/-- A user asks for Resume. -/
def Event.resumes : Event → Bool
  | .spawnLauncher .resume => true
  | _ => false

/-- The controller has not passed its first test for the stop marker, or is on its way out. -/
def isEarly : Pc → Bool
  | .lock | .context | .contextWrite | .stoppedTest | .exiting _ | .exited _ => true
  | _ => false

/-- The process respects a stop marker that is there. -/
def Proc.respects : Proc → Bool
  | .controller _ pc _ => isEarly pc
  | .orphan .. => false
  | .launcher _ pc => !pc.armed
  | .stop _ | .gone => true

/-- Nothing can happen any more that the stop marker would not prevent. -/
structure Closed (s : State) : Prop where
  stopped : s.files.stopped = true
  pending : s.pending = []
  respects : ∀ p ∈ s.procs, p.respects = true

/-- At a successful lock test of `remote_stop.sh` the marker is there, no launcher is armed, and no
`sbatch` request is undecided. -/
def unarmed (s : State) : Event → Bool
  | .script i true =>
      match s.procs[i]? with
      | some (.stop (.lockTest _)) =>
          s.files.stopped && s.pending = [] && s.procs.all fun p =>
            match p with
            | .launcher _ pc => !pc.armed
            | _ => true
      | _ => true
  | _ => true

/-! ### Steps of a closed site -/

section Closed

variable {job : Job} {s t : State} {e : Event}

theorem isEarly_move {incomplete : Bool} {f f' : JobFiles} {pc pc' : Pc} {m : Move}
    (h : Moves job incomplete f pc m f' pc') (hstop : f.stopped = true) (hpc : isEarly pc = true) :
    isEarly pc' = true := by
  cases h with
  | notStopped hs =>
    rw [hstop] at hs
    cases hs
  | locked | contextKept | contextCreated | contextWritten | stopped | exited | unlocked => rfl
  | trapped => rfl
  | _ => cases hpc

theorem not_respects_of_call {p : Proc} {b : ℕ} {call : Call} (h : p.call? = some (b, call)) :
    p.respects = false := by
  rcases call?_eq_some h with ⟨kind, l, rfl⟩ | ⟨kind, rfl⟩ <;> rfl

theorem Closed.set (h : Closed s) {i : ℕ} {p : Proc} {f : JobFiles} (hstop : f.stopped = true)
    (hp : p.respects = true) : Closed ({ s with files := f }.set i p) where
  stopped := hstop
  pending := h.pending
  respects q hq := by
    rcases mem_set hq with rfl | hq
    · exact hp
    · exact h.respects q hq

theorem Closed.spawn (h : Closed s) {p : Proc} (hp : p.respects = true) :
    Closed { s with procs := s.procs ++ [p] } where
  stopped := h.stopped
  pending := h.pending
  respects q hq := by
    rcases List.mem_append.1 hq with hq | hq
    · exact h.respects q hq
    · rw [List.mem_singleton.1 hq]
      exact hp

/-- A launcher of a closed site does nothing. -/
theorem Closed.launcher (h : Closed s) {i : ℕ} {ok : Bool} {kind : Kind} {pc pc' : LaunchPc}
    {f : JobFiles} (hp : s.procs[i]? = some (.launcher kind pc))
    (hpc : pc.step s.view ok = some (f, pc')) :
    f.stopped = true ∧ pc'.armed = false ∧ pc.launches ok = false := by
  have harmed : (!pc.armed) = true := h.respects _ (List.mem_of_getElem? hp)
  exact LaunchPc.armed_step hpc h.stopped (by simpa using harmed)

/-- A closed site stays closed until a user asks for Resume. -/
theorem Closed.step (h : Closed s) (hresume : e.resumes = false)
    (hstep : s.step job e = some t) : Closed t := by
  cases State.steps_of_step hstep with
  | spawnedLauncher kind =>
    cases kind with
    | resume => cases hresume
    | auto | dispatch => exact h.spawn rfl
  | spawnedStop => exact h.spawn rfl
  | launcher i ok kind pc pc' f hp hpc =>
    obtain ⟨hstop, harmed, hlaunch⟩ := h.launcher hp hpc
    have hset := h.set (i := i) hstop (p := .launcher kind pc') (by simp [Proc.respects, harmed])
    simpa [State.launched, hlaunch, State.set] using hset
  | stop i ok pc pc' f hp hpc => exact h.set (StopPc.stopped_step hpc h.stopped) rfl
  | moved i m kind pc pc' call f hp hallow hmove =>
    have hearly : isEarly pc = true := h.respects _ (List.mem_of_getElem? hp)
    exact h.set ((stopped_move hmove).trans h.stopped) (isEarly_move hmove h.stopped hearly)
  | sent i p b hp hcall | accepted i p b hp hcall | refused i p b hp hcall
  | lost i p b hp hcall =>
    have hr := h.respects p (List.mem_of_getElem? hp)
    rw [not_respects_of_call hcall] at hr
    cases hr
  | orphaned i kind l b call hp => cases h.respects _ (List.mem_of_getElem? hp)
  | orphanLost i kind b hp => cases h.respects _ (List.mem_of_getElem? hp)
  | killed i p hp => exact h.set h.stopped rfl
  | ended id => exact ⟨h.stopped, h.pending, h.respects⟩
  | lateAccepted b hb | lateRefused b hb =>
    rw [h.pending] at hb
    cases hb
  | published r => exact ⟨h.stopped, h.pending, h.respects⟩

/-- In a closed site no controller is launched and no batch submitted. -/
theorem Closed.silent (h : Closed s) (hstep : s.step job e = some t) : activity s e = [] := by
  have hactive : active s e = false := by
    cases State.steps_of_step hstep with
    | launcher i ok kind pc pc' f hp hpc =>
      simp only [active, hp]
      exact (h.launcher hp hpc).2.2
    | stop i ok pc pc' f hp hpc => simp only [active, hp]
    | sent i p b hp hcall | accepted i p b hp hcall =>
      have hr := h.respects p (List.mem_of_getElem? hp)
      rw [not_respects_of_call hcall] at hr
      cases hr
    | lateAccepted b hb =>
      rw [h.pending] at hb
      cases hb
    | _ => rfl
  rw [activity, hactive]
  rfl

end Closed

/-! ### From the lock test on -/

/-- `remote_stop.sh` gets to its report only by a successful lock test. -/
theorem StopPc.lockTest_of_step {v : View} {pc : StopPc} {ok : Bool} {f : JobFiles}
    (h : pc.step v ok = some (f, .report)) :
    (∃ attempt, pc = .lockTest attempt) ∧ ok = true ∧ v.submitFree = true ∧ f = v.files := by
  cases steps_of_step h with
  | free attempt hfree => exact ⟨⟨attempt, rfl⟩, rfl, hfree, rfl⟩

/-- A process without the controller's lock that is not an armed launcher respects the marker. -/
theorem respects_of_not_holdsSubmit {p : Proc} (hlock : p.holdsSubmit = false)
    (hlaunch : ∀ kind pc, p = .launcher kind pc → pc.armed = false) : p.respects = true := by
  cases p with
  | controller kind pc call => cases pc <;> first | rfl | exact Bool.noConfusion hlock
  | orphan => cases hlock
  | launcher kind pc => simp [Proc.respects, hlaunch kind pc rfl]
  | stop | gone => rfl

/-- A successful lock test closes the site. -/
theorem closed_of_unarmed {s : State} {i attempt : ℕ} (hp : s.procs[i]? = some (.stop (.lockTest attempt)))
    (hfree : s.view.submitFree = true) (hsafe : unarmed s (.script i true) = true) : Closed s := by
  simp only [unarmed, hp, Bool.and_eq_true, decide_eq_true_eq, List.all_eq_true] at hsafe
  obtain ⟨⟨hstop, hpending⟩, hlaunch⟩ := hsafe
  refine ⟨hstop, hpending, fun p hmem => ?_⟩
  refine respects_of_not_holdsSubmit (submitFree_iff.1 hfree p hmem) fun kind pc heq => ?_
  have harmed := hlaunch p hmem
  rw [heq] at harmed
  simpa using harmed

/-- Once `remote_stop.sh`, process `i`, reports, the site is closed. -/
def Shut (i : ℕ) (s : State) : Prop := s.procs[i]? = some (.stop .report) → Closed s

theorem Shut.step {job : Job} {s t : State} {e : Event} {i : ℕ} (h : Shut i s)
    (hresume : e.resumes = false) (hsafe : unarmed s e = true)
    (hstep : s.step job e = some t) : Shut i t := by
  intro ht
  rcases stop_of_step hstep ht with hs | hnew | ⟨ok, pc, f, rfl, hp, hpc, rfl⟩
  · exact (h hs).step hresume hstep
  · cases hnew
  · obtain ⟨⟨attempt, rfl⟩, rfl, hfree, rfl⟩ := StopPc.lockTest_of_step hpc
    have hclosed := closed_of_unarmed hp hfree hsafe
    exact hclosed.set hclosed.stopped rfl

/-- A run of a closed site in which no user asks for Resume shows no activity. -/
theorem Closed.trace {job : Job} {s t : State} {es : List Event} (h : Closed s)
    (hresume : ∀ e ∈ es, e.resumes = false)
    (hrun : Machine.run (State.step job) s es = some t) :
    Machine.trace (State.step job) activity s es = [] := by
  have hkeep : ∀ T u e v, (T = [] ∧ Closed u) → e.resumes = false →
      u.step job e = some v → T ++ activity u e = [] ∧ Closed v := by
    rintro T u e v ⟨rfl, hu⟩ he hstep
    exact ⟨by rw [List.nil_append, hu.silent hstep], hu.step he hstep⟩
  have hend := Machine.trace_invariant_along hkeep ⟨rfl, h⟩ (Machine.along_of_forall hresume s) hrun
  simpa using hend.1

/-- **A stop is not undone.**  `remote_stop.sh` runs among recoveries, dispatches and controllers of
the job, and no user asks for Resume.  If no launcher is armed and no request undecided at its
successful lock test, and the stop marker is there, then after it has exited with status 0 no
controller is launched and no batch is submitted. -/
theorem stop_not_undone (job : Job) (s₀ s t u : State) (i : ℕ) (es₁ es₂ : List Event) (e : Event)
    (hstart : s₀.procs[i]? = some (.stop .start))
    (hresume : ∀ e' ∈ es₁ ++ e :: es₂, e'.resumes = false)
    (hsafe : Machine.Along (State.step job) (fun s e => unarmed s e = true) s₀ es₁)
    (hrun : Machine.run (State.step job) s₀ es₁ = some s) (hstep : s.step job e = some t)
    (hbefore : s.procs[i]? ≠ some (.stop (.exited 0)))
    (hexit : t.procs[i]? = some (.stop (.exited 0)))
    (hafter : Machine.run (State.step job) t es₂ = some u) :
    Machine.trace (State.step job) activity t es₂ = [] := by
  have hends : ∀ e' ∈ es₁, e'.resumes = false := fun e' he =>
    hresume e' (List.mem_append_left _ he)
  have hlater : ∀ e' ∈ es₂, e'.resumes = false := fun e' he =>
    hresume e' (List.mem_append_right _ (List.mem_cons_of_mem e he))
  have hlast : e.resumes = false :=
    hresume e (List.mem_append_right _ List.mem_cons_self)
  have hinit : Shut i s₀ := fun hreport => by
    rw [hstart] at hreport
    cases hreport
  have hshut : Shut i s := Machine.invariant_along
    (fun _ _ _ hs hc => hs.step hc.2 hc.1) hinit
    (hsafe.and (Machine.along_of_forall hends s₀)) hrun
  rcases stop_of_step hstep hexit with hs | hnew | ⟨ok, pc, f, rfl, hp, hpc, rfl⟩
  · exact absurd hs hbefore
  · cases hnew
  · rcases StopPc.report_of_step hpc with rfl | rfl
    · exact ((hshut hp).step hlast hstep).trace hlater hafter
    · exact absurd hp hbefore

/-- An idle job without a controller, and `remote_stop.sh` starting. -/
def idle : State :=
  ⟨⟨false, .written, some (table []), ⟨true, [], [], []⟩⟩, [], [], 1, [.stop .start]⟩

/-- A recovery that starts during the stop, after its first test for the stop marker. -/
theorem stop_not_undone_in_time :
    let job : Job := ⟨1, [[0]], by decide⟩
    let es₁ : List Event := [.script 0 true, .spawnLauncher .auto, .script 1 true] ++
      List.replicate 3 (.script 0 true)
    let es₂ : List Event := [.script 1 true, .spawnLauncher .dispatch] ++
      List.replicate 3 (.script 2 true)
    ∃ s t u, Machine.run (State.step job) idle es₁ = some s ∧ s.step job (.script 0 true) = some t ∧
      Machine.run (State.step job) t es₂ = some u ∧
      Machine.trace (State.step job) activity t es₂ = [] := by
  intro job es₁ es₂
  have hsafe : Machine.Along (State.step job) (fun s e => unarmed s e = true) idle es₁ := by
    decide +kernel
  have hreport : (Machine.run (State.step job) idle es₁).map (fun s => s.procs[0]?) =
      some (some (.stop .report)) := by decide +kernel
  have hexit : ((Machine.run (State.step job) idle es₁).bind fun s =>
      s.step job (.script 0 true)).map (fun t => (t.procs[0]?,
        (Machine.run (State.step job) t es₂).isSome)) =
        some (some (.stop (.exited 0)), true) := by decide +kernel
  obtain ⟨s, hrun, hs⟩ := Option.map_eq_some_iff.1 hreport
  obtain ⟨t, ht, hp⟩ := Option.map_eq_some_iff.1 hexit
  obtain ⟨s', hrun', hstep⟩ := Option.bind_eq_some_iff.1 ht
  obtain rfl := Option.some.inj (hrun.symm.trans hrun')
  obtain ⟨u, hu⟩ := Option.isSome_iff_exists.1 (congrArg Prod.snd hp)
  refine ⟨s, t, u, hrun, hstep, hu, ?_⟩
  exact stop_not_undone job idle s t u 0 es₁ es₂ (.script 0 true) rfl (by decide) hsafe hrun
    hstep (by rw [hs]; decide) (congrArg Prod.fst hp) hu

/-- Recovery has passed its test for the stop marker when the user's stop begins.  The stop exits
with status 0; recovery goes on, takes its own marker and the user's for one, and launches a
controller. -/
theorem stop_undone :
    ¬ ∀ (job : Job) (s₀ s t u : State) (i : ℕ) (es₁ es₂ : List Event) (e : Event),
      s₀.procs[i]? = some (.stop .start) →
      (∀ e' ∈ es₁ ++ e :: es₂, e'.resumes = false) →
      Machine.run (State.step job) s₀ es₁ = some s → s.step job e = some t →
      s.procs[i]? ≠ some (.stop (.exited 0)) → t.procs[i]? = some (.stop (.exited 0)) →
      Machine.run (State.step job) t es₂ = some u →
      Machine.trace (State.step job) activity t es₂ = [] := by
  intro hall
  let job : Job := ⟨1, [[0]], by decide⟩
  let es₁ : List Event := [.spawnLauncher .auto, .script 1 true, .script 1 true] ++
    List.replicate 4 (.script 0 true)
  let es₂ : List Event := List.replicate 15 (.script 1 true)
  have hreport : (Machine.run (State.step job) idle es₁).map (fun s => s.procs[0]?) =
      some (some (.stop .report)) := by decide +kernel
  have hexit : ((Machine.run (State.step job) idle es₁).bind fun s =>
      s.step job (.script 0 true)).map (fun t => (t.procs[0]?,
        (Machine.run (State.step job) t es₂).isSome,
        (Machine.trace (State.step job) activity t es₂).length)) =
        some (some (.stop (.exited 0)), true, 1) := by decide +kernel
  obtain ⟨s, hrun, hs⟩ := Option.map_eq_some_iff.1 hreport
  obtain ⟨t, ht, hp⟩ := Option.map_eq_some_iff.1 hexit
  obtain ⟨s', hrun', hstep⟩ := Option.bind_eq_some_iff.1 ht
  obtain rfl := Option.some.inj (hrun.symm.trans hrun')
  obtain ⟨hstop, hp⟩ := Prod.mk.inj hp
  obtain ⟨hsome, hlen⟩ := Prod.mk.inj hp
  obtain ⟨u, hu⟩ := Option.isSome_iff_exists.1 hsome
  have hnil := hall job idle s t u 0 es₁ es₂ (.script 0 true) rfl (by decide) hrun hstep
    (by rw [hs]; decide) hstop hu
  rw [hnil] at hlen
  cases hlen

end Site
end Slurmy
