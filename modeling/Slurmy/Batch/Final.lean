import Slurmy.Batch.Machine

/-!
# Completed results are final

* `Effect`, `BatchState.effects`: the calls that are started and the result files that are replaced;
* `Sound`: the invariant of a batch.  Its result files are those of `call.sh`, a call is under way
  only for a pair that is not recorded complete, and what has been written to `result.tmp` is the
  start of the new file;
* `Untouched`, `Covers`: what a run keeps, for one pair and for the pairs of the batch;
* `completed_results_final`: the two together, for the runs of a job.
-/

namespace Slurmy
namespace Batch

/-! ### What a step does to the pairs -/

inductive Effect
  | calls (task : ℕ)
  /-- `batch_b_task_t.csv` is written -/
  | publishes (task : ℕ)
  deriving DecidableEq

def Effect.task : Effect → ℕ
  | .calls task | .publishes task => task

def BatchState.effects (s : BatchState) : Act → List Effect
  | .next =>
      match s.run with
      | some (.loop (task :: _)) => if s.keeps task then [] else [.calls task]
      | _ => []
  | .rename =>
      match s.run with
      | some (.call (.writing row []) _) => [.publishes row.taskId]
      | _ => []
  | _ => []

/-- The effects on the pairs of batch `b`. -/
def State.effectsOf (b : ℕ) (s : State) (e : ℕ × Act) : List Effect :=
  if e.1 = b then (s.batch b).effects e.2 else []

theorem State.trace_batch {tasks : ℕ → List ℕ} {s t : State} {es : List (ℕ × Act)}
    (h : Machine.run (State.step tasks) s es = some t) (b : ℕ) :
    Machine.trace (State.step tasks) (State.effectsOf b) s es =
      Machine.trace (BatchState.step (tasks b)) BatchState.effects (s.batch b) (Machine.eventsOf b es) := by
  rw [← Machine.trace_component (State.run_batches h) b]
  induction es generalizing s with
  | nil => rfl
  | cons e es ih =>
    obtain ⟨m, hm, hrun⟩ := Machine.run_cons_some.1 h
    obtain ⟨batch, hbatch, rfl⟩ := Option.map_eq_some_iff.1 hm
    simp only [Machine.trace, hm, hbatch, Option.map_some, Option.getD_some, ih hrun]
    rfl

/-- The pair is recorded complete. -/
def BatchState.Completed (s : BatchState) (task : ℕ) : Prop := Says (s.result task) task

/-! ### Sound batches -/

structure Sound (s : BatchState) : Prop where
  results : ∀ task text, s.result task = some text →
    ∃ row : ResultRow, row.taskId = task ∧ text = resultFile row
  fresh : ∀ pc rest task, s.run = some (.call pc rest) → pc.open? = some task → ¬ s.Completed task
  tmp : ∀ row todo rest, s.run = some (.call (.writing row todo) rest) →
    ∃ text, s.resultTmp row.taskId = some text ∧ text ++ todo.flatten = resultFile row

theorem sound_fresh : Sound .fresh where
  results task text h := by cases h
  fresh pc rest task h := by cases h
  tmp row todo rest h := by cases h

namespace Sound

variable {s t : BatchState}

/-- A step that leaves the results alone and does not open a call. -/
theorem of_run (h : Sound s) (hresult : t.result = s.result) (htmp : t.resultTmp = s.resultTmp)
    (hrun : ∀ pc rest task, t.run = some (.call pc rest) → pc.open? = some task →
      ∃ rest', s.run = some (.call pc rest')) : Sound t where
  results task text htext := h.results task text (hresult ▸ htext)
  fresh pc rest task hpc htask := by
    obtain ⟨rest', hs⟩ := hrun pc rest task hpc htask
    unfold BatchState.Completed
    rw [hresult]
    exact h.fresh pc rest' task hs htask
  tmp row todo rest hpc := by
    obtain ⟨rest', hs⟩ := hrun _ rest row.taskId hpc rfl
    rw [htmp]
    exact h.tmp row todo rest' hs

/-- The skip test of `batch.sh` is right. -/
theorem keeps_iff (h : Sound s) (task : ℕ) : s.keeps task = true ↔ s.Completed task := by
  unfold BatchState.keeps BatchState.Completed
  cases hresult : s.result task with
  | none => simp [not_says_none]
  | some text =>
    obtain ⟨row, rfl, rfl⟩ := h.results task text hresult
    rw [Option.any_some, keepsResult_resultFile, says_resultFile]
    simp

theorem not_completed_of_keeps (h : Sound s) {task : ℕ} (hkeep : s.keeps task = false) :
    ¬ s.Completed task := by
  rw [← h.keeps_iff, hkeep]
  exact Bool.false_ne_true

/-- The file that `mv` publishes. -/
theorem published (h : Sound s) {row : ResultRow} {rest : List ℕ}
    (hrun : s.run = some (.call (.writing row []) rest)) :
    s.resultTmp row.taskId = some (resultFile row) := by
  obtain ⟨text, htext, heq⟩ := h.tmp row [] rest hrun
  rw [htext, ← heq]
  simp

protected theorem step {tasks : List ℕ} {a : Act} (h : Sound s) (hstep : s.step tasks a = some t) :
    Sound t := by
  cases BatchState.steps_of_step hstep with
  | started hrun => exact h.of_run rfl rfl fun pc rest task hpc => by cases hpc
  | prepared hrun => exact h.of_run rfl rfl fun pc rest task hpc => by cases hpc
  | ended hrun => exact h.of_run rfl rfl fun pc rest task hpc => by cases hpc
  | kept task rest hrun hkeep => exact h.of_run rfl rfl fun pc rest task hpc => by cases hpc
  | called task rest hrun hkeep =>
    refine ⟨h.results, fun pc rest' task' hpc htask => ?_, fun row todo rest' hpc => by cases hpc⟩
    cases hpc
    cases htask
    exact h.not_completed_of_keeps hkeep
  | gaveUp hrun => exact h.of_run rfl rfl fun pc rest task hpc => by cases hpc
  | result row rest hrun =>
    refine ⟨h.results, fun pc rest' task hpc htask => ?_, fun row' todo rest' hpc => ?_⟩
    · cases hpc
      cases htask
      exact h.fresh _ rest _ hrun rfl
    · cases hpc
      exact ⟨[], Function.update_self .., flatten_resultTexts row⟩
  | wrote row text todo rest hrun =>
    refine ⟨h.results, fun pc rest' task hpc htask => ?_, fun row' todo' rest' hpc => ?_⟩
    · cases hpc
      cases htask
      exact h.fresh _ rest _ hrun rfl
    · cases hpc
      obtain ⟨old, hold, heq⟩ := h.tmp row (text :: todo) rest hrun
      refine ⟨old ++ text, ?_, ?_⟩
      · show Function.update s.resultTmp row.taskId _ row.taskId = _
        rw [Function.update_self, hold]
        rfl
      · rw [List.append_assoc, ← List.flatten_cons, heq]
  | wroteIndex row text todo rest hrun =>
    exact h.of_run rfl rfl fun pc rest' task hpc htask => by cases hpc; cases htask
  | published row rest hrun =>
    refine ⟨fun task text htext => ?_, fun pc rest' task hpc htask => (by cases hpc; cases htask),
      fun row' todo rest' hpc => (by cases hpc)⟩
    replace htext : Function.update s.result row.taskId (s.resultTmp row.taskId) task = some text :=
      htext
    by_cases heq : task = row.taskId
    · subst heq
      rw [Function.update_self, h.published hrun] at htext
      exact ⟨row, rfl, (Option.some.inj htext).symm⟩
    · rw [Function.update_of_ne heq] at htext
      exact h.results task text htext
  | indexed row rest hrun =>
    exact h.of_run rfl rfl fun pc rest' task hpc htask => by cases hpc; cases htask
  | openedIndex row rest cut hrun =>
    exact h.of_run rfl rfl fun pc rest' task hpc htask => by cases hpc; cases htask
  | indexFailed pc row rest hrun hsaved =>
    exact h.of_run rfl rfl fun pc rest' task hpc htask => by cases hpc; cases htask
  | removed row rest ok hrun =>
    exact h.of_run rfl rfl fun pc rest' task hpc htask => by cases hpc; cases htask
  | callEnded pc rest hrun => exact h.of_run rfl rfl fun pc rest task hpc => by cases hpc
  | stopping pc rest hrun =>
    exact h.of_run rfl rfl fun pc' rest' task hpc htask => by cases hpc; exact ⟨rest, hrun⟩
  | stopped hcall => exact h.of_run rfl rfl fun pc rest task hpc => by cases hpc
  | killed => exact h.of_run rfl rfl fun pc rest task hpc => by cases hpc

end Sound

/-! ### Finality -/

/-- The completed pair has been left alone: `text` is its result. -/
structure Untouched (task : ℕ) (text : Option Text) (w : List Effect) (s : BatchState) : Prop where
  sound : Sound s
  result : s.result task = text
  completed : s.Completed task
  effects : ∀ x ∈ w, x.task ≠ task

theorem Untouched.step {tasks : List ℕ} {task : ℕ} {text : Option Text} {w : List Effect}
    {s t : BatchState} {a : Act} (h : Untouched task text w s) (hstep : s.step tasks a = some t) :
    Untouched task text (w ++ s.effects a) t := by
  have hsound := h.sound.step hstep
  -- the step replaces no result file of the pair, and has no effect on it
  suffices hkey : t.result task = s.result task ∧ ∀ x ∈ s.effects a, x.task ≠ task by
    refine ⟨hsound, hkey.1.trans h.result, ?_, fun x hx => ?_⟩
    · unfold BatchState.Completed
      rw [hkey.1]
      exact h.completed
    · rcases List.mem_append.1 hx with hx | hx
      · exact h.effects x hx
      · exact hkey.2 x hx
  have hquiet : s.effects a = [] → ∀ x ∈ s.effects a, x.task ≠ task := fun heq x hx => by
    rw [heq] at hx
    cases hx
  cases BatchState.steps_of_step hstep with
  | ended hrun => exact ⟨rfl, hquiet (by simp only [BatchState.effects, hrun])⟩
  | kept task' rest hrun hkeep =>
    exact ⟨rfl, hquiet (by simp only [BatchState.effects, hrun, hkeep, if_true])⟩
  | called task' rest hrun hkeep =>
    refine ⟨rfl, fun x hx => ?_⟩
    simp only [BatchState.effects, hrun, hkeep] at hx
    rcases List.mem_singleton.1 hx with rfl
    rintro rfl
    exact h.sound.not_completed_of_keeps hkeep h.completed
  | published row rest hrun =>
    have hne : row.taskId ≠ task := by
      rintro rfl
      exact h.sound.fresh _ rest _ hrun rfl h.completed
    refine ⟨Function.update_of_ne (Ne.symm hne) .., fun x hx => ?_⟩
    simp only [BatchState.effects, hrun] at hx
    rcases List.mem_singleton.1 hx with rfl
    exact hne
  | indexed row rest hrun => exact ⟨rfl, hquiet (by simp only [BatchState.effects, hrun])⟩
  | _ => exact ⟨rfl, hquiet rfl⟩

/-! ### Coverage -/

/-- The pairs that the run has not come to. -/
def Run.remaining (tasks : List ℕ) : Option Run → List ℕ
  | some .setup => tasks
  | some (.loop rest) | some (.call _ rest) => rest
  | none => []

/-- Acts that end a run before its loop ends, or begin another run. -/
def Act.interrupts : Act → Bool
  | .start | .giveUp | .stop | .kill => true
  | _ => false

/-- Since the run started in the state `s₀`, it has called every pair that was not recorded complete
and that it has come to. -/
structure Covers (tasks : List ℕ) (s₀ : BatchState) (w : List Effect) (s : BatchState) : Prop where
  sound : Sound s
  earlier : ∀ task, s.Completed task → s₀.Completed task ∨ .calls task ∈ w
  calling : ∀ pc rest task, s.run = some (.call pc rest) → pc.open? = some task → .calls task ∈ w
  called : ∀ task ∈ tasks, ¬ s₀.Completed task → .calls task ∈ w ∨
    task ∈ Run.remaining tasks s.run

theorem Covers.step {tasks : List ℕ} {s₀ s t : BatchState} {w : List Effect} {a : Act}
    (h : Covers tasks s₀ w s) (ha : a.interrupts = false) (hstep : s.step tasks a = some t) :
    Covers tasks s₀ (w ++ s.effects a) t := by
  have hsound := h.sound.step hstep
  have hw : ∀ {task}, .calls task ∈ w → .calls task ∈ w ++ s.effects a :=
    fun hmem => List.mem_append_left _ hmem
  have hearlier : t.result = s.result →
      ∀ task, t.Completed task → s₀.Completed task ∨ .calls task ∈ w ++ s.effects a := by
    intro hresult task hdone
    unfold BatchState.Completed at hdone
    rw [hresult] at hdone
    exact (h.earlier task hdone).imp_right hw
  -- most steps come to no further pair
  have hcalled : Run.remaining tasks t.run = Run.remaining tasks s.run →
      ∀ task ∈ tasks, ¬ s₀.Completed task → .calls task ∈ w ++ s.effects a ∨
        task ∈ Run.remaining tasks t.run := by
    intro hrest task htask hdone
    rw [hrest]
    exact (h.called task htask hdone).imp_left hw
  cases BatchState.steps_of_step hstep with
  | started | gaveUp | stopping | stopped | killed => cases ha
  | prepared hrun =>
    exact ⟨hsound, hearlier rfl, fun pc rest task hpc => (by cases hpc),
      hcalled (by rw [hrun]; rfl)⟩
  | ended hrun =>
    exact ⟨hsound, hearlier rfl, fun pc rest task hpc => (by cases hpc),
      hcalled (by rw [hrun]; rfl)⟩
  | kept task rest hrun hkeep =>
    refine ⟨hsound, hearlier rfl, fun pc rest task hpc => (by cases hpc), fun task' htask hdone => ?_⟩
    rcases h.called task' htask hdone with hmem | hmem
    · exact .inl (hw hmem)
    · rw [hrun] at hmem
      rcases List.mem_cons.1 hmem with rfl | hmem
      · exact .inl (hw ((h.earlier _ ((h.sound.keeps_iff _).1 hkeep)).resolve_left hdone))
      · exact .inr hmem
  | called task rest hrun hkeep =>
    have hnow : .calls task ∈ w ++ s.effects .next := by
      apply List.mem_append_right
      simp [BatchState.effects, hrun, hkeep]
    refine ⟨hsound, hearlier rfl, fun pc rest task' hpc hopen => ?_, fun task' htask hdone => ?_⟩
    · cases hpc
      cases hopen
      exact hnow
    · rcases h.called task' htask hdone with hmem | hmem
      · exact .inl (hw hmem)
      · rw [hrun] at hmem
        rcases List.mem_cons.1 hmem with rfl | hmem
        · exact .inl hnow
        · exact .inr hmem
  | result row rest hrun =>
    refine ⟨hsound, hearlier rfl, fun pc rest' task hpc hopen => ?_, hcalled (by rw [hrun]; rfl)⟩
    cases hpc
    cases hopen
    exact hw (h.calling _ rest _ hrun rfl)
  | wrote row text todo rest hrun =>
    refine ⟨hsound, hearlier rfl, fun pc rest' task hpc hopen => ?_, hcalled (by rw [hrun]; rfl)⟩
    cases hpc
    cases hopen
    exact hw (h.calling _ rest _ hrun rfl)
  | published row rest hrun =>
    refine ⟨hsound, fun task hdone => ?_, fun pc rest' task hpc hopen => (by cases hpc; cases hopen),
      hcalled (by rw [hrun]; rfl)⟩
    by_cases heq : task = row.taskId
    · exact .inr (heq ▸ hw (h.calling _ rest _ hrun rfl))
    · unfold BatchState.Completed at hdone
      simp only [Function.update_of_ne heq] at hdone
      exact (h.earlier task hdone).imp_right hw
  | wroteIndex row text todo rest hrun =>
    exact ⟨hsound, hearlier rfl, fun pc rest' task hpc hopen => (by cases hpc; cases hopen),
      hcalled (by rw [hrun]; rfl)⟩
  | indexed row rest hrun =>
    exact ⟨hsound, hearlier rfl, fun pc rest' task hpc hopen => (by cases hpc; cases hopen),
      hcalled (by rw [hrun]; rfl)⟩
  | openedIndex row rest cut hrun =>
    exact ⟨hsound, hearlier rfl, fun pc rest' task hpc hopen => (by cases hpc; cases hopen),
      hcalled (by rw [hrun]; rfl)⟩
  | indexFailed pc row rest hrun hsaved =>
    exact ⟨hsound, hearlier rfl, fun pc rest' task hpc hopen => (by cases hpc; cases hopen),
      hcalled (by rw [hrun]; rfl)⟩
  | removed row rest ok hrun =>
    exact ⟨hsound, hearlier rfl, fun pc rest' task hpc hopen => (by cases hpc; cases hopen),
      hcalled (by rw [hrun]; rfl)⟩
  | callEnded pc rest hrun =>
    exact ⟨hsound, hearlier rfl, fun pc rest task hpc => (by cases hpc),
      hcalled (by rw [hrun]; rfl)⟩

/-! ### Runs of a job -/

theorem sound_of_run {tasks : ℕ → List ℕ} {ready : Bool} {es : List (ℕ × Act)} {s : State}
    (hrun : Machine.run (State.step tasks) (.fresh ready) es = some s) (b : ℕ) :
    Sound (s.batch b) :=
  Machine.invariant (fun _ _ _ hs => hs.step) sound_fresh (State.run_batch hrun b)

/-- A completed pair is left alone in every later run. -/
theorem untouched_of_run {tasks : List ℕ} {s t : BatchState} {as : List Act} {task : ℕ}
    (hsound : Sound s) (hdone : s.Completed task)
    (hrun : Machine.run (BatchState.step tasks) s as = some t) :
    Untouched task (s.result task) (Machine.trace (BatchState.step tasks) BatchState.effects s as) t :=
  Machine.trace_invariant_along (w := []) (fun _ _ _ _ h _ => h.step)
    ⟨hsound, rfl, hdone, fun _ hx => (by cases hx)⟩ (Machine.along_true s as) hrun

/-- An uninterrupted run covers the batch. -/
theorem covers_of_run {tasks : List ℕ} {s t : BatchState} {as : List Act} (hsound : Sound s)
    (hgo : ∀ a ∈ as, a.interrupts = false)
    (hrun : Machine.run (BatchState.step tasks) s (.start :: as) = some t) :
    Covers tasks s (Machine.trace (BatchState.step tasks) BatchState.effects s (.start :: as)) t := by
  obtain ⟨m, hm, hrun⟩ := Machine.run_cons_some.1 hrun
  have hfirst : Covers tasks s [] m := by
    have hsound' := hsound.step hm
    cases BatchState.steps_of_step hm with
    | started hnone =>
      exact ⟨hsound', fun task h => .inl h, fun pc rest task hpc => (by cases hpc),
        fun task htask _ => .inr htask⟩
  have hlast : Covers tasks s
      ([] ++ Machine.trace (BatchState.step tasks) BatchState.effects m as) t :=
    Machine.trace_invariant_along (fun _ _ _ _ h ha => h.step ha) hfirst
      (Machine.along_of_forall hgo m) hrun
  simp only [Machine.trace, hm]
  exact hlast

/-- **Completed results are final.**  In every run of a job, a pair that is recorded complete keeps
its result file and is never called again; and a run of a batch that is not interrupted, and in which
`batch.sh` does not give up, calls every other pair of the batch. -/
theorem completed_results_final (tasks : ℕ → List ℕ) (ready : Bool) (es : List (ℕ × Act))
    (s : State) (hrun : Machine.run (State.step tasks) (.fresh ready) es = some s) (b : ℕ) :
    (∀ task, (s.batch b).Completed task →
      ∀ es' t, Machine.run (State.step tasks) s es' = some t →
        (t.batch b).result task = (s.batch b).result task ∧
          ∀ x ∈ Machine.trace (State.step tasks) (State.effectsOf b) s es', x.task ≠ task) ∧
    ∀ es' t, Machine.run (State.step tasks) s ((b, .start) :: es') = some t →
      (∀ e ∈ es', e.1 = b → e.2.interrupts = false) → (t.batch b).run = none →
        ∀ task ∈ tasks b, ¬ (s.batch b).Completed task →
          .calls task ∈ Machine.trace (State.step tasks) (State.effectsOf b) s
            ((b, .start) :: es') := by
  have hsound := sound_of_run hrun b
  constructor
  · intro task hdone es' t hlater
    rw [State.trace_batch hlater b]
    have hend := untouched_of_run hsound hdone (State.run_batch hlater b)
    exact ⟨hend.result, hend.effects⟩
  · intro es' t hlater hgo hnone task htask hdone
    rw [State.trace_batch hlater b]
    have hbatch := State.run_batch hlater b
    rw [Machine.eventsOf_cons_self] at hbatch ⊢
    have hend := covers_of_run hsound (fun a ha => hgo (b, a) (Machine.mem_eventsOf.1 ha) rfl) hbatch
    rcases hend.called task htask hdone with hmem | hmem
    · exact hmem
    · rw [hnone] at hmem
      cases hmem

/-- The first allocation is killed when it has published the result of pair 0; the second one calls
pair 1 only. -/
theorem completed_results_final_resumed :
    let tasks : ℕ → List ℕ := fun _ => [0, 1]
    let row : ResultRow := ⟨0, true, List.replicate 15 [], rfl⟩
    let es : List (ℕ × Act) := [(0, .start), (0, .prepared), (0, .next), (0, .result row)] ++
      List.replicate 19 (0, .write) ++ [(0, .rename), (0, .kill)]
    let es' : List (ℕ × Act) := [(0, .prepared), (0, .next), (0, .next), (0, .callEnds), (0, .next)]
    ∃ s t, Machine.run (State.step tasks) (.fresh true) es = some s ∧
      Machine.run (State.step tasks) s ((0, .start) :: es') = some t ∧
      (t.batch 0).result 0 = (s.batch 0).result 0 ∧
      .calls 1 ∈ Machine.trace (State.step tasks) (State.effectsOf 0) s ((0, .start) :: es') := by
  intro tasks row es es'
  have hfirst : (Machine.run (State.step tasks) (.fresh true) es).map (fun s =>
      ((s.batch 0).result 0, (s.batch 0).result 1)) = some (some (resultFile row), none) := by
    decide +kernel
  have hsecond : (Machine.run (State.step tasks) (.fresh true) (es ++ (0, .start) :: es')).map (fun t =>
      (t.batch 0).run.isNone) = some true := by
    decide +kernel
  obtain ⟨t, hboth, hnone⟩ := Option.map_eq_some_iff.1 hsecond
  obtain ⟨s, hrun, hlater⟩ := Machine.run_append_some.1 hboth
  rw [hrun] at hfirst
  obtain ⟨hzero, hone⟩ := Prod.mk.inj (Option.some.inj hfirst)
  obtain ⟨hfinal, hcovers⟩ := completed_results_final tasks true es s hrun 0
  have hdone : (s.batch 0).Completed 0 := by
    unfold BatchState.Completed
    rw [hzero]
    exact (says_resultFile row 0).2 ⟨rfl, rfl⟩
  have hopen : ¬ (s.batch 0).Completed 1 := by
    unfold BatchState.Completed
    rw [hone]
    exact not_says_none 1
  refine ⟨s, t, hrun, hlater, (hfinal 0 hdone _ t hlater).1, ?_⟩
  exact hcovers es' t hlater (by decide) (Option.isNone_iff_eq_none.1 hnone) 1 (by decide) hopen

/-- `batch.sh` finds no cores for its first pair and has itself requeued: the run ends uninterrupted,
and has called nothing. -/
theorem placement_leaves_pairs :
    ¬ ∀ (tasks : ℕ → List ℕ) (ready : Bool) (es : List (ℕ × Act)) (s : State),
      Machine.run (State.step tasks) (.fresh ready) es = some s → ∀ b es' t,
        Machine.run (State.step tasks) s ((b, .start) :: es') = some t →
        (∀ e ∈ es', e.1 = b → e.2 ≠ .start ∧ e.2 ≠ .stop ∧ e.2 ≠ .kill) → (t.batch b).run = none →
          ∀ task ∈ tasks b, ¬ (s.batch b).Completed task →
            .calls task ∈ Machine.trace (State.step tasks) (State.effectsOf b) s
              ((b, .start) :: es') := by
  intro hall
  let tasks : ℕ → List ℕ := fun _ => [0]
  let es' : List (ℕ × Act) := [(0, .prepared), (0, .giveUp)]
  have hend : (Machine.run (State.step tasks) (.fresh true) ((0, .start) :: es')).map (fun t =>
      (t.batch 0).run.isNone) = some true := by
    decide
  have htrace : Machine.trace (State.step tasks) (State.effectsOf 0) (.fresh true)
      ((0, .start) :: es') = [] := by
    decide
  obtain ⟨t, hrun, hnone⟩ := Option.map_eq_some_iff.1 hend
  have hmem := hall tasks true [] (.fresh true) rfl 0 es' t hrun (by decide)
    (Option.isNone_iff_eq_none.1 hnone) 0 (by decide) (not_says_none 0)
  rw [htrace] at hmem
  cases hmem

end Batch
end Slurmy
