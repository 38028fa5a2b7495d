import Slurmy.Batch.Final

/-!
# The result index

`call.sh` publishes a row in the individual result file and then in the index of the batch.

* `BatchState.Agrees`: the invariant: the index is a table of rows, it says complete of the same
  pairs as the individual results, but for a complete row on its way into the index;
* `BatchState.safe`, `State.keepsIndex`: the steps that keep it: no row is lost on its way, awk does
  not fail, and no field contains a newline;
* `index_agrees`: the index and the individual results, in every run of a job with such steps.
-/

namespace Slurmy
namespace Batch

/-! ### Steps that keep the index -/

/-- The complete row that is on its way into the index. -/
def BatchState.onItsWay (s : BatchState) : Option ResultRow :=
  match s.run with
  | some (.call pc _) => pc.saved?.filter ResultRow.complete
  | _ => none

/-- The step loses no complete row, and writes whole lines. -/
def BatchState.safe (s : BatchState) : Act → Bool
  | .result row => row.oneLine
  | .openIndex cut => cut.isNone
  | .kill | .callEnds => s.onItsWay.isNone
  | .removed ok => ok || s.onItsWay.isNone
  | _ => true

/-- While `.ready` exists, the steps are safe. -/
def State.keepsIndex (s : State) (e : ℕ × Act) : Bool := !s.ready || (s.batch e.1).safe e.2

/-! ### Agreement -/

structure BatchState.Agrees (s : BatchState) : Prop where
  sound : Sound s
  oneLine : ∀ pc rest row, s.run = some (.call pc rest) →
    (pc.saved? = some row ∨ ∃ todo, pc = .writing row todo) → row.oneLine = true
  saved : ∀ pc rest row, s.run = some (.call pc rest) → pc.saved? = some row →
    s.result row.taskId = some (resultFile row)
  table : ∀ text, s.index = some text →
    ∃ rows : List ResultRow, (∀ r ∈ rows, r.oneLine = true) ∧ text = tableOf rows
  indexTmp : ∀ row todo rest, s.run = some (.call (.indexing row todo) rest) →
    ∃ text, s.indexTmp = some text ∧ text ++ todo.flatten = newIndex s.index row
  indexed : ∀ task, Says s.index task → s.Completed task
  completed : ∀ task, s.Completed task →
    Says s.index task ∨ ∃ row, s.onItsWay = some row ∧ row.taskId = task

theorem agrees_fresh : BatchState.fresh.Agrees where
  sound := sound_fresh
  oneLine pc rest row h := by cases h
  saved pc rest row h := by cases h
  table text h := by cases h
  indexTmp row todo rest h := by cases h
  indexed task h := absurd h (not_says_none task)
  completed task h := absurd h (not_says_none task)

/-- What the new index says. -/
theorem says_newIndex {index : Option Text} {row : ResultRow}
    (htable : ∀ text, index = some text →
      ∃ rows : List ResultRow, (∀ r ∈ rows, r.oneLine = true) ∧ text = tableOf rows) (task : ℕ) :
    Says (some (newIndex index row)) task ↔
      (task ≠ row.taskId ∧ Says index task) ∨ (task = row.taskId ∧ row.complete = true) := by
  cases index with
  | none =>
    rw [newIndex_none, says_tableOf]
    simp only [not_says_none, and_false, false_or, List.mem_singleton, exists_eq_left]
    rw [eq_comm (a := task)]
  | some text =>
    obtain ⟨rows, hrows, rfl⟩ := htable text rfl
    rw [newIndex_tableOf hrows, says_tableOf, says_tableOf]
    constructor
    · rintro ⟨r, hr, rfl, hc⟩
      rcases List.mem_append.1 hr with hr | hr
      · obtain ⟨hr, hne⟩ := List.mem_filter.1 hr
        exact .inl ⟨of_decide_eq_true hne, r, hr, rfl, hc⟩
      · rcases List.mem_singleton.1 hr with rfl
        exact .inr ⟨rfl, hc⟩
    · rintro (⟨hne, r, hr, rfl, hc⟩ | ⟨rfl, hc⟩)
      · exact ⟨r, List.mem_append_left _ (List.mem_filter.2 ⟨hr, decide_eq_true hne⟩), rfl, hc⟩
      · exact ⟨row, List.mem_append_right _ (List.mem_singleton_self row), rfl, hc⟩

/-- The new index is a table again. -/
theorem table_newIndex {index : Option Text} {row : ResultRow} (hrow : row.oneLine = true)
    (htable : ∀ text, index = some text →
      ∃ rows : List ResultRow, (∀ r ∈ rows, r.oneLine = true) ∧ text = tableOf rows) :
    ∃ rows : List ResultRow, (∀ r ∈ rows, r.oneLine = true) ∧ newIndex index row = tableOf rows := by
  cases index with
  | none =>
    refine ⟨[row], fun r hr => ?_, newIndex_none row⟩
    rwa [List.mem_singleton.1 hr]
  | some text =>
    obtain ⟨rows, hrows, rfl⟩ := htable text rfl
    refine ⟨_, fun r hr => ?_, newIndex_tableOf hrows row⟩
    rcases List.mem_append.1 hr with hr | hr
    · exact hrows r (List.mem_filter.1 hr).1
    · rwa [List.mem_singleton.1 hr]

namespace BatchState.Agrees

variable {s t : BatchState}

/-- A step that leaves the files alone, and neither takes a row on its way nor loses one. -/
theorem of_run (h : s.Agrees) (hsound : Sound t) (hresult : t.result = s.result)
    (hindex : t.index = s.index) (hkeep : s.onItsWay = none ∨ t.onItsWay = s.onItsWay)
    (hrow : ∀ pc rest row, t.run = some (.call pc rest) →
      (pc.saved? = some row ∨ ∃ todo, pc = .writing row todo) → row.oneLine = true)
    (hsaved : ∀ pc rest row, t.run = some (.call pc rest) → pc.saved? = some row →
      ∃ pc' rest', s.run = some (.call pc' rest') ∧ pc'.saved? = some row)
    (htmp : ∀ row todo rest, t.run = some (.call (.indexing row todo) rest) →
      ∃ text, t.indexTmp = some text ∧ text ++ todo.flatten = newIndex s.index row) : t.Agrees where
  sound := hsound
  oneLine := hrow
  saved pc rest row hpc hp := by
    obtain ⟨pc', rest', hs, hp'⟩ := hsaved pc rest row hpc hp
    rw [hresult]
    exact h.saved pc' rest' row hs hp'
  table := by rw [hindex]; exact h.table
  indexTmp := by rw [hindex]; exact htmp
  indexed task hsays := by
    unfold BatchState.Completed
    rw [hresult]
    exact h.indexed task (hindex ▸ hsays)
  completed task hdone := by
    unfold BatchState.Completed at hdone
    rw [hresult] at hdone
    rw [hindex]
    rcases h.completed task hdone with hsays | ⟨row, hway, heq⟩
    · exact .inl hsays
    · rcases hkeep with hnone | hsame
      · rw [hnone] at hway
        cases hway
      · exact .inr ⟨row, hsame ▸ hway, heq⟩

/-- A step after which no call is running. -/
theorem of_idle (h : s.Agrees) (hsound : Sound t) (hresult : t.result = s.result)
    (hindex : t.index = s.index) (hcall : t.calling = false) (hway : s.onItsWay = none) :
    t.Agrees := by
  have hno : ∀ pc rest, t.run ≠ some (.call pc rest) := by
    intro pc rest hpc
    unfold BatchState.calling at hcall
    rw [hpc] at hcall
    cases hcall
  exact h.of_run hsound hresult hindex (.inl hway) (fun pc rest _ hpc => absurd hpc (hno pc rest))
    (fun pc rest _ hpc => absurd hpc (hno pc rest)) fun _ _ rest hpc => absurd hpc (hno _ rest)

end BatchState.Agrees

/-! ### Steps -/

theorem BatchState.onItsWay_call {s : BatchState} {pc : CallPc} {rest : List ℕ}
    (h : s.run = some (.call pc rest)) : s.onItsWay = pc.saved?.filter ResultRow.complete := by
  unfold BatchState.onItsWay
  rw [h]

theorem BatchState.onItsWay_of_not_calling {s : BatchState} (h : s.calling = false) :
    s.onItsWay = none := by
  unfold BatchState.onItsWay
  split
  · next pc rest hrun =>
    unfold BatchState.calling at h
    rw [hrun] at h
    cases h
  · rfl

namespace BatchState.Agrees

variable {s t : BatchState} {tasks : List ℕ}

/-- The row of the call is published: either it is complete and on its way, or both say that the
pair is not. -/
theorem published (h : s.Agrees) {row : ResultRow} {rest : List ℕ}
    (hrun : s.run = some (.call (.writing row []) rest)) (hsound : Sound t)
    (hresult : t.result = Function.update s.result row.taskId (some (resultFile row)))
    (hindex : t.index = s.index) (hnow : t.run = some (.call (.saved row) rest)) : t.Agrees where
  sound := hsound
  oneLine pc rest' row' hpc hp := by
    rw [hnow] at hpc
    cases hpc
    rcases hp with hp | ⟨todo, hp⟩
    · cases hp
      exact h.oneLine _ rest row hrun (.inr ⟨[], rfl⟩)
    · cases hp
  saved pc rest' row' hpc hp := by
    rw [hnow] at hpc
    cases hpc
    cases hp
    rw [hresult, Function.update_self]
  table := by rw [hindex]; exact h.table
  indexTmp row' todo rest' hpc := by
    rw [hnow] at hpc
    cases hpc
  indexed task hsays := by
    have hdone := h.indexed task (hindex ▸ hsays)
    have hne : task ≠ row.taskId := by
      rintro rfl
      exact h.sound.fresh _ rest _ hrun rfl hdone
    unfold BatchState.Completed
    rw [hresult, Function.update_of_ne hne]
    exact hdone
  completed task hdone := by
    unfold BatchState.Completed at hdone
    rw [hresult] at hdone
    by_cases heq : task = row.taskId
    · subst heq
      rw [Function.update_self, says_resultFile] at hdone
      refine .inr ⟨row, ?_, rfl⟩
      rw [onItsWay_call hnow]
      exact Option.filter_eq_some_iff.2 ⟨rfl, hdone.2⟩
    · rw [Function.update_of_ne heq] at hdone
      rw [hindex]
      refine .inl ((h.completed task hdone).resolve_right ?_)
      rintro ⟨row', hway, -⟩
      rw [onItsWay_call hrun] at hway
      cases hway

/-- The row of the call reaches the index. -/
theorem reaches (h : s.Agrees) {row : ResultRow} {rest : List ℕ}
    (hrun : s.run = some (.call (.indexing row []) rest)) (hsound : Sound t)
    (hresult : t.result = s.result) (hindex : t.index = some (newIndex s.index row))
    (hnow : t.run = some (.call .reported rest)) : t.Agrees where
  sound := hsound
  oneLine pc rest' row' hpc hp := by
    rw [hnow] at hpc
    cases hpc
    rcases hp with hp | ⟨todo, hp⟩ <;> cases hp
  saved pc rest' row' hpc hp := by
    rw [hnow] at hpc
    cases hpc
    cases hp
  table text htext := by
    rw [hindex] at htext
    cases htext
    exact table_newIndex (h.oneLine _ rest row hrun (.inl rfl)) h.table
  indexTmp row' todo rest' hpc := by
    rw [hnow] at hpc
    cases hpc
  indexed task hsays := by
    unfold BatchState.Completed
    rw [hresult]
    rw [hindex, says_newIndex h.table] at hsays
    rcases hsays with ⟨-, hsays⟩ | ⟨rfl, hc⟩
    · exact h.indexed task hsays
    · rw [h.saved _ rest row hrun rfl]
      exact (says_resultFile row _).2 ⟨rfl, hc⟩
  completed task hdone := by
    refine .inl ?_
    rw [hindex, says_newIndex h.table]
    unfold BatchState.Completed at hdone
    rw [hresult] at hdone
    by_cases heq : task = row.taskId
    · subst heq
      rw [h.saved _ rest row hrun rfl, says_resultFile] at hdone
      exact .inr ⟨rfl, hdone.2⟩
    · refine .inl ⟨heq, (h.completed task hdone).resolve_right ?_⟩
      rintro ⟨row', hway, htask⟩
      rw [onItsWay_call hrun] at hway
      obtain ⟨hrow, -⟩ := Option.filter_eq_some_iff.1 hway
      cases hrow
      exact heq htask.symm

protected theorem step {a : Act} (h : s.Agrees) (hsafe : s.safe a = true)
    (hready : a.removesReady = false) (hstep : s.step tasks a = some t) : t.Agrees := by
  have hsound := h.sound.step hstep
  cases BatchState.steps_of_step hstep with
  | started hrun =>
    have hidle : s.calling = false := by simp only [BatchState.calling, hrun]
    exact h.of_idle hsound rfl rfl rfl (onItsWay_of_not_calling hidle)
  | prepared hrun =>
    have hidle : s.calling = false := by simp only [BatchState.calling, hrun]
    exact h.of_idle hsound rfl rfl rfl (onItsWay_of_not_calling hidle)
  | ended hrun =>
    have hidle : s.calling = false := by simp only [BatchState.calling, hrun]
    exact h.of_idle hsound rfl rfl rfl (onItsWay_of_not_calling hidle)
  | kept task rest hrun hkeep =>
    have hidle : s.calling = false := by simp only [BatchState.calling, hrun]
    exact h.of_idle hsound rfl rfl rfl (onItsWay_of_not_calling hidle)
  | called task rest hrun hkeep =>
    have hidle : s.calling = false := by simp only [BatchState.calling, hrun]
    refine h.of_run hsound rfl rfl (.inl (onItsWay_of_not_calling hidle)) ?_ ?_ ?_
    · intro pc rest' row hpc hp
      cases hpc
      rcases hp with hp | ⟨todo, hp⟩ <;> cases hp
    · intro pc rest' row hpc hp
      cases hpc
      cases hp
    · intro row todo rest' hpc
      cases hpc
  | gaveUp hidle => exact h.of_idle hsound rfl rfl rfl (onItsWay_of_not_calling hidle)
  | result row rest hrun =>
    refine h.of_run hsound rfl rfl (.inl (onItsWay_call hrun)) ?_ ?_ ?_
    · intro pc rest' row' hpc hp
      cases hpc
      rcases hp with hp | ⟨todo, hp⟩
      · cases hp
      · cases hp
        exact hsafe
    · intro pc rest' row' hpc hp
      cases hpc
      cases hp
    · intro row' todo rest' hpc
      cases hpc
  | wrote row text todo rest hrun =>
    refine h.of_run hsound rfl rfl (.inl (onItsWay_call hrun)) ?_ ?_ ?_
    · intro pc rest' row' hpc hp
      cases hpc
      rcases hp with hp | ⟨todo', hp⟩
      · cases hp
      · cases hp
        exact h.oneLine _ rest row hrun (.inr ⟨_, rfl⟩)
    · intro pc rest' row' hpc hp
      cases hpc
      cases hp
    · intro row' todo' rest' hpc
      cases hpc
  | wroteIndex row text todo rest hrun =>
    refine h.of_run hsound rfl rfl (.inr (onItsWay_call hrun).symm) ?_ ?_ ?_
    · intro pc rest' row' hpc hp
      cases hpc
      rcases hp with hp | ⟨todo', hp⟩
      · exact h.oneLine _ rest row' hrun (.inl hp)
      · cases hp
    · intro pc rest' row' hpc hp
      cases hpc
      exact ⟨_, rest, hrun, hp⟩
    · intro row' todo' rest' hpc
      cases hpc
      obtain ⟨old, hold, heq⟩ := h.indexTmp row (text :: todo) rest hrun
      refine ⟨old ++ text, ?_, ?_⟩
      · show s.indexTmp.map _ = _
        rw [hold]
        rfl
      · rw [List.append_assoc, ← List.flatten_cons, heq]
  | published row rest hrun =>
    refine h.published hrun hsound ?_ rfl rfl
    rw [h.sound.published hrun]
  | indexed row rest hrun =>
    refine h.reaches hrun hsound rfl ?_ rfl
    obtain ⟨text, htext, heq⟩ := h.indexTmp row [] rest hrun
    show s.indexTmp = _
    rw [htext, ← heq]
    simp
  | openedIndex row rest cut hrun =>
    refine h.of_run hsound rfl rfl (.inr (onItsWay_call hrun).symm) ?_ ?_ ?_
    · intro pc rest' row' hpc hp
      cases hpc
      rcases hp with hp | ⟨todo', hp⟩
      · exact h.oneLine _ rest row' hrun (.inl hp)
      · cases hp
    · intro pc rest' row' hpc hp
      cases hpc
      exact ⟨_, rest, hrun, hp⟩
    · intro row' todo' rest' hpc
      cases hpc
      obtain rfl := Option.isNone_iff_eq_none.1 hsafe
      exact ⟨[], rfl, flatten_indexTexts s.index row⟩
  | indexFailed pc row rest hrun hsaved =>
    refine h.of_run hsound rfl rfl (.inr ?_) ?_ ?_ ?_
    · rw [onItsWay_call hrun, hsaved]
      rfl
    · intro pc' rest' row' hpc hp
      cases hpc
      rcases hp with hp | ⟨todo', hp⟩
      · cases hp
        exact h.oneLine pc rest row hrun (.inl hsaved)
      · cases hp
    · intro pc' rest' row' hpc hp
      cases hpc
      cases hp
      exact ⟨pc, rest, hrun, hsaved⟩
    · intro row' todo' rest' hpc
      cases hpc
  | removed row rest ok hrun =>
    obtain rfl : ok = false := hready
    refine h.of_run hsound rfl rfl (.inl (Option.isNone_iff_eq_none.1 hsafe)) ?_ ?_ ?_
    · intro pc rest' row' hpc hp
      cases hpc
      rcases hp with hp | ⟨todo', hp⟩ <;> cases hp
    · intro pc rest' row' hpc hp
      cases hpc
      cases hp
    · intro row' todo' rest' hpc
      cases hpc
  | callEnded pc rest hrun =>
    exact h.of_idle hsound rfl rfl rfl (Option.isNone_iff_eq_none.1 hsafe)
  | stopping pc rest hrun =>
    refine h.of_run hsound rfl rfl (.inr (onItsWay_call hrun).symm) ?_ ?_ ?_
    · intro pc' rest' row' hpc hp
      cases hpc
      exact h.oneLine pc rest row' hrun hp
    · intro pc' rest' row' hpc hp
      cases hpc
      exact ⟨pc, rest, hrun, hp⟩
    · intro row' todo' rest' hpc
      cases hpc
      exact h.indexTmp row' todo' rest hrun
  | stopped hidle => exact h.of_idle hsound rfl rfl rfl (onItsWay_of_not_calling hidle)
  | killed => exact h.of_idle hsound rfl rfl rfl (Option.isNone_iff_eq_none.1 hsafe)

end BatchState.Agrees

/-! ### Runs of a job -/

/-- While `.ready` exists, every batch agrees. -/
def State.Agree (s : State) : Prop := s.ready = true → ∀ b, (s.batch b).Agrees

theorem State.Agree.step {tasks : ℕ → List ℕ} {s t : State} {e : ℕ × Act} (h : s.Agree)
    (hkeep : s.keepsIndex e = true) (hstep : s.step tasks e = some t) : t.Agree := by
  obtain ⟨m, hm, rfl⟩ := State.step_eq_some hstep
  intro hready b
  obtain ⟨hready, hremoves⟩ := Bool.and_eq_true_iff.1 hready
  have hsafe : (s.batch e.1).safe e.2 = true := by
    simpa [State.keepsIndex, hready] using hkeep
  have hmoved : m.Agrees := (h hready e.1).step hsafe (by simpa using hremoves) hm
  show (Function.update s.batch e.1 m b).Agrees
  by_cases heq : b = e.1
  · subst heq
    rwa [Function.update_self]
  · rw [Function.update_of_ne heq]
    exact h hready b

/-- **The index agrees.**  In every run of a job in which, while `results/index/.ready` exists, no
complete row is lost on its way into the index, awk does not fail and rows have one line: whenever
`.ready` exists, the index of a batch without a running call says complete of exactly the pairs whose
individual results do. -/
theorem index_agrees (tasks : ℕ → List ℕ) (ready : Bool) (es : List (ℕ × Act)) (s : State)
    (hkeep : Machine.Along (State.step tasks) (fun s e => s.keepsIndex e = true) (.fresh ready) es)
    (hrun : Machine.run (State.step tasks) (.fresh ready) es = some s) (b : ℕ)
    (hidle : (s.batch b).calling = false) (hready : s.ready = true) (task : ℕ) :
    Says (s.batch b).index task ↔ Says ((s.batch b).result task) task := by
  have hend : s.Agree := Machine.invariant_along (I := State.Agree)
    (fun _ _ _ hs hk => hs.step hk) (fun _ _ => agrees_fresh) hkeep hrun
  have hagrees := hend hready b
  constructor
  · exact hagrees.indexed task
  · intro hdone
    refine (hagrees.completed task hdone).resolve_right ?_
    rintro ⟨row, hway, -⟩
    rw [BatchState.onItsWay_of_not_calling hidle] at hway
    cases hway

/-- One batch of one pair, from its start to the end of its allocation. -/
theorem index_agrees_one_pair :
    let tasks : ℕ → List ℕ := fun _ => [0]
    let row : ResultRow := ⟨0, true, List.replicate 15 [], rfl⟩
    let es : List (ℕ × Act) := [(0, .start), (0, .prepared), (0, .next), (0, .result row)] ++
      List.replicate 19 (0, .write) ++ [(0, .rename), (0, .openIndex none)] ++
      List.replicate 19 (0, .write) ++ [(0, .rename), (0, .callEnds), (0, .next)]
    ∃ s, Machine.run (State.step tasks) (.fresh true) es = some s ∧
      (s.batch 0).result 0 = some (resultFile row) ∧ Says (s.batch 0).index 0 := by
  intro tasks row es
  have hkeep : Machine.Along (State.step tasks) (fun s e => s.keepsIndex e = true) (.fresh true)
      es := by
    decide +kernel
  have hend : (Machine.run (State.step tasks) (.fresh true) es).map (fun s =>
      ((s.batch 0).calling, s.ready, (s.batch 0).result 0)) =
        some (false, true, some (resultFile row)) := by
    decide +kernel
  obtain ⟨s, hrun, hs⟩ := Option.map_eq_some_iff.1 hend
  obtain ⟨hidle, hs⟩ := Prod.mk.inj hs
  obtain ⟨hready, hresult⟩ := Prod.mk.inj hs
  refine ⟨s, hrun, hresult, (index_agrees tasks true es s hkeep hrun 0 hidle hready 0).2 ?_⟩
  rw [hresult]
  exact (says_resultFile row 0).2 ⟨rfl, rfl⟩

/-- The allocation is killed after `call.sh` has published the individual result and before it has
written the index; the next allocation keeps the result and never writes its row into the index. -/
theorem index_row_lost :
    ¬ ∀ (tasks : ℕ → List ℕ) (ready : Bool) (es : List (ℕ × Act)) (s : State),
      Machine.run (State.step tasks) (.fresh ready) es = some s →
        (∀ b, (s.batch b).calling = false) → s.ready = true →
          ∀ b task, Says (s.batch b).index task ↔ Says ((s.batch b).result task) task := by
  intro hall
  let tasks : ℕ → List ℕ := fun _ => [0]
  let row : ResultRow := ⟨0, true, List.replicate 15 [], rfl⟩
  let es : List (ℕ × Act) := [(0, .start), (0, .prepared), (0, .next), (0, .result row)] ++
    List.replicate 19 (0, .write) ++
    [(0, .rename), (0, .kill), (0, .start), (0, .prepared), (0, .next), (0, .next)]
  have hend : (Machine.run (State.step tasks) (.fresh true) es).map (fun s =>
      ((s.batch 0).calling, s.ready, (s.batch 0).result 0, (s.batch 0).index)) =
        some (false, true, some (resultFile row), none) := by
    decide +kernel
  have hzero : ∀ e ∈ es, e.1 = 0 := by decide
  obtain ⟨s, hrun, hs⟩ := Option.map_eq_some_iff.1 hend
  obtain ⟨hidle, hs⟩ := Prod.mk.inj hs
  obtain ⟨hready, hs⟩ := Prod.mk.inj hs
  obtain ⟨hresult, hindex⟩ := Prod.mk.inj hs
  -- the other batches have not moved
  have hcalls : ∀ b, (s.batch b).calling = false := by
    intro b
    by_cases hb : b = 0
    · subst hb
      exact hidle
    · have hnone : Machine.eventsOf b es = [] := by
        apply List.filterMap_eq_nil_iff.2
        intro e he
        exact if_neg (by rw [hzero e he]; exact Ne.symm hb)
      have hbatch := State.run_batch hrun b
      rw [hnone] at hbatch
      rw [← Option.some.inj hbatch]
      rfl
  have hboth := hall tasks true es s hrun hcalls hready 0 0
  rw [hindex, hresult] at hboth
  exact not_says_none 0 (hboth.2 ((says_resultFile row 0).2 ⟨rfl, rfl⟩))

end Batch
end Slurmy
