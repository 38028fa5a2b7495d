import Slurmy.Lib.Product
import Slurmy.Batch.Results

/-!
# Runs of the batches of a job

`batch.sh` runs the pairs of one batch one after the other, each by `call.sh`.  A batch has at most
one allocation at a time; the batches of a job run independently of each other, but for the file
`results/index/.ready`.

* `CallPc`, `Run`: `call.sh` at work on a pair, and `batch.sh`;
* `BatchState`, `Act`, `BatchState.step`: the files of one batch, and what can happen next.  An allocation can
  be killed at any point, and `call.sh` can end at any point;
* `State`, `State.step`: a job;
* `BatchState.Steps`, `BatchState.steps_of_step`: everything that one step of a batch can do.

Temporary files are rewritten from the start before they are moved; readers do not look at them.
-/

namespace Slurmy
namespace Batch

/-! ### Programs -/

/-- `call.sh` of one pair. -/
inductive CallPc
  /-- the solver runs -/
  | running (task : ℕ)
  /-- `result.tmp` is open, with the texts still to be written -/
  | writing (row : ResultRow) (todo : List Text)
  /-- the individual result is published -/
  | saved (row : ResultRow)
  /-- `index.tmp` is open -/
  | indexing (row : ResultRow) (todo : List Text)
  /-- the index could not be updated -/
  | unindexed (row : ResultRow)
  | reported

/-- `batch.sh`; `rest` are the pairs that the loop has not come to. -/
inductive Run
  | setup
  | loop (rest : List ℕ)
  | call (pc : CallPc) (rest : List ℕ)

/-- The pair whose result has not been published yet. -/
def CallPc.open? : CallPc → Option ℕ
  | .running task => some task
  | .writing row _ => some row.taskId
  | _ => none

/-- The row that is in the individual result and may not be in the index. -/
def CallPc.saved? : CallPc → Option ResultRow
  | .saved row | .indexing row _ | .unindexed row => some row
  | _ => none

/-- What `call.sh` writes to `result.tmp`. -/
def resultTexts (row : ResultRow) : List Text := csvRowWrites [] resultColumns ++ [csvRow row.fields]

/-- What `call.sh` writes to `index.tmp`; awk may fail after some characters, and nobody asks. -/
def indexTexts (index : Option Text) (row : ResultRow) (cut : Option ℕ) : List Text :=
  (match index with
    | some t =>
        let kept := withoutTask (decimal row.taskId) t
        [match cut with | some k => kept.take k | none => kept]
    | none => csvRowWrites [] resultColumns) ++ [csvRow row.fields]

theorem flatten_resultTexts (row : ResultRow) : (resultTexts row).flatten = resultFile row := by
  simp [resultTexts, resultFile, tableOf, csvRow]

theorem flatten_indexTexts (index : Option Text) (row : ResultRow) :
    (indexTexts index row none).flatten = newIndex index row := by
  cases index <;> simp [indexTexts, newIndex, csvRow]

/-! ### One batch -/

/-- The result files of a batch, and its allocation if there is one. -/
structure BatchState where
  result : ℕ → Option Text
  resultTmp : ℕ → Option Text
  index : Option Text
  indexTmp : Option Text
  run : Option Run

inductive Act
  /-- SLURM starts, or restarts, the allocation -/
  | start
  /-- `batch.sh` has prepared its calls and its cores -/
  | prepared
  /-- the next pair of the loop -/
  | next
  /-- `batch.sh` fails before its loop, or finds no cores for the next pair -/
  | giveUp
  /-- the solver has ended, and `result.tmp` is created -/
  | result (row : ResultRow)
  | write
  | rename
  /-- `index.tmp` is created; `cut` is where awk fails -/
  | openIndex (cut : Option ℕ)
  | indexFails
  /-- the command that removes `.ready`, and whether it does so -/
  | removed (ok : Bool)
  /-- `call.sh` ends, whatever it has done -/
  | callEnds
  /-- `batch.sh` is told to end -/
  | stop
  | kill
  deriving DecidableEq

/-- `batch.sh` keeps the result of the pair. -/
def BatchState.keeps (s : BatchState) (task : ℕ) : Bool := (s.result task).any keepsResult

/-- One step of a batch with these pairs. -/
def BatchState.step (tasks : List ℕ) (s : BatchState) : Act → Option BatchState
  | .start =>
      match s.run with
      | none => some { s with run := some .setup }
      | some _ => none
  | .prepared =>
      match s.run with
      | some .setup => some { s with run := some (.loop tasks) }
      | _ => none
  | .next =>
      match s.run with
      | some (.loop []) => some { s with run := none }
      | some (.loop (task :: rest)) =>
          some { s with
            run := some (if s.keeps task then .loop rest else .call (.running task) rest) }
      | _ => none
  | .giveUp =>
      match s.run with
      | some .setup => some { s with run := none }
      | some (.loop (task :: _)) => if s.keeps task then none else some { s with run := none }
      | _ => none
  | .result row =>
      match s.run with
      | some (.call (.running task) rest) =>
          if row.taskId = task then
            some { s with
              resultTmp := Function.update s.resultTmp task (some [])
              run := some (.call (.writing row (resultTexts row)) rest) }
          else none
      | _ => none
  | .write =>
      match s.run with
      | some (.call (.writing row (text :: todo)) rest) =>
          some { s with
            resultTmp := Function.update s.resultTmp row.taskId
              ((s.resultTmp row.taskId).map (· ++ text))
            run := some (.call (.writing row todo) rest) }
      | some (.call (.indexing row (text :: todo)) rest) =>
          some { s with
            indexTmp := s.indexTmp.map (· ++ text)
            run := some (.call (.indexing row todo) rest) }
      | _ => none
  | .rename =>
      match s.run with
      | some (.call (.writing row []) rest) =>
          some { s with
            result := Function.update s.result row.taskId (s.resultTmp row.taskId)
            resultTmp := Function.update s.resultTmp row.taskId none
            run := some (.call (.saved row) rest) }
      | some (.call (.indexing _ []) rest) =>
          some { s with
            index := s.indexTmp
            indexTmp := none
            run := some (.call .reported rest) }
      | _ => none
  | .openIndex cut =>
      match s.run with
      | some (.call (.saved row) rest) =>
          some { s with
            indexTmp := some []
            run := some (.call (.indexing row (indexTexts s.index row cut)) rest) }
      | _ => none
  | .indexFails =>
      match s.run with
      | some (.call (.saved row) rest) | some (.call (.indexing row _) rest) =>
          some { s with run := some (.call (.unindexed row) rest) }
      | _ => none
  | .removed _ =>
      match s.run with
      | some (.call (.unindexed _) rest) =>
          some { s with indexTmp := none, run := some (.call .reported rest) }
      | _ => none
  | .callEnds =>
      match s.run with
      | some (.call _ rest) => some { s with run := some (.loop rest) }
      | _ => none
  | .stop =>
      match s.run with
      -- the call under way is told to end, and publishes its result
      | some (.call pc _) => some { s with run := some (.call pc []) }
      | some _ => some { s with run := none }
      | none => none
  | .kill =>
      match s.run with
      | some _ => some { s with run := none }
      | none => none

/-! ### A job -/

/-- The batches of a job, and whether `results/index/.ready` exists. -/
structure State where
  batch : ℕ → BatchState
  ready : Bool

/-- The step removes `.ready`. -/
def Act.removesReady : Act → Bool
  | .removed ok => ok
  | _ => false

/-- A step of batch `e.1`; `tasks` are the pairs of the batches. -/
def State.step (tasks : ℕ → List ℕ) (s : State) (e : ℕ × Act) : Option State :=
  (Machine.productStep (fun b => BatchState.step (tasks b)) s.batch e).map fun batch =>
    { batch, ready := s.ready && !e.2.removesReady }

/-- A batch without results. -/
def BatchState.fresh : BatchState := ⟨fun _ => none, fun _ => none, none, none, none⟩

/-- A job without results. -/
def State.fresh (ready : Bool) : State := ⟨fun _ => .fresh, ready⟩

/-- A call of the batch is running. -/
def BatchState.calling (s : BatchState) : Bool :=
  match s.run with
  | some (.call ..) => true
  | _ => false

theorem State.step_eq_some {tasks : ℕ → List ℕ} {s t : State} {e : ℕ × Act}
    (h : s.step tasks e = some t) :
    ∃ m, (s.batch e.1).step (tasks e.1) e.2 = some m ∧
      t = ⟨Function.update s.batch e.1 m, s.ready && !e.2.removesReady⟩ := by
  obtain ⟨batch, hbatch, rfl⟩ := Option.map_eq_some_iff.1 h
  obtain ⟨m, hm, rfl⟩ := Machine.productStep_eq_some hbatch
  exact ⟨m, hm, rfl⟩

/-- A run of the job is a run of its batches. -/
theorem State.run_batches {tasks : ℕ → List ℕ} {s t : State} {es : List (ℕ × Act)}
    (h : Machine.run (State.step tasks) s es = some t) :
    Machine.run (Machine.productStep fun b => BatchState.step (tasks b)) s.batch es = some t.batch := by
  induction es generalizing s with
  | nil => cases h; rfl
  | cons e es ih =>
    obtain ⟨m, hm, hrun⟩ := Machine.run_cons_some.1 h
    obtain ⟨batch, hbatch, rfl⟩ := Option.map_eq_some_iff.1 hm
    exact Machine.run_cons_some.2 ⟨batch, hbatch, ih hrun⟩

/-- A run of the job is a run of each batch. -/
theorem State.run_batch {tasks : ℕ → List ℕ} {s t : State} {es : List (ℕ × Act)}
    (h : Machine.run (State.step tasks) s es = some t) (b : ℕ) :
    Machine.run (BatchState.step (tasks b)) (s.batch b) (Machine.eventsOf b es) = some (t.batch b) :=
  Machine.run_component (State.run_batches h) b

/-! ### Inversion -/

/-- Everything that one step of a batch can do. -/
inductive BatchState.Steps (tasks : List ℕ) (s : BatchState) : Act → BatchState → Prop
  | started : s.run = none → Steps tasks s .start { s with run := some .setup }
  | prepared : s.run = some .setup → Steps tasks s .prepared { s with run := some (.loop tasks) }
  | ended : s.run = some (.loop []) → Steps tasks s .next { s with run := none }
  | kept (task : ℕ) (rest : List ℕ) : s.run = some (.loop (task :: rest)) → s.keeps task = true →
      Steps tasks s .next { s with run := some (.loop rest) }
  | called (task : ℕ) (rest : List ℕ) : s.run = some (.loop (task :: rest)) →
      s.keeps task = false → Steps tasks s .next { s with run := some (.call (.running task) rest) }
  | gaveUp : s.calling = false → Steps tasks s .giveUp { s with run := none }
  | result (row : ResultRow) (rest : List ℕ) : s.run = some (.call (.running row.taskId) rest) →
      Steps tasks s (.result row)
        { s with
          resultTmp := Function.update s.resultTmp row.taskId (some [])
          run := some (.call (.writing row (resultTexts row)) rest) }
  | wrote (row : ResultRow) (text : Text) (todo : List Text) (rest : List ℕ) :
      s.run = some (.call (.writing row (text :: todo)) rest) →
      Steps tasks s .write
        { s with
          resultTmp := Function.update s.resultTmp row.taskId
            ((s.resultTmp row.taskId).map (· ++ text))
          run := some (.call (.writing row todo) rest) }
  | wroteIndex (row : ResultRow) (text : Text) (todo : List Text) (rest : List ℕ) :
      s.run = some (.call (.indexing row (text :: todo)) rest) →
      Steps tasks s .write
        { s with
          indexTmp := s.indexTmp.map (· ++ text)
          run := some (.call (.indexing row todo) rest) }
  | published (row : ResultRow) (rest : List ℕ) : s.run = some (.call (.writing row []) rest) →
      Steps tasks s .rename
        { s with
          result := Function.update s.result row.taskId (s.resultTmp row.taskId)
          resultTmp := Function.update s.resultTmp row.taskId none
          run := some (.call (.saved row) rest) }
  | indexed (row : ResultRow) (rest : List ℕ) : s.run = some (.call (.indexing row []) rest) →
      Steps tasks s .rename
        { s with index := s.indexTmp, indexTmp := none, run := some (.call .reported rest) }
  | openedIndex (row : ResultRow) (rest : List ℕ) (cut : Option ℕ) :
      s.run = some (.call (.saved row) rest) →
      Steps tasks s (.openIndex cut)
        { s with
          indexTmp := some []
          run := some (.call (.indexing row (indexTexts s.index row cut)) rest) }
  | indexFailed (pc : CallPc) (row : ResultRow) (rest : List ℕ) : s.run = some (.call pc rest) →
      pc.saved? = some row →
      Steps tasks s .indexFails { s with run := some (.call (.unindexed row) rest) }
  | removed (row : ResultRow) (rest : List ℕ) (ok : Bool) :
      s.run = some (.call (.unindexed row) rest) →
      Steps tasks s (.removed ok) { s with indexTmp := none, run := some (.call .reported rest) }
  | callEnded (pc : CallPc) (rest : List ℕ) : s.run = some (.call pc rest) →
      Steps tasks s .callEnds { s with run := some (.loop rest) }
  | stopping (pc : CallPc) (rest : List ℕ) : s.run = some (.call pc rest) →
      Steps tasks s .stop { s with run := some (.call pc []) }
  | stopped : s.calling = false → Steps tasks s .stop { s with run := none }
  | killed : Steps tasks s .kill { s with run := none }

/-- The inversion of a step. -/
theorem BatchState.steps_of_step {tasks : List ℕ} {s t : BatchState} {a : Act}
    (h : s.step tasks a = some t) : BatchState.Steps tasks s a t := by
  cases a with
  | start =>
    simp only [BatchState.step] at h
    split at h
    · next hrun => cases h; exact .started hrun
    · cases h
  | prepared =>
    simp only [BatchState.step] at h
    split at h
    · next hrun => cases h; exact .prepared hrun
    · cases h
  | next =>
    simp only [BatchState.step] at h
    split at h
    · next hrun => cases h; exact .ended hrun
    · next task rest hrun =>
      cases h
      cases hkeep : s.keeps task with
      | true => exact .kept task rest hrun hkeep
      | false => exact .called task rest hrun hkeep
    · cases h
  | giveUp =>
    simp only [BatchState.step] at h
    split at h
    · next hrun => cases h; exact .gaveUp (by unfold BatchState.calling; rw [hrun])
    · next hrun =>
      split_ifs at h
      cases h
      exact .gaveUp (by unfold BatchState.calling; rw [hrun])
    · cases h
  | result row =>
    simp only [BatchState.step] at h
    split at h
    · next task rest hrun =>
      obtain ⟨rfl, h⟩ := Option.ite_none_right_eq_some.1 h
      cases h
      exact .result row rest hrun
    · cases h
  | write =>
    simp only [BatchState.step] at h
    split at h
    · next row text todo rest hrun => cases h; exact .wrote row text todo rest hrun
    · next row text todo rest hrun => cases h; exact .wroteIndex row text todo rest hrun
    · cases h
  | rename =>
    simp only [BatchState.step] at h
    split at h
    · next row rest hrun => cases h; exact .published row rest hrun
    · next row rest hrun => cases h; exact .indexed row rest hrun
    · cases h
  | openIndex cut =>
    simp only [BatchState.step] at h
    split at h
    · next row rest hrun => cases h; exact .openedIndex row rest cut hrun
    · cases h
  | indexFails =>
    simp only [BatchState.step] at h
    split at h
    · next row rest hrun => cases h; exact .indexFailed _ row rest hrun rfl
    · next row todo rest hrun => cases h; exact .indexFailed _ row rest hrun rfl
    · cases h
  | removed ok =>
    simp only [BatchState.step] at h
    split at h
    · next row rest hrun => cases h; exact .removed row rest ok hrun
    · cases h
  | callEnds =>
    simp only [BatchState.step] at h
    split at h
    · next pc rest hrun => cases h; exact .callEnded pc rest hrun
    · cases h
  | stop =>
    simp only [BatchState.step] at h
    split at h
    · next pc rest hrun => cases h; exact .stopping pc rest hrun
    · next r hne hrun =>
      cases h
      refine .stopped ?_
      unfold BatchState.calling
      rw [hrun]
      cases r with
      | call pc rest => exact absurd rfl (hne pc rest)
      | setup | loop => rfl
    · cases h
  | kill =>
    simp only [BatchState.step] at h
    split at h
    · cases h; exact .killed
    · cases h

end Batch
end Slurmy
