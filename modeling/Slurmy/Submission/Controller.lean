import Slurmy.Coordinator.Attempt
import Slurmy.Submission.Selection

/-!
# The submission controller

`remote_submit.sh` as a machine over its program counter and the files of the job directory that it
tests, reads or writes.

* `JobFiles`, `Pc`, `Move`: the files, the places in the script between two file operations, and
  what can happen next there;
* `parseReply`: what the script makes of the coordinator's output;
* `Pc.step`: one move.

Signals and failing commands leave the script through its traps (`Move.abort`).  That the process
is killed is a matter of the machines that run controllers.
-/

namespace Slurmy
namespace Submission

/-- A job as planned: the number of its batches, and `planned_batch_tasks` of its metadata. -/
structure Job where
  batches : ℕ
  planned : List (List ℕ)
  batches_le : batches ≤ 999999

/-- What a run that starts with `k` submitted batches and the results `r` selects. -/
def Selected (job : Job) (incomplete : Bool) (k : ℕ) (r : ResultFiles) (b : ℕ) : Prop :=
  k ≤ b ∨ incomplete = true ∧ Unfinished job.planned r b

/-- `submission_context.sh`, which is created empty and then written. -/
inductive Context
  | absent
  | empty
  | written
  deriving DecidableEq

/-- The files of the job directory that the scripts act on. -/
structure JobFiles where
  stopped : Bool
  context : Context
  submission : Option Text
  results : ResultFiles

/-! ### The coordinator's output -/

/-- What the controller makes of the coordinator's answer. -/
inductive Reply
  | accepted (id : {t : Text // isDigits t = true})
  | wait
  | failed
  deriving DecidableEq

/-- The script's reading of the coordinator's exit status and output. -/
def parseReply (rc : ℕ) (submitted : Text) : Reply :=
  if rc ≠ 0 then .failed
  else if "ACCEPTED|".toList <+: submitted then
    let id := before '|' (submitted.drop "ACCEPTED|".toList.length)
    if h : isDigits id = true then .accepted ⟨id, h⟩ else .failed
  else if "WAIT|".toList <+: submitted then .wait
  else .failed

/-! ### The script -/

/-- The variables of the submission loop: `submitted`, the keys of `RESUME_WANTED`, and the batches
the loop has still to visit. -/
structure Loop where
  submitted : ℕ
  wanted : List ℕ
  rest : List ℕ
  deriving DecidableEq

/-- The places in the script, each named for what happens next. -/
inductive Pc
  /-- `flock -n 9` -/
  | lock
  /-- the test for `submission_context.sh`, which creates it -/
  | context
  /-- the contents of the new `submission_context.sh` -/
  | contextWrite
  /-- the test for `.stopped` before any work -/
  | stoppedTest
  /-- the job's name, the cluster's topology, `allocations.csv` and the files in `batches` -/
  | plan
  /-- the test for `submission.csv`, which reads it or creates it -/
  | readSubmission
  /-- the writes of the header that are still to come -/
  | header (writes : List Text)
  /-- the selection of unfinished batches -/
  | select (submitted : ℕ)
  /-- the top of the loop over the batches -/
  | batch (l : Loop)
  /-- the test for `.stopped` before the coordinator is asked for batch `b` -/
  | attempt (l : Loop) (b : ℕ)
  /-- the coordinator is running -/
  | calling (l : Loop) (b : ℕ)
  /-- the row of the accepted batch -/
  | record (l : Loop) (b : ℕ) (id : {t : Text // isDigits t = true})
  /-- `finish_submit` -/
  | exiting (rc : ℕ)
  | exited (rc : ℕ)
  deriving DecidableEq

inductive Move
  | next
  /-- the coordinator ends with this exit status and output -/
  | reply (rc : ℕ) (out : Text)
  /-- the row is appended at this time -/
  | append (epoch : ℕ)
  /-- a signal or a failing command -/
  | abort

/-- The skip at the top of the loop. -/
def Loop.skips (l : Loop) (b : ℕ) : Bool := b < l.submitted && b ∉ l.wanted

/-- The next step of the controller of `job` with `RESUME_INCOMPLETE` as given, where the script
does not wait for anything. -/
def Pc.next (job : Job) (incomplete : Bool) (f : JobFiles) : Pc → Option (JobFiles × Pc)
  | .lock => some (f, .context)
  | .context =>
      match f.context with
      | .absent => some ({ f with context := .empty }, .contextWrite)
      | _ => some (f, .stoppedTest)
  | .contextWrite => some ({ f with context := .written }, .stoppedTest)
  | .stoppedTest => some (f, if f.stopped then .exiting 1 else .plan)
  | .plan => some (f, .readSubmission)
  | .readSubmission =>
      match f.submission with
      | some t =>
          match checkPrior t, countSubmitted t with
          | some _, some submitted => some (f, .select submitted)
          | _, _ => some (f, .exiting 1)
      | none => some ({ f with submission := some [] }, .header (csvRowWrites [] columns))
  | .header [] => some (f, .select 0)
  | .header (w :: writes) =>
      some ({ f with submission := some (f.submission.getD [] ++ w) }, .header writes)
  | .select submitted =>
      if incomplete then
        match resumeBatches job.planned f.results with
        | some wanted => some (f, .batch ⟨submitted, wanted, batchOrder job.batches⟩)
        | none => some (f, .exiting 1)
      else some (f, .batch ⟨submitted, [], batchOrder job.batches⟩)
  | .batch l =>
      match l.rest with
      | [] => some (f, .exiting 0)
      | b :: rest =>
          let l := { l with rest := rest }
          some (f, if f.stopped then .exiting 1 else if l.skips b then .batch l else .attempt l b)
  | .attempt l b => some (f, if f.stopped then .exiting 1 else .calling l b)
  | .exiting rc => some (f, .exited rc)
  | .calling .. | .record .. | .exited _ => none

/-- Where a signal or a failing command leads. -/
def Pc.aborted : Pc → Option Pc
  | .lock => some (.exited 1)
  | .exiting _ | .exited _ => none
  | _ => some (.exiting 1)

/-- One move of the controller. -/
def Pc.step (job : Job) (incomplete : Bool) (f : JobFiles) (pc : Pc) :
    Move → Option (JobFiles × Pc)
  | .next => pc.next job incomplete f
  | .reply rc out =>
      match pc with
      | .calling l b =>
          match parseReply rc out with
          | .accepted id => some (f, .record l b id)
          | .wait => some (f, .attempt l b)
          | .failed => some (f, .exiting 1)
      | _ => none
  | .append epoch =>
      match pc with
      | .record l b id =>
          let row : Row := ⟨id.1, b, epoch, id.2⟩
          some ({ f with submission := some (f.submission.getD [] ++ row.line) },
            .batch { l with submitted := if l.submitted ≤ b then l.submitted + 1 else l.submitted })
      | _ => none
  | .abort => pc.aborted.map fun pc => (f, pc)

/-- Everything that one move can do. -/
inductive Moves (job : Job) (incomplete : Bool) (f : JobFiles) : Pc → Move → JobFiles → Pc → Prop
  | locked : Moves job incomplete f .lock .next f .context
  | contextKept : f.context ≠ .absent → Moves job incomplete f .context .next f .stoppedTest
  | contextCreated : f.context = .absent →
      Moves job incomplete f .context .next { f with context := .empty } .contextWrite
  | contextWritten :
      Moves job incomplete f .contextWrite .next { f with context := .written } .stoppedTest
  | notStopped : f.stopped = false → Moves job incomplete f .stoppedTest .next f .plan
  | stopped : f.stopped = true → Moves job incomplete f .stoppedTest .next f (.exiting 1)
  | planned : Moves job incomplete f .plan .next f .readSubmission
  | counted (t : Text) (k : ℕ) : f.submission = some t → (checkPrior t).isSome = true →
      countSubmitted t = some k → Moves job incomplete f .readSubmission .next f (.select k)
  | inconsistent (t : Text) : f.submission = some t →
      Moves job incomplete f .readSubmission .next f (.exiting 1)
  | created : f.submission = none →
      Moves job incomplete f .readSubmission .next { f with submission := some [] }
        (.header (csvRowWrites [] columns))
  | headerWrite (w : Text) (writes : List Text) :
      Moves job incomplete f (.header (w :: writes)) .next
        { f with submission := some (f.submission.getD [] ++ w) } (.header writes)
  | headerDone : Moves job incomplete f (.header []) .next f (.select 0)
  | selected (k : ℕ) (wanted : List ℕ) :
      (∀ b, b ∈ wanted ↔ incomplete = true ∧ Unfinished job.planned f.results b) →
      Moves job incomplete f (.select k) .next f (.batch ⟨k, wanted, batchOrder job.batches⟩)
  | unreadable (k : ℕ) : Moves job incomplete f (.select k) .next f (.exiting 1)
  | completed (l : Loop) : l.rest = [] → Moves job incomplete f (.batch l) .next f (.exiting 0)
  | stoppedBefore (l : Loop) : f.stopped = true →
      Moves job incomplete f (.batch l) .next f (.exiting 1)
  | skipped (l : Loop) (b : ℕ) (rest : List ℕ) : l.rest = b :: rest → b < l.submitted →
      b ∉ l.wanted → Moves job incomplete f (.batch l) .next f (.batch { l with rest := rest })
  | chosen (l : Loop) (b : ℕ) (rest : List ℕ) : l.rest = b :: rest →
      (l.submitted ≤ b ∨ b ∈ l.wanted) → f.stopped = false →
      Moves job incomplete f (.batch l) .next f (.attempt { l with rest := rest } b)
  | called (l : Loop) (b : ℕ) : f.stopped = false →
      Moves job incomplete f (.attempt l b) .next f (.calling l b)
  | stoppedWaiting (l : Loop) (b : ℕ) : f.stopped = true →
      Moves job incomplete f (.attempt l b) .next f (.exiting 1)
  | accepted (l : Loop) (b rc : ℕ) (out : Text) (id : {t : Text // isDigits t = true}) :
      parseReply rc out = .accepted id →
      Moves job incomplete f (.calling l b) (.reply rc out) f (.record l b id)
  | waits (l : Loop) (b rc : ℕ) (out : Text) : parseReply rc out = .wait →
      Moves job incomplete f (.calling l b) (.reply rc out) f (.attempt l b)
  | failed (l : Loop) (b rc : ℕ) (out : Text) : parseReply rc out = .failed →
      Moves job incomplete f (.calling l b) (.reply rc out) f (.exiting 1)
  | recorded (l : Loop) (b epoch : ℕ) (id : {t : Text // isDigits t = true}) :
      Moves job incomplete f (.record l b id) (.append epoch)
        { f with submission := some (f.submission.getD [] ++ (⟨id.1, b, epoch, id.2⟩ : Row).line) }
        (.batch { l with submitted := if l.submitted ≤ b then l.submitted + 1 else l.submitted })
  | exited (rc : ℕ) : Moves job incomplete f (.exiting rc) .next f (.exited rc)
  | unlocked : Moves job incomplete f .lock .abort f (.exited 1)
  | trapped (pc : Pc) : pc.aborted = some (.exiting 1) →
      Moves job incomplete f pc .abort f (.exiting 1)

theorem Pc.moves_of_next {job : Job} {incomplete : Bool} {f f' : JobFiles} {pc pc' : Pc}
    (h : pc.next job incomplete f = some (f', pc')) : Moves job incomplete f pc .next f' pc' := by
  cases pc with
  | lock => cases h; exact .locked
  | context =>
    unfold Pc.next at h
    cases hc : f.context with
    | absent => rw [hc] at h; cases h; exact .contextCreated hc
    | empty => rw [hc] at h; cases h; exact .contextKept (by simp [hc])
    | written => rw [hc] at h; cases h; exact .contextKept (by simp [hc])
  | contextWrite => cases h; exact .contextWritten
  | stoppedTest =>
    obtain ⟨rfl, rfl⟩ := Prod.mk.inj (Option.some.inj h)
    cases hs : f.stopped with
    | false => exact .notStopped hs
    | true => exact .stopped hs
  | plan => cases h; exact .planned
  | readSubmission =>
    unfold Pc.next at h
    cases hsub : f.submission with
    | none => rw [hsub] at h; cases h; exact .created hsub
    | some t =>
      rw [hsub] at h
      cases hcheck : checkPrior t with
      | none => simp only [hcheck] at h; cases h; exact .inconsistent t hsub
      | some seen => cases hcount : countSubmitted t with
        | none => simp only [hcheck, hcount] at h; cases h; exact .inconsistent t hsub
        | some k =>
          simp only [hcheck, hcount] at h
          cases h
          exact .counted t k hsub (by rw [hcheck]; rfl) hcount
  | header writes =>
    cases writes with
    | nil => cases h; exact .headerDone
    | cons w writes => cases h; exact .headerWrite w writes
  | select k =>
    cases incomplete with
    | false => cases h; exact .selected k [] (by simp)
    | true =>
      simp only [Pc.next, if_true] at h
      cases hwanted : resumeBatches job.planned f.results with
      | none => rw [hwanted] at h; cases h; exact .unreadable k
      | some wanted =>
        rw [hwanted] at h
        cases h
        exact .selected k wanted fun b => by simp [mem_resumeBatches hwanted b]
  | batch l =>
    unfold Pc.next at h
    cases hrest : l.rest with
    | nil => simp only [hrest] at h; cases h; exact .completed l hrest
    | cons b rest =>
      simp only [hrest] at h
      obtain ⟨rfl, rfl⟩ := Prod.mk.inj (Option.some.inj h)
      cases hs : f.stopped with
      | true => exact .stoppedBefore l hs
      | false =>
        rw [if_neg Bool.false_ne_true]
        by_cases hskip : Loop.skips { l with rest := rest } b = true
        · rw [if_pos hskip]
          simp only [Loop.skips, Bool.and_eq_true, decide_eq_true_eq] at hskip
          exact .skipped l b rest hrest hskip.1 hskip.2
        · rw [if_neg hskip]
          simp only [Loop.skips, Bool.and_eq_true, decide_eq_true_eq] at hskip
          refine .chosen l b rest hrest ?_ hs
          by_cases hlt : b < l.submitted
          · exact .inr (by_contra fun hw => hskip ⟨hlt, hw⟩)
          · exact .inl (by omega)
  | attempt l b =>
    obtain ⟨rfl, rfl⟩ := Prod.mk.inj (Option.some.inj h)
    cases hs : f.stopped with
    | false => exact .called l b hs
    | true => exact .stoppedWaiting l b hs
  | exiting rc => cases h; exact .exited rc
  | calling | record | exited => cases h

/-- The inversion of a move. -/
theorem Pc.moves_of_step {job : Job} {incomplete : Bool} {f f' : JobFiles} {pc pc' : Pc} {m : Move}
    (h : pc.step job incomplete f m = some (f', pc')) : Moves job incomplete f pc m f' pc' := by
  cases m with
  | next => exact Pc.moves_of_next h
  | reply rc out =>
    cases pc with
    | calling l b =>
      simp only [Pc.step] at h
      cases hreply : parseReply rc out with
      | accepted id => rw [hreply] at h; cases h; exact .accepted l b rc out id hreply
      | wait => rw [hreply] at h; cases h; exact .waits l b rc out hreply
      | failed => rw [hreply] at h; cases h; exact .failed l b rc out hreply
    | _ => cases h
  | append epoch =>
    cases pc with
    | record l b id => cases h; exact .recorded l b epoch id
    | _ => cases h
  | abort =>
    cases pc with
    | lock => cases h; exact .unlocked
    | exiting | exited => cases h
    | _ => cases h; exact .trapped _ rfl

end Submission
end Slurmy
