import Mathlib.Logic.Function.Basic
import Slurmy.Lib.Machine
import Slurmy.Submission.JobNames

/-!
# Controllers that name their jobs

The controllers of all jobs of an account, up to `submission.csv`. Each of them can be killed after every command,
and started again: by `submit.sh`, or by `remote_resume.sh`, which knows only what `submission_context.sh` has kept.

* `Phase`, `Controller`, `State`, `Event`, `State.step`: the machine;
* `Fresh`, `assigned`, `Unique`: the names of the other jobs, and what is asked of an automatic name;
* `Proper`: the steps that are allowed to a run;
* `PhaseOk`, `Consistent`: what a controller knows about the names while it holds the lock;
* `unique_of_step`, `kept_of_step`: what one step does;
* `automaticNames`: the names of whole runs.
-/

namespace Slurmy
namespace Naming

open JobNames

/-! ### The machine -/

/-- The arguments `$5` and `$8`. -/
structure Request where
  name : Text
  auto : Bool
  deriving DecidableEq

/-- Where a controller is. -/
inductive Phase
  | start
  /-- `tar` is writing `metadata.json` -/
  | extracting
  | context
  /-- at `flock 8` -/
  | waiting
  | locked
  /-- the folders that are still to be read, and the names that were found -/
  | scanning (fields : List (Text × Json)) (todo existing : List Text)
  | writing (fields : List (Text × Json)) (name : Text)
  | named
  | recorded

/-- A controller, and whether its job was submitted without a name of its own. -/
structure Controller where
  request : Request
  automatic : Bool
  phase : Phase

/-- The folders of jobs, their files, the controllers, and who has `.job-names.lock`. Links, and folders with a
leading dot, are no jobs. What is kept of a request is its name; whether it was automatic is not in the file. -/
structure State where
  folders : List Text
  launcher : Text → Bool
  inputsReady : Text → Bool
  packed : Text → Option Json
  metadata : Text → Option Json
  saved : Text → Option Request
  submission : Text → Bool
  controllers : Text → Option Controller
  lock : Option Text

inductive Event
  /-- `remote_finish_upload.sh` -/
  | publish (d : Text) (metadata : Option Json)
  | start (d : Text) (request : Request)
  | resume (d : Text)
  /-- the next command of a controller -/
  | next (d : Text)
  /-- a controller reads the metadata of another folder -/
  | look (d other : Text)
  | kill (d : Text)

namespace State

def setController (s : State) (d : Text) (c : Controller) : State :=
  { s with controllers := Function.update s.controllers d (some c) }

/-- The controller ends, and releases its lock. -/
def stop (s : State) (d : Text) : State :=
  { s with controllers := Function.update s.controllers d none, lock := if s.lock = some d then none else s.lock }

@[simp] theorem setController_self (s : State) (d : Text) (c : Controller) : (s.setController d c).controllers d = some c := by
  simp [setController]

@[simp] theorem stop_self (s : State) (d : Text) : (s.stop d).controllers d = none := by
  simp [stop]

/-- The Python script up to the choice of a name. -/
def decideName (s : State) (d : Text) (c : Controller) : State :=
  if ¬isValidName c.request.name then s.stop d
  else
    match s.metadata d with
    | some (.object fields) =>
        if isNamed d fields then
          match keptName fields with
          | some n => s.setController d { c with phase := .writing fields n }
          | none => s.stop d
        else if c.request.auto then
          s.setController d { c with phase := .scanning fields (s.folders.filter (· ≠ d)) [] }
        else s.setController d { c with phase := .writing fields (Lines.strip c.request.name) }
    | _ => s.stop d

/-- The next command of a controller. -/
def command (s : State) (d : Text) (c : Controller) : Option State :=
  match c.phase with
  | .start =>
      if s.inputsReady d then some (s.setController d { c with phase := .context })
      else some ({ s with metadata := Function.update s.metadata d none }.setController d { c with phase := .extracting })
  | .extracting =>
      some ({ s with metadata := Function.update s.metadata d (s.packed d) }.setController d { c with phase := .context })
  | .context =>
      let saved := (s.saved d).getD ⟨c.request.name, c.automatic⟩
      some ({ s with saved := Function.update s.saved d (some saved) }.setController d
        { c with phase := if s.submission d then .recorded else .waiting })
  | .waiting =>
      if s.lock = none then some ({ s with lock := some d }.setController d { c with phase := .locked }) else none
  | .locked => some (s.decideName d c)
  | .scanning fields [] existing =>
      match unusedJobName (existing.length + 1) c.request.name existing with
      | some n => some (s.setController d { c with phase := .writing fields (Lines.strip n) })
      | none => some (s.stop d)
  | .scanning .. => none
  | .writing fields n =>
      some ({ s with
        metadata := Function.update s.metadata d (some (.object (withName d fields n)))
        lock := none }.setController d { c with phase := .named })
  | .named =>
      some ({ s with submission := Function.update s.submission d true }.setController d { c with phase := .recorded })
  | .recorded => some (s.stop d)

def step (s : State) : Event → Option State
  | .publish d metadata =>
      if d ∈ s.folders then none
      else
        some { s with
          folders := s.folders ++ [d]
          launcher := Function.update s.launcher d true
          inputsReady := Function.update s.inputsReady d true
          metadata := Function.update s.metadata d metadata
          saved := Function.update s.saved d none
          submission := Function.update s.submission d false }
  | .start d request =>
      if d ∈ s.folders ∧ s.launcher d ∧ (s.controllers d).isNone then
        some (s.setController d ⟨request, request.auto, .start⟩)
      else none
  | .resume d =>
      match s.saved d with
      | some saved =>
          if d ∈ s.folders ∧ s.launcher d ∧ (s.controllers d).isNone then
            some (s.setController d ⟨⟨saved.name, false⟩, saved.auto, .start⟩)
          else none
      | none => none
  | .next d => (s.controllers d).bind (s.command d)
  | .look d other =>
      match s.controllers d with
      | some ⟨request, automatic, .scanning fields todo existing⟩ =>
          if other ∈ todo then
            match currentName other (s.metadata other) with
            | none => some (s.stop d)
            | some n =>
                some (s.setController d ⟨request, automatic, .scanning fields (todo.erase other) (n.toList ++ existing)⟩)
          else none
      | _ => none
  | .kill d => if (s.controllers d).isSome then some (s.stop d) else none

end State

/-! ### What is asked -/

/-- No other job is called `n`. -/
def Fresh (s : State) (d n : Text) : Prop :=
  ∀ other ∈ s.folders, other ≠ d → currentName other (s.metadata other) ≠ some (some n)

instance (s : State) (d n : Text) : Decidable (Fresh s d n) :=
  inferInstanceAs (Decidable (∀ other ∈ s.folders, other ≠ d → currentName other (s.metadata other) ≠ some (some n)))

/-- The name that the step gives to a job that has none, where its request did not name it. -/
def assigned (s : State) : Event → List (Text × Text)
  | .next d =>
      match s.controllers d with
      | some ⟨_, true, .writing fields n⟩ => if isNamed d fields then [] else [(d, n)]
      | _ => []
  | _ => []

def Unique (s : State) (e : Event) : Prop := ∀ p ∈ assigned s e, p.2.length ≤ 100 ∧ Fresh s p.1 p.2

instance (s : State) (e : Event) : Decidable (Unique s e) :=
  inferInstanceAs (Decidable (∀ p ∈ assigned s e, p.2.length ≤ 100 ∧ Fresh s p.1 p.2))

/-- A controller is choosing a name, or has chosen one that is not written yet. -/
def Controller.choosing (d : Text) (c : Controller) : Bool :=
  match c.phase with
  | .scanning .. => true
  | .writing fields _ => c.request.auto && !isNamed d fields
  | _ => false

/-- The controller was started by `remote_resume.sh` for a job that has no name although it was submitted without
one, and is about to write the name of the workflow. -/
def Forgets (d : Text) (c : Controller) : Prop :=
  c.automatic = true ∧ c.request.auto = false ∧ ∃ fields n, c.phase = .writing fields n ∧ isNamed d fields = false

/-- The steps at which names stay apart: a resumed controller that has forgotten to choose may write its name only if
no other job has it; a job does not appear under a name that could be chosen just now; and there are numbers left. -/
def Proper (s : State) : Event → Prop
  | .next d => s.folders.length + 1 < 10 ^ 96 ∧
      ∀ c, s.controllers d = some c → Forgets d c → Fresh s d (Lines.strip c.request.name)
  | .publish d metadata => ∀ other c, s.controllers other = some c → c.choosing other = true →
      ∀ n, currentName d metadata = some (some n) → ¬IsCandidate (baseName c.request.name) n
  | _ => True

/-! ### Under the lock -/

/-- The names of the folders that have been read are known, or are none that could be chosen. -/
structure Scanning (s : State) (d : Text) (request : Request) (fields : List (Text × Json)) (todo existing : List Text) :
    Prop where
  lock : s.lock = some d
  valid : isValidName request.name = true
  auto : request.auto = true
  unnamed : isNamed d fields = false
  metadata : s.metadata d = some (.object fields)
  count : existing.length + todo.length ≤ s.folders.length
  found : ∀ other ∈ s.folders, other ≠ d → other ∈ todo ∨
    ∀ n, currentName other (s.metadata other) = some (some n) → n ∈ existing ∨ ¬IsCandidate (baseName request.name) n

/-- A name that is given to a job without one. -/
structure Given (s : State) (d : Text) (request : Request) (n : Text) : Prop where
  ne_nil : n ≠ []
  strip : Lines.strip n = n
  length_le : n.length ≤ 100
  chosen : request.auto = true → IsCandidate (baseName request.name) n ∧ Fresh s d n
  asked : request.auto = false → n = Lines.strip request.name

/-- The name of the job is kept, or is given. -/
structure Writing (s : State) (d : Text) (request : Request) (fields : List (Text × Json)) (n : Text) : Prop where
  lock : s.lock = some d
  metadata : s.metadata d = some (.object fields)
  kept : isNamed d fields = true → keptName fields = some n
  given : isNamed d fields = false → Given s d request n

def PhaseOk (s : State) (d : Text) (c : Controller) : Prop :=
  match c.phase with
  | .extracting => False
  | .locked => s.lock = some d
  | .scanning fields todo existing => Scanning s d c.request fields todo existing
  | .writing fields n => Writing s d c.request fields n
  | _ => True

structure Consistent (s : State) : Prop where
  ready : ∀ d, s.launcher d = true → s.inputsReady d = true
  known : ∀ d c, s.controllers d = some c → d ∈ s.folders ∧ s.launcher d = true ∧ PhaseOk s d c

section Frames

variable {s t : State} {d : Text} {c : Controller}

theorem PhaseOk.frame (h : PhaseOk s d c) (hlock : t.lock = s.lock) (hfolders : t.folders = s.folders)
    (hmetadata : t.metadata = s.metadata) : PhaseOk t d c := by
  obtain ⟨request, automatic, phase⟩ := c
  cases phase with
  | locked => exact hlock.trans h
  | scanning fields todo existing =>
    obtain ⟨hheld, hvalid, hauto, hunnamed, hown, hcount, hfound⟩ := h
    exact ⟨hlock.trans hheld, hvalid, hauto, hunnamed, hmetadata ▸ hown, hfolders ▸ hcount, hfolders ▸ hmetadata ▸ hfound⟩
  | writing fields n =>
    obtain ⟨hheld, hown, hkept, hgiven⟩ := h
    refine ⟨hlock.trans hheld, hmetadata ▸ hown, hkept, fun hunnamed => ?_⟩
    obtain ⟨hne, hstrip, hlen, hchosen, hasked⟩ := hgiven hunnamed
    refine ⟨hne, hstrip, hlen, fun hauto => ⟨(hchosen hauto).1, ?_⟩, hasked⟩
    have hfresh := (hchosen hauto).2
    unfold Fresh at hfresh ⊢
    rw [hfolders, hmetadata]
    exact hfresh
  | start | extracting | context | waiting | named | recorded => exact h

/-- Without the lock a controller knows nothing that could change. -/
theorem PhaseOk.unlocked (h : PhaseOk s d c) (hlock : s.lock ≠ some d) (t : State) : PhaseOk t d c := by
  obtain ⟨request, automatic, phase⟩ := c
  cases phase with
  | locked => exact absurd h hlock
  | scanning fields todo existing => exact absurd h.lock hlock
  | writing fields n => exact absurd h.lock hlock
  | start | extracting | context | waiting | named | recorded => exact h

/-- A step of one controller. -/
theorem Consistent.update (hs : Consistent s) (hfolders : t.folders = s.folders) (hlauncher : t.launcher = s.launcher)
    (hready : t.inputsReady = s.inputsReady)
    (hothers : ∀ other ≠ d, t.controllers other = s.controllers other ∧
      ∀ c, PhaseOk s other c → PhaseOk t other c)
    (hd : ∀ c, t.controllers d = some c → d ∈ s.folders ∧ s.launcher d = true ∧ PhaseOk t d c) : Consistent t where
  ready := hlauncher ▸ hready ▸ hs.ready
  known other c hc := by
    rw [hfolders, hlauncher]
    by_cases hother : other = d
    · exact hother ▸ hd c (hother ▸ hc)
    · obtain ⟨hsame, hok⟩ := hothers other hother
      obtain ⟨hmem, hlaunch, hphase⟩ := hs.known other c (hsame ▸ hc)
      exact ⟨hmem, hlaunch, hok c hphase⟩

/-- The controller goes on; the names and the lock stay as they are. -/
theorem Consistent.setController (hs : Consistent s) (hfolders : t.folders = s.folders) (hlauncher : t.launcher = s.launcher)
    (hready : t.inputsReady = s.inputsReady) (hlock : t.lock = s.lock) (hmetadata : t.metadata = s.metadata)
    (hcontrollers : t.controllers = Function.update s.controllers d (some c))
    (hd : d ∈ s.folders ∧ s.launcher d = true ∧ PhaseOk s d c) : Consistent t := by
  refine hs.update (d := d) hfolders hlauncher hready (fun other hother => ⟨?_, fun c hc => hc.frame hlock hfolders hmetadata⟩)
    fun c' hc' => ?_
  · rw [hcontrollers, Function.update_of_ne hother]
  · rw [hcontrollers, Function.update_self, Option.some.injEq] at hc'
    exact ⟨hd.1, hd.2.1, hc' ▸ hd.2.2.frame hlock hfolders hmetadata⟩

theorem Consistent.stop (hs : Consistent s) (d : Text) : Consistent (s.stop d) := by
  refine hs.update (d := d) rfl rfl rfl (fun other hother => ⟨Function.update_of_ne hother _ _, fun c hc => ?_⟩)
    fun c hc => ?_
  · by_cases hlock : s.lock = some other
    · have hne : s.lock ≠ some d := fun h => hother (Option.some.inj (hlock.symm.trans h))
      exact hc.frame (if_neg hne) rfl rfl
    · exact hc.unlocked hlock _
  · rw [State.stop_self] at hc
    cases hc

end Frames

/-! ### Choosing a name -/

section Choosing

variable {s : State} {d : Text} {request : Request} {fields : List (Text × Json)} {todo existing : List Text}

theorem strip_of_valid {name : Text} (h : isValidName name = true) : Lines.strip name ≠ [] ∧ name.length ≤ 100 := by
  simp only [isValidName, Bool.and_eq_true, decide_eq_true_eq] at h
  exact h.1

/-- Nothing has been read. -/
theorem scanning_start (hlock : s.lock = some d) (hvalid : isValidName request.name = true) (hauto : request.auto = true)
    (hunnamed : isNamed d fields = false) (hmetadata : s.metadata d = some (.object fields)) :
    Scanning s d request fields (s.folders.filter (· ≠ d)) [] where
  lock := hlock
  valid := hvalid
  auto := hauto
  unnamed := hunnamed
  metadata := hmetadata
  count := by
    rw [List.length_nil, Nat.zero_add]
    exact List.length_filter_le _ _
  found other hother hne := Or.inl (List.mem_filter.2 ⟨hother, decide_eq_true hne⟩)

/-- Another folder is read. -/
theorem Scanning.look (h : Scanning s d request fields todo existing) {other : Text} (hother : other ∈ todo)
    {n : Option Text} (hn : currentName other (s.metadata other) = some n) :
    Scanning s d request fields (todo.erase other) (n.toList ++ existing) where
  lock := h.lock
  valid := h.valid
  auto := h.auto
  unnamed := h.unnamed
  metadata := h.metadata
  count := by
    have hcount := h.count
    have hpos := List.length_pos_of_mem hother
    have hone : n.toList.length ≤ 1 := by cases n <;> simp
    rw [List.length_append, List.length_erase_of_mem hother]
    omega
  found folder hfolder hne := by
    rcases h.found folder hfolder hne with htodo | hknown
    · by_cases heq : folder = other
      · subst heq
        refine Or.inr fun m hm => Or.inl ?_
        rw [hn, Option.some.injEq] at hm
        rw [hm]
        exact List.mem_cons_self
      · exact Or.inl ((List.mem_erase_of_ne heq).2 htodo)
    · exact Or.inr fun m hm => (hknown m hm).imp_left (List.mem_append_right _)

/-- All folders have been read. -/
theorem Scanning.given (h : Scanning s d request fields [] existing) (hcount : s.folders.length + 1 < 10 ^ 96) {n : Text}
    (hn : unusedJobName (existing.length + 1) request.name existing = some n) : Given s d request (Lines.strip n) := by
  obtain ⟨hne, hlen⟩ := strip_of_valid h.valid
  have hbase := baseName_of_le hlen
  have hbound : existing.length + 1 < 10 ^ 96 := by
    have hexisting := h.count
    rw [List.length_nil] at hexisting
    omega
  obtain ⟨m, hfound, hfree, hm⟩ := unusedJobName_spec (hbase ▸ hne) existing
  obtain rfl : m = n := Option.some.inj ((hfound _ (Nat.lt_succ_self _)).symm.trans hn)
  have hcandidate : IsCandidate (baseName request.name) m := hm.imp id fun ⟨number, _, heq⟩ => ⟨number, heq⟩
  have hstrip : Lines.strip m = m := by
    rcases hm with rfl | ⟨number, hnumber, rfl⟩
    · rw [hbase, Lines.strip_strip]
    · rw [hbase]
      exact strip_candidate hne (Lines.head_strip _) (hnumber.trans_lt hbound)
  have hlength : m.length ≤ 100 := by
    rcases hm with rfl | ⟨number, hnumber, rfl⟩
    · exact length_baseName_le _
    · exact length_candidate_le _ (hnumber.trans_lt (hbound.trans (by decide)))
  rw [hstrip]
  refine ⟨?_, hstrip, hlength, fun _ => ⟨hcandidate, fun other hother hne hsame => ?_⟩, fun hauto => ?_⟩
  · rcases hm with rfl | ⟨number, -, rfl⟩
    · exact hbase ▸ hne
    · exact List.append_ne_nil_of_right_ne_nil _ (List.cons_ne_nil _ _)
  · rcases h.found other hother hne with htodo | hknown
    · cases htodo
    · rcases hknown m hsame with hmem | hnot
      · exact hfree hmem
      · exact hnot hcandidate
  · rw [h.auto] at hauto
    cases hauto

/-- A name that was asked for. -/
theorem given_asked (s : State) (d : Text) (hvalid : isValidName request.name = true) (hauto : request.auto = false) :
    Given s d request (Lines.strip request.name) where
  ne_nil := (strip_of_valid hvalid).1
  strip := Lines.strip_strip _
  length_le := (Lines.length_strip_le _).trans (strip_of_valid hvalid).2
  chosen h := by
    rw [hauto] at h
    cases h
  asked _ := rfl

end Choosing

/-! ### Steps -/

/-- A job has been given the name `n`. -/
structure Kept (s : State) (d n : Text) : Prop where
  folder : d ∈ s.folders
  ne_nil : n ≠ []
  strip : Lines.strip n = n
  metadata : ∃ fields, s.metadata d = some (.object fields) ∧ isNamed d fields = true ∧
    Dict.get fields "job_name".toList = some (.string n)

section Steps

variable {s t : State} {d : Text} {c : Controller}

theorem consistent_decideName (hs : Consistent s) (hc : s.controllers d = some c) (hlock : s.lock = some d) :
    Consistent (s.decideName d c) := by
  obtain ⟨hfolder, hlauncher, -⟩ := hs.known d c hc
  have hgo : ∀ phase, PhaseOk s d { c with phase := phase } →
      Consistent (s.setController d { c with phase := phase }) := fun phase hphase =>
    hs.setController rfl rfl rfl rfl rfl rfl ⟨hfolder, hlauncher, hphase⟩
  unfold State.decideName
  by_cases hvalid : isValidName c.request.name = true
  swap
  · rw [if_pos hvalid]
    exact hs.stop d
  rw [if_neg (not_not_intro hvalid)]
  cases hmetadata : s.metadata d with
  | none => exact hs.stop d
  | some value =>
    cases value with
    | object fields =>
      dsimp only
      by_cases hnamed : isNamed d fields = true
      · rw [if_pos hnamed]
        cases hkept : keptName fields with
        | none => exact hs.stop d
        | some n =>
          refine hgo _ ⟨hlock, hmetadata, fun _ => hkept, fun hunnamed => ?_⟩
          rw [hnamed] at hunnamed
          cases hunnamed
      rw [if_neg hnamed]
      by_cases hauto : c.request.auto = true
      · rw [if_pos hauto]
        exact hgo _ (scanning_start hlock hvalid hauto (Bool.eq_false_iff.2 hnamed) hmetadata)
      · rw [if_neg hauto]
        exact hgo _ ⟨hlock, hmetadata, fun h => absurd h hnamed, fun _ =>
          given_asked s d hvalid (Bool.eq_false_iff.2 hauto)⟩
    | null | bool | number | string | array => exact hs.stop d

theorem consistent_command (hs : Consistent s) (hc : s.controllers d = some c) (hcount : s.folders.length + 1 < 10 ^ 96)
    (h : s.command d c = some t) : Consistent t := by
  obtain ⟨hfolder, hlauncher, hphase⟩ := hs.known d c hc
  obtain ⟨request, automatic, phase⟩ := c
  unfold State.command at h
  dsimp only at h
  cases phase with
  | start =>
    dsimp only at h
    rw [if_pos (hs.ready d hlauncher), Option.some.injEq] at h
    subst h
    exact hs.setController rfl rfl rfl rfl rfl rfl ⟨hfolder, hlauncher, trivial⟩
  | extracting => exact hphase.elim
  | context =>
    cases h
    refine hs.setController rfl rfl rfl rfl rfl rfl ⟨hfolder, hlauncher, ?_⟩
    cases s.submission d <;> trivial
  | waiting =>
    dsimp only at h
    by_cases hfree : s.lock = none
    · rw [if_pos hfree, Option.some.injEq] at h
      subst h
      refine hs.update (d := d) rfl rfl rfl (fun other hother => ⟨Function.update_of_ne hother _ _, fun c hc => ?_⟩)
        fun c hc => ?_
      · exact hc.unlocked (hfree ▸ (Option.some_ne_none other).symm) _
      · rw [State.setController_self, Option.some.injEq] at hc
        subst hc
        exact ⟨hfolder, hlauncher, rfl⟩
    · rw [if_neg hfree] at h
      cases h
  | locked =>
    cases h
    exact consistent_decideName hs hc hphase
  | scanning fields todo existing =>
    cases todo with
    | nil =>
      dsimp only at h
      cases hn : unusedJobName (existing.length + 1) request.name existing with
      | none =>
        rw [hn] at h
        cases h
        exact hs.stop d
      | some n =>
        rw [hn] at h
        cases h
        have hscan : Scanning s d request fields [] existing := hphase
        refine hs.setController rfl rfl rfl rfl rfl rfl ⟨hfolder, hlauncher, ?_⟩
        refine ⟨hscan.lock, hscan.metadata, fun hnamed => ?_, fun _ => hscan.given hcount hn⟩
        rw [hscan.unnamed] at hnamed
        cases hnamed
    | cons other todo => cases h
  | writing fields n =>
    cases h
    have hwriting : Writing s d request fields n := hphase
    refine hs.update (d := d) rfl rfl rfl (fun other hother => ⟨Function.update_of_ne hother _ _, fun c hc => ?_⟩)
      fun c hc => ?_
    · exact hc.unlocked (fun h => hother (Option.some.inj (h.symm.trans hwriting.lock))) _
    · rw [State.setController_self, Option.some.injEq] at hc
      subst hc
      exact ⟨hfolder, hlauncher, trivial⟩
  | named =>
    cases h
    exact hs.setController rfl rfl rfl rfl rfl rfl ⟨hfolder, hlauncher, trivial⟩
  | recorded =>
    cases h
    exact hs.stop d

/-- A folder appears. -/
theorem PhaseOk.publish {other : Text} (h : PhaseOk s other c) (hne : other ≠ d) {metadata : Option Json}
    (hlock : t.lock = s.lock) (hfolders : t.folders = s.folders ++ [d]) (hd : d ∉ s.folders)
    (hmetadata : t.metadata = Function.update s.metadata d metadata)
    (hproper : c.choosing other = true → ∀ n, currentName d metadata = some (some n) →
      ¬IsCandidate (baseName c.request.name) n) : PhaseOk t other c := by
  have hold : ∀ folder ∈ s.folders, t.metadata folder = s.metadata folder := by
    intro folder hfolder
    have hfolderne : folder ≠ d := fun heq => hd (heq ▸ hfolder)
    rw [hmetadata, Function.update_of_ne hfolderne]
  have hnew : t.metadata d = metadata := by rw [hmetadata, Function.update_self]
  have hown : t.metadata other = s.metadata other := by rw [hmetadata, Function.update_of_ne hne]
  obtain ⟨request, automatic, phase⟩ := c
  cases phase with
  | locked => exact hlock.trans h
  | scanning fields todo existing =>
    have hscan : Scanning s other request fields todo existing := h
    refine ⟨hlock.trans hscan.lock, hscan.valid, hscan.auto, hscan.unnamed, hown.trans hscan.metadata, ?_,
      fun folder hfolder hfolderne => ?_⟩
    · have hcount := hscan.count
      rw [hfolders, List.length_append]
      omega
    · rw [hfolders, List.mem_append, List.mem_singleton] at hfolder
      rcases hfolder with hfolder | rfl
      · rw [hold folder hfolder]
        exact hscan.found folder hfolder hfolderne
      · rw [hnew]
        exact Or.inr fun n hn => Or.inr (hproper rfl n hn)
  | writing fields n =>
    have hwriting : Writing s other request fields n := h
    refine ⟨hlock.trans hwriting.lock, hown.trans hwriting.metadata, hwriting.kept, fun hunnamed => ?_⟩
    obtain ⟨hnil, hstrip, hlen, hchosen, hasked⟩ := hwriting.given hunnamed
    refine ⟨hnil, hstrip, hlen, fun hauto => ⟨(hchosen hauto).1, fun folder hfolder hfolderne => ?_⟩, hasked⟩
    rw [hfolders, List.mem_append, List.mem_singleton] at hfolder
    rcases hfolder with hfolder | rfl
    · rw [hold folder hfolder]
      exact (hchosen hauto).2 folder hfolder hfolderne
    · rw [hnew]
      have hchoosing : (Controller.mk request automatic (.writing fields n)).choosing other = true := by
        simp [Controller.choosing, show request.auto = true from hauto, hunnamed]
      exact fun hn => hproper hchoosing n hn (hchosen hauto).1
  | start | extracting | context | waiting | named | recorded => exact h

theorem consistent_publish (hs : Consistent s) {metadata : Option Json}
    (hproper : ∀ other c, s.controllers other = some c → c.choosing other = true →
      ∀ n, currentName d metadata = some (some n) → ¬IsCandidate (baseName c.request.name) n)
    (h : s.step (.publish d metadata) = some t) : Consistent t := by
  unfold State.step at h
  dsimp only at h
  by_cases hd : d ∈ s.folders
  · rw [if_pos hd] at h
    cases h
  rw [if_neg hd, Option.some.injEq] at h
  subst h
  constructor
  · intro other hlauncher
    by_cases heq : other = d
    · rw [heq]
      exact Function.update_self d true s.inputsReady
    · have hsame : s.launcher other = true := (Function.update_of_ne heq true s.launcher).symm.trans hlauncher
      exact (Function.update_of_ne heq true s.inputsReady).trans (hs.ready other hsame)
  · intro other c hc
    obtain ⟨hfolder, hlauncher, hphase⟩ := hs.known other c hc
    have hne : other ≠ d := fun heq => hd (heq ▸ hfolder)
    exact ⟨List.mem_append_left _ hfolder, (Function.update_of_ne hne true s.launcher).trans hlauncher,
      hphase.publish hne rfl rfl hd rfl (hproper other c hc)⟩

theorem consistent_of_step {e : Event} (hs : Consistent s) (hproper : Proper s e) (h : s.step e = some t) :
    Consistent t := by
  cases e with
  | publish d metadata => exact consistent_publish hs hproper h
  | start d request =>
    unfold State.step at h
    dsimp only at h
    by_cases hfree : d ∈ s.folders ∧ s.launcher d = true ∧ (s.controllers d).isNone = true
    · rw [if_pos hfree, Option.some.injEq] at h
      subst h
      exact hs.setController rfl rfl rfl rfl rfl rfl ⟨hfree.1, hfree.2.1, trivial⟩
    · rw [if_neg hfree] at h
      cases h
  | resume d =>
    unfold State.step at h
    dsimp only at h
    cases hsaved : s.saved d with
    | none =>
      rw [hsaved] at h
      cases h
    | some saved =>
      rw [hsaved] at h
      dsimp only at h
      by_cases hfree : d ∈ s.folders ∧ s.launcher d = true ∧ (s.controllers d).isNone = true
      · rw [if_pos hfree, Option.some.injEq] at h
        subst h
        exact hs.setController rfl rfl rfl rfl rfl rfl ⟨hfree.1, hfree.2.1, trivial⟩
      · rw [if_neg hfree] at h
        cases h
  | next d =>
    obtain ⟨c, hc, hcommand⟩ := Option.bind_eq_some_iff.1 h
    exact consistent_command hs hc hproper.1 hcommand
  | look d other =>
    unfold State.step at h
    dsimp only at h
    split at h
    · next request automatic fields todo existing hc =>
      obtain ⟨hfolder, hlauncher, hphase⟩ := hs.known d _ hc
      by_cases hother : other ∈ todo
      · rw [if_pos hother] at h
        cases hn : currentName other (s.metadata other) with
        | none =>
          rw [hn] at h
          cases h
          exact hs.stop d
        | some n =>
          rw [hn] at h
          cases h
          have hscan : Scanning s d request fields todo existing := hphase
          exact hs.setController rfl rfl rfl rfl rfl rfl ⟨hfolder, hlauncher, hscan.look hother hn⟩
      · rw [if_neg hother] at h
        cases h
    · cases h
  | kill d =>
    unfold State.step at h
    dsimp only at h
    by_cases hsome : (s.controllers d).isSome = true
    · rw [if_pos hsome, Option.some.injEq] at h
      exact h ▸ hs.stop d
    · rw [if_neg hsome] at h
      cases h

/-! ### What one step does -/

theorem decideName_same (s : State) (d : Text) (c : Controller) :
    (s.decideName d c).folders = s.folders ∧ (s.decideName d c).metadata = s.metadata := by
  unfold State.decideName
  repeat' split
  all_goals exact ⟨rfl, rfl⟩

/-- Metadata are only written under the lock. -/
theorem metadata_of_command (hs : Consistent s) (hc : s.controllers d = some c) (h : s.command d c = some t) :
    t.folders = s.folders ∧ (t.metadata = s.metadata ∨ ∃ fields n, c.phase = .writing fields n ∧
      t.metadata = Function.update s.metadata d (some (.object (withName d fields n)))) := by
  obtain ⟨hfolder, hlauncher, hphase⟩ := hs.known d c hc
  obtain ⟨request, automatic, phase⟩ := c
  unfold State.command at h
  dsimp only at h
  cases phase with
  | start =>
    dsimp only at h
    rw [if_pos (hs.ready d hlauncher), Option.some.injEq] at h
    exact h ▸ ⟨rfl, Or.inl rfl⟩
  | extracting => exact hphase.elim
  | locked =>
    cases h
    obtain ⟨hfolders, hmetadata⟩ := decideName_same s d ⟨request, automatic, .locked⟩
    exact ⟨hfolders, Or.inl hmetadata⟩
  | waiting =>
    dsimp only at h
    split at h
    all_goals cases h
    exact ⟨rfl, Or.inl rfl⟩
  | scanning fields todo existing =>
    cases todo with
    | nil =>
      dsimp only at h
      split at h
      all_goals
        cases h
        exact ⟨rfl, Or.inl rfl⟩
    | cons other todo => cases h
  | writing fields n =>
    cases h
    exact ⟨rfl, Or.inr ⟨fields, n, rfl, rfl⟩⟩
  | context | named | recorded =>
    cases h
    exact ⟨rfl, Or.inl rfl⟩

theorem metadata_of_step {e : Event} (hs : Consistent s) (h : s.step e = some t) (hd : d ∈ s.folders) :
    d ∈ t.folders ∧ (t.metadata d = s.metadata d ∨ ∃ c fields n, s.controllers d = some c ∧
      c.phase = .writing fields n ∧ t.metadata d = some (.object (withName d fields n))) := by
  cases e with
  | publish d' metadata =>
    unfold State.step at h
    dsimp only at h
    by_cases hd' : d' ∈ s.folders
    · rw [if_pos hd'] at h
      cases h
    · rw [if_neg hd', Option.some.injEq] at h
      subst h
      have hne : d ≠ d' := fun heq => hd' (heq ▸ hd)
      exact ⟨List.mem_append_left _ hd, Or.inl (Function.update_of_ne hne metadata s.metadata)⟩
  | next d' =>
    obtain ⟨c, hc, hcommand⟩ := Option.bind_eq_some_iff.1 h
    obtain ⟨hfolders, hsame | ⟨fields, n, hphase, hwritten⟩⟩ := metadata_of_command hs hc hcommand
    · exact ⟨hfolders ▸ hd, Or.inl (by rw [hsame])⟩
    · refine ⟨hfolders ▸ hd, ?_⟩
      by_cases heq : d = d'
      · subst heq
        exact Or.inr ⟨c, fields, n, hc, hphase, by rw [hwritten, Function.update_self]⟩
      · exact Or.inl (by rw [hwritten, Function.update_of_ne heq])
  | start | resume | look | kill =>
    unfold State.step at h
    dsimp only at h
    repeat' split at h
    all_goals
      cases h
      try exact ⟨hd, Or.inl rfl⟩

theorem unique_of_step {e : Event} (hs : Consistent s) (hproper : Proper s e) : Unique s e := by
  rintro ⟨d, n⟩ hp
  cases e with
  | next d' =>
    unfold assigned at hp
    dsimp only at hp
    split at hp
    · next request fields n' hc =>
      by_cases hnamed : isNamed d' fields = true
      · rw [if_pos hnamed] at hp
        cases hp
      rw [if_neg hnamed, List.mem_singleton, Prod.mk.injEq] at hp
      obtain ⟨rfl, rfl⟩ := hp
      have hunnamed := Bool.eq_false_iff.2 hnamed
      have hwriting : Writing s d request fields n := (hs.known d _ hc).2.2
      have hgiven := hwriting.given hunnamed
      refine ⟨hgiven.length_le, ?_⟩
      by_cases hauto : request.auto = true
      · exact (hgiven.chosen hauto).2
      · have hforgets : Forgets d ⟨request, true, .writing fields n⟩ :=
          ⟨rfl, Bool.eq_false_iff.2 hauto, fields, n, rfl, hunnamed⟩
        have hfresh := hproper.2 _ hc hforgets
        rwa [← hgiven.asked (Bool.eq_false_iff.2 hauto)] at hfresh
    · cases hp
  | publish | start | resume | look | kill => cases hp

/-- A name is there after it has been written. -/
theorem kept_withName {n : Text} {fields : List (Text × Json)} (hfolder : d ∈ s.folders) (hne : n ≠ [])
    (hstrip : Lines.strip n = n) (hmetadata : s.metadata d = some (.object (withName d fields n))) : Kept s d n :=
  ⟨hfolder, hne, hstrip, _, hmetadata, isNamed_withName d fields n hne, get_withName d fields n⟩

theorem kept_of_assigned {e : Event} (hs : Consistent s) (h : s.step e = some t) {n : Text} (hp : (d, n) ∈ assigned s e) :
    Kept t d n := by
  cases e with
  | next d' =>
    unfold assigned at hp
    dsimp only at hp
    split at hp
    · next request fields n' hc =>
      by_cases hnamed : isNamed d' fields = true
      · rw [if_pos hnamed] at hp
        cases hp
      rw [if_neg hnamed, List.mem_singleton, Prod.mk.injEq] at hp
      obtain ⟨rfl, rfl⟩ := hp
      obtain ⟨hfolder, -, hphase⟩ := hs.known d _ hc
      have hgiven := hphase.given (Bool.eq_false_iff.2 hnamed)
      have hcommand : s.command d ⟨request, true, .writing fields n⟩ = some t := by
        rw [← h, State.step, hc]
        rfl
      cases hcommand
      exact kept_withName hfolder hgiven.ne_nil hgiven.strip (Function.update_self d _ s.metadata)
    · cases hp
  | publish | start | resume | look | kill => cases hp

/-- A name stays. -/
theorem kept_of_step {e : Event} (hs : Consistent s) (h : s.step e = some t) {n : Text} (hkept : Kept s d n) :
    Kept t d n := by
  obtain ⟨hfolder, hne, hstrip, fields, hmetadata, hnamed, hname⟩ := hkept
  obtain ⟨hfolder', hsame | ⟨c, fields', n', hc, hphase, hwritten⟩⟩ := metadata_of_step hs h hfolder
  · exact ⟨hfolder', hne, hstrip, fields, hsame.trans hmetadata, hnamed, hname⟩
  · have hok := (hs.known d c hc).2.2
    rw [PhaseOk, hphase] at hok
    obtain rfl : fields' = fields := Json.object.inj (Option.some.inj (hok.metadata.symm.trans hmetadata))
    have hn := hok.kept hnamed
    rw [keptName, hname, Option.some.injEq, hstrip] at hn
    exact kept_withName hfolder' hne hstrip (hn ▸ hwritten)

theorem Kept.currentName {n : Text} (h : Kept s d n) : currentName d (s.metadata d) = some (some n) := by
  obtain ⟨fields, hmetadata, -, hname⟩ := h.metadata
  have hfilter : (some (Json.string n)).filter Json.truthy = some (.string n) := by simp [Json.truthy, h.ne_nil]
  simp only [JobNames.currentName, hmetadata, hname, hfilter]

end Steps

/-! ### Whole runs -/

/-- No controller runs, and every job with this script was published with its inputs. -/
structure Quiet (s : State) : Prop where
  controllers : ∀ d, s.controllers d = none
  ready : ∀ d, s.launcher d = true → s.inputsReady d = true

theorem Quiet.consistent {s : State} (h : Quiet s) : Consistent s where
  ready := h.ready
  known d c hc := by
    rw [h.controllers d] at hc
    cases hc

/-- Automatic names are short, differ from the names of all other jobs when they are given, and stay; and a name is
found whatever the other names are. -/
theorem automaticNames {s : State} {es : List Event} (hs : Quiet s) (hproper : Machine.Along State.step Proper s es) :
    Machine.Along State.step Unique s es ∧
    (∀ t, Machine.run State.step s es = some t → ∀ p ∈ Machine.trace State.step assigned s es,
      currentName p.1 (t.metadata p.1) = some (some p.2)) ∧
    ∀ workflowName existing, Lines.strip workflowName ≠ [] →
      ∃ n, (∀ fuel, existing.length < fuel → unusedJobName fuel workflowName existing = some n) ∧ n ∉ existing := by
  refine ⟨?_, fun t hrun p hp => ?_, fun workflowName existing hname => ?_⟩
  · exact Machine.along_of_invariant (fun s e t => consistent_of_step) (fun s e => unique_of_step) hs.consistent hproper
  · have hinvariant : Consistent t ∧ ∀ p ∈ [] ++ Machine.trace State.step assigned s es, Kept t p.1 p.2 := by
      refine Machine.trace_invariant_along (I := fun (w : List (Text × Text)) s => Consistent s ∧ ∀ p ∈ w, Kept s p.1 p.2)
        (fun w s e t hI hC hstep => ⟨consistent_of_step hI.1 hC hstep, fun p hp => ?_⟩)
        ⟨hs.consistent, fun p hp => absurd hp List.not_mem_nil⟩ hproper hrun
      rcases List.mem_append.1 hp with hp | hp
      · exact kept_of_step hI.1 hstep (hI.2 p hp)
      · exact kept_of_assigned hI.1 hstep hp
    exact (hinvariant.2 p hp).currentName
  · have hbase : baseName workflowName ≠ [] := by
      rw [baseName, Ne, List.take_eq_nil_iff, not_or]
      exact ⟨by decide, hname⟩
    obtain ⟨n, hfound, hfree, -⟩ := unusedJobName_spec hbase existing
    exact ⟨n, hfound, hfree⟩

/-- The folders `solvers_1_1`, whose job is called `solvers`, and `solvers_2_2`, which has just been published. -/
def twoJobs : State where
  folders := ["solvers_1_1".toList, "solvers_2_2".toList]
  launcher d := d ∈ ["solvers_1_1".toList, "solvers_2_2".toList]
  inputsReady d := d ∈ ["solvers_1_1".toList, "solvers_2_2".toList]
  packed _ := none
  metadata d :=
    if d = "solvers_1_1".toList then some (.object (withName d [] "solvers".toList))
    else some (.object [("workflow_directory".toList, .string "/workflows/solvers".toList)])
  saved _ := none
  submission _ := false
  controllers _ := none
  lock := none

theorem quiet_twoJobs : Quiet twoJobs := ⟨fun _ => rfl, fun _ h => h⟩

/-- A controller that is not killed names the second job. -/
def naming : List Event :=
  let d := "solvers_2_2".toList
  [.start d ⟨"solvers".toList, true⟩, .next d, .next d, .next d, .next d, .look d "solvers_1_1".toList, .next d, .next d]

/-- All controllers choose, and no folder appears. -/
def chooses (s : State) : Event → Bool
  | .next d => s.folders.length = 2 && (s.controllers d).all fun c => c.request.auto
  | .publish .. => false
  | _ => true

theorem proper_naming : Machine.Along State.step Proper twoJobs naming := by
  refine Machine.Along.mono (fun s e h => ?_)
    (by decide +kernel : Machine.Along State.step (fun s e => chooses s e = true) twoJobs naming)
  cases e with
  | next d =>
    simp only [chooses, Bool.and_eq_true, decide_eq_true_eq] at h
    refine ⟨by rw [h.1]; decide, fun c hc hforgets => ?_⟩
    rw [hc, Option.all_some, hforgets.2.1] at h
    exact absurd h.2 Bool.false_ne_true
  | publish => cases h
  | start | resume | look | kill => trivial

/-- The second job is called `solvers (1)`. -/
theorem automaticNames_twoJobs : Machine.trace State.step assigned twoJobs naming = [("solvers_2_2".toList, "solvers (1)".toList)] ∧
    Machine.Along State.step Unique twoJobs naming ∧
    (∀ t, Machine.run State.step twoJobs naming = some t → ∀ p ∈ Machine.trace State.step assigned twoJobs naming,
      currentName p.1 (t.metadata p.1) = some (some p.2)) ∧
    ∀ workflowName existing, Lines.strip workflowName ≠ [] →
      ∃ n, (∀ fuel, existing.length < fuel → unusedJobName fuel workflowName existing = some n) ∧ n ∉ existing :=
  ⟨by decide +kernel, automaticNames quiet_twoJobs proper_naming⟩

/-- The controller is killed before it has the lock, and the job is resumed. -/
def resuming : List Event :=
  let d := "solvers_2_2".toList
  [.start d ⟨"solvers".toList, true⟩, .next d, .next d, .kill d, .resume d, .next d, .next d, .next d, .next d, .next d]

/-- Both jobs are called `solvers`. -/
theorem resumed_twoJobs : (Machine.run State.step twoJobs resuming).isSome = true ∧
    Machine.trace State.step assigned twoJobs resuming = [("solvers_2_2".toList, "solvers".toList)] ∧
    ¬∀ s es, Quiet s → Machine.Along State.step Unique s es := by
  refine ⟨by decide +kernel, by decide +kernel, fun h => ?_⟩
  exact absurd (h twoJobs resuming quiet_twoJobs) (by decide +kernel)

end Naming
end Slurmy
