import Slurmy.Delete.Script
import Slurmy.Site.Idle

/-!
# Deletion among controllers

One run of `remote_delete.sh` on the site of the job.  The controllers and the script meet at
`.submit-controller.lock`, which lies in the directory that the script removes: a lock belongs to the
file that was opened, not to its name.

* `State`, `Event`, `State.step`: the site, the lock file and who has which file of that name open,
  and the run; `rm` unlinks the files of the job in any order;
* `cleared`: no request is undecided at the queue query, and after it no controller takes its lock
  but on the file that the run has locked;
* `removal_safe`: then there is no allocation from the query on, and nothing is accepted;
* `removal_unsafe`: `rm` has unlinked the stop marker and the lock file when the job is dispatched.

After `rm` has removed a file the commands that need it may still succeed here, which the scripts
could only do less.
-/

namespace Slurmy
namespace Delete
namespace Race

open Submission Site

/-! ### The machine -/

/-- The site, the file that is called `.submit-controller.lock`, the number of files that have had
this name, the one each process has open, the run with its file, `$locks/$1.deleting`, and whether
the queue query of the run has let it go on. -/
structure State where
  site : Site.State
  lockFile : Option ℕ
  inodes : ℕ
  opened : ℕ → Option ℕ
  delete : DeletePc
  deleteFile : Option ℕ
  deleting : Bool
  checked : Bool

/-- A file of the job that the scripts test. -/
inductive Entry
  | stopped
  | context
  | submission
  | lock
  deriving DecidableEq

inductive Event
  | site (e : Site.Event)
  /-- a controller opens its lock file -/
  | opens (i : ℕ)
  /-- the next command of `remote_delete.sh`, and whether it succeeds -/
  | delete (ok : Bool)
  /-- `rm` unlinks a file -/
  | unlink (f : Entry)

namespace State

/-- Somebody has a lock on the file. -/
def held (s : State) (n : ℕ) : Bool :=
  (s.delete.holdsSubmit && s.deleteFile = some n) ||
    (List.range s.site.procs.length).any fun i =>
      (s.site.procs[i]?).any Site.Proc.holdsSubmit && s.opened i = some n

/-- The file can be locked; one that does not exist yet is created. -/
def free (s : State) : Option ℕ → Bool
  | none => true
  | some n => !s.held n

def view (s : State) : View := { s.site.view with submitFree := s.free s.lockFile }

def deleteView (s : State) : DeleteView where
  valid := true
  present := true
  locksLinked := false
  lockLinked := false
  deleteFree := true
  directory := true
  marked := s.site.files.stopped || s.deleting
  submitFree := s.free s.deleteFile
  allocated := s.site.queue ≠ []

/-- A file is created where there is none of the name. -/
def touch (s : State) : State :=
  match s.lockFile with
  | some _ => s
  | none => { s with lockFile := some s.inodes, inodes := s.inodes + 1 }

end State

/-- The commands of the launchers that open the lock file. -/
def touches : LaunchPc → Bool
  | .recoverController | .resumeController | .dispatchState => true
  | _ => false

/-- The command of `remote_stop.sh` that does. -/
def stopTouches : StopPc → Bool
  | .lockTest _ => true
  | _ => false

namespace State

def touchIf (s : State) (b : Bool) : State := if b then s.touch else s

/-- The next command of a launcher or of `remote_stop.sh`. -/
def script (s : State) (i : ℕ) (ok : Bool) : Option State :=
  match s.site.procs[i]? with
  | some (.launcher kind pc) =>
      (pc.step s.view ok).map fun r =>
        { s.touchIf (ok && touches pc) with
          site := { s.site with
            files := r.1
            procs := s.site.procs.set i (.launcher kind r.2) ++
              Site.State.launched kind (pc.launches ok) } }
  | some (.stop pc) =>
      (pc.step s.view ok).map fun r =>
        { s.touchIf (ok && stopTouches pc) with
          site := { s.site with files := r.1 }.set i (.stop r.2) }
  | _ => none

/-- A controller's `flock -n 9`. -/
def takeLock (s : State) (i : ℕ) : Option State :=
  match s.site.procs[i]?, s.opened i with
  | some (.controller kind .lock _), some n =>
      if s.held n then none
      else some { s with site := s.site.set i (.controller kind .context .asked) }
  | _, _ => none

/-- What a command of `remote_delete.sh` does. -/
def effect (s : State) : DeletePc → State
  | .openSubmit => { s.touch with deleteFile := s.touch.lockFile }
  | .queue => { s with checked := s.site.queue = [] }
  | .mark => { s with deleting := true }
  | .unmark => { s with deleting := false }
  | _ => s

/-- `rm` ends with success when nothing is left. -/
def isEmpty (s : State) : Bool :=
  !s.site.files.stopped && s.site.files.context = .absent && s.site.files.submission = none &&
    s.lockFile = none

def unlinked (s : State) : Entry → State
  | .stopped => { s with site := { s.site with files := { s.site.files with stopped := false } } }
  | .context => { s with site := { s.site with files := { s.site.files with context := .absent } } }
  | .submission => { s with site := { s.site with files := { s.site.files with submission := none } } }
  | .lock => { s with lockFile := none }

def step (job : Job) (s : State) : Event → Option State
  | .site e =>
      if takesLock s.site e then
        match e with
        | .move i _ => s.takeLock i
        | _ => none
      else
        match e with
        | .script i ok => s.script i ok
        | e => (s.site.step job e).map fun t => { s with site := t }
  | .opens i =>
      match s.site.procs[i]?, s.opened i with
      | some (.controller _ .lock _), none =>
          some { s.touch with opened := Function.update s.opened i s.touch.lockFile }
      | _, _ => none
  | .delete false => some { s with delete := s.delete.failed }
  | .delete true =>
      if s.delete = .remove ∧ s.isEmpty = false then none
      else (s.delete.next s.deleteView).map fun pc => { s.effect s.delete with delete := pc }
  | .unlink f => if s.delete = .remove then some (s.unlinked f) else none

end State

/-- SLURM accepts a batch. -/
def Event.accepts : Event → Bool
  | .site e => e.accepts
  | _ => false

/-- A job without any process. -/
def State.fresh (f : JobFiles) : State :=
  ⟨.fresh f, none, 0, fun _ => none, .arguments, none, false, false⟩

/-! ### The condition -/

/-- The file of that name is the one on which `remote_delete.sh` has its lock. -/
def State.guarded (s : State) : Bool := s.delete.holdsSubmit && s.lockFile = s.deleteFile

/-- At an empty queue query of `remote_delete.sh` no request is undecided, and afterwards a
controller takes its lock at most while the name still belongs to the file that the run has
locked. -/
def cleared (s : State) : Event → Bool
  | .delete true => s.delete ≠ .queue || s.site.queue ≠ [] || s.site.pending = []
  | .site e => !s.checked || s.guarded || !takesLock s.site e
  | _ => true

/-! ### The invariant -/

/-- The run is between its queue query and its end. -/
def removing : DeletePc → Bool
  | .mark | .remove | .unmark | .report => true
  | _ => false

theorem holdsSubmit_of_removing {pc : DeletePc} (h : removing pc = true) :
    pc.holdsSubmit = true := by
  cases pc <;> first | rfl | cases h

structure Inv (s : State) : Prop where
  created : ∀ n, s.lockFile = some n ∨ s.deleteFile = some n → n < s.inodes
  deleteOpen : s.delete = .lockSubmit ∨ s.delete.holdsSubmit = true → s.deleteFile.isSome = true
  deleteFile : s.checked = false → ∀ n, s.deleteFile = some n → s.lockFile = some n
  opened : s.checked = false ∨ s.guarded = true →
    ∀ (i : ℕ) (n : ℕ), s.opened i = some n → s.lockFile = some n
  holders : ∀ (i : ℕ) (p : Site.Proc), s.site.procs[i]? = some p → p.holdsSubmit = true →
    (s.opened i).isSome = true
  excluded : s.checked = false → s.delete.holdsSubmit = true →
    ∀ p ∈ s.site.procs, p.holdsSubmit = false
  removes : removing s.delete = true → s.checked = true
  checked : s.checked = true → removing s.delete = true ∨ ∃ rc, s.delete = .exited rc
  idle : s.checked = true → Idle s.site

theorem inv_fresh (f : JobFiles) : Inv (.fresh f) := by
  constructor <;> simp [State.fresh, Site.State.fresh, DeletePc.holdsSubmit, removing]

section Steps

variable {job : Job} {s t : State}

/-! ### Files -/

theorem touch_lockFile (s : State) : ∃ n, s.touch.lockFile = some n ∧
    (s.lockFile = some n ∨ (s.lockFile = none ∧ n = s.inodes)) := by
  unfold State.touch
  split
  · next n hn => exact ⟨n, hn, .inl hn⟩
  · next hn => exact ⟨s.inodes, rfl, .inr ⟨hn, rfl⟩⟩

@[simp] theorem touch_site (s : State) : s.touch.site = s.site := by
  unfold State.touch; split <;> rfl

@[simp] theorem touch_opened (s : State) : s.touch.opened = s.opened := by
  unfold State.touch; split <;> rfl

@[simp] theorem touch_delete (s : State) : s.touch.delete = s.delete := by
  unfold State.touch; split <;> rfl

@[simp] theorem touch_deleteFile (s : State) : s.touch.deleteFile = s.deleteFile := by
  unfold State.touch; split <;> rfl

@[simp] theorem touch_checked (s : State) : s.touch.checked = s.checked := by
  unfold State.touch; split <;> rfl

theorem touch_of_some {n : ℕ} (h : s.lockFile = some n) : s.touch = s := by
  unfold State.touch
  rw [h]

theorem guarded_iff : s.guarded = true ↔ s.delete.holdsSubmit = true ∧ s.lockFile = s.deleteFile := by
  simp [State.guarded]

/-- A new file of the name is nobody's. -/
theorem Inv.touch (h : Inv s) : Inv s.touch := by
  cases hfile : s.lockFile with
  | some n => rwa [touch_of_some hfile]
  | none =>
    have htouch : s.touch = { s with lockFile := some s.inodes, inodes := s.inodes + 1 } := by
      unfold State.touch
      rw [hfile]
    have hnot : ∀ n, s.lockFile ≠ some n := by simp [hfile]
    rw [htouch]
    constructor
    · rintro n (hn | hn)
      · cases hn
        exact Nat.lt_succ_self _
      · exact Nat.lt_succ_of_lt (h.created n (.inr hn))
    · exact h.deleteOpen
    · intro hchecked n hn
      exact absurd (h.deleteFile hchecked n hn) (hnot n)
    · rintro (hchecked | hguarded) i n hn
      · exact absurd (h.opened (.inl hchecked) i n hn) (hnot n)
      · have hsame : some s.inodes = s.deleteFile := (guarded_iff.1 hguarded).2
        exact absurd (h.created s.inodes (.inr hsame.symm)) (lt_irrefl _)
    · exact h.holders
    · exact h.excluded
    · exact h.removes
    · exact h.checked
    · exact h.idle

theorem Inv.touchIf (h : Inv s) (b : Bool) : Inv (s.touchIf b) := by
  unfold State.touchIf
  split
  · exact h.touch
  · exact h

theorem touchIf_site (s : State) (b : Bool) : (s.touchIf b).site = s.site := by
  unfold State.touchIf
  split
  · exact touch_site s
  · rfl

theorem touchIf_checked (s : State) (b : Bool) : (s.touchIf b).checked = s.checked := by
  unfold State.touchIf
  split
  · exact touch_checked s
  · rfl

/-! ### Locks -/

theorem held_of_holder {i n : ℕ} {p : Site.Proc} (hp : s.site.procs[i]? = some p)
    (hhold : p.holdsSubmit = true) (hopen : s.opened i = some n) : s.held n = true := by
  have hi : i < s.site.procs.length := (List.getElem?_eq_some_iff.1 hp).1
  simp only [State.held, Bool.or_eq_true, List.any_eq_true, List.mem_range]
  exact .inr ⟨i, hi, by simp [hp, hhold, hopen]⟩

theorem held_of_delete {n : ℕ} (hhold : s.delete.holdsSubmit = true)
    (hopen : s.deleteFile = some n) : s.held n = true := by
  simp [State.held, hhold, hopen]

/-- Once `remote_delete.sh` can lock its file, nobody else holds the lock. -/
theorem Inv.alone (h : Inv s) (hchecked : s.checked = false) (hpc : s.delete = .lockSubmit)
    (hfree : s.free s.deleteFile = true) : ∀ p ∈ s.site.procs, p.holdsSubmit = false := by
  obtain ⟨n, hn⟩ := Option.isSome_iff_exists.1 (h.deleteOpen (.inl hpc))
  intro p hp
  by_contra hhold
  obtain ⟨i, hi⟩ := List.mem_iff_getElem?.1 hp
  have hhold : p.holdsSubmit = true := by simpa using hhold
  obtain ⟨m, hm⟩ := Option.isSome_iff_exists.1 (h.holders i p hi hhold)
  have hsame : some m = some n :=
    (h.opened (.inl hchecked) i m hm).symm.trans (h.deleteFile hchecked n hn)
  cases hsame
  have hheld := held_of_holder hi hhold hm
  simp [State.free, hn, hheld] at hfree

/-- Nobody locks a file that `remote_delete.sh` has locked. -/
theorem Inv.not_takes (h : Inv s) (hhold : s.delete.holdsSubmit = true)
    (hsame : s.checked = false ∨ s.guarded = true) {i n : ℕ} (hopen : s.opened i = some n) :
    s.held n = true := by
  obtain ⟨m, hm⟩ := Option.isSome_iff_exists.1 (h.deleteOpen (.inr hhold))
  have hfile : s.lockFile = some n := h.opened hsame i n hopen
  have hlock : s.lockFile = some m := by
    rcases hsame with hchecked | hguarded
    · exact h.deleteFile hchecked m hm
    · exact (guarded_iff.1 hguarded).2.trans hm
  rw [hfile] at hlock
  cases hlock
  exact held_of_delete hhold hm

/-! ### Steps -/

/-- Steps of the site in which nobody begins to hold the lock. -/
theorem Inv.site (h : Inv s) {site : Site.State} (hnew : NoNewHolder s.site.procs site.procs)
    (hidle : s.checked = true → Idle site) : Inv { s with site := site } := by
  constructor
  · exact h.created
  · exact h.deleteOpen
  · exact h.deleteFile
  · exact h.opened
  · intro i q hq hhold
    obtain ⟨p, hp, hhold⟩ := hnew i q hq hhold
    exact h.holders i p hp hhold
  · intro hchecked hhold
    exact hnew.free (h.excluded hchecked hhold)
  · exact h.removes
  · exact h.checked
  · exact hidle

theorem Inv.script (h : Inv s) {i : ℕ} {ok : Bool} (hstep : s.script i ok = some t) : Inv t := by
  have hfiles : ∀ {ps : List Site.Proc} {f : JobFiles}, NoNewHolder s.site.procs ps →
      s.checked = true → Idle { s.site with files := f, procs := ps } := by
    intro ps f hnew hchecked
    have hidle := h.idle hchecked
    exact ⟨hidle.queue, hidle.pending, hnew.free hidle.free⟩
  unfold State.script at hstep
  split at hstep
  · next kind pc hp =>
    obtain ⟨⟨f, pc'⟩, -, rfl⟩ := Option.map_eq_some_iff.1 hstep
    have hnew : NoNewHolder s.site.procs (s.site.procs.set i (.launcher kind pc') ++
        Site.State.launched kind (pc.launches ok)) :=
      (NoNewHolder.set_free rfl).trans (.append not_holdsSubmit_launched)
    apply (h.touchIf (ok && touches pc)).site
    · rw [touchIf_site]
      exact hnew
    · rw [touchIf_checked]
      exact hfiles hnew
  · next pc hp =>
    obtain ⟨⟨f, pc'⟩, -, rfl⟩ := Option.map_eq_some_iff.1 hstep
    have hnew : NoNewHolder s.site.procs (s.site.procs.set i (.stop pc')) := .set_free rfl
    apply (h.touchIf (ok && stopTouches pc)).site
    · rw [touchIf_site]
      exact hnew
    · rw [touchIf_checked]
      exact hfiles hnew
  · cases hstep

theorem Inv.takeLock (h : Inv s) {i : ℕ} (hcleared : s.checked = false ∨ s.guarded = true)
    (hstep : s.takeLock i = some t) : Inv t := by
  unfold State.takeLock at hstep
  split at hstep
  · next kind call n hp hopen =>
    obtain ⟨hheld, heq⟩ := Option.ite_none_left_eq_some.1 hstep
    cases heq
    have hnot : s.delete.holdsSubmit = false := by
      by_contra hhold
      exact hheld (h.not_takes (by simpa using hhold) hcleared hopen)
    have hchecked : s.checked = false := by
      rcases hcleared with hchecked | hguarded
      · exact hchecked
      · have hhold := (guarded_iff.1 hguarded).1
        rw [hnot] at hhold
        cases hhold
    constructor
    · exact h.created
    · exact h.deleteOpen
    · exact h.deleteFile
    · exact h.opened
    · intro j q hq hhold
      have hq : (s.site.procs.set i (.controller kind .context .asked))[j]? = some q := hq
      rw [List.getElem?_set] at hq
      split_ifs at hq with hij
      · subst hij
        simp [hopen]
      · exact h.holders j q hq hhold
    · intro _ hhold
      rw [hnot] at hhold
      cases hhold
    · exact h.removes
    · exact h.checked
    · intro htrue
      rw [hchecked] at htrue
      cases htrue
  · cases hstep

theorem Inv.opens (h : Inv s) (i : ℕ) :
    Inv { s.touch with opened := Function.update s.opened i s.touch.lockFile } := by
  have ht := h.touch
  obtain ⟨n, hn, -⟩ := touch_lockFile s
  constructor
  · exact ht.created
  · exact ht.deleteOpen
  · exact ht.deleteFile
  · intro hsame j m hm
    have hm : Function.update s.opened i s.touch.lockFile j = some m := hm
    by_cases hij : j = i
    · subst hij
      rwa [Function.update_self] at hm
    · rw [Function.update_of_ne hij] at hm
      exact ht.opened hsame j m (by rwa [touch_opened])
  · intro j p hp hhold
    have hj := ht.holders j p hp hhold
    rw [touch_opened] at hj
    by_cases hij : j = i
    · subst hij
      simp [hn]
    · simpa [Function.update_of_ne hij] using hj
  · exact ht.excluded
  · exact ht.removes
  · exact ht.checked
  · exact ht.idle

/-- The run moves to a place at which it does not begin to hold the lock. -/
theorem Inv.goto (h : Inv s) {pc : DeletePc}
    (hhold : pc.holdsSubmit = true → s.delete.holdsSubmit = true)
    (hopen : pc = .lockSubmit → s.deleteFile.isSome = true)
    (hremoves : removing pc = true → s.checked = true)
    (hchecked : s.checked = true → removing pc = true ∨ ∃ rc, pc = .exited rc) :
    Inv { s with delete := pc } := by
  constructor
  · exact h.created
  · rintro (hpc | hpc)
    · exact hopen hpc
    · exact h.deleteOpen (.inr (hhold hpc))
  · exact h.deleteFile
  · rintro (hunchecked | hguarded)
    · exact h.opened (.inl hunchecked)
    · obtain ⟨hpc, hsame⟩ := guarded_iff.1 hguarded
      exact h.opened (.inr (guarded_iff.2 ⟨hhold hpc, hsame⟩))
  · exact h.holders
  · intro hunchecked hpc
    exact h.excluded hunchecked (hhold hpc)
  · exact hremoves
  · exact hchecked
  · exact h.idle

theorem Inv.marked (h : Inv s) (b : Bool) : Inv { s with deleting := b } :=
  ⟨h.created, h.deleteOpen, h.deleteFile, h.opened, h.holders, h.excluded, h.removes, h.checked,
    h.idle⟩

theorem Inv.unchecked (h : Inv s) (hremoving : removing s.delete = false)
    (hexited : ∀ rc, s.delete ≠ .exited rc) : s.checked = false := by
  by_contra hchecked
  rcases h.checked (by simpa using hchecked) with htrue | ⟨rc, hrc⟩
  · rw [hremoving] at htrue
    cases htrue
  · exact hexited rc hrc

/-- Before the lock. -/
theorem Inv.before (h : Inv s) (hunchecked : s.checked = false) {pc : DeletePc}
    (hhold : pc.holdsSubmit = false) (hopen : pc ≠ .lockSubmit) : Inv { s with delete := pc } := by
  refine h.goto ?_ (fun hpc => absurd hpc hopen) ?_ ?_
  · intro htrue
    rw [hhold] at htrue
    cases htrue
  · intro hremoving
    rw [holdsSubmit_of_removing hremoving] at hhold
    cases hhold
  · intro htrue
    rw [hunchecked] at htrue
    cases htrue

/-- The lock file is opened. -/
theorem Inv.openSubmit (h : Inv s) (hunchecked : s.checked = false) :
    Inv { s.touch with deleteFile := s.touch.lockFile, delete := .lockSubmit } := by
  have ht := h.touch
  obtain ⟨n, hn, -⟩ := touch_lockFile s
  constructor
  · rintro m (hm | hm)
    · exact ht.created m (.inl hm)
    · exact ht.created m (.inl hm)
  · intro
    simp [hn]
  · intro _ m hm
    exact hm
  · rintro (hfalse | hguarded)
    · exact ht.opened (.inl hfalse)
    · exact absurd (guarded_iff.1 hguarded).1 Bool.false_ne_true
  · exact ht.holders
  · intro _ htrue
    cases htrue
  · rintro ⟨⟩
  · intro htrue
    have htrue : s.touch.checked = true := htrue
    rw [touch_checked, hunchecked] at htrue
    cases htrue
  · exact ht.idle

/-- The lock is taken. -/
theorem Inv.locked (h : Inv s) (hunchecked : s.checked = false) (hpc : s.delete = .lockSubmit)
    (hfree : s.free s.deleteFile = true) : Inv { s with delete := .queue } := by
  constructor
  · exact h.created
  · intro
    exact h.deleteOpen (.inl hpc)
  · exact h.deleteFile
  · intro
    exact h.opened (.inl hunchecked)
  · exact h.holders
  · intro _ _
    exact h.alone hunchecked hpc hfree
  · rintro ⟨⟩
  · intro htrue
    exact absurd (hunchecked.symm.trans htrue) (by decide)
  · exact h.idle

/-- The queue query lets the run go on. -/
theorem Inv.queried (h : Inv s) (hunchecked : s.checked = false) (hpc : s.delete = .queue)
    (hqueue : s.site.queue = []) (hpending : s.site.pending = []) :
    Inv { s with checked := true, delete := .mark } := by
  have hhold : s.delete.holdsSubmit = true := by rw [hpc]; rfl
  constructor
  · exact h.created
  · intro
    exact h.deleteOpen (.inr hhold)
  · rintro ⟨⟩
  · intro
    exact h.opened (.inl hunchecked)
  · exact h.holders
  · rintro ⟨⟩
  · intro
    rfl
  · intro
    exact .inl rfl
  · intro
    exact ⟨hqueue, hpending, h.excluded hunchecked hhold⟩

theorem pending_of_cleared (hcleared : cleared s (.delete true) = true) (hpc : s.delete = .queue)
    (hqueue : s.site.queue = []) : s.site.pending = [] := by
  simpa [cleared, hpc, hqueue] using hcleared

/-- A command of `remote_delete.sh` succeeds. -/
theorem Inv.deleted (h : Inv s) (hcleared : cleared s (.delete true) = true) {pc : DeletePc}
    (hpc : s.delete.next s.deleteView = some pc) : Inv { s.effect s.delete with delete := pc } := by
  have hbefore : removing s.delete = false → (∀ rc, s.delete ≠ .exited rc) → s.checked = false :=
    h.unchecked
  cases hd : s.delete with
  | arguments | present | locks | lockLinks | presentAgain | stoppedTest =>
    rw [hd] at hpc hbefore
    have heq := Option.some.inj hpc
    have hunchecked := hbefore rfl (by rintro rc ⟨⟩)
    split_ifs at heq <;> subst heq <;> exact h.before hunchecked rfl (by rintro ⟨⟩)
  | mkdir | openDelete =>
    rw [hd] at hpc hbefore
    cases hpc
    exact h.before (hbefore rfl (by rintro rc ⟨⟩)) rfl (by rintro ⟨⟩)
  | lockDelete =>
    rw [hd] at hpc hbefore
    have heq : some DeletePc.presentAgain = some pc := hpc
    cases heq
    exact h.before (hbefore rfl (by rintro rc ⟨⟩)) rfl (by rintro ⟨⟩)
  | openSubmit =>
    rw [hd] at hpc hbefore
    cases hpc
    exact h.openSubmit (hbefore rfl (by rintro rc ⟨⟩))
  | lockSubmit =>
    rw [hd] at hpc hbefore
    obtain ⟨hfree, heq⟩ := Option.ite_none_right_eq_some.1 hpc
    cases heq
    exact h.locked (hbefore rfl (by rintro rc ⟨⟩)) hd hfree
  | queue =>
    rw [hd] at hpc hbefore
    have hunchecked := hbefore rfl (by rintro rc ⟨⟩)
    have heq := Option.some.inj hpc
    by_cases hqueue : s.site.queue = []
    · rw [if_neg (by simp [State.deleteView, hqueue])] at heq
      subst heq
      have hpending := pending_of_cleared hcleared hd hqueue
      simpa [State.effect, hqueue] using h.queried hunchecked hd hqueue hpending
    · rw [if_pos (by simp [State.deleteView, hqueue])] at heq
      subst heq
      have hexit : Inv { s with delete := .exited 3 } := h.before hunchecked rfl (by rintro ⟨⟩)
      simpa [State.effect, hqueue, hunchecked] using hexit
  | mark =>
    rw [hd] at hpc
    cases hpc
    have hchecked := h.removes (by rw [hd]; rfl)
    exact (h.goto (by rw [hd]; exact id) (by rintro ⟨⟩) (fun _ => hchecked) (fun _ => .inl rfl)).marked
      true
  | remove =>
    rw [hd] at hpc
    cases hpc
    have hchecked := h.removes (by rw [hd]; rfl)
    exact h.goto (by rw [hd]; exact id) (by rintro ⟨⟩) (fun _ => hchecked) (fun _ => .inl rfl)
  | unmark =>
    rw [hd] at hpc
    cases hpc
    have hchecked := h.removes (by rw [hd]; rfl)
    exact (h.goto (by rw [hd]; exact id) (by rintro ⟨⟩) (fun _ => hchecked) (fun _ => .inl rfl)).marked
      false
  | report =>
    rw [hd] at hpc
    cases hpc
    exact h.goto (by rintro ⟨⟩) (by rintro ⟨⟩) (by rintro ⟨⟩) (fun _ => .inr ⟨0, rfl⟩)
  | exited rc =>
    rw [hd] at hpc
    cases hpc

/-- A command fails, and the run ends. -/
theorem Inv.failed (h : Inv s) : Inv { s with delete := s.delete.failed } := by
  have hexited : ∃ rc, s.delete.failed = .exited rc := by
    cases s.delete <;> exact ⟨_, rfl⟩
  obtain ⟨rc, hrc⟩ := hexited
  rw [hrc]
  exact h.goto (by rintro ⟨⟩) (by rintro ⟨⟩) (by rintro ⟨⟩) (fun _ => .inr ⟨rc, rfl⟩)

/-- `rm` unlinks a file. -/
theorem Inv.unlinked (h : Inv s) (hpc : s.delete = .remove) (f : Entry) : Inv (s.unlinked f) := by
  have hchecked := h.removes (by rw [hpc]; rfl)
  have hidle := h.idle hchecked
  cases f with
  | stopped | context | submission =>
    exact h.site (.refl _) fun _ => ⟨hidle.queue, hidle.pending, hidle.free⟩
  | lock =>
    constructor
    · rintro n (hn | hn)
      · cases hn
      · exact h.created n (.inr hn)
    · exact h.deleteOpen
    · intro hfalse
      exact absurd (hchecked.symm.trans hfalse) (by decide)
    · rintro (hfalse | hguarded)
      · exact absurd (hchecked.symm.trans hfalse) (by decide)
      · have hnone : none = s.deleteFile := (guarded_iff.1 hguarded).2
        have hsome := h.deleteOpen (.inr (by rw [hpc]; rfl))
        rw [← hnone] at hsome
        cases hsome
    · exact h.holders
    · exact h.excluded
    · exact h.removes
    · exact h.checked
    · exact h.idle

theorem Inv.step (h : Inv s) {e : Event} (hcleared : cleared s e = true)
    (hstep : s.step job e = some t) : Inv t := by
  cases e with
  | site e =>
    simp only [State.step] at hstep
    split_ifs at hstep with htakes
    · have hguard : s.checked = false ∨ s.guarded = true := by
        simpa [cleared, htakes] using hcleared
      split at hstep
      · exact h.takeLock hguard hstep
      · cases hstep
    · have hnot : takesLock s.site e = false := by simpa using htakes
      split at hstep
      · exact h.script hstep
      · obtain ⟨site, hsite, rfl⟩ := Option.map_eq_some_iff.1 hstep
        exact h.site (noNewHolder_of_step hnot hsite) fun hchecked =>
          (h.idle hchecked).step hnot hsite
  | opens i =>
    simp only [State.step] at hstep
    split at hstep
    · cases hstep
      exact h.opens i
    · cases hstep
  | delete ok =>
    cases ok with
    | false =>
      cases hstep
      exact h.failed
    | true =>
      obtain ⟨-, hstep⟩ := Option.ite_none_left_eq_some.1 hstep
      obtain ⟨pc, hpc, rfl⟩ := Option.map_eq_some_iff.1 hstep
      exact h.deleted hcleared hpc
  | unlink f =>
    obtain ⟨hpc, heq⟩ := Option.ite_none_right_eq_some.1 hstep
    cases heq
    exact h.unlinked hpc f

/-- From the queue query on nothing is accepted. -/
theorem Inv.not_accepts (h : Inv s) (hchecked : s.checked = true) {e : Event}
    (hstep : s.step job e = some t) : e.accepts = false := by
  cases e with
  | site e =>
    simp only [State.step] at hstep
    split_ifs at hstep with htakes
    · cases e <;> first | rfl | cases hstep
    · split at hstep
      · rfl
      · obtain ⟨site, hsite, rfl⟩ := Option.map_eq_some_iff.1 hstep
        exact (h.idle hchecked).not_accepts hsite
  | opens | delete | unlink => rfl

end Steps

/-- **Safe removal.**  `remote_delete.sh` runs among dispatches, resumes, recoveries, stops,
controllers and allocations of the job.  If no request is undecided when its queue query lists
nothing, and afterwards no controller takes its lock on another file than the one that the run has
locked, the removal begins only while SLURM has no allocation of the job, and no batch is accepted
after the query. -/
theorem removal_safe (job : Job) (f : JobFiles) (s : State) (es : List Event)
    (hcleared : Machine.Along (State.step job) (fun s e => cleared s e = true) (.fresh f) es)
    (hrun : Machine.run (State.step job) (.fresh f) es = some s) :
    (s.delete = .remove → s.site.queue = []) ∧
      (s.checked = true → ∀ e t, s.step job e = some t → e.accepts = false) := by
  have hinv : Inv s := Machine.invariant_along
    (fun _ _ _ hs hc => hs.step hc) (inv_fresh f) hcleared hrun
  refine ⟨fun hpc => ?_, fun hchecked e t => hinv.not_accepts hchecked⟩
  exact (hinv.idle (hinv.removes (by rw [hpc]; rfl))).queue

/-- A dispatched job is stopped and deleted while its controller ends. -/
theorem removal_safe_in_time :
    let job : Job := ⟨1, [[0]], by decide⟩
    let f : JobFiles := ⟨false, .written, some (table []), ⟨true, [], [], []⟩⟩
    let es : List Event := [Event.site (.spawnLauncher .dispatch)] ++
      List.replicate 5 (Event.site (.script 0 true)) ++
      [Event.opens 1, .site (.move 1 .next), .site .spawnStop, .site (.script 2 true)] ++
      List.replicate 10 (Event.delete true) ++ List.replicate 3 (Event.site (.move 1 .next)) ++
      List.replicate 3 (Event.delete true)
    ∃ s, Machine.run (State.step job) (.fresh f) es = some s ∧ s.delete = .remove ∧
      s.site.queue = [] ∧ ∀ e t, s.step job e = some t → e.accepts = false := by
  intro job f es
  have hcleared : Machine.Along (State.step job) (fun s e => cleared s e = true) (.fresh f) es := by
    decide +kernel
  have hlast : (Machine.run (State.step job) (.fresh f) es).map
      (fun s => (s.delete, s.checked)) = some (.remove, true) := by decide +kernel
  obtain ⟨s, hrun, hs⟩ := Option.map_eq_some_iff.1 hlast
  obtain ⟨hpc, hchecked⟩ := Prod.mk.inj hs
  have hsafe := removal_safe job f s es hcleared hrun
  exact ⟨s, hrun, hpc, hsafe.1 hpc, hsafe.2 hchecked⟩

/-- `rm` has unlinked the stop marker and the lock file when the job is dispatched again.  The
dispatcher creates a new lock file, the controller locks it, and SLURM accepts a batch of the job
that is being removed. -/
theorem removal_unsafe :
    ¬ ∀ (job : Job) (f : JobFiles) (s : State) (es : List Event),
      Machine.run (State.step job) (.fresh f) es = some s →
      (s.delete = .remove → s.site.queue = []) ∧
        (s.checked = true → ∀ e t, s.step job e = some t → e.accepts = false) := by
  intro hall
  let job : Job := ⟨1, [[0]], by decide⟩
  let f : JobFiles := ⟨true, .written, some (table []), ⟨true, [], [], []⟩⟩
  let es : List Event := List.replicate 13 (Event.delete true) ++
    [Event.unlink .stopped, .unlink .lock, .site (.spawnLauncher .dispatch)] ++
    List.replicate 5 (Event.site (.script 0 true)) ++ [Event.opens 1] ++
    List.replicate 8 (Event.site (.move 1 .next)) ++ [Event.site (.send 1)]
  have hlast : (Machine.run (State.step job) (.fresh f) es).map
      (fun s => (s.checked, (s.step job (.site (.accept 1))).isSome)) = some (true, true) := by
    decide +kernel
  obtain ⟨s, hrun, hs⟩ := Option.map_eq_some_iff.1 hlast
  obtain ⟨hchecked, hsome⟩ := Prod.mk.inj hs
  obtain ⟨t, ht⟩ := Option.isSome_iff_exists.1 hsome
  have haccepts := (hall job f s es hrun).2 hchecked (.site (.accept 1)) t ht
  cases haccepts

end Race
end Delete
end Slurmy
