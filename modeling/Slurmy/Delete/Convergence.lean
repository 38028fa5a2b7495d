import Slurmy.Delete.Replay

/-!
# A replayed deletion converges

* `Prepared`, `unlinked`: the files before the first run, and the condition that the scripts find no
  link or directory under the names of their own files in the job directory;
* `Sound`, `Knows`, `Inv`: what all runs keep of the files, and what a process has made sure of;
* `Converging`: what a run that is left alone makes sure of, and `Converging.run`: it ends well;
* `replay_converges`: it removes what is left of the job, and no run touches anything else;
* `link_followed`: the lock file in the job directory is opened through a link.
-/

namespace Slurmy
namespace Delete

open LinkTree

/-! ### Paths -/

namespace Layout

variable {L : Layout} {id : Text} {r : List Text}

theorem not_locks_prefix_job : ¬ L.locks <+: L.job id := by
  intro h
  rcases List.prefix_concat_iff.1 h with heq | hjobs
  · have hslurmy : L.slurmy = L.jobs := (List.append_inj' heq rfl).1
    exact L.jobs_not_locks (by rw [hslurmy]; exact List.prefix_append _ _)
  · exact L.locks_not_jobs hjobs

theorem not_jobs_prefix_locks : ¬ L.jobs <+: L.locks := L.jobs_not_locks

/-- What lies in the job directory does not lie among the locks. -/
theorem not_locks_of_job (h : L.job id <+: r) : ¬ L.locks <+: r := by
  intro hlocks
  rcases List.prefix_or_prefix_of_prefix h hlocks with hjob | hlocks
  · exact not_jobs_prefix_locks ((List.prefix_append _ _).trans hjob)
  · exact not_locks_prefix_job hlocks

theorem not_job_of_locks (h : L.locks <+: r) : ¬ L.job id <+: r :=
  fun hjob => not_locks_of_job hjob h

theorem locks_prefix_marker : L.locks <+: L.marker id := List.prefix_append _ _

/-- Another job's files lie neither in the job directory nor among the locks. -/
theorem other_job {other : Text} (h : other ≠ id) (p : List Text) :
    ¬ L.job id <+: L.jobs ++ other :: p ∧ ¬ L.locks <+: L.jobs ++ other :: p := by
  constructor
  · intro hjob
    have hhead := (List.prefix_append_right_inj L.jobs).1 hjob
    exact h (List.cons_prefix_cons.1 hhead).1.symm
  · intro hlocks
    rcases List.prefix_or_prefix_of_prefix hlocks (List.prefix_append L.jobs _) with h | h
    · exact L.locks_not_jobs h
    · exact L.jobs_not_locks h

/-- The names of the scripts' own files in the job directory. -/
def controls (L : Layout) (id : Text) : List (List Text) :=
  [L.stopped id, L.submitLock id, L.submissionState id]

theorem job_prefix_controls {q : List Text} (h : q ∈ L.controls id) :
    ∃ name, q = L.job id ++ [name] := by
  simp only [controls, List.mem_cons, List.not_mem_nil, or_false] at h
  rcases h with rfl | rfl | rfl <;> exact ⟨_, rfl⟩

end Layout

/-! ### The files -/

/-- The files before the first run: `$HOME/slurmy` and its `jobs` are directories without links,
`.delete-locks` is not there yet or as the scripts leave it, and the job path is a stopped job, a
link, or nothing. -/
structure Prepared (L : Layout) (id : Text) (t : Files) : Prop where
  jobs : t.Directories L.jobs
  slurmy : t.Directories L.slurmy
  locks : t L.locks = none ∨ t L.locks = some .dir
  lockFile : t.plain (L.lockFile id) = true
  marker : t.plain (L.marker id) = true
  job : t (L.job id) = none ∨ (t (L.job id)).any Node.isLink = true ∨
    t (L.job id) = some .dir ∧ t.hasFile (L.stopped id) = true

/-- The job path is a link. -/
def Linked (L : Layout) (id : Text) (t : Files) : Bool := (t (L.job id)).any Node.isLink

/-- The job path is a link, or the names of the scripts' own files in the job directory are no links
and no directories. -/
def unlinked (L : Layout) (id : Text) (t : Files) : Bool :=
  Linked L id t || (L.controls id).all t.plain

/-- What the runs keep of the files, which were `t₀`. -/
structure Sound (L : Layout) (id : Text) (t₀ t : Files) : Prop where
  outside : ∀ r, ¬ L.locks <+: r → (Linked L id t₀ = true ∨ ¬ L.job id <+: r) → t r = t₀ r
  jobs : t.Directories L.jobs
  slurmy : t.Directories L.slurmy
  job : Linked L id t₀ = false → t (L.job id) = none ∨ t (L.job id) = some .dir
  locks : t L.locks = none ∨ t L.locks = some .dir
  lockFile : t.plain (L.lockFile id) = true
  marker : t.plain (L.marker id) = true
  inside : Linked L id t₀ = false → ∀ q ∈ L.controls id, t.plain q = true
  marked : Linked L id t₀ = false →
    t (L.job id) = none ∨ (t (L.stopped id)).isSome = true ∨ (t (L.marker id)).isSome = true

/-- The job has been removed, or its deletion has begun. -/
def Begun (L : Layout) (id : Text) (t : Files) : Prop :=
  t (L.job id) = none ∨ (t (L.marker id)).isSome = true

/-- What changes of the files keep. -/
structure Keeps (L : Layout) (id : Text) (t u : Files) : Prop where
  gone : t (L.job id) = none → u (L.job id) = none
  begun : Begun L id t → Begun L id u

section Files

variable {L : Layout} {id : Text} {t₀ t u : Files}

theorem Keeps.refl (t : Files) : Keeps L id t t := ⟨fun h => h, fun h => h⟩

theorem isSome_update {q r : List Text} {n : Node Text Text} (h : (t r).isSome = true) :
    (Function.update t q (some n) r).isSome = true := by
  rw [Function.update_apply]
  split
  · rfl
  · exact h

theorem plain_update {q r : List Text} {c : Text} (h : t.plain r = true) :
    Tree.plain (Function.update t q (some (.file c))) r = true := by
  unfold Tree.plain
  rw [Function.update_apply]
  split
  · rfl
  · exact h

theorem directories_update {d q : List Text} {o : Option (Node Text Text)} (h : t.Directories d)
    (hq : ¬ q <+: d) : Tree.Directories (Function.update t q o) d := by
  refine h.congr fun r hr => Function.update_of_ne ?_ _ _
  rintro rfl
  exact hq hr

/-- A place below `.delete-locks`, or below the job directory where this is no link. -/
def Own (L : Layout) (id : Text) (t₀ : Files) (q : List Text) : Prop :=
  (L.locks <+: q ∧ q ≠ L.locks) ∨ (Linked L id t₀ = false ∧ L.job id <+: q ∧ q ≠ L.job id)

theorem not_job_prefix_jobs {q : List Text} (h : L.job id <+: q) : ¬ q <+: L.jobs := by
  intro hq
  have hlen := (h.trans hq).length_le
  simp [Layout.job] at hlen

theorem not_job_prefix_slurmy {q : List Text} (h : L.job id <+: q) : ¬ q <+: L.slurmy := by
  intro hq
  have hjobs : L.jobs <+: L.job id := List.prefix_append _ _
  exact Layout.not_jobs_prefix_locks
    (hjobs.trans (h.trans (hq.trans (List.prefix_append L.slurmy _))))

theorem not_locks_prefix_slurmy {q : List Text} (h : L.locks <+: q) : ¬ q <+: L.slurmy := by
  intro hq
  have hlen := (h.trans hq).length_le
  simp [Layout.locks] at hlen

theorem Own.not_prefix_jobs {q : List Text} (h : Own L id t₀ q) : ¬ q <+: L.jobs := by
  rcases h with ⟨hlocks, -⟩ | ⟨-, hjob, -⟩
  · exact fun hq => L.locks_not_jobs (hlocks.trans hq)
  · exact not_job_prefix_jobs hjob

theorem Own.not_prefix_slurmy {q : List Text} (h : Own L id t₀ q) : ¬ q <+: L.slurmy := by
  rcases h with ⟨hlocks, -⟩ | ⟨-, hjob, -⟩
  · exact not_locks_prefix_slurmy hlocks
  · exact not_job_prefix_slurmy hjob

theorem Own.ne_job {q : List Text} (h : Own L id t₀ q) : L.job id ≠ q := by
  rintro rfl
  rcases h with ⟨hlocks, -⟩ | ⟨-, -, hne⟩
  · exact Layout.not_locks_prefix_job hlocks
  · exact hne rfl

theorem Own.ne_locks {q : List Text} (h : Own L id t₀ q) : L.locks ≠ q := by
  rintro rfl
  rcases h with ⟨-, hne⟩ | ⟨-, hjob, -⟩
  · exact hne rfl
  · exact Layout.not_locks_of_job hjob (List.prefix_refl _)

theorem Own.outside {q r : List Text} (h : Own L id t₀ q) (hlocks : ¬ L.locks <+: r)
    (hjob : Linked L id t₀ = true ∨ ¬ L.job id <+: r) : r ≠ q := by
  rintro rfl
  rcases h with ⟨hbelow, -⟩ | ⟨hlinked, hbelow, -⟩
  · exact hlocks hbelow
  · rcases hjob with htrue | hnot
    · rw [hlinked] at htrue
      cases htrue
    · exact hnot hbelow

theorem own_lockFile : Own L id t₀ (L.lockFile id) :=
  .inl ⟨List.prefix_append _ _, by simp [Layout.lockFile]⟩

theorem own_marker : Own L id t₀ (L.marker id) :=
  .inl ⟨List.prefix_append _ _, by simp [Layout.marker]⟩

theorem own_controls (h : Linked L id t₀ = false) {q : List Text} (hq : q ∈ L.controls id) :
    Own L id t₀ q := by
  obtain ⟨name, rfl⟩ := Layout.job_prefix_controls hq
  exact .inr ⟨h, List.prefix_append _ _, by simp⟩

/-! ### Changes -/

/-- A file is written. -/
theorem Sound.file (h : Sound L id t₀ t) {q : List Text} (hq : Own L id t₀ q) (c : Text) :
    Sound L id t₀ (Function.update t q (some (.file c))) where
  outside r hlocks hjob := by
    rw [Function.update_of_ne (hq.outside hlocks hjob)]
    exact h.outside r hlocks hjob
  jobs := directories_update h.jobs hq.not_prefix_jobs
  slurmy := directories_update h.slurmy hq.not_prefix_slurmy
  job hlinked := by
    rw [Function.update_of_ne hq.ne_job]
    exact h.job hlinked
  locks := by
    rw [Function.update_of_ne hq.ne_locks]
    exact h.locks
  lockFile := plain_update h.lockFile
  marker := plain_update h.marker
  inside hlinked r hr := plain_update (h.inside hlinked r hr)
  marked hlinked := by
    rcases h.marked hlinked with hgone | hstopped | hmarker
    · exact .inl (by rwa [Function.update_of_ne hq.ne_job])
    · exact .inr (.inl (isSome_update hstopped))
    · exact .inr (.inr (isSome_update hmarker))

theorem Keeps.file {q : List Text} (hq : Own L id t₀ q) (c : Text) :
    Keeps L id t (Function.update t q (some (.file c))) where
  gone hgone := by rwa [Function.update_of_ne hq.ne_job]
  begun hbegun := by
    rcases hbegun with hgone | hmarker
    · exact .inl (by rwa [Function.update_of_ne hq.ne_job])
    · exact .inr (isSome_update hmarker)

/-- `.delete-locks` is made. -/
theorem Sound.makeDir (h : Sound L id t₀ t) :
    Sound L id t₀ (Function.update t L.locks (some .dir)) := by
  have hne : ∀ r, ¬ L.locks <+: r → r ≠ L.locks := by
    rintro r hr rfl
    exact hr (List.prefix_refl _)
  have hjob : L.job id ≠ L.locks := hne _ Layout.not_locks_prefix_job
  have hcontrols : ∀ q ∈ L.controls id, q ≠ L.locks := by
    intro q hq
    obtain ⟨name, rfl⟩ := Layout.job_prefix_controls hq
    exact hne _ (Layout.not_locks_of_job (List.prefix_append _ _))
  have hlockFile : L.lockFile id ≠ L.locks := by simp [Layout.lockFile]
  have hmarker : L.marker id ≠ L.locks := by simp [Layout.marker]
  constructor
  · intro r hlocks hr
    rw [Function.update_of_ne (hne r hlocks)]
    exact h.outside r hlocks hr
  · exact directories_update h.jobs L.locks_not_jobs
  · exact directories_update h.slurmy (not_locks_prefix_slurmy (List.prefix_refl _))
  · intro hlinked
    rw [Function.update_of_ne hjob]
    exact h.job hlinked
  · exact .inr (Function.update_self ..)
  · unfold Tree.plain
    rw [Function.update_of_ne hlockFile]
    exact h.lockFile
  · unfold Tree.plain
    rw [Function.update_of_ne hmarker]
    exact h.marker
  · intro hlinked q hq
    unfold Tree.plain
    rw [Function.update_of_ne (hcontrols q hq)]
    exact h.inside hlinked q hq
  · intro hlinked
    rw [Function.update_of_ne hjob, Function.update_of_ne hmarker,
      Function.update_of_ne (hcontrols _ List.mem_cons_self)]
    exact h.marked hlinked

theorem Keeps.makeDir : Keeps L id t (Function.update t L.locks (some .dir)) := by
  have hjob : L.job id ≠ L.locks := by
    intro heq
    have hnot : ¬ L.locks <+: L.job id := Layout.not_locks_prefix_job
    exact hnot (by rw [heq])
  have hmarker : L.marker id ≠ L.locks := by simp [Layout.marker]
  constructor
  · intro hgone
    rwa [Function.update_of_ne hjob]
  · unfold Begun
    rw [Function.update_of_ne hjob, Function.update_of_ne hmarker]
    exact fun hbegun => hbegun

/-- A part of the job, or all of it, is removed. -/
theorem Sound.cut (h : Sound L id t₀ t) (hlinked : Linked L id t₀ = false) {q : List Text}
    (hq : L.job id <+: q) (hbegun : Begun L id t) : Sound L id t₀ (t.cut q) := by
  have hlater : ∀ r, L.locks <+: r → t.cut q r = t r := fun r hr =>
    Tree.cut_of_not_prefix fun hqr => Layout.not_job_of_locks hr (hq.trans hqr)
  have hplain : ∀ r, t.plain r = true → (t.cut q).plain r = true := by
    intro r hr
    unfold Tree.plain Tree.cut
    split
    · rfl
    · exact hr
  have hjob : t.cut q (L.job id) = none ∨ t.cut q (L.job id) = t (L.job id) := by
    unfold Tree.cut
    split
    · exact .inl rfl
    · exact .inr rfl
  constructor
  · intro r hlocks hr
    rcases hr with htrue | hnot
    · rw [hlinked] at htrue
      cases htrue
    · rw [Tree.cut_of_not_prefix fun hqr => hnot (hq.trans hqr)]
      exact h.outside r hlocks (.inr hnot)
  · exact h.jobs.congr fun r hr =>
      Tree.cut_of_not_prefix fun hqr => not_job_prefix_jobs hq (hqr.trans hr)
  · exact h.slurmy.congr fun r hr =>
      Tree.cut_of_not_prefix fun hqr => not_job_prefix_slurmy hq (hqr.trans hr)
  · intro
    rcases hjob with hnone | hsame
    · exact .inl hnone
    · rw [hsame]
      exact h.job hlinked
  · rw [hlater _ (List.prefix_refl _)]
    exact h.locks
  · exact hplain _ h.lockFile
  · exact hplain _ h.marker
  · intro _ r hr
    exact hplain r (h.inside hlinked r hr)
  · intro
    rcases hbegun with hgone | hmarker
    · rcases hjob with hnone | hsame
      · exact .inl hnone
      · exact .inl (hsame.trans hgone)
    · exact .inr (.inr (by rwa [hlater _ Layout.locks_prefix_marker]))

theorem Keeps.cut {q : List Text} (hq : L.job id <+: q) : Keeps L id t (t.cut q) := by
  have hgone : t (L.job id) = none → t.cut q (L.job id) = none := by
    intro hnone
    unfold Tree.cut
    split
    · rfl
    · exact hnone
  refine ⟨hgone, fun hbegun => ?_⟩
  rcases hbegun with hnone | hmarker
  · exact .inl (hgone hnone)
  · refine .inr ?_
    rwa [Tree.cut_of_not_prefix fun hqr =>
      Layout.not_job_of_locks Layout.locks_prefix_marker (hq.trans hqr)]

/-- The marker is taken away after the job. -/
theorem Sound.unmark (h : Sound L id t₀ t) (hgone : t (L.job id) = none) :
    Sound L id t₀ (Function.update t (L.marker id) none) := by
  have hq : Own L id t₀ (L.marker id) := own_marker
  have hplain : ∀ r, t.plain r = true → Tree.plain (Function.update t (L.marker id) none) r = true := by
    intro r hr
    unfold Tree.plain
    rw [Function.update_apply]
    split
    · rfl
    · exact hr
  constructor
  · intro r hlocks hjob
    rw [Function.update_of_ne (hq.outside hlocks hjob)]
    exact h.outside r hlocks hjob
  · exact directories_update h.jobs hq.not_prefix_jobs
  · exact directories_update h.slurmy hq.not_prefix_slurmy
  · intro hlinked
    rw [Function.update_of_ne hq.ne_job]
    exact h.job hlinked
  · rw [Function.update_of_ne hq.ne_locks]
    exact h.locks
  · exact hplain _ h.lockFile
  · exact hplain _ h.marker
  · intro hlinked r hr
    exact hplain r (h.inside hlinked r hr)
  · intro
    exact .inl (by rwa [Function.update_of_ne hq.ne_job])

theorem Keeps.unmark (hgone : t (L.job id) = none) :
    Keeps L id t (Function.update t (L.marker id) none) := by
  have hjob : Function.update t (L.marker id) none (L.job id) = none := by
    have hown : Own L id t (L.marker id) := own_marker
    rwa [Function.update_of_ne hown.ne_job]
  exact ⟨fun _ => hjob, fun _ => .inl hjob⟩

/-! ### Commands -/

theorem Sound.follow_locks (h : Sound L id t₀ t) : t.follow L.locks = some L.locks := by
  apply h.slurmy.follow_plain
  rcases h.locks with hnone | hdir
  · exact congrArg (Option.any Node.isLink) hnone
  · exact congrArg (Option.any Node.isLink) hdir

/-- A file is opened for writing among the locks. -/
theorem Sound.create_locks (h : Sound L id t₀ t) {a : Text} {c : Text}
    (hplain : t.plain (L.locks ++ [a]) = true) (hcreate : t.create (L.locks ++ [a]) c = some u) :
    u = Function.update t (L.locks ++ [a]) (some (.file c)) := by
  rcases h.locks with hnone | hdir
  · have hmissing : t.create (L.locks ++ [a]) c = none := h.slurmy.create_missing hnone a c
    rw [hmissing] at hcreate
    cases hcreate
  · have hlocks : t.Directories L.locks := h.slurmy.concat hdir
    rw [hlocks.create_plain hplain] at hcreate
    exact (Option.some.inj hcreate).symm

/-- A file of the scripts is opened for writing in the job directory. -/
theorem Sound.create_job (h : Sound L id t₀ t) (hlinked : Linked L id t₀ = false)
    {q : List Text} {c : Text} (hq : q ∈ L.controls id) (hcreate : t.create q c = some u) :
    u = Function.update t q (some (.file c)) := by
  have hplain := h.inside hlinked q hq
  obtain ⟨name, rfl⟩ := Layout.job_prefix_controls hq
  rcases h.job hlinked with hnone | hdir
  · have hmissing : t.create (L.job id ++ [name]) c = none := h.jobs.create_missing hnone name c
    rw [hmissing] at hcreate
    cases hcreate
  · have hjob : t.Directories (L.job id) := h.jobs.concat hdir
    rw [hjob.create_plain hplain] at hcreate
    exact (Option.some.inj hcreate).symm

/-- A file of the scripts is opened in the job directory. -/
theorem Sound.touch_job (h : Sound L id t₀ t) (hlinked : Linked L id t₀ = false)
    {q : List Text} {c : Text} (hq : q ∈ L.controls id) (htouch : t.touch q c = some u) :
    u = t ∨ u = Function.update t q (some (.file c)) := by
  unfold Tree.touch at htouch
  split at htouch
  · exact .inl (Option.some.inj htouch).symm
  · exact .inr (h.create_job hlinked hq htouch)

theorem stopped_mem_controls : L.stopped id ∈ L.controls id := List.mem_cons_self

theorem submitLock_mem_controls : L.submitLock id ∈ L.controls id :=
  List.mem_cons_of_mem _ List.mem_cons_self

theorem submissionState_mem_controls : L.submissionState id ∈ L.controls id :=
  List.mem_cons_of_mem _ (List.mem_cons_of_mem _ List.mem_cons_self)

/-- What a process has made sure of. -/
def Knows (L : Layout) (id : Text) (t₀ t : Files) : Proc → Prop
  | .delete .remove | .rm => Linked L id t₀ = false ∧ Begun L id t
  | .delete .unmark | .delete .report => t (L.job id) = none
  | .delete .openSubmit | .delete .lockSubmit | .delete .queue | .delete .mark
  | .stop (.main _) => Linked L id t₀ = false
  | _ => True

theorem Knows.keeps (hkeeps : Keeps L id t u) {p : Proc} (h : Knows L id t₀ t p) :
    Knows L id t₀ u p := by
  cases p with
  | delete pc =>
    cases pc with
    | remove => exact ⟨h.1, hkeeps.begun h.2⟩
    | unmark | report => exact hkeeps.gone h
    | _ => exact h
  | rm => exact ⟨h.1, hkeeps.begun h.2⟩
  | stop place => cases place <;> exact h
  | gone => trivial

/-- A command of `remote_delete.sh`. -/
theorem Sound.effect_delete (h : Sound L id t₀ t) {pc : DeletePc}
    (hknows : Knows L id t₀ t (.delete pc)) (heffect : deleteEffect L id t pc = some u) :
    Sound L id t₀ u ∧ Keeps L id t u := by
  cases pc with
  | mkdir =>
    have hmake : deleteEffect L id t .mkdir = some (Function.update t L.locks (some .dir)) :=
      h.slurmy.makeDir h.locks
    rw [hmake] at heffect
    cases heffect
    exact ⟨h.makeDir, .makeDir⟩
  | openDelete =>
    obtain rfl := h.create_locks h.lockFile heffect
    have hown : Own L id t₀ (L.lockFile id) := own_lockFile
    exact ⟨h.file hown [], .file hown []⟩
  | openSubmit =>
    obtain rfl := h.create_job hknows submitLock_mem_controls heffect
    have hown := own_controls hknows submitLock_mem_controls
    exact ⟨h.file hown [], .file hown []⟩
  | mark =>
    obtain rfl := h.create_locks h.marker heffect
    have hown : Own L id t₀ (L.marker id) := own_marker
    exact ⟨h.file hown [], .file hown []⟩
  | remove =>
    have hremove : deleteEffect L id t .remove = some (t.cut (L.job id)) := h.jobs.remove id
    rw [hremove] at heffect
    cases heffect
    exact ⟨h.cut hknows.1 (List.prefix_refl _) hknows.2, .cut (List.prefix_refl _)⟩
  | unmark =>
    have hentry : t.entry (L.marker id) = some (L.marker id) := Tree.entry_of_follow h.follow_locks _
    have hunlink : deleteEffect L id t .unmark = some (Function.update t (L.marker id) none) :=
      Tree.unlink_plain hentry h.marker
    rw [hunlink] at heffect
    cases heffect
    exact ⟨h.unmark hknows, .unmark hknows⟩
  | _ =>
    cases heffect
    exact ⟨h, .refl t⟩

/-- The test for the job directory fails at a link. -/
theorem Sound.not_linked (h : Sound L id t₀ t) {s : State} (hs : s.files = t)
    (hdirectory : s.directory L id = true) : Linked L id t₀ = false := by
  by_contra htrue
  have hlinked : Linked L id t₀ = true := by simpa using htrue
  have hsame : t (L.job id) = t₀ (L.job id) := h.outside _ Layout.not_locks_prefix_job (.inl hlinked)
  have hlink : t.hasLink (L.job id) = true := by
    have hany := h.jobs.hasLink id
    rw [show L.jobs ++ [id] = L.job id from rfl, hsame] at hany
    exact hany.trans hlinked
  unfold State.directory at hdirectory
  rw [hs, hlink] at hdirectory
  simp at hdirectory

/-- What `remote_delete.sh` knows after a command. -/
theorem Sound.knows_next {s : State} (h : Sound L id t₀ s.files) {pc pc' : DeletePc}
    (hknows : Knows L id t₀ s.files (.delete pc))
    (hnext : pc.next (s.deleteView L id) = some pc')
    (heffect : deleteEffect L id s.files pc = some u) : Knows L id t₀ u (.delete pc') := by
  cases pc with
  | arguments | present | locks | lockLinks | presentAgain =>
    have heq := Option.some.inj hnext
    split_ifs at heq <;> subst heq <;> trivial
  | mkdir | openDelete | report =>
    cases hnext
    trivial
  | lockDelete =>
    obtain ⟨-, heq⟩ := Option.ite_none_right_eq_some.1 hnext
    cases heq
    trivial
  | stoppedTest =>
    have heq := Option.some.inj hnext
    split_ifs at heq with htest
    · subst heq
      exact h.not_linked rfl (Bool.and_eq_true_iff.1 htest).1
    · subst heq
      trivial
  | openSubmit =>
    cases hnext
    exact hknows
  | lockSubmit =>
    obtain ⟨-, heq⟩ := Option.ite_none_right_eq_some.1 hnext
    cases heq
    exact hknows
  | queue =>
    have heq := Option.some.inj hnext
    split_ifs at heq
    · subst heq
      trivial
    · subst heq
      exact hknows
  | mark =>
    cases hnext
    obtain rfl := h.create_locks h.marker heffect
    refine ⟨hknows, .inr ?_⟩
    show (Function.update s.files (L.marker id) _ (L.marker id)).isSome = true
    rw [Function.update_self]
    rfl
  | remove =>
    cases hnext
    have hremove : deleteEffect L id s.files .remove = some (s.files.cut (L.job id)) :=
      h.jobs.remove id
    rw [hremove] at heffect
    cases heffect
    exact Tree.cut_of_prefix (List.prefix_refl _)
  | unmark =>
    cases hnext
    exact (h.effect_delete hknows heffect).2.gone hknows
  | exited => cases hnext

/-- A command of `remote_stop.sh`. -/
theorem Sound.effect_stop (h : Sound L id t₀ t) {place : StopPlace}
    (hknows : Knows L id t₀ t (.stop place)) (heffect : stopEffect L id t place = some u) :
    Sound L id t₀ u ∧ Keeps L id t u := by
  have hfile : ∀ {q : List Text} (c : Text), Linked L id t₀ = false → q ∈ L.controls id →
      Sound L id t₀ (Function.update t q (some (.file c))) ∧
        Keeps L id t (Function.update t q (some (.file c))) := fun c hlinked hq =>
    ⟨h.file (own_controls hlinked hq) c, .file (own_controls hlinked hq) c⟩
  cases place with
  | main pc =>
    cases pc with
    | start | mark =>
      obtain rfl := h.create_job hknows stopped_mem_controls heffect
      exact hfile [] hknows stopped_mem_controls
    | lockTest =>
      rcases h.touch_job hknows submitLock_mem_controls heffect with rfl | rfl
      · exact ⟨h, .refl _⟩
      · exact hfile [] hknows submitLock_mem_controls
    | report =>
      obtain rfl := h.create_job hknows submissionState_mem_controls heffect
      exact hfile _ hknows submissionState_mem_controls
    | snapshot | cancel | exited =>
      cases heffect
      exact ⟨h, .refl t⟩
  | _ =>
    cases heffect
    exact ⟨h, .refl t⟩

theorem Sound.knows_stop {s : State} (h : Sound L id t₀ s.files) {place place' : StopPlace}
    (hknows : Knows L id t₀ s.files (.stop place)) (hnext : place.next L id s = some place') :
    Knows L id t₀ u (.stop place') := by
  cases place with
  | arguments | present =>
    have heq := Option.some.inj hnext
    split_ifs at heq <;> subst heq <;> trivial
  | directory =>
    have heq := Option.some.inj hnext
    split_ifs at heq with htest
    · subst heq
      exact h.not_linked rfl htest
    · subst heq
      trivial
  | main pc =>
    obtain ⟨r, -, rfl⟩ := Option.map_eq_some_iff.1 hnext
    exact hknows
  | exited => cases hnext

end Files

/-! ### Runs -/

/-- What all runs keep. -/
structure Inv (L : Layout) (id : Text) (t₀ : Files) (s : State) : Prop where
  sound : Sound L id t₀ s.files
  knows : ∀ p ∈ s.procs, Knows L id t₀ s.files p

section Steps

variable {L : Layout} {id : Text} {t₀ u : Files} {s t : State}

theorem inv_start (hprepared : Prepared L id t₀) (hunlinked : unlinked L id t₀ = true) :
    Inv L id t₀ (.start t₀) := by
  have hinside : Linked L id t₀ = false → ∀ q ∈ L.controls id, t₀.plain q = true := by
    intro hlinked
    simpa [unlinked, hlinked] using hunlinked
  refine ⟨⟨?_, hprepared.jobs, hprepared.slurmy, ?_, hprepared.locks, hprepared.lockFile,
    hprepared.marker, hinside, ?_⟩, ?_⟩
  · intro r _ _
    rfl
  · intro hlinked
    rcases hprepared.job with hnone | hlink | ⟨hdir, -⟩
    · exact .inl hnone
    · exact absurd (hlinked.symm.trans hlink) Bool.false_ne_true
    · exact .inr hdir
  · intro hlinked
    rcases hprepared.job with hnone | hlink | ⟨hdir, hfile⟩
    · exact .inl hnone
    · exact absurd (hlinked.symm.trans hlink) Bool.false_ne_true
    · have hjob : t₀.Directories (L.job id) := hprepared.jobs.concat hdir
      have hplain := hinside hlinked _ stopped_mem_controls
      exact .inr (.inl ((hjob.hasFile_plain hplain).symm.trans hfile))
  · intro p hp
    cases hp

theorem Inv.set (h : Inv L id t₀ s) {i : ℕ} {p : Proc} (hsound : Sound L id t₀ u)
    (hkeeps : Keeps L id s.files u) (hp : Knows L id t₀ u p) :
    Inv L id t₀ ({ s with files := u }.set i p) := by
  refine ⟨hsound, fun q hq => ?_⟩
  rcases List.mem_or_eq_of_mem_set hq with hq | rfl
  · exact (h.knows q hq).keeps hkeeps
  · exact hp

/-- A command has its effect, or fails. -/
theorem command_cases {i : ℕ} {ok : Bool} {effect : Option Files} {next : Option Proc}
    {failed : Proc} (h : s.command i ok effect next failed = some t) :
    t = s.set i failed ∨ ∃ u p, effect = some u ∧ next = some p ∧
      t = { s with files := u }.set i p := by
  unfold State.command at h
  cases ok with
  | false => exact .inl (Option.some.inj h).symm
  | true =>
    rw [if_pos rfl] at h
    obtain ⟨p, hp, heq⟩ := Option.map_eq_some_iff.1 h
    cases effect with
    | none => exact .inl heq.symm
    | some u => exact .inr ⟨u, p, rfl, hp, heq.symm⟩

theorem knows_failed (pc : DeletePc) : Knows L id t₀ u (.delete pc.failed) := by
  cases pc <;> trivial

theorem knows_stop_failed {place : StopPlace} (h : Knows L id t₀ u (.stop place)) :
    Knows L id t₀ u (.stop place.failed) := by
  cases place with
  | main pc => exact h
  | _ => trivial

theorem knows_killed {p : Proc} (h : Knows L id t₀ u p) (survives : Bool) :
    Knows L id t₀ u (p.killed survives) := by
  cases p with
  | delete pc =>
    cases pc with
    | remove => cases survives <;> first | exact h | trivial
    | _ => trivial
  | rm => cases survives <;> first | exact h | trivial
  | stop | gone => trivial

theorem Inv.script (h : Inv L id t₀ s) {i : ℕ} {ok : Bool}
    (hstep : s.step L id (.script i ok) = some t) : Inv L id t₀ t ∧ Keeps L id s.files t.files := by
  have hfails : ∀ {p : Proc}, Knows L id t₀ s.files p →
      Inv L id t₀ (s.set i p) ∧ Keeps L id s.files (s.set i p).files := fun hp =>
    ⟨h.set h.sound (.refl _) hp, .refl _⟩
  simp only [State.step] at hstep
  split at hstep
  · next pc hp =>
    have hknows := h.knows _ (List.mem_of_getElem? hp)
    rcases command_cases hstep with rfl | ⟨u, p, heffect, hnext, rfl⟩
    · exact hfails (knows_failed pc)
    · obtain ⟨pc', hpc, rfl⟩ := Option.map_eq_some_iff.1 hnext
      obtain ⟨hsound, hkeeps⟩ := h.sound.effect_delete hknows heffect
      exact ⟨h.set hsound hkeeps (h.sound.knows_next hknows hpc heffect), hkeeps⟩
  · next place hp =>
    have hknows := h.knows _ (List.mem_of_getElem? hp)
    rcases command_cases hstep with rfl | ⟨u, p, heffect, hnext, rfl⟩
    · exact hfails (knows_stop_failed hknows)
    · obtain ⟨place', hplace, rfl⟩ := Option.map_eq_some_iff.1 hnext
      obtain ⟨hsound, hkeeps⟩ := h.sound.effect_stop hknows heffect
      exact ⟨h.set hsound hkeeps (h.sound.knows_stop hknows hplace), hkeeps⟩
  · next hp =>
    have hknows := h.knows _ (List.mem_of_getElem? hp)
    rcases command_cases hstep with rfl | ⟨u, p, heffect, hnext, rfl⟩
    · exact hfails trivial
    · cases hnext
      have hremove : s.files.remove (L.job id) = some (s.files.cut (L.job id)) :=
        h.sound.jobs.remove id
      rw [hremove] at heffect
      cases heffect
      have hkeeps : Keeps L id s.files (s.files.cut (L.job id)) := .cut (List.prefix_refl _)
      exact ⟨h.set (h.sound.cut hknows.1 (List.prefix_refl _) hknows.2) hkeeps trivial, hkeeps⟩
  · cases hstep

/-- Every step keeps the invariant. -/
theorem Inv.step (h : Inv L id t₀ s) {e : Event} (hstep : s.step L id e = some t) :
    Inv L id t₀ t ∧ Keeps L id s.files t.files := by
  have hspawn : ∀ {p : Proc}, Knows L id t₀ s.files p →
      Inv L id t₀ { s with procs := s.procs ++ [p] } ∧ Keeps L id s.files s.files := by
    intro p hp
    refine ⟨⟨h.sound, fun q hq => ?_⟩, .refl _⟩
    rcases List.mem_append.1 hq with hq | hq
    · exact h.knows q hq
    · rwa [List.mem_singleton.1 hq]
  have hfiles : ∀ {u : Files}, Sound L id t₀ u → Keeps L id s.files u →
      Inv L id t₀ { s with files := u } ∧ Keeps L id s.files u := fun hsound hkeeps =>
    ⟨⟨hsound, fun q hq => (h.knows q hq).keeps hkeeps⟩, hkeeps⟩
  cases e with
  | spawnDelete =>
    cases hstep
    exact hspawn trivial
  | spawnStop =>
    cases hstep
    exact hspawn trivial
  | script i ok => exact h.script hstep
  | unlink i q =>
    have hcut : Linked L id t₀ = false ∧ Begun L id s.files →
        (if L.job id <+: q ∧ q ≠ L.job id then some { s with files := s.files.cut q } else none) =
          some t → Inv L id t₀ t ∧ Keeps L id s.files t.files := by
      intro hknows hstep
      obtain ⟨⟨hq, -⟩, heq⟩ := Option.ite_none_right_eq_some.1 hstep
      cases heq
      exact hfiles (h.sound.cut hknows.1 hq hknows.2) (.cut hq)
    simp only [State.step] at hstep
    split at hstep
    · next hp => exact hcut (h.knows _ (List.mem_of_getElem? hp)) hstep
    · next hp => exact hcut (h.knows _ (List.mem_of_getElem? hp)) hstep
    · cases hstep
  | kill i survives =>
    obtain ⟨p, hp, rfl⟩ := Option.map_eq_some_iff.1 hstep
    have hknows := knows_killed (h.knows p (List.mem_of_getElem? hp)) survives
    exact ⟨h.set h.sound (.refl _) hknows, .refl _⟩
  | environment allocations controller =>
    cases hstep
    exact ⟨⟨h.sound, h.knows⟩, .refl _⟩
  | write q c =>
    obtain ⟨⟨-, hdirectory, hq, hne, -⟩, heq⟩ := Option.ite_none_right_eq_some.1 hstep
    cases heq
    have hown : Own L id t₀ q := .inr ⟨h.sound.not_linked rfl hdirectory, hq, hne⟩
    exact hfiles (h.sound.file hown c) (.file hown c)

theorem Inv.run (h : Inv L id t₀ s) {es : List Event}
    (hrun : Machine.run (State.step L id) s es = some t) :
    Inv L id t₀ t ∧ (s.files (L.job id) = none → t.files (L.job id) = none) := by
  have hkeep := Machine.invariant
    (I := fun v => Inv L id t₀ v ∧ (s.files (L.job id) = none → v.files (L.job id) = none))
    (fun v e w hv hstep => ?_) ⟨h, fun hgone => hgone⟩ hrun
  · exact hkeep
  · obtain ⟨hinv, hkeeps⟩ := hv.1.step hstep
    exact ⟨hinv, fun hgone => hkeeps.gone (hv.2 hgone)⟩

end Steps

/-! ### A run that is left alone -/

/-- The commands that are still to come. -/
def rank : DeletePc → ℕ
  | .arguments => 16
  | .present => 15
  | .locks => 14
  | .mkdir => 13
  | .lockLinks => 12
  | .openDelete => 11
  | .lockDelete => 10
  | .presentAgain => 9
  | .stoppedTest => 8
  | .openSubmit => 7
  | .lockSubmit => 6
  | .queue => 5
  | .mark => 4
  | .remove => 3
  | .unmark => 2
  | .report => 1
  | .exited _ => 0

/-- What is there when the run that is left alone is at a place. -/
def There (L : Layout) (id : Text) (t : Files) : DeletePc → Prop
  | .lockLinks | .openDelete | .lockDelete | .presentAgain => t L.locks = some .dir
  | .stoppedTest | .openSubmit | .lockSubmit | .queue | .mark =>
      t L.locks = some .dir ∧ t (L.job id) = some .dir
  | .exited rc => rc = 0 ∧ t (L.job id) = none
  | _ => True

/-- Process `i` is a run of `remote_delete.sh` that meets nobody. -/
structure Converging (L : Layout) (id : Text) (t₀ : Files) (s : State) (i : ℕ) (pc : DeletePc) :
    Prop where
  inv : Inv L id t₀ s
  proc : s.procs[i]? = some (.delete pc)
  alone : ∀ (j : ℕ) (p : Proc), j ≠ i → s.procs[j]? = some p → p.holdsDelete = false
  allocations : s.allocations = []
  controller : s.controller = false
  there : There L id s.files pc

section Converging

variable {L : Layout} {id : Text} {t₀ u : Files} {s t : State} {i : ℕ} {pc pc' : DeletePc}

theorem holdsDelete_of_holdsSubmit {p : Proc} (h : p.holdsSubmit = true) : p.holdsDelete = true := by
  cases p with
  | delete pc => cases pc <;> first | rfl | cases h
  | rm => rfl
  | stop | gone => cases h

theorem Converging.deleteFree (h : Converging L id t₀ s i pc) (hpc : pc.holdsDelete = false) :
    (s.procs.all fun p => !p.holdsDelete) = true := by
  rw [List.all_eq_true]
  intro p hp
  obtain ⟨j, hj⟩ := List.mem_iff_getElem?.1 hp
  by_cases hji : j = i
  · subst hji
    rw [h.proc] at hj
    cases hj
    simpa [Proc.holdsDelete] using hpc
  · simpa using h.alone j p hji hj

theorem Converging.submitFree (h : Converging L id t₀ s i pc) (hpc : pc.holdsSubmit = false) :
    s.submitFree = true := by
  have hall : (s.procs.all fun p => !p.holdsSubmit) = true := by
    rw [List.all_eq_true]
    intro p hp
    obtain ⟨j, hj⟩ := List.mem_iff_getElem?.1 hp
    by_cases hji : j = i
    · subst hji
      rw [h.proc] at hj
      cases hj
      simpa [Proc.holdsSubmit] using hpc
    · by_contra hhold
      have hdelete := holdsDelete_of_holdsSubmit (p := p) (by simpa using hhold)
      rw [h.alone j p hji hj] at hdelete
      cases hdelete
  rw [State.submitFree, h.controller, hall]
  rfl

/-- The next command succeeds. -/
theorem Converging.advance (h : Converging L id t₀ s i pc)
    (heffect : deleteEffect L id s.files pc = some u)
    (hnext : pc.next (s.deleteView L id) = some pc') (hthere : There L id u pc') :
    ∃ t, s.step L id (.script i true) = some t ∧ Converging L id t₀ t i pc' := by
  have hstep : s.step L id (.script i true) =
      some ({ s with files := u }.set i (.delete pc')) := by
    simp [State.step, h.proc, State.command, heffect, hnext]
  have hlt : i < s.procs.length := (List.getElem?_eq_some_iff.1 h.proc).1
  refine ⟨_, hstep, (h.inv.step hstep).1, ?_, ?_, h.allocations, h.controller, hthere⟩
  · exact List.getElem?_set_self hlt
  · intro j p hji hp
    have hp : (s.procs.set i (.delete pc'))[j]? = some p := hp
    rw [List.getElem?_set_ne (Ne.symm hji)] at hp
    exact h.alone j p hji hp

theorem Sound.present_iff (h : Sound L id t₀ s.files) (hlinked : Linked L id t₀ = false) :
    s.present L id = (s.files (L.job id)).isSome := by
  have hjob : (s.files (L.job id)).any Node.isLink = false := by
    rcases h.job hlinked with hnone | hdir
    · exact congrArg (Option.any Node.isLink) hnone
    · exact congrArg (Option.any Node.isLink) hdir
  have hstat : s.files.stat (L.job id) = s.files (L.job id) := h.jobs.stat_plain hjob
  have hlink : s.files.hasLink (L.job id) = false := (h.jobs.hasLink id).trans hjob
  rw [State.present, Tree.hasAny, hstat, hlink, Bool.or_false]

theorem Sound.directory_of_dir (h : Sound L id t₀ s.files)
    (hdir : s.files (L.job id) = some .dir) : s.directory L id = true := by
  have hjob : (s.files (L.job id)).any Node.isLink = false := congrArg (Option.any Node.isLink) hdir
  have hstat : s.files.stat (L.job id) = s.files (L.job id) := h.jobs.stat_plain hjob
  have hlink : s.files.hasLink (L.job id) = false := (h.jobs.hasLink id).trans hjob
  rw [State.directory, Tree.hasDir, hstat, hlink, hdir]
  rfl

theorem Sound.locks_not_link (h : Sound L id t₀ s.files) : s.files.hasLink L.locks = false := by
  refine (h.slurmy.hasLink _).trans ?_
  rcases h.locks with hnone | hdir
  · exact congrArg (Option.any Node.isLink) hnone
  · exact congrArg (Option.any Node.isLink) hdir

theorem Sound.lockLinks (h : Sound L id t₀ s.files) (hlocks : s.files L.locks = some .dir) :
    (s.files.hasLink (L.lockFile id) || s.files.hasLink (L.marker id)) = false := by
  have hdirs : s.files.Directories L.locks := h.slurmy.concat hlocks
  have hlock : s.files.hasLink (L.lockFile id) = false :=
    (hdirs.hasLink _).trans (Tree.not_link_of_plain h.lockFile)
  have hmarker : s.files.hasLink (L.marker id) = false :=
    (hdirs.hasLink _).trans (Tree.not_link_of_plain h.marker)
  rw [hlock, hmarker]
  rfl

/-- The test for a stopped job, or one whose deletion has begun. -/
theorem Sound.markedTest (h : Sound L id t₀ s.files) (hlinked : Linked L id t₀ = false)
    (hlocks : s.files L.locks = some .dir) (hdir : s.files (L.job id) = some .dir) :
    (s.files.hasFile (L.stopped id) || s.files.hasFile (L.marker id)) = true := by
  have hjob : s.files.Directories (L.job id) := h.jobs.concat hdir
  have hdirs : s.files.Directories L.locks := h.slurmy.concat hlocks
  have hstopped : s.files.hasFile (L.stopped id) = (s.files (L.stopped id)).isSome :=
    hjob.hasFile_plain (h.inside hlinked _ stopped_mem_controls)
  have hmarker : s.files.hasFile (L.marker id) = (s.files (L.marker id)).isSome :=
    hdirs.hasFile_plain h.marker
  rw [hstopped, hmarker, Bool.or_eq_true]
  rcases h.marked hlinked with hnone | hmarked
  · rw [hdir] at hnone
    cases hnone
  · exact hmarked

/-- A test for the job path: the run goes on when it finds the directory, and ends well otherwise. -/
theorem Converging.presentTest (h : Converging L id t₀ s i pc) (hlinked : Linked L id t₀ = false)
    (heffect : deleteEffect L id s.files pc = some s.files)
    (hnext : pc.next (s.deleteView L id) = some (if s.present L id then pc' else .exited 0))
    (hthere : s.files (L.job id) = some .dir → There L id s.files pc') :
    ∃ t pc'', s.step L id (.script i true) = some t ∧ Converging L id t₀ t i pc'' ∧
      rank pc'' ≤ rank pc' := by
  have hpresent := h.inv.sound.present_iff hlinked
  rcases h.inv.sound.job hlinked with hnone | hdir
  · rw [hpresent, hnone] at hnext
    obtain ⟨t, hstep, ht⟩ := h.advance heffect hnext ⟨rfl, hnone⟩
    exact ⟨t, _, hstep, ht, Nat.zero_le _⟩
  · rw [hpresent, hdir] at hnext
    obtain ⟨t, hstep, ht⟩ := h.advance heffect hnext (hthere hdir)
    exact ⟨t, _, hstep, ht, le_refl _⟩

/-- Each command leads on. -/
theorem Converging.step (h : Converging L id t₀ s i pc) (hlinked : Linked L id t₀ = false)
    (hvalid : isDeletable id = true) (hpc : ∀ rc, pc ≠ .exited rc) :
    ∃ t pc', s.step L id (.script i true) = some t ∧ Converging L id t₀ t i pc' ∧
      rank pc' < rank pc := by
  have hsound := h.inv.sound
  have hknows := h.inv.knows _ (List.mem_of_getElem? h.proc)
  have hthere := h.there
  have hgoes : ∀ {u : Files} {pc' : DeletePc}, deleteEffect L id s.files pc = some u →
      pc.next (s.deleteView L id) = some pc' → There L id u pc' → rank pc' < rank pc →
      ∃ t pc', s.step L id (.script i true) = some t ∧ Converging L id t₀ t i pc' ∧
        rank pc' < rank pc := by
    intro u pc' heffect hnext hthere hrank
    obtain ⟨t, hstep, ht⟩ := h.advance heffect hnext hthere
    exact ⟨t, pc', hstep, ht, hrank⟩
  cases pc with
  | arguments =>
    have hnext : DeletePc.arguments.next (s.deleteView L id) = some .present := by
      simp [DeletePc.next, State.deleteView, hvalid]
    exact hgoes rfl hnext trivial (by decide)
  | present =>
    have hnext : DeletePc.present.next (s.deleteView L id) =
        some (if s.present L id then .locks else .exited 0) := rfl
    obtain ⟨t, pc', hstep, ht, hrank⟩ := h.presentTest hlinked rfl hnext fun _ => trivial
    exact ⟨t, pc', hstep, ht, lt_of_le_of_lt hrank (by decide)⟩
  | locks =>
    have hnext : DeletePc.locks.next (s.deleteView L id) = some .mkdir := by
      simp [DeletePc.next, State.deleteView, hsound.locks_not_link]
    exact hgoes rfl hnext trivial (by decide)
  | mkdir => exact hgoes (hsound.slurmy.makeDir hsound.locks) rfl (Function.update_self ..) (by decide)
  | lockLinks =>
    have hnext : DeletePc.lockLinks.next (s.deleteView L id) = some .openDelete := by
      simp [DeletePc.next, State.deleteView, hsound.lockLinks hthere]
    exact hgoes rfl hnext hthere (by decide)
  | openDelete =>
    have hdirs : s.files.Directories L.locks := hsound.slurmy.concat hthere
    refine hgoes (hdirs.create_plain hsound.lockFile []) rfl ?_ (by decide)
    show Function.update s.files (L.lockFile id) _ L.locks = some .dir
    have hown : Own L id t₀ (L.lockFile id) := own_lockFile
    rwa [Function.update_of_ne hown.ne_locks]
  | lockDelete =>
    have hfree := h.deleteFree rfl
    have hnext : DeletePc.lockDelete.next (s.deleteView L id) = some .presentAgain := by
      simp only [DeletePc.next, State.deleteView, hfree, if_true]
    exact hgoes rfl hnext hthere (by decide)
  | presentAgain =>
    have hnext : DeletePc.presentAgain.next (s.deleteView L id) =
        some (if s.present L id then .stoppedTest else .exited 0) := rfl
    obtain ⟨t, pc', hstep, ht, hrank⟩ := h.presentTest hlinked rfl hnext fun hdir => ⟨hthere, hdir⟩
    exact ⟨t, pc', hstep, ht, lt_of_le_of_lt hrank (by decide)⟩
  | stoppedTest =>
    have hnext : DeletePc.stoppedTest.next (s.deleteView L id) = some .openSubmit := by
      simp only [DeletePc.next, State.deleteView, hsound.directory_of_dir hthere.2,
        hsound.markedTest hlinked hthere.1 hthere.2, Bool.and_self, if_true]
    exact hgoes rfl hnext hthere (by decide)
  | openSubmit =>
    have hjob : s.files.Directories (L.job id) := hsound.jobs.concat hthere.2
    have hplain := hsound.inside hlinked _ submitLock_mem_controls
    have hcontrol : L.submitLock id ∈ L.controls id := submitLock_mem_controls
    have hown := own_controls hlinked hcontrol
    refine hgoes (hjob.create_plain hplain []) rfl ⟨?_, ?_⟩ (by decide)
    · exact (Function.update_of_ne hown.ne_locks _ _).trans hthere.1
    · exact (Function.update_of_ne hown.ne_job _ _).trans hthere.2
  | lockSubmit =>
    have hfree := h.submitFree rfl
    have hnext : DeletePc.lockSubmit.next (s.deleteView L id) = some .queue := by
      simp only [DeletePc.next, State.deleteView, hfree, if_true]
    exact hgoes rfl hnext hthere (by decide)
  | queue =>
    have hnext : DeletePc.queue.next (s.deleteView L id) = some .mark := by
      simp [DeletePc.next, State.deleteView, h.allocations]
    exact hgoes rfl hnext hthere (by decide)
  | mark =>
    have hdirs : s.files.Directories L.locks := hsound.slurmy.concat hthere.1
    exact hgoes (hdirs.create_plain hsound.marker []) rfl trivial (by decide)
  | remove => exact hgoes (hsound.jobs.remove id) rfl trivial (by decide)
  | unmark =>
    have hentry : s.files.entry (L.marker id) = some (L.marker id) :=
      Tree.entry_of_follow hsound.follow_locks _
    exact hgoes (Tree.unlink_plain hentry hsound.marker) rfl trivial (by decide)
  | report => exact hgoes rfl rfl ⟨rfl, hknows⟩ (by decide)
  | exited rc => exact absurd rfl (hpc rc)

/-- The run ends with status 0, and the job is gone. -/
theorem Converging.run (h : Converging L id t₀ s i pc) (hlinked : Linked L id t₀ = false)
    (hvalid : isDeletable id = true) :
    ∃ n t, Machine.run (State.step L id) s (List.replicate n (.script i true)) = some t ∧
      Converging L id t₀ t i (.exited 0) := by
  induction hn : rank pc using Nat.strong_induction_on generalizing s pc with
  | _ n ih =>
    by_cases hpc : ∃ rc, pc = .exited rc
    · obtain ⟨rc, rfl⟩ := hpc
      obtain ⟨rfl, -⟩ := h.there
      exact ⟨0, s, rfl, h⟩
    · obtain ⟨m, pc', hstep, hm, hrank⟩ := h.step hlinked hvalid fun rc hrc => hpc ⟨rc, hrc⟩
      obtain ⟨k, t, hrun, ht⟩ := ih (rank pc') (hn ▸ hrank) hm rfl
      refine ⟨k + 1, t, ?_, ht⟩
      rw [List.replicate_succ]
      exact Machine.run_cons_some.2 ⟨m, hstep, hrun⟩

end Converging

/-! ### Afterwards -/

/-- The process is a run that finds the job removed, or nothing. -/
def early : Proc → Bool
  | .delete .arguments | .delete .present | .delete (.exited 0) => true
  | .stop .arguments | .stop .present | .stop (.exited 0) => true
  | .gone => true
  | _ => false

/-- Another job's files are what they were. -/
def Untouched (L : Layout) (id : Text) (t₀ t : Files) : Prop :=
  ∀ other, other ≠ id → ∀ p, t (L.jobs ++ other :: p) = t₀ (L.jobs ++ other :: p)

/-- A run that begins now ends with status 0 when it is left alone. -/
def endsWell (L : Layout) (id : Text) (s : State) (spawn : Event) : Prop :=
  ∃ t, Machine.run (State.step L id) s
      (spawn :: List.replicate 2 (.script s.procs.length true)) = some t ∧
    (t.procs[s.procs.length]?).bind Proc.exit? = some 0

section Afterwards

variable {L : Layout} {id : Text} {t₀ u : Files} {s t : State}

theorem Inv.untouched (h : Inv L id t₀ s) : Untouched L id t₀ s.files := by
  intro other hother p
  obtain ⟨hjob, hlocks⟩ := Layout.other_job (L := L) hother p
  exact h.sound.outside _ hlocks (.inr hjob)

/-- Without the job, the first test ends both scripts. -/
theorem Inv.not_present (h : Inv L id t₀ s) (hlinked : Linked L id t₀ = false)
    (hgone : s.files (L.job id) = none) : s.present L id = false := by
  rw [h.sound.present_iff hlinked, hgone]
  rfl

/-- The next place of such a process. -/
def onward : Proc → Option Proc
  | .delete .arguments => some (.delete .present)
  | .delete .present => some (.delete (.exited 0))
  | .stop .arguments => some (.stop .present)
  | .stop .present => some (.stop (.exited 0))
  | _ => none

theorem early_onward {p q : Proc} (h : onward p = some q) : early q = true := by
  unfold onward at h
  split at h <;> cases h <;> rfl

theorem early_step (h : Inv L id t₀ s) (hlinked : Linked L id t₀ = false)
    (hvalid : isDeletable id = true) (hgone : s.files (L.job id) = none) {i : ℕ} {p : Proc}
    (hp : s.procs[i]? = some p) (hearly : early p = true) :
    s.step L id (.script i true) = (onward p).map (s.set i) := by
  have hpresent := h.not_present hlinked hgone
  simp only [State.step, hp]
  unfold early at hearly
  split at hearly
  · simp [State.command, deleteEffect, DeletePc.next, State.deleteView, hvalid, onward]
  · simp [State.command, deleteEffect, DeletePc.next, State.deleteView, hpresent, onward]
  · simp [State.command, DeletePc.next, onward]
  · simp [State.command, stopEffect, StopPlace.next, hvalid, onward]
  · simp [State.command, stopEffect, StopPlace.next, hpresent, onward]
  · simp [State.command, StopPlace.next, onward]
  · rfl
  · cases hearly

/-- While the job is gone, a process that has begun since, and none of whose commands fails, stays
one that finds this. -/
theorem early_later {e : Event} {j : ℕ} (h : Inv L id t₀ s) (hlinked : Linked L id t₀ = false)
    (hvalid : isDeletable id = true) (hgone : s.files (L.job id) = none)
    (hfails : e ≠ .script j false) (hearly : ∀ p, s.procs[j]? = some p → early p = true)
    (hstep : s.step L id e = some t) : ∀ p, t.procs[j]? = some p → early p = true := by
  have hset : ∀ {i : ℕ} {q : Proc}, (i = j → early q = true) →
      ∀ p, (s.procs.set i q)[j]? = some p → early p = true := by
    intro i q hq p hp
    rw [List.getElem?_set] at hp
    split_ifs at hp with hij
    · cases hp
      exact hq hij
    · exact hearly p hp
  have hspawn : ∀ {q : Proc}, early q = true →
      ∀ p, (s.procs ++ [q])[j]? = some p → early p = true := by
    intro q hq p hp
    rw [List.getElem?_append] at hp
    split at hp
    · exact hearly p hp
    · rwa [List.mem_singleton.1 (List.mem_of_getElem? hp)]
  cases e with
  | spawnDelete =>
    cases hstep
    exact hspawn rfl
  | spawnStop =>
    cases hstep
    exact hspawn rfl
  | script i ok =>
    by_cases hij : i = j
    · subst hij
      have hok : ok = true := by
        cases ok with
        | true => rfl
        | false => exact absurd rfl hfails
      subst hok
      cases hp : s.procs[i]? with
      | none =>
        simp only [State.step, hp] at hstep
        cases hstep
      | some p =>
        rw [early_step h hlinked hvalid hgone hp (hearly p hp)] at hstep
        obtain ⟨q, hq, rfl⟩ := Option.map_eq_some_iff.1 hstep
        exact hset fun _ => early_onward hq
    · have hprocs : ∃ q, t.procs = s.procs.set i q := by
        simp only [State.step] at hstep
        split at hstep
        · rcases command_cases hstep with rfl | ⟨u, q, -, -, rfl⟩ <;> exact ⟨_, rfl⟩
        · rcases command_cases hstep with rfl | ⟨u, q, -, -, rfl⟩ <;> exact ⟨_, rfl⟩
        · rcases command_cases hstep with rfl | ⟨u, q, -, -, rfl⟩ <;> exact ⟨_, rfl⟩
        · cases hstep
      obtain ⟨q, hq⟩ := hprocs
      rw [hq]
      exact hset fun heq => absurd heq hij
  | unlink i q =>
    have hprocs : t.procs = s.procs := by
      simp only [State.step] at hstep
      split at hstep
      · obtain ⟨-, heq⟩ := Option.ite_none_right_eq_some.1 hstep
        cases heq
        rfl
      · obtain ⟨-, heq⟩ := Option.ite_none_right_eq_some.1 hstep
        cases heq
        rfl
      · cases hstep
    rwa [hprocs]
  | kill i survives =>
    obtain ⟨p, hp, rfl⟩ := Option.map_eq_some_iff.1 hstep
    refine hset fun hij => ?_
    subst hij
    have hp := hearly p hp
    unfold early at hp
    split at hp <;> first | rfl | cases hp
  | environment allocations controller =>
    cases hstep
    exact hearly
  | write q c =>
    obtain ⟨-, heq⟩ := Option.ite_none_right_eq_some.1 hstep
    cases heq
    exact hearly

theorem exit_of_early {p : Proc} {rc : ℕ} (h : early p = true) (hexit : p.exit? = some rc) :
    rc = 0 := by
  unfold early at h
  split at h <;> first | (cases hexit; rfl) | cases hexit | cases h

/-- A new process takes two commands. -/
theorem endsWell_of_onward (h : Inv L id t₀ s) (hlinked : Linked L id t₀ = false)
    (hvalid : isDeletable id = true) (hgone : s.files (L.job id) = none) {spawn : Event}
    {p q r : Proc} (hspawn : s.step L id spawn = some { s with procs := s.procs ++ [p] })
    (hp : early p = true) (hq : onward p = some q) (hr : onward q = some r)
    (hexit : r.exit? = some 0) : endsWell L id s spawn := by
  have hinv := (h.step hspawn).1
  have hfirst : (s.procs ++ [p])[s.procs.length]? = some p := by simp
  have hstep := early_step hinv hlinked hvalid hgone hfirst hp
  rw [hq] at hstep
  have hinv' := (hinv.step hstep).1
  have hsecond : ((s.procs ++ [p]).set s.procs.length q)[s.procs.length]? = some q := by simp
  have hstep' := early_step hinv' hlinked hvalid hgone hsecond (early_onward hq)
  rw [hr] at hstep'
  refine ⟨_, Machine.run_cons_some.2 ⟨_, hspawn, Machine.run_cons_some.2 ⟨_, hstep,
    Machine.run_cons_some.2 ⟨_, hstep', rfl⟩⟩⟩, ?_⟩
  simp [State.set, hexit]

theorem endsWell_of_gone (h : Inv L id t₀ s) (hlinked : Linked L id t₀ = false)
    (hvalid : isDeletable id = true) (hgone : s.files (L.job id) = none) :
    endsWell L id s .spawnDelete ∧ endsWell L id s .spawnStop :=
  ⟨endsWell_of_onward h hlinked hvalid hgone rfl rfl rfl rfl rfl,
    endsWell_of_onward h hlinked hvalid hgone rfl rfl rfl rfl rfl⟩

/-- The job is gone for good: the runs that begin later end with status 0. -/
structure GoneForGood (L : Layout) (id : Text) (t : State) : Prop where
  gone : t.files (L.job id) = none
  later : ∀ es u, Machine.run (State.step L id) t es = some u →
    u.files (L.job id) = none ∧ endsWell L id u .spawnDelete ∧ endsWell L id u .spawnStop ∧
      ∀ j p rc, t.procs.length ≤ j → (∀ e ∈ es, e ≠ .script j false) → u.procs[j]? = some p →
        p.exit? = some rc → rc = 0

theorem Inv.goneForGood (h : Inv L id t₀ t) (hlinked : Linked L id t₀ = false)
    (hvalid : isDeletable id = true) (hgone : t.files (L.job id) = none) : GoneForGood L id t := by
  refine ⟨hgone, fun es u hrun => ?_⟩
  obtain ⟨hinv, hkeep⟩ := h.run hrun
  obtain ⟨hdelete, hstop⟩ := endsWell_of_gone hinv hlinked hvalid (hkeep hgone)
  refine ⟨hkeep hgone, hdelete, hstop, ?_⟩
  intro j p rc hj hfails hp hexit
  have hnew : ∀ q, t.procs[j]? = some q → early q = true := by
    intro q hq
    rw [List.getElem?_eq_none hj] at hq
    cases hq
  have hend := Machine.invariant_along
    (I := fun v => Inv L id t₀ v ∧ v.files (L.job id) = none ∧
      ∀ q, v.procs[j]? = some q → early q = true)
    (fun v e w hv hne hstep => ?_) ⟨h, hgone, hnew⟩ (Machine.along_of_forall hfails t) hrun
  · exact exit_of_early (hend.2.2 p hp) hexit
  · obtain ⟨hinv, hgone, hearly⟩ := hv
    obtain ⟨hinv', hkeeps⟩ := hinv.step hstep
    exact ⟨hinv', hkeeps.gone hgone, early_later hinv hlinked hvalid hgone hne hearly hstep⟩

/-- A run that begins in a quiet state meets nobody. -/
theorem converging_of_quiet (h : Inv L id t₀ s) (hquiet : s.quiet = true) :
    Converging L id t₀ { s with procs := s.procs ++ [.delete .arguments] } s.procs.length
      .arguments := by
  obtain ⟨hboth, hfree⟩ := Bool.and_eq_true_iff.1 hquiet
  obtain ⟨hallocations, hcontroller⟩ := Bool.and_eq_true_iff.1 hboth
  have hspawn : s.step L id .spawnDelete =
      some { s with procs := s.procs ++ [.delete .arguments] } := rfl
  refine ⟨(h.step hspawn).1, by simp, ?_, of_decide_eq_true hallocations, by simpa using hcontroller,
    trivial⟩
  intro j p hj hp
  have hp : (s.procs ++ [.delete .arguments])[j]? = some p := hp
  rw [List.getElem?_append] at hp
  split at hp
  · simpa using List.all_eq_true.1 hfree p (List.mem_of_getElem? hp)
  · rw [List.mem_singleton.1 (List.mem_of_getElem? hp)]
    rfl

end Afterwards

/-- **A replayed deletion converges.**  After any number of runs of `remote_delete.sh` and
`remote_stop.sh`, killed anywhere, no file of another job has been touched, and nothing at all
outside `.delete-locks` when the job path is a link.  Otherwise, when SLURM has no allocation of the
job, no controller has its lock and no earlier deletion is under way, one more run of
`remote_delete.sh` that is left alone ends with status 0; then the job is gone, and every later run
of both scripts ends with status 0. -/
theorem replay_converges (L : Layout) (id : Text) (t₀ : Files) (es : List Event) (s : State)
    (hprepared : Prepared L id t₀) (hunlinked : unlinked L id t₀ = true)
    (hrun : Machine.run (State.step L id) (.start t₀) es = some s) :
    Untouched L id t₀ s.files ∧
      (Linked L id t₀ = true → ∀ r, ¬ L.locks <+: r → s.files r = t₀ r) ∧
      (Linked L id t₀ = false → isDeletable id = true → s.quiet = true →
        ∃ n t, Machine.run (State.step L id) s
            (.spawnDelete :: List.replicate n (.script s.procs.length true)) = some t ∧
          t.procs[s.procs.length]? = some (.delete (.exited 0)) ∧
          Untouched L id t₀ t.files ∧ GoneForGood L id t) := by
  have hinv := ((inv_start hprepared hunlinked).run hrun).1
  refine ⟨hinv.untouched, fun hlinked r hr => hinv.sound.outside r hr (.inl hlinked), ?_⟩
  intro hlinked hvalid hquiet
  obtain ⟨n, t, hrun', ht⟩ := (converging_of_quiet hinv hquiet).run hlinked hvalid
  refine ⟨n, t, Machine.run_cons_some.2 ⟨_, rfl, hrun'⟩, ht.proc, ht.inv.untouched, ?_⟩
  exact ht.inv.goneForGood hlinked hvalid ht.there.2

/-- The layout with `$HOME/slurmy` as the root. -/
def atRoot : Layout := ⟨["jobs".toList], [], by decide, by decide⟩

/-- A stopped job `a`, with this as its lock file, and a job `b`. -/
def sample (lock : Option (Node Text Text)) : Files := fun p =>
  if p = ["jobs".toList] ∨ p = ["jobs".toList, ['a']] ∨ p = ["jobs".toList, ['b']] then some .dir
  else if p = ["jobs".toList, ['a'], ".stopped".toList] then some (.file [])
  else if p = ["jobs".toList, ['b'], "metadata.json".toList] then some (.file ['m'])
  else if p = ["jobs".toList, ['a'], ".submit-controller.lock".toList] then lock
  else none

theorem directories_sample (lock : Option (Node Text Text)) :
    (sample lock).Directories atRoot.jobs := by
  intro q hq hne
  have hq : q <+: [] ++ ["jobs".toList] := hq
  rcases List.prefix_concat_iff.1 hq with rfl | hnil
  · rfl
  · exact absurd (List.prefix_nil.1 hnil) hne

theorem prepared_sample (lock : Option (Node Text Text)) : Prepared atRoot ['a'] (sample lock) where
  jobs := directories_sample lock
  slurmy q hq hne := absurd (List.prefix_nil.1 hq) hne
  locks := .inl rfl
  lockFile := rfl
  marker := rfl
  job := by
    have hdir : (sample lock).Directories (atRoot.job ['a']) := (directories_sample lock).concat rfl
    exact .inr (.inr ⟨rfl, (hdir.hasFile_plain rfl).trans rfl⟩)

/-- The first deletion is killed when its `rm` has removed the stop marker. -/
theorem replay_converges_sample :
    let es : List Event := [Event.spawnDelete] ++ List.replicate 13 (Event.script 0 true) ++
      [Event.unlink 0 ["jobs".toList, ['a'], ".stopped".toList], .kill 0 false, .spawnStop]
    ∃ s, Machine.run (State.step atRoot ['a']) (.start (sample none)) es = some s ∧
      Untouched atRoot ['a'] (sample none) s.files ∧
      ∃ n t, Machine.run (State.step atRoot ['a']) s
          (.spawnDelete :: List.replicate n (.script s.procs.length true)) = some t ∧
        t.procs[s.procs.length]? = some (.delete (.exited 0)) ∧
        Untouched atRoot ['a'] (sample none) t.files ∧ GoneForGood atRoot ['a'] t := by
  intro es
  have hquiet : (Machine.run (State.step atRoot ['a']) (.start (sample none)) es).map State.quiet =
      some true := by decide +kernel
  obtain ⟨s, hrun, hs⟩ := Option.map_eq_some_iff.1 hquiet
  obtain ⟨huntouched, -, hconverges⟩ := replay_converges atRoot ['a'] (sample none) es s
    (prepared_sample none) (by decide +kernel) hrun
  exact ⟨s, hrun, huntouched, hconverges (by decide +kernel) (by decide +kernel) hs⟩

/-- The lock file in the job directory is a link to a file of job `b`, which a deletion empties. -/
theorem link_followed :
    ¬ ∀ (L : Layout) (id : Text) (t₀ : Files) (es : List Event) (s : State),
      Prepared L id t₀ → Machine.run (State.step L id) (.start t₀) es = some s →
      Untouched L id t₀ s.files ∧
        (Linked L id t₀ = true → ∀ r, ¬ L.locks <+: r → s.files r = t₀ r) ∧
        (Linked L id t₀ = false → isDeletable id = true → s.quiet = true →
          ∃ n t, Machine.run (State.step L id) s
              (.spawnDelete :: List.replicate n (.script s.procs.length true)) = some t ∧
            t.procs[s.procs.length]? = some (.delete (.exited 0)) ∧
            Untouched L id t₀ t.files ∧ GoneForGood L id t) := by
  intro hall
  let lock : Option (Node Text Text) :=
    some (.link ["jobs".toList, ['b'], "metadata.json".toList])
  let es : List Event := [Event.spawnDelete] ++ List.replicate 16 (Event.script 0 true)
  have hend : (Machine.run (State.step atRoot ['a']) (.start (sample lock)) es).map
      (fun s => (s.procs, s.files ["jobs".toList, ['b'], "metadata.json".toList])) =
      some ([.delete (.exited 0)], some (.file [])) := by decide +kernel
  obtain ⟨s, hrun, hs⟩ := Option.map_eq_some_iff.1 hend
  have huntouched := (hall atRoot ['a'] (sample lock) es s (prepared_sample lock) hrun).1
  have hsame : s.files ["jobs".toList, ['b'], "metadata.json".toList] = some (.file ['m']) :=
    huntouched ['b'] (by decide) ["metadata.json".toList]
  rw [(Prod.mk.inj hs).2] at hsame
  cases hsame

end Delete
end Slurmy
