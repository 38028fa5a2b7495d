import Slurmy.Workflow.Save

/-!
# Replacing a generated file

`replace` of `workflow_files.py` makes a new definition from an uploaded file and writes it, with a copy of
the old files to go back to.

* `Target`, `Orders`, `Request`: the files that may change, and what is asked for;
* `replace`: the program;
* `Undone`: everything is as before, but for the temporary files;
* `replace_undone`: so it is after a failure.
-/

namespace Slurmy
namespace Replacing

open Disk Attempt Saving

/-! ### The program -/

/-- `FILES`. -/
def generated : List FileName :=
  [.jobpairs, .configurations, .problemGlobs, .axiomGlobs, .building, .limiterTemplate, .makefile]

inductive Target
  | file (f : FileName)
  | submit
  deriving DecidableEq

def Target.text : Target → Text
  | file f => f.text
  | submit => "submit.sh".toList

def Target.path (dir : Path) (x : Target) : Path := dir ++ [x.text]

/-- The orders in which the sets `changed` and `set(FILES) | {'submit.sh'}` are gone through. -/
structure Orders (files : List (FileName × Bytes)) where
  changed : List Target
  nodup_changed : changed.Nodup
  mem_changed : ∀ x, x ∈ changed ↔ x = .submit ∨ ∃ f, x = .file f ∧ (f ∈ generated ∨ f ∈ files.map Prod.fst)
  obsolete : List Target
  nodup_obsolete : obsolete.Nodup
  mem_obsolete : ∀ x, x ∈ obsolete ↔ x = .submit ∨ ∃ f ∈ generated, x = .file f

/-- The sets as they are written. -/
def Orders.ofLists (files : List (FileName × Bytes)) : Orders files where
  changed := (.submit :: (generated ++ files.map Prod.fst).map .file).dedup
  nodup_changed := List.nodup_dedup _
  mem_changed x := by
    rw [List.mem_dedup, List.mem_cons, List.mem_map]
    refine or_congr Iff.rfl (exists_congr fun f => ?_)
    rw [List.mem_append, and_comm, eq_comm]
  obsolete := (.submit :: generated.map .file).dedup
  nodup_obsolete := List.nodup_dedup _
  mem_obsolete x := by
    rw [List.mem_dedup, List.mem_cons, List.mem_map]
    refine or_congr Iff.rfl (exists_congr fun f => and_congr Iff.rfl eq_comm)

inductive Failure
  | notGenerated
  | example
  | content
  | definition
  | notFile
  | look
  | os
  deriving DecidableEq

abbrev Program := EStateM Failure (World Text UInt8)

/-- A request: `own` says that the directory is one of the user's workflows, `valid` that the content is a text
without NUL, and `definition` is what the decisions of the workflow, with the upload, are turned into. -/
structure Request where
  name : FileName
  own : Bool
  valid : Bool
  content : Bytes
  definition : Files → Option Definition
  orders : ∀ d : Definition, Orders d.files
  uploadSuffix : Text
  backupSuffix : Text

/-- The temporary file of the upload. -/
def Request.upload (r : Request) (dir : Path) : Path := dir ++ [".replace-".toList ++ r.uploadSuffix]

/-- The temporary directory of the copies. -/
def Request.backup (r : Request) (dir : Path) : Path := dir ++ [".replace-backup-".toList ++ r.backupSuffix]

def orThrow {γ : Type} (e : Failure) : Option γ → Program γ
  | some a => pure a
  | none => throw e

/-- The definition, with the upload in a temporary file. -/
def validated (dir : Path) (r : Request) : Program Definition := do
  perform .os (.create (r.upload dir) [])
  ensure (perform .os (.unlink (r.upload dir))) do
    perform .os (.write (r.upload dir) r.content)
    let t ← observe .look
    orThrow .definition (r.definition t)

/-- Copies of the files that are there; the result is `existing`. -/
def backUp (dir : Path) (r : Request) (existing : List Target) : List Target → Program (List Target)
  | [] => pure existing
  | x :: xs => do
      let t ← observe .look
      require (Dict.get t (x.path dir) ≠ some .dir) .notFile
      if Dict.get t (x.path dir) = none then backUp dir r existing xs
      else
        perform .os (.copyFile (x.path dir) (x.path (r.backup dir)))
        backUp dir r (existing ++ [x]) xs

/-- The `except` clause. -/
def restore (dir : Path) (r : Request) (files : List (FileName × Bytes)) (changed existing : List Target) :
    Program PUnit := do
  files.forM fun f => perform .os (.discard (stage dir f.1))
  changed.forM fun x =>
    perform .os (if x ∈ existing then .copyFile (x.path (r.backup dir)) (x.path dir) else .discard (x.path dir))

/-- The new files, without the ones that are obsolete now. -/
def replaceOps (dir : Path) (files : List (FileName × Bytes)) (obsolete : List Target) : List (Op Text UInt8) :=
  saveOps dir files ++
    (obsolete.filter fun x => x ∉ files.map fun f => Target.file f.1).map fun x => .discard (x.path dir)

/-- What is done with the backup directory. -/
def replaceFiles (dir : Path) (r : Request) (d : Definition) : Program PUnit := do
  let existing ← backUp dir r [] (r.orders d).changed
  onError (restore dir r d.files (r.orders d).changed existing) do
    (replaceOps dir d.files (r.orders d).obsolete).forM (perform .os)

/-- `replace`. -/
def replace (dir : Path) (r : Request) : Program ℕ := do
  let t ← observe .look
  require (r.name ∈ generated ∧ t.bytesAt (target dir r.name) ≠ none) .notGenerated
  require (r.own = true) .example
  require (r.valid = true) .content
  let d ← validated dir r
  perform .os (.mkdir (r.backup dir))
  ensure (perform .os (.rmtree (r.backup dir))) (replaceFiles dir r d)
  return d.count

/-! ### Names -/

variable {dir : Path} {r : Request} {files : List (FileName × Bytes)}

theorem text_ne_submit (f : FileName) : f.text ≠ "submit.sh".toList := by
  cases f with
  | buildResource index =>
    intro h
    have htake := take_buildResource index
    rw [h] at htake
    exact absurd htake (by decide +kernel)
  | _ => decide +kernel

theorem Target.text_injective : Function.Injective Target.text := by
  intro x y h
  cases x with
  | file f =>
    cases y with
    | file g => exact congrArg file (Saving.text_injective h)
    | submit => exact absurd h (text_ne_submit f)
  | submit =>
    cases y with
    | file g => exact absurd h.symm (text_ne_submit g)
    | submit => rfl

theorem path_inj {x y : Target} (h : x.path dir = y.path dir) : x = y :=
  Target.text_injective (List.cons.inj (List.append_cancel_left h)).1

theorem path_ne_stage (dir : Path) (x : Target) (f : FileName) : x.path dir ≠ stage dir f := by
  cases x with
  | file g => exact target_ne_stage dir g f
  | submit =>
    intro h
    have hname := (List.cons.inj (List.append_cancel_left h)).1
    have hlast : ".slurmy-new".toList.getLast? = some 'w' := by decide +kernel
    have hsubmit : Target.submit.text.getLast? = some 'h' := by decide +kernel
    rw [hname, ← List.cons_append, List.getLast?_append, hlast, Option.some_or] at hsubmit
    exact absurd hsubmit (by decide)

/-- A temporary name of `replace`. -/
theorem take_text (x : Target) : x.text.take 2 ≠ ".r".toList := by
  cases x with
  | file f =>
    cases f with
    | buildResource index =>
      intro h
      have htake := congrArg (List.take 2) (take_buildResource index)
      rw [List.take_take] at htake
      exact absurd (h.symm.trans htake) (by decide +kernel)
    | _ => decide +kernel
  | submit => decide +kernel

theorem path_ne_temporary (x : Target) {rest : Text} (h : ".r".toList <+: rest) : x.path dir ≠ dir ++ [rest] := by
  intro heq
  have hname := (List.cons.inj (List.append_cancel_left heq)).1
  obtain ⟨tail, rfl⟩ := h
  have hlen : ".r".toList.length = 2 := by decide +kernel
  apply take_text x
  rw [hname, ← hlen, List.take_left]

theorem path_ne_upload (x : Target) : x.path dir ≠ r.upload dir := by
  apply path_ne_temporary x
  rw [show ".replace-".toList = ".r".toList ++ "eplace-".toList by decide +kernel, List.append_assoc]
  exact List.prefix_append _ _

theorem not_backup_below_path (x : Target) : ¬ r.backup dir <+: x.path dir := by
  intro hpre
  have heq := hpre.eq_of_length (by simp [Request.backup, Target.path])
  refine path_ne_temporary x ?_ heq.symm
  rw [show ".replace-backup-".toList = ".r".toList ++ "eplace-backup-".toList by decide +kernel, List.append_assoc]
  exact List.prefix_append _ _

/-! ### What is left alone -/

/-- The request may write the file. -/
def Request.Writes (r : Request) (f : FileName) : Prop :=
  ∃ v d, r.definition v = some d ∧ f ∈ d.files.map Prod.fst

/-- What was there, and the files that may change, are as before, but for the temporary files of those that
are written. -/
def Undone (dir : Path) (r : Request) (t u : Files) : Prop :=
  ∀ p, (∀ f, r.Writes f → p ≠ stage dir f) → (t.held p ≠ none ∨ ∃ x : Target, p = x.path dir) → u.held p = t.held p

/-- Nothing has changed outside `S`, and `n` operations have failed. -/
structure Kept (t : Files) (S : Set Path) (n : ℕ) (w : World Text UInt8) : Prop where
  quiet : w.Quiet
  broken : w.broken.length = n
  same : ∀ p, p ∉ S → Dict.get w.tree p = Dict.get t p

/-- What a failure may leave. -/
structure Failed (dir : Path) (r : Request) (t : Files) (w : World Text UInt8) : Prop where
  quiet : w.Quiet
  undone : w.broken.length ≤ 1 → Op.rmtree (r.backup dir) ∉ w.broken → Undone dir r t w.tree

variable {t : Files} {S S' : Set Path} {n : ℕ} {w : World Text UInt8} {op : Op Text UInt8} {e : Failure}

theorem Kept.look (h : Kept t S n w) : Kept t S n { w with steps := w.steps.drop 1 } :=
  ⟨h.quiet.drop, h.broken, h.same⟩

theorem Kept.mono (h : Kept t S n w) (hS : S ⊆ S') : Kept t S' n w :=
  ⟨h.quiet, h.broken, fun p hp => h.same p fun hmem => hp (hS hmem)⟩

theorem Kept.failed_of (h : Kept t S n w)
    (hS : ∀ p ∈ S, (∃ f, r.Writes f ∧ p = stage dir f) ∨ (Dict.get t p = none ∧ ∀ x : Target, p ≠ x.path dir)) :
    Failed dir r t w := by
  refine ⟨h.quiet, fun _ _ p hstage hp => held_congr (h.same p fun hmem => ?_)⟩
  rcases hS p hmem with ⟨f, hf, heq⟩ | ⟨hnone, hpath⟩
  · exact hstage f hf heq
  · rcases hp with hheld | ⟨x, heq⟩
    · exact hheld (held_eq_none.mpr hnone)
    · exact hpath x heq

theorem Failed.of_broken (hquiet : w.Quiet) (h : 2 ≤ w.broken.length) : Failed dir r t w :=
  ⟨hquiet, fun hle => by omega⟩

/-- An operation on files changes what it may. -/
theorem Kept.after (h : Kept t S n w) {paths : List Path} (hop : op.touched = some paths)
    (hS : ∀ p ∈ paths, p ∈ S) {u : Files} (hu : op.apply w.tree = some u) : Kept t S n (w.after [op] u) := by
  refine ⟨h.quiet.after, h.broken, fun p hp => ?_⟩
  show Dict.get u p = _
  rw [get_apply_touched hop hu fun hmem => hp (hS p hmem), h.same p hp]

theorem Kept.failed (h : Kept t S n w) {paths : List Path} (hop : op.touched = some paths)
    (hS : ∀ p ∈ paths, p ∈ S) {u : Files} {fault : Option ℕ} (hu : op.left fault w.tree = some u) :
    Kept t S (n + 1) (w.failed op u) := by
  refine ⟨h.quiet.failed, ?_, fun p hp => ?_⟩
  · show (w.broken ++ [op]).length = n + 1
    rw [List.length_append, h.broken, List.length_singleton]
  · show Dict.get u p = _
    rw [get_left_touched hop hu fun hmem => hp (hS p hmem), h.same p hp]

theorem triple_touch {paths : List Path} (hop : op.touched = some paths) (hS : ∀ p ∈ paths, p ∈ S) :
    Triple (Kept t S n) (perform e op) (fun _ => Kept t S n) (Kept t S (n + 1)) :=
  triple_perform_alone (fun _ h => h.quiet) (fun _ _ h hu => h.after hop hS hu) fun _ _ _ h hu => h.failed hop hS hu

/-! ### The upload -/

/-- A new file, at a path where there was none. -/
theorem triple_create {p : Path} :
    Triple (Kept t ∅ n) (perform e (.create p [])) (fun _ w => Kept t {p} n w ∧ Dict.get t p = none)
      (fun w => Kept t {p} (n + 1) w ∧ (Dict.get t p ≠ none → Kept t ∅ (n + 1) w)) := by
  have hfree : ∀ {v u : Files} {content : Bytes}, (Op.create p content).apply v = some u → Dict.get v p = none := by
    intro v u content h
    rw [Op.apply] at h
    split at h
    · next hfree =>
      unfold Tree.isFree at hfree
      rw [Bool.and_eq_true, Bool.and_eq_true] at hfree
      exact Option.isNone_iff_eq_none.1 hfree.1.2
    · cases h
  refine triple_perform_alone (fun _ h => h.quiet) (fun w u h hu => ?_) fun w u fault h hu => ?_
  · refine ⟨(h.mono (Set.empty_subset _)).after rfl (fun q hq => List.mem_singleton.mp hq) hu, ?_⟩
    rw [← h.same p (Set.notMem_empty p)]
    exact hfree hu
  · refine ⟨(h.mono (Set.empty_subset _)).failed rfl (fun q hq => List.mem_singleton.mp hq) hu, fun hne => ?_⟩
    have hunchanged : u = w.tree := by
      have hnone : ∀ content, (Op.create p content : Op Text UInt8).apply w.tree = none := by
        intro content
        cases happly : (Op.create p content : Op Text UInt8).apply w.tree with
        | none => rfl
        | some v =>
          rw [← h.same p (Set.notMem_empty p)] at hne
          exact absurd (hfree happly) hne
      apply left_unchanged hu
      intro k
      cases k with
      | zero => rfl
      | succ k =>
        rw [Op.torn, tornWrite, hnone]
        rfl
    refine ⟨h.quiet.failed, ?_, fun q hq => ?_⟩
    · show (w.broken ++ [_]).length = n + 1
      rw [List.length_append, h.broken, List.length_singleton]
    · show Dict.get u q = _
      rw [hunchanged, h.same q hq]

/-- The temporary file is gone again. -/
theorem triple_unlink {p : Path} (hp : Dict.get t p = none) :
    Triple (Kept t {p} n) (perform e (.unlink p)) (fun _ => Kept t ∅ n) (Kept t {p} (n + 1)) := by
  refine triple_perform_alone (fun _ h => h.quiet) (fun w u h hu => ?_) fun _ _ _ h hu =>
    h.failed rfl (fun q hq => List.mem_singleton.mp hq) hu
  have hkept := h.after rfl (fun q hq => List.mem_singleton.mp hq) hu
  refine ⟨hkept.quiet, hkept.broken, fun q _ => ?_⟩
  by_cases hq : q = p
  · subst hq
    show Dict.get u q = _
    rw [hp]
    rw [Op.apply] at hu
    split at hu
    · cases hu
      rw [Dict.get_erase, if_pos rfl]
    · cases hu
  · exact hkept.same q hq

theorem triple_orThrow {γ : Type} {o : Option γ} {P E : World Text UInt8 → Prop} (hE : ∀ w, P w → E w) :
    Triple P (orThrow e o : Program γ) (fun a w => P w ∧ o = some a) E := by
  cases o with
  | none => exact Triple.throw hE
  | some a => exact Triple.pure fun _ h => ⟨h, rfl⟩

theorem triple_look {P : Files → Prop} (hP : ∀ v : Files, (∀ p, p ∉ S → Dict.get v p = Dict.get t p) → P v) :
    Triple (Kept t S n) (observe e) (fun v w => Kept t S n w ∧ P v) (Kept t S n) :=
  triple_observe_alone (fun _ h => h.quiet) (fun w h => ⟨h.look, hP w.tree h.same⟩) fun _ h => h.look

theorem triple_validated : Triple (Kept t ∅ 0) (validated dir r)
    (fun d w => Kept t ∅ 0 w ∧ ∃ v, r.definition v = some d) (Failed dir r t) := by
  have hempty : ∀ {n w}, Kept t ∅ n w → Failed dir r t w := fun h => h.failed_of fun p hp => absurd hp (Set.notMem_empty p)
  by_cases hup : Dict.get t (r.upload dir) = none
  · have hupload : ∀ {n w}, Kept t {r.upload dir} n w → Failed dir r t w := by
      intro n w h
      refine h.failed_of fun p hp => .inr ?_
      rw [Set.mem_singleton_iff.mp hp]
      exact ⟨hup, fun x => (path_ne_upload x).symm⟩
    refine (triple_create.weaken (fun _ h => h) (fun _ _ h => h) fun _ h => hupload h.1).bind fun _ => ?_
    have hbody : Triple (fun w => Kept t {r.upload dir} 0 w ∧ Dict.get t (r.upload dir) = none) (do
          perform .os (.write (r.upload dir) r.content)
          let v ← observe .look
          orThrow .definition (r.definition v) : Program Definition)
        (fun d w => Kept t {r.upload dir} 0 w ∧ ∃ v, r.definition v = some d)
        fun w => ∃ n, Kept t {r.upload dir} n w := by
      refine Triple.bind (R := fun _ => Kept t {r.upload dir} 0) ?_ fun _ => ?_
      · exact (triple_touch rfl fun p hp => List.mem_singleton.mp hp).weaken (fun _ h => h.1) (fun _ _ h => h)
          fun _ h => ⟨_, h⟩
      · refine Triple.bind (R := fun _ => Kept t {r.upload dir} 0) ?_ fun v => ?_
        · exact (triple_look (P := fun _ => True) fun _ _ => trivial).weaken (fun _ h => h) (fun _ _ h => h.1)
            fun _ h => ⟨_, h⟩
        · exact (triple_orThrow fun _ h => ⟨_, h⟩).weaken (fun _ h => h) (fun d _ h => ⟨h.1, v, h.2⟩) fun _ h => h
    refine Triple.ensure hbody ?_ ?_
    · intro d w hw
      exact ((triple_unlink hup).weaken (fun _ h => h) (fun _ _ h => ⟨h, hw.2⟩) fun _ h => hupload h) w hw.1
    · rintro w ⟨n, hw⟩
      exact ((triple_unlink hup).weaken (fun _ h => h) (fun _ _ h => hempty h) fun _ h => hupload h) w hw
  · -- the name is taken: the file cannot be created
    refine (triple_create.weaken (fun _ h => h) (fun _ _ h => h) fun _ h => hempty (h.2 hup)).bind fun _ => ?_
    exact fun w hw => absurd hw.2 hup

/-! ### The copies -/

/-- Below the backup directory. -/
def copies (dir : Path) (r : Request) : Set Path := {p | r.backup dir <+: p}

/-- The copies of the files in `existing`; what else has been looked at is not there. -/
structure Backed (dir : Path) (r : Request) (t : Files) (existing seen : List Target) (w : World Text UInt8) : Prop where
  copied : ∀ x ∈ existing, ∃ content, t.bytesAt (x.path dir) = some content ∧
    w.tree.bytesAt (x.path (r.backup dir)) = some content
  missing : ∀ x ∈ seen, x ∉ existing → Dict.get t (x.path dir) = none

theorem path_mem_copies (x : Target) : x.path (r.backup dir) ∈ copies dir r := List.prefix_append _ _

theorem path_not_mem_copies (x : Target) : x.path dir ∉ copies dir r := not_backup_below_path x

theorem Backed.congr {existing seen : List Target} {w' : World Text UInt8} (h : Backed dir r t existing seen w)
    (hw : ∀ x ∈ existing, Dict.get w'.tree (x.path (r.backup dir)) = Dict.get w.tree (x.path (r.backup dir))) :
    Backed dir r t existing seen w' := by
  refine ⟨fun x hx => ?_, h.missing⟩
  obtain ⟨content, ht, hcopy⟩ := h.copied x hx
  exact ⟨content, ht, (bytesAt_congr (hw x hx)).trans hcopy⟩

theorem failed_of_copies (hfree : Dict.get t (r.backup dir) = none) (hrooted : Rooted (r.backup dir) t)
    (h : Kept t (copies dir r) n w) : Failed dir r t w := by
  refine h.failed_of fun p hp => .inr ⟨hrooted hfree p hp, ?_⟩
  rintro x rfl
  exact path_not_mem_copies x hp

theorem triple_copy (x : Target) {existing seen : List Target} (hfree : Dict.get t (r.backup dir) = none)
    (hrooted : Rooted (r.backup dir) t) :
    Triple (fun w => Kept t (copies dir r) 0 w ∧ Backed dir r t existing seen w)
      (perform Failure.os (.copyFile (x.path dir) (x.path (r.backup dir))))
      (fun _ w => Kept t (copies dir r) 0 w ∧ Backed dir r t (existing ++ [x]) (seen ++ [x]) w) (Failed dir r t) := by
  have hmem : ∀ p ∈ [x.path (r.backup dir)], p ∈ copies dir r := fun p hp =>
    List.mem_singleton.mp hp ▸ path_mem_copies x
  refine triple_perform_alone (fun _ h => h.1.quiet) (fun w u h hu => ⟨h.1.after rfl hmem hu, ?_⟩)
    fun w u fault h hu => failed_of_copies hfree hrooted (h.1.failed rfl hmem hu)
  obtain ⟨content, hsource, hcopy⟩ := copyFile_apply hu
  have hself : t.bytesAt (x.path dir) = some content := by
    rw [← bytesAt_congr (h.1.same _ (path_not_mem_copies x))]
    exact hsource
  refine ⟨fun y hy => ?_, fun y hy hnot => ?_⟩
  · by_cases hyx : y = x
    · subst hyx
      exact ⟨content, hself, hcopy⟩
    · have hold : y ∈ existing := (List.mem_append.mp hy).resolve_right fun hlast => hyx (List.mem_singleton.mp hlast)
      obtain ⟨c, ht, hc⟩ := h.2.copied y hold
      refine ⟨c, ht, (bytesAt_congr (get_apply_touched rfl hu fun hpath => hyx ?_)).trans hc⟩
      exact path_inj (List.mem_singleton.mp hpath)
  · rw [List.mem_append] at hnot
    have hold : y ∈ seen := (List.mem_append.mp hy).resolve_right fun hlast => hnot (.inr hlast)
    exact h.2.missing y hold fun hmem => hnot (.inl hmem)

theorem triple_backUp (hfree : Dict.get t (r.backup dir) = none) (hrooted : Rooted (r.backup dir) t)
    (xs existing seen : List Target) :
    Triple (fun w => Kept t (copies dir r) 0 w ∧ Backed dir r t existing seen w) (backUp dir r existing xs)
      (fun existing' w => Kept t (copies dir r) 0 w ∧ Backed dir r t existing' (seen ++ xs) w) (Failed dir r t) := by
  induction xs generalizing existing seen with
  | nil =>
    rw [List.append_nil]
    exact Triple.pure fun _ h => h
  | cons x xs ih =>
    have hsplit : seen ++ x :: xs = seen ++ [x] ++ xs := by rw [List.append_assoc]; rfl
    rw [hsplit]
    have hfailed : ∀ w, Kept t (copies dir r) 0 w ∧ Backed dir r t existing seen w → Failed dir r t w := fun _ h =>
      failed_of_copies hfree hrooted h.1
    refine Triple.bind (R := fun v w => (Kept t (copies dir r) 0 w ∧ Backed dir r t existing seen w) ∧
      Dict.get v (x.path dir) = Dict.get t (x.path dir)) ?_ fun v => ?_
    · exact triple_observe_alone (fun _ h => h.1.quiet)
        (fun _ h => ⟨⟨h.1.look, h.2.congr fun _ _ => rfl⟩, h.1.same _ (path_not_mem_copies x)⟩)
        fun _ h => failed_of_copies hfree hrooted h.1.look
    · refine Triple.bind (Triple.check fun w h => hfailed w h.1) fun _ => ?_
      split
      · next hnone =>
        intro w hw
        refine ih existing (seen ++ [x]) w ⟨hw.1.1, hw.1.2.copied, fun y hy hnot => ?_⟩
        rcases List.mem_append.mp hy with hy | hy
        · exact hw.1.2.missing y hy hnot
        · rw [List.mem_singleton.mp hy, ← hw.2]
          exact hnone
      · exact ((triple_copy x hfree hrooted).bind fun _ => ih (existing ++ [x]) (seen ++ [x])).weaken
          (fun _ h => h.1) (fun _ _ h => h) fun _ h => h

/-! ### The new files -/

/-- What may be different once the copies are made. -/
def written (dir : Path) (r : Request) (d : Definition) : Set Path :=
  {p | p ∈ copies dir r ∨ (∃ f ∈ d.files.map Prod.fst, p = stage dir f) ∨ ∃ x ∈ (r.orders d).changed, p = x.path dir}

/-- Between the copies and the end. -/
def Midway (dir : Path) (r : Request) (t : Files) (d : Definition) (existing : List Target) (n : ℕ)
    (w : World Text UInt8) : Prop :=
  Kept t (written dir r d) n w ∧ Backed dir r t existing (r.orders d).changed w

variable {d : Definition} {existing : List Target}

theorem stage_mem_written {f : FileName} (hf : f ∈ d.files.map Prod.fst) : stage dir f ∈ written dir r d :=
  .inr (.inl ⟨f, hf, rfl⟩)

theorem path_mem_written {x : Target} (hx : x ∈ (r.orders d).changed) : x.path dir ∈ written dir r d :=
  .inr (.inr ⟨x, hx, rfl⟩)

theorem mem_changed_file {f : FileName} (hf : f ∈ d.files.map Prod.fst) : Target.file f ∈ (r.orders d).changed :=
  ((r.orders d).mem_changed _).mpr (.inr ⟨f, rfl, .inr hf⟩)

theorem mem_changed_obsolete {x : Target} (hx : x ∈ (r.orders d).obsolete) : x ∈ (r.orders d).changed := by
  refine ((r.orders d).mem_changed x).mpr ?_
  rcases ((r.orders d).mem_obsolete x).mp hx with rfl | ⟨f, hf, rfl⟩
  · exact .inl rfl
  · exact .inr ⟨f, rfl, .inl hf⟩

/-- An operation on the files of the directory itself. -/
def Direct (dir : Path) (r : Request) (d : Definition) (op : Op Text UInt8) : Prop :=
  ∃ paths, op.touched = some paths ∧ ∀ p ∈ paths, p.length = dir.length + 1 ∧ p ∈ written dir r d

theorem length_stage (dir : Path) (f : FileName) : (stage dir f).length = dir.length + 1 := List.length_append

theorem length_path (dir : Path) (x : Target) : (x.path dir).length = dir.length + 1 := List.length_append

theorem direct_replaceOps (hop : op ∈ replaceOps dir d.files (r.orders d).obsolete) : Direct dir r d op := by
  rcases List.mem_append.mp hop with hsave | hobsolete
  · obtain ⟨f, hf, hop⟩ := List.mem_flatMap.mp hsave
    have hname : f.1 ∈ d.files.map Prod.fst := List.mem_map_of_mem hf
    have hstage : (stage dir f.1).length = dir.length + 1 ∧ stage dir f.1 ∈ written dir r d :=
      ⟨length_stage dir f.1, stage_mem_written hname⟩
    have htarget : (target dir f.1).length = dir.length + 1 ∧ target dir f.1 ∈ written dir r d :=
      ⟨length_path dir (.file f.1), path_mem_written (mem_changed_file hname)⟩
    rcases List.mem_append.mp hop with hwrite | hmode
    · rcases List.mem_cons.mp hwrite with rfl | hreplace
      · exact ⟨_, rfl, fun p hp => List.mem_singleton.mp hp ▸ hstage⟩
      · rw [List.mem_singleton.mp hreplace]
        refine ⟨_, rfl, fun p hp => ?_⟩
        rcases List.mem_cons.mp hp with rfl | hp
        · exact hstage
        · exact List.mem_singleton.mp hp ▸ htarget
    · split at hmode
      · rw [List.mem_singleton.mp hmode]
        exact ⟨_, rfl, fun p hp => List.mem_singleton.mp hp ▸ htarget⟩
      · cases hmode
  · obtain ⟨x, hx, rfl⟩ := List.mem_map.mp hobsolete
    refine ⟨_, rfl, fun p hp => List.mem_singleton.mp hp ▸ ⟨length_path dir x, path_mem_written ?_⟩⟩
    exact mem_changed_obsolete (List.mem_filter.mp hx).1

theorem Midway.after (h : Midway dir r t d existing n w) (hop : Direct dir r d op) {u : Files}
    (hu : op.apply w.tree = some u) : Midway dir r t d existing n (w.after [op] u) := by
  obtain ⟨paths, htouched, hpaths⟩ := hop
  refine ⟨h.1.after htouched (fun p hp => (hpaths p hp).2) hu, h.2.congr fun x _ => ?_⟩
  refine get_apply_touched htouched hu fun hmem => ?_
  have hlength := (hpaths _ hmem).1
  have hbackup : (r.backup dir).length = dir.length + 1 := List.length_append
  rw [length_path, hbackup] at hlength
  omega

theorem Midway.failed (h : Midway dir r t d existing n w) (hop : Direct dir r d op) {u : Files} {fault : Option ℕ}
    (hu : op.left fault w.tree = some u) : Midway dir r t d existing (n + 1) (w.failed op u) := by
  obtain ⟨paths, htouched, hpaths⟩ := hop
  refine ⟨h.1.failed htouched (fun p hp => (hpaths p hp).2) hu, h.2.congr fun x _ => ?_⟩
  refine get_left_touched htouched hu fun hmem => ?_
  have hlength := (hpaths _ hmem).1
  have hbackup : (r.backup dir).length = dir.length + 1 := List.length_append
  rw [length_path, hbackup] at hlength
  omega

theorem triple_direct (hop : Direct dir r d op) : Triple (Midway dir r t d existing n) (perform e op)
    (fun _ => Midway dir r t d existing n) (Midway dir r t d existing (n + 1)) :=
  triple_perform_alone (fun _ h => h.1.quiet) (fun _ _ h hu => h.after hop hu) fun _ _ _ h hu => h.failed hop hu

/-! ### Going back -/

/-- The files in `done` are as before. -/
def Restored (dir : Path) (t : Files) (done : List Target) (w : World Text UInt8) : Prop :=
  ∀ x ∈ done, w.tree.held (x.path dir) = t.held (x.path dir)

/-- What goes back to a file. -/
def restoreOp (dir : Path) (r : Request) (existing : List Target) (x : Target) : Op Text UInt8 :=
  if x ∈ existing then .copyFile (x.path (r.backup dir)) (x.path dir) else .discard (x.path dir)

theorem touched_restoreOp (x : Target) : (restoreOp dir r existing x).touched = some [x.path dir] := by
  unfold restoreOp
  split <;> rfl

theorem held_restoreOp {x : Target} (h : Midway dir r t d existing n w) (hx : x ∈ (r.orders d).changed) {u : Files}
    (hu : (restoreOp dir r existing x).apply w.tree = some u) : u.held (x.path dir) = t.held (x.path dir) := by
  unfold restoreOp at hu
  split at hu
  · next hexisting =>
    obtain ⟨content, ht, hcopy⟩ := h.2.copied x hexisting
    obtain ⟨content', hsource, hholds⟩ := copyFile_apply hu
    rw [hsource] at hcopy
    cases hcopy
    rw [held_of_bytesAt hholds, held_of_bytesAt ht]
  · next hexisting =>
    rw [held_eq_none.mpr (discard_apply hu), held_eq_none.mpr (h.2.missing x hx hexisting)]

theorem triple_restoreOp {x : Target} {done : List Target} (hx : x ∈ (r.orders d).changed) :
    Triple (fun w => Midway dir r t d existing 1 w ∧ Restored dir t done w)
      (perform Failure.os (restoreOp dir r existing x))
      (fun _ w => Midway dir r t d existing 1 w ∧ Restored dir t (done ++ [x]) w) (Failed dir r t) := by
  have hop : Direct dir r d (restoreOp dir r existing x) :=
    ⟨_, touched_restoreOp x, fun p hp => List.mem_singleton.mp hp ▸ ⟨length_path dir x, path_mem_written hx⟩⟩
  refine triple_perform_alone (fun _ h => h.1.1.quiet) (fun w u h hu => ⟨h.1.after hop hu, fun y hy => ?_⟩)
    fun w u fault h hu => ?_
  · by_cases hyx : y = x
    · subst hyx
      exact held_restoreOp h.1 hx hu
    · have hdone : y ∈ done := (List.mem_append.mp hy).resolve_right fun hlast => hyx (List.mem_singleton.mp hlast)
      refine (held_congr (get_apply_touched (touched_restoreOp x) hu fun hmem => hyx ?_)).trans (h.2 y hdone)
      exact path_inj (List.mem_singleton.mp hmem)
  · have hfailed := h.1.failed hop hu
    exact Failed.of_broken hfailed.1.quiet hfailed.1.broken.ge

theorem triple_restoreOps (xs done : List Target) (hxs : ∀ x ∈ xs, x ∈ (r.orders d).changed) :
    Triple (fun w => Midway dir r t d existing 1 w ∧ Restored dir t done w)
      (xs.forM fun x => perform Failure.os (restoreOp dir r existing x))
      (fun _ w => Midway dir r t d existing 1 w ∧ Restored dir t (done ++ xs) w) (Failed dir r t) := by
  induction xs generalizing done with
  | nil =>
    rw [List.append_nil]
    exact Triple.pure fun _ h => h
  | cons x xs ih =>
    have hsplit : done ++ x :: xs = done ++ [x] ++ xs := by rw [List.append_assoc]; rfl
    rw [hsplit]
    exact (triple_restoreOp (hxs x List.mem_cons_self)).bind fun _ =>
      ih (done ++ [x]) fun y hy => hxs y (List.mem_cons_of_mem x hy)

/-- Nothing was at the backup directory and below. -/
abbrev Free (dir : Path) (r : Request) (t : Files) : Prop := ∀ p ∈ copies dir r, Dict.get t p = none

theorem failed_of_restored (hfree : Free dir r t) {v : Files} (hd : r.definition v = some d)
    (h : Midway dir r t d existing n w) (hrestored : Restored dir t (r.orders d).changed w) : Failed dir r t w := by
  refine ⟨h.1.quiet, fun _ _ p hstage hp => ?_⟩
  by_cases hwritten : p ∈ written dir r d
  · rcases hwritten with hcopy | ⟨f, hf, rfl⟩ | ⟨x, hx, rfl⟩
    · rcases hp with hheld | ⟨x, rfl⟩
      · exact absurd (held_eq_none.mpr (hfree p hcopy)) hheld
      · exact absurd hcopy (path_not_mem_copies x)
    · exact absurd rfl (hstage f ⟨v, d, hd, hf⟩)
    · exact hrestored x hx
  · exact held_congr (h.1.same p hwritten)

theorem triple_restore (hfree : Free dir r t) {v : Files} (hd : r.definition v = some d) :
    Triple (Midway dir r t d existing 1) (restore dir r d.files (r.orders d).changed existing)
      (fun _ => Failed dir r t) (Failed dir r t) := by
  unfold restore
  refine Triple.bind (R := fun _ => Midway dir r t d existing 1) ?_ fun _ => ?_
  · refine Triple.forM fun f hf => (triple_direct ?_).weaken (fun _ h => h) (fun _ _ h => h) fun _ h =>
      Failed.of_broken h.1.quiet h.1.broken.ge
    exact ⟨_, rfl, fun p hp => List.mem_singleton.mp hp ▸
      ⟨length_stage dir f.1, stage_mem_written (List.mem_map_of_mem hf)⟩⟩
  · refine (triple_restoreOps (r.orders d).changed [] fun x hx => hx).weaken (fun w h => ⟨h, ?_⟩)
      (fun _ _ h => failed_of_restored hfree hd h.1 h.2) fun _ h => h
    exact fun x hx => absurd hx List.not_mem_nil

theorem triple_replaceFiles (hfree : Free dir r t) {v : Files} (hd : r.definition v = some d) :
    Triple (Kept t (copies dir r) 0) (replaceFiles dir r d) (fun _ => World.Quiet) (Failed dir r t) := by
  have hrooted : Rooted (r.backup dir) t := fun _ => hfree
  have hnone : Dict.get t (r.backup dir) = none := hfree _ (List.prefix_refl _)
  unfold replaceFiles
  refine Triple.bind (R := fun existing => Midway dir r t d existing 0) ?_ fun existing => ?_
  · refine (triple_backUp hnone hrooted (r.orders d).changed [] []).weaken (fun w h => ⟨h, ?_, ?_⟩)
      (fun _ _ h => ⟨h.1.mono fun p hp => .inl hp, h.2⟩) fun _ h => h
    · exact fun x hx => absurd hx List.not_mem_nil
    · exact fun x hx => absurd hx List.not_mem_nil
  · refine Triple.onError ?_ (triple_restore hfree hd)
    refine (Triple.forM (P := Midway dir r t d existing 0) fun op hop => ?_).weaken (fun _ h => h)
      (fun _ _ h => h.1.quiet) fun _ h => h
    exact triple_direct (direct_replaceOps hop)

/-! ### The whole program -/

/-- The copies are removed in the end. -/
theorem triple_rmtree (hfree : Free dir r t) : Triple (Failed dir r t) (perform Failure.os (.rmtree (r.backup dir)))
    (fun _ => Failed dir r t) (Failed dir r t) := by
  refine triple_perform_alone (fun _ h => h.quiet) (fun w u h hu => ?_) fun w u fault h hu => ?_
  · cases hu
    refine ⟨h.quiet.after, fun hbroken hclean p hstage hp => ?_⟩
    rw [← h.undone hbroken hclean p hstage hp]
    refine held_congr ((get_cut _ _ _).trans (if_neg fun hcopy => ?_))
    rcases hp with hheld | ⟨x, rfl⟩
    · exact hheld (held_eq_none.mpr (hfree p hcopy))
    · exact path_not_mem_copies x hcopy
  · exact ⟨h.quiet.failed, fun _ hclean => absurd (List.mem_append_right _ List.mem_cons_self) hclean⟩

theorem triple_rmtree_ok : Triple World.Quiet (perform Failure.os (.rmtree (r.backup dir)))
    (fun _ _ => True) (Failed dir r t) := by
  refine triple_perform_alone (fun _ h => h) (fun _ _ _ _ => trivial) fun w u fault h _ => ?_
  exact ⟨h.failed, fun _ hclean => absurd (List.mem_append_right _ List.mem_cons_self) hclean⟩

theorem triple_mkdir_backup (hrooted : Rooted (r.backup dir) t) :
    Triple (Kept t ∅ 0) (perform Failure.os (.mkdir (r.backup dir)))
      (fun _ w => Kept t (copies dir r) 0 w ∧ Free dir r t) (Failed dir r t) := by
  refine triple_perform_alone (fun _ h => h.quiet) (fun w u h hu => ?_) fun w u fault h hu => ?_
  · rw [Op.apply] at hu
    split at hu
    · next hisFree =>
      cases hu
      have hnone : Dict.get t (r.backup dir) = none := by
        rw [← h.same _ (Set.notMem_empty _)]
        unfold Tree.isFree at hisFree
        rw [Bool.and_eq_true, Bool.and_eq_true] at hisFree
        exact Option.isNone_iff_eq_none.1 hisFree.1.2
      refine ⟨⟨h.quiet.after, h.broken, fun p hp => ?_⟩, hrooted hnone⟩
      refine (Dict.get_put_of_ne _ _ ?_).trans (h.same p (Set.notMem_empty p))
      rintro rfl
      exact hp (List.prefix_refl _)
    · cases hu
  · have hunchanged : u = w.tree := left_unchanged hu fun _ => rfl
    have hkept : Kept t ∅ 1 (w.failed (.mkdir (r.backup dir)) u) := by
      refine ⟨h.quiet.failed, ?_, fun p hp => ?_⟩
      · show (w.broken ++ [_]).length = 1
        rw [List.length_append, h.broken, List.length_singleton]
      · show Dict.get u p = _
        rw [hunchanged, h.same p hp]
    exact hkept.failed_of fun p hp => absurd hp (Set.notMem_empty p)

/-- After a failure everything is as it was. -/
theorem triple_replace (hrooted : Rooted (r.backup dir) t) :
    Triple (Kept t ∅ 0) (replace dir r) (fun _ _ => True) (Failed dir r t) := by
  have hempty : ∀ w, Kept t ∅ 0 w → Failed dir r t w := fun w h => h.failed_of fun p hp => absurd hp (Set.notMem_empty p)
  unfold replace
  refine Triple.bind (R := fun _ => Kept t ∅ 0) ?_ fun u => ?_
  · exact (triple_look (P := fun _ => True) fun _ _ => trivial).weaken (fun _ h => h) (fun _ _ h => h.1) hempty
  refine (Triple.check hempty).bind fun _ => (Triple.check hempty).bind fun _ => (Triple.check hempty).bind fun _ => ?_
  refine triple_validated.bind fun d => ?_
  intro w hw
  obtain ⟨hkept, v, hd⟩ := hw
  refine Triple.bind (triple_mkdir_backup hrooted) (fun _ => ?_) w hkept
  intro w' hw'
  refine Triple.bind (R := fun _ _ => True) ?_ (fun _ => Triple.pure fun _ h => h) w' hw'.1
  exact Triple.ensure (triple_replaceFiles hw'.2 hd) (fun _ => triple_rmtree_ok) (triple_rmtree hw'.2)

end Replacing
end Slurmy
