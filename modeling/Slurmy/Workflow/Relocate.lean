import Slurmy.Workflow.Replace

/-!
# Renaming a workflow

`rename_workflow` of `workflows.py` moves a workflow and writes the files that name its directory, with a journal
to go back by.

* `Listing`, `Request`: the files that are looked at, and what is asked for;
* `renameWorkflow`: the program;
* `Unmoved`: everything is as before, but for the temporary files;
* `replacing_undone`: so it is after a failure, here and in `replace`.
-/

namespace Slurmy
namespace Relocating

open Disk Attempt
open Saving (Bytes Path Files FileName Definition)

/-! ### The files -/

/-- The last component, `path.name`. -/
def name (rel : Path) : Text := rel.getLastD []

/-- `path.suffix` of a path with that name: from the last dot, unless it is the first or the last character. -/
def suffix (name : Text) : Text :=
  let tail := name.rtakeWhile (· ≠ '.')
  if tail ≠ [] ∧ tail.length + 1 < name.length then '.' :: tail else []

def suffixes : List Text :=
  [".json".toList, ".jsonl".toList, ".csv".toList, ".txt".toList, ".mk".toList, ".sh".toList]

def assets : Path := ["submit.sh.files".toList]

def callBundles : Path := assets ++ ["call-bundles".toList]

def manifest : Path := [FileName.manifest.text]

/-- A file of the workflow, or one below `submit.sh.files`, that may name the directory. -/
def IsCandidate (source : Path) (t : Files) (rel : Path) : Prop :=
  t.bytesAt (source ++ rel) ≠ none ∧
    ((rel.length = 1 ∧ (name rel = "Makefile".toList ∨ suffix (name rel) ∈ suffixes)) ∨
      (Dict.get t (source ++ assets) = some .dir ∧ assets <+: rel ∧ rel ≠ assets ∧ suffix (name rel) ∈ suffixes))

/-- One of `call-bundles/*.tar.gz`. -/
def IsBundle (source : Path) (t : Files) (rel : Path) : Prop :=
  Dict.get t (source ++ callBundles) = some .dir ∧ Dict.get t (source ++ rel) ≠ none ∧
    rel.dropLast = callBundles ∧ ".tar.gz".toList <:+ name rel

instance (source : Path) (t : Files) (rel : Path) : Decidable (IsCandidate source t rel) := by
  unfold IsCandidate
  infer_instance

instance (source : Path) (t : Files) (rel : Path) : Decidable (IsBundle source t rel) := by
  unfold IsBundle
  infer_instance

/-- The orders in which directories are listed. -/
structure Listing (source : Path) (t : Files) where
  candidates : List Path
  nodup_candidates : candidates.Nodup
  mem_candidates : ∀ rel, rel ∈ candidates ↔ IsCandidate source t rel
  bundles : List Path
  nodup_bundles : bundles.Nodup
  mem_bundles : ∀ rel, rel ∈ bundles ↔ IsBundle source t rel

/-- The paths below a directory, in the order of the tree. -/
def below (source : Path) (t : Files) : List Path :=
  ((t.filter fun entry => source <+: entry.1).map fun entry => entry.1.drop source.length).dedup

theorem mem_below {source : Path} {t : Files} {rel : Path} (h : Dict.get t (source ++ rel) ≠ none) :
    rel ∈ below source t := by
  unfold below
  rw [List.mem_dedup, List.mem_map]
  by_contra hnot
  apply h
  apply Dict.get_eq_none
  rintro entry hentry heq
  refine hnot ⟨entry, List.mem_filter.mpr ⟨hentry, ?_⟩, ?_⟩
  · rw [heq]
    exact decide_eq_true (List.prefix_append _ _)
  · rw [heq, List.drop_left]

def Listing.ofTree (source : Path) (t : Files) : Listing source t where
  candidates := (below source t).filter fun rel => IsCandidate source t rel
  nodup_candidates := (List.nodup_dedup _).filter _
  mem_candidates rel := by
    rw [List.mem_filter, decide_eq_true_iff]
    refine and_iff_right_of_imp fun h => mem_below fun hnone => h.1 ?_
    unfold Tree.bytesAt
    rw [hnone]
  bundles := (below source t).filter fun rel => IsBundle source t rel
  nodup_bundles := (List.nodup_dedup _).filter _
  mem_bundles rel := by
    rw [List.mem_filter, decide_eq_true_iff]
    exact and_iff_right_of_imp fun h => mem_below h.2.1

/-! ### The program -/

inductive Failure
  | notOwn
  | invalidName
  | existing
  | decisions
  | archive
  | look
  | os
  deriving DecidableEq

abbrev Program := EStateM Failure (World Text UInt8)

/-- A request: `manifest` is the new manifest, from the decisions of the workflow; `rewrite` puts the new name of
the directory into a text, and `rewriteBundle` into the members of an archive (`some none` where it is in none). -/
structure Request (source : Path) where
  name : Text
  manifest : Files → Option Bytes
  rewrite : Bytes → Bytes
  rewriteBundle : Bytes → Option (Option Bytes)
  listing : ∀ t, Listing source t

/-- An item of `updates`: the path below the directory, `before` and `after`. -/
abbrev Update := Path × Option Bytes × Bytes

/-- `'.' + path.name + '.rename-tmp'`, beside the file. -/
def temporary (rel : Path) : Path := rel.dropLast ++ ['.' :: (name rel ++ ".rename-tmp".toList)]

variable {source destination : Path}

/-- The new text of a candidate, when it is another one. -/
def Request.changed (r : Request source) (body : Bytes) : Option (Option Bytes) :=
  some (if r.rewrite body = body then none else some (r.rewrite body))

def orThrow {γ : Type} (e : Failure) : Option γ → Program γ
  | some a => pure a
  | none => throw e

/-- The files that `rewrite` changes. -/
def readFiles (source : Path) (rewrite : Bytes → Option (Option Bytes)) (updates : List Update) :
    List Path → Program (List Update)
  | [] => return updates
  | rel :: rels => do
      let t ← observe .look
      let body ← orThrow .look (t.bytesAt (source ++ rel))
      let changed ← orThrow .archive (rewrite body)
      readFiles source rewrite (changed.elim updates fun after => Dict.put updates rel (some body, after)) rels

/-- A file of the loop. -/
def putFile (destination : Path) (u : Update) : Program PUnit := do
  perform .os (.write (destination ++ temporary u.1) u.2.2)
  let t ← observe .look
  (if Dict.get t (destination ++ u.1) = none then pure ⟨⟩
    else perform .os (.chmod (destination ++ temporary u.1) (t.modeAt (destination ++ u.1))))
  perform .os (.replace (destination ++ temporary u.1) (destination ++ u.1))

/-- What goes back to a file. -/
def undoOp (destination : Path) (u : Update) : Op Text UInt8 :=
  match u.2.1 with
  | none => .discard (destination ++ u.1)
  | some before => .write (destination ++ u.1) before

/-- The `except` clause. -/
def goBack (source destination : Path) (written : List Update) : Program PUnit := do
  written.reverse.forM fun u => perform .os (undoOp destination u)
  perform .os (.rename destination source)

/-- The loop. Where a file cannot be written, `written` is what has been. -/
def putFiles (source destination : Path) (written : List Update) : List Update → Program PUnit
  | [] => pure ⟨⟩
  | u :: us => do
      onError (goBack source destination written) (putFile destination u)
      putFiles source destination (written ++ [u]) us

/-- To another name. -/
def relocate (source destination : Path) (r : Request source) : Program Path := do
  let t ← observe .look
  require (Dict.get t destination = none) .existing
  let t ← observe .look
  let data ← orThrow .decisions (r.manifest t)
  let t ← observe .look
  let updates ← readFiles source r.changed [] (r.listing t).candidates
  let t ← observe .look
  let updates := Dict.put updates manifest (t.bytesAt (source ++ manifest), data)
  let t ← observe .look
  let updates ← readFiles source r.rewriteBundle updates (r.listing t).bundles
  perform .os (.rename source destination)
  putFiles source destination [] updates
  return destination

/-- `rename_workflow`; `runs` is `USER_RUNS`. -/
def renameWorkflow (runs source : Path) (r : Request source) : Program Path := do
  require (source.dropLast = runs) .notOwn
  require (r.name.length ≤ 100 ∧ Portable.isWorkflowName r.name = true) .invalidName
  if runs ++ [r.name] = source then return source else relocate source (runs ++ [r.name]) r

/-! ### Names -/

theorem getLast?_name_temporary (rel : Path) : (name (temporary rel)).getLast? = some 'p' := by
  have hlast : ".rename-tmp".toList.getLast? = some 'p' := by decide +kernel
  unfold name temporary
  rw [List.getLastD_concat, ← List.cons_append, List.getLast?_append, hlast, Option.some_or]

/-- Not a temporary name. -/
def Lasting (rel : Path) : Prop := (name rel).getLast? ≠ some 'p'

theorem Lasting.ne_temporary {rel : Path} (h : Lasting rel) (rel' : Path) : rel ≠ temporary rel' := by
  rintro rfl
  exact h (getLast?_name_temporary rel')

theorem lasting_manifest : Lasting manifest := by
  show FileName.manifest.text.getLast? ≠ some 'p'
  decide +kernel

theorem getLast?_suffix {n : Text} (h : suffix n ≠ []) : (suffix n).getLast? = n.getLast? := by
  obtain ⟨front, hfront⟩ := List.rtakeWhile_suffix (p := (· ≠ '.')) n
  unfold suffix at h ⊢
  dsimp only at h ⊢
  split
  · next hcond =>
    obtain ⟨c, hc⟩ := Option.ne_none_iff_exists'.mp (mt List.getLast?_eq_none_iff.mp hcond.1)
    conv_rhs => rw [← hfront]
    rw [← List.singleton_append, List.getLast?_append, List.getLast?_append, hc, Option.some_or, Option.some_or]
  · next hcond => exact absurd (if_neg hcond) h

theorem lasting_of_suffix {rel : Path} (h : suffix (name rel) ∈ suffixes) : Lasting rel := by
  have hne : ∀ s ∈ suffixes, s ≠ [] ∧ s.getLast? ≠ some 'p' := by decide +kernel
  unfold Lasting
  rw [← getLast?_suffix (hne _ h).1]
  exact (hne _ h).2

theorem IsCandidate.lasting {t : Files} {rel : Path} (h : IsCandidate source t rel) : Lasting rel := by
  rcases h.2 with ⟨-, hname | hsuffix⟩ | ⟨-, -, -, hsuffix⟩
  · unfold Lasting
    rw [hname]
    decide +kernel
  · exact lasting_of_suffix hsuffix
  · exact lasting_of_suffix hsuffix

theorem IsBundle.lasting {t : Files} {rel : Path} (h : IsBundle source t rel) : Lasting rel := by
  obtain ⟨front, hfront⟩ := h.2.2.2
  have hlast : ".tar.gz".toList.getLast? = some 'z' := by decide +kernel
  unfold Lasting
  rw [← hfront, List.getLast?_append, hlast, Option.some_or]
  decide

/-! ### Reading -/

/-- The file may be written. -/
def Writes (source : Path) (t : Files) (rel : Path) : Prop :=
  rel = Relocating.manifest ∨ IsCandidate source t rel ∨ IsBundle source t rel

/-- What was there is as before, and there is nothing else, but for the temporary files of those that are
written. -/
def Unmoved (source : Path) (t u : Files) : Prop :=
  ∀ p, (∀ rel, Writes source t rel → p ≠ source ++ temporary rel) → u.held p = t.held p

/-- An operation of the `except` clause. -/
def GoesBack (source destination : Path) (op : Op Text UInt8) : Prop :=
  op = .rename destination source ∨ (∃ p, op = .discard p) ∨
    ∃ rel before, (∀ rel', rel ≠ temporary rel') ∧ op = .write (destination ++ rel) before

/-- What a failure may leave, when going back succeeds. -/
structure Failed (source destination : Path) (t : Files) (w : World Text UInt8) : Prop where
  quiet : w.Quiet
  unmoved : (∀ op ∈ w.broken, ¬ GoesBack source destination op) → Unmoved source t w.tree

/-- Nothing has been changed. -/
structure Before (t : Files) (w : World Text UInt8) : Prop where
  quiet : w.Quiet
  tree : w.tree = t

variable {r : Request source} {t : Files} {w : World Text UInt8} {e : Failure} {updates : List Update} {S : Set Path}

theorem Before.look (h : Before t w) : Before t { w with steps := w.steps.drop 1 } := ⟨h.quiet.drop, h.tree⟩

theorem Before.failed (h : Before t w) : Failed source destination t w :=
  ⟨h.quiet, fun _ _ _ => congrArg (Tree.held · _) h.tree⟩

/-- The journal: what is in it was there, under names that are not temporary. -/
structure Journal (source : Path) (t : Files) (updates : List Update) : Prop where
  nodup : (updates.map Prod.fst).Nodup
  before : ∀ u ∈ updates, u.2.1 = t.bytesAt (source ++ u.1)
  lasting : ∀ u ∈ updates, Lasting u.1
  writes : ∀ u ∈ updates, Writes source t u.1

theorem Journal.put (h : Journal source t updates) {rel : Path} {body : Option Bytes} {after : Bytes}
    (hbody : body = t.bytesAt (source ++ rel)) (hlasting : Lasting rel) (hwrites : Writes source t rel) :
    Journal source t (Dict.put updates rel (body, after)) where
  nodup := Dict.nodup_keys_put h.nodup rel _
  before u hu := (Dict.mem_put hu).elim (h.before u) fun heq => heq ▸ hbody
  lasting u hu := (Dict.mem_put hu).elim (h.lasting u) fun heq => heq ▸ hlasting
  writes u hu := (Dict.mem_put hu).elim (h.writes u) fun heq => heq ▸ hwrites

theorem journal_nil : Journal source t [] :=
  ⟨List.nodup_nil, nofun, nofun, nofun⟩

theorem triple_look : Triple (Before t) (observe e) (fun v w => Before t w ∧ v = t) (Before t) :=
  triple_observe_alone (fun _ h => h.quiet) (fun _ h => ⟨h.look, h.tree⟩) fun _ h => h.look

theorem triple_orThrow {γ : Type} {o : Option γ} {P E : World Text UInt8 → Prop} (hE : ∀ w, P w → E w) :
    Triple P (orThrow e o : Program γ) (fun a w => P w ∧ o = some a) E := by
  cases o with
  | none => exact Triple.throw hE
  | some a => exact Triple.pure fun _ h => ⟨h, rfl⟩

theorem triple_readFiles {rewrite : Bytes → Option (Option Bytes)} (rels : List Path)
    (hrels : ∀ rel ∈ rels, Lasting rel ∧ Writes source t rel) (updates : List Update) :
    Triple (fun w => Before t w ∧ Journal source t updates) (readFiles source rewrite updates rels)
      (fun updates' w => Before t w ∧ Journal source t updates') (Before t) := by
  induction rels generalizing updates with
  | nil => exact Triple.pure fun _ h => h
  | cons rel rels ih =>
    refine Triple.bind (R := fun v w => (Before t w ∧ Journal source t updates) ∧ v = t) ?_ fun v => ?_
    · exact triple_observe_alone (fun _ h => h.1.quiet) (fun _ h => ⟨⟨h.1.look, h.2⟩, h.1.tree⟩) fun _ h => h.1.look
    refine (triple_orThrow fun _ h => h.1.1).bind fun body => ?_
    refine (triple_orThrow fun _ h => h.1.1.1).bind fun changed => ?_
    intro w hw
    obtain ⟨⟨⟨⟨hbefore, hjournal⟩, rfl⟩, hbody⟩, -⟩ := hw
    refine ih (fun rel' h => hrels rel' (List.mem_cons_of_mem rel h)) _ w ⟨hbefore, ?_⟩
    cases changed with
    | none => exact hjournal
    | some after =>
      obtain ⟨hlasting, hwrites⟩ := hrels rel List.mem_cons_self
      exact hjournal.put hbody.symm hlasting hwrites

/-! ### In the new place -/

/-- The directory has been moved; nothing else has changed, outside `S`. -/
structure Away (source destination : Path) (t : Files) (S : Set Path) (w : World Text UInt8) : Prop where
  quiet : w.Quiet
  apart : ¬ source <+: destination ∧ ¬ destination <+: source
  free : ∀ p, destination <+: p → Dict.get t p = none
  same : ∀ rel, rel ∉ S → Dict.get w.tree (destination ++ rel) = Dict.get t (source ++ rel)
  gone : ∀ p, source <+: p → Dict.get w.tree p = none
  other : ∀ p, ¬ source <+: p → ¬ destination <+: p → Dict.get w.tree p = Dict.get t p

theorem Away.mono {S' : Set Path} (h : Away source destination t S w) (hS : S ⊆ S') :
    Away source destination t S' w :=
  { h with same := fun rel hrel => h.same rel fun hmem => hrel (hS hmem) }

theorem Away.look (h : Away source destination t S w) :
    Away source destination t S { w with steps := w.steps.drop 1 } :=
  { h with quiet := h.quiet.drop }

/-- A change of files in `S`. -/
theorem Away.change (h : Away source destination t S w) {paths : List Path}
    (hpaths : ∀ p ∈ paths, ∃ rel ∈ S, p = destination ++ rel) {w' : World Text UInt8} (hquiet : w'.Quiet)
    (hother : ∀ p, p ∉ paths → Dict.get w'.tree p = Dict.get w.tree p) : Away source destination t S w' where
  quiet := hquiet
  apart := h.apart
  free := h.free
  same rel hrel := by
    rw [hother, h.same rel hrel]
    intro hmem
    obtain ⟨rel', hrel', heq⟩ := hpaths _ hmem
    exact hrel (List.append_cancel_left heq ▸ hrel')
  gone p hp := by
    rw [hother, h.gone p hp]
    intro hmem
    obtain ⟨rel, -, rfl⟩ := hpaths _ hmem
    exact (List.prefix_or_prefix_of_prefix hp (List.prefix_append _ _)).elim h.apart.1 h.apart.2
  other p hsource hdestination := by
    rw [hother, h.other p hsource hdestination]
    intro hmem
    obtain ⟨rel, -, rfl⟩ := hpaths _ hmem
    exact hdestination (List.prefix_append _ _)

variable {op : Op Text UInt8}

theorem Away.after (h : Away source destination t S w) {paths : List Path} (hop : op.touched = some paths)
    (hpaths : ∀ p ∈ paths, ∃ rel ∈ S, p = destination ++ rel) {u : Files} (hu : op.apply w.tree = some u) :
    Away source destination t S (w.after [op] u) :=
  h.change hpaths h.quiet.after fun _ hp => get_apply_touched hop hu hp

theorem Away.failed (h : Away source destination t S w) {paths : List Path} (hop : op.touched = some paths)
    (hpaths : ∀ p ∈ paths, ∃ rel ∈ S, p = destination ++ rel) {u : Files} {fault : Option ℕ}
    (hu : op.left fault w.tree = some u) : Away source destination t S (w.failed op u) :=
  h.change hpaths h.quiet.failed fun _ hp => get_left_touched hop hu hp

theorem triple_touch {paths : List Path} (hop : op.touched = some paths)
    (hpaths : ∀ p ∈ paths, ∃ rel ∈ S, p = destination ++ rel) :
    Triple (Away source destination t S) (perform e op) (fun _ => Away source destination t S)
      (Away source destination t S) :=
  triple_perform_alone (fun _ h => h.quiet) (fun _ _ h hu => h.after hop hpaths hu)
    fun _ _ _ h hu => h.failed hop hpaths hu

/-- Where the files of the journal have been written, and the temporary ones. -/
def touchedBy (updates written : List Update) : Set Path :=
  {rel | (∃ u ∈ updates, rel = temporary u.1) ∨ rel ∈ written.map Prod.fst}

theorem triple_putFile {written : List Update} (hjournal : Journal source t updates) {u : Update}
    (hu : u ∈ updates) (hnew : u.1 ∉ written.map Prod.fst) :
    Triple (Away source destination t (touchedBy updates written)) (putFile destination u)
      (fun _ w => Away source destination t (touchedBy updates (written ++ [u])) w ∧
        Dict.get t (source ++ u.1) ≠ some .dir)
      (Away source destination t (touchedBy updates written)) := by
  have htemporary : temporary u.1 ∈ touchedBy updates written := .inl ⟨u, hu, rfl⟩
  have hpaths : ∀ p ∈ [destination ++ temporary u.1], ∃ rel ∈ touchedBy updates written, p = destination ++ rel :=
    fun p hp => ⟨_, htemporary, List.mem_singleton.mp hp⟩
  have hself : u.1 ∉ touchedBy updates written := by
    rintro (⟨u', -, heq⟩ | hmem)
    · exact (hjournal.lasting u hu).ne_temporary u'.1 heq
    · exact hnew hmem
  have hne : destination ++ temporary u.1 ≠ destination ++ u.1 := fun heq =>
    (hjournal.lasting u hu).ne_temporary u.1 (List.append_cancel_left heq).symm
  refine (triple_touch rfl hpaths).bind fun _ => ?_
  refine Triple.bind (R := fun _ => Away source destination t (touchedBy updates written)) ?_ fun v => ?_
  · exact triple_observe_alone (fun _ h => h.quiet) (fun _ h => h.look) fun _ h => h.look
  refine Triple.bind (R := fun _ => Away source destination t (touchedBy updates written)) ?_ fun _ => ?_
  · split
    · exact Triple.pure fun _ h => h
    · exact triple_touch rfl hpaths
  refine triple_perform_alone (fun _ h => h.quiet) (fun w v h hv => ?_) fun w v fault h hv => ?_
  · obtain ⟨-, -, -, hdir⟩ := replace_apply hv hne
    rw [h.same u.1 hself] at hdir
    have hmono : touchedBy updates written ⊆ touchedBy updates (written ++ [u]) := by
      rintro rel (htemp | hmem)
      · exact .inl htemp
      · refine .inr ?_
        rw [List.map_append]
        exact List.mem_append_left _ hmem
    refine ⟨(h.mono hmono).after rfl (fun p hp => ?_) hv, hdir⟩
    rcases List.mem_cons.mp hp with rfl | hp
    · exact ⟨_, hmono htemporary, rfl⟩
    · refine ⟨u.1, .inr ?_, List.mem_singleton.mp hp⟩
      rw [List.map_append]
      exact List.mem_append_right _ List.mem_cons_self
  · have hunchanged : v = w.tree := Saving.left_unchanged hv fun _ => rfl
    exact h.change (fun p hp => absurd hp List.not_mem_nil) h.quiet.failed fun p _ => congrArg (Dict.get · p) hunchanged

/-! ### Going back -/

/-- The files of `done` are as before. -/
def Restored (source destination : Path) (t : Files) (done : List Update) (w : World Text UInt8) : Prop :=
  ∀ u ∈ done, w.tree.held (destination ++ u.1) = t.held (source ++ u.1)

theorem touched_undoOp (u : Update) : (undoOp destination u).touched = some [destination ++ u.1] := by
  unfold undoOp
  split <;> rfl

theorem goesBack_undoOp {u : Update} (h : Lasting u.1) : GoesBack source destination (undoOp destination u) := by
  unfold undoOp
  split
  · exact .inr (.inl ⟨_, rfl⟩)
  · exact .inr (.inr ⟨u.1, _, h.ne_temporary, rfl⟩)

theorem held_undoOp {u : Update} (hbefore : u.2.1 = t.bytesAt (source ++ u.1))
    (hdir : Dict.get t (source ++ u.1) ≠ some .dir) {v v' : Files} (hv : (undoOp destination u).apply v = some v') :
    v'.held (destination ++ u.1) = t.held (source ++ u.1) := by
  unfold undoOp at hv
  split at hv
  · next hnone =>
    rw [held_eq_none.mpr (discard_apply hv), eq_comm, held_eq_none]
    rw [hnone] at hbefore
    unfold Tree.bytesAt at hbefore
    split at hbefore
    · cases hbefore
    · next hfile =>
      cases hget : Dict.get t (source ++ u.1) with
      | none => rfl
      | some node =>
        cases node with
        | dir => exact absurd hget hdir
        | file mode content => exact absurd hget (hfile mode content)
  · next before hsome =>
    obtain ⟨⟨mode, hfile⟩, -⟩ := write_apply hv
    rw [hsome] at hbefore
    rw [held_of_bytesAt (bytesAt_of_get hfile), held_of_bytesAt hbefore.symm]

/-- The files that have been written can be put back. -/
structure Reversible (source : Path) (r : Request source) (t : Files) (updates written : List Update) : Prop where
  journal : Journal source t updates
  subset : ∀ u ∈ written, u ∈ updates
  notDir : ∀ u ∈ written, Dict.get t (source ++ u.1) ≠ some .dir

theorem triple_undoOps {written : List Update} (h : Reversible source r t updates written) (us done : List Update)
    (hus : ∀ u ∈ us, u ∈ written) :
    Triple (fun w => Away source destination t (touchedBy updates written) w ∧ Restored source destination t done w)
      (us.forM fun u => perform Failure.os (undoOp destination u))
      (fun _ w => Away source destination t (touchedBy updates written) w ∧
        Restored source destination t (done ++ us) w)
      (Failed source destination t) := by
  induction us generalizing done with
  | nil =>
    rw [List.append_nil]
    exact Triple.pure fun _ h => h
  | cons u us ih =>
    have hsplit : done ++ u :: us = done ++ [u] ++ us := by rw [List.append_assoc]; rfl
    rw [hsplit]
    have hu := hus u List.mem_cons_self
    have hpaths : ∀ p ∈ [destination ++ u.1], ∃ rel ∈ touchedBy updates written, p = destination ++ rel :=
      fun p hp => ⟨u.1, .inr (List.mem_map_of_mem hu), List.mem_singleton.mp hp⟩
    refine Triple.bind (triple_perform_alone (fun _ h => h.1.quiet) (fun w v hw hv => ?_) fun w v fault hw hv => ?_)
      fun _ => ih (done ++ [u]) fun u' h' => hus u' (List.mem_cons_of_mem u h')
    · refine ⟨hw.1.after (touched_undoOp u) hpaths hv, fun u' hu' => ?_⟩
      have hheld := held_undoOp (h.journal.before u (h.subset u hu)) (h.notDir u hu) hv
      by_cases hsame : u'.1 = u.1
      · rw [hsame]
        exact hheld
      · have hdone : u' ∈ done := (List.mem_append.mp hu').resolve_right fun hlast =>
          hsame (congrArg Prod.fst (List.mem_singleton.mp hlast))
        refine (held_congr (get_apply_touched (touched_undoOp u) hv fun hmem => hsame ?_)).trans (hw.2 u' hdone)
        exact List.append_cancel_left (List.mem_singleton.mp hmem)
    · refine ⟨hw.1.quiet.failed, fun hclean => ?_⟩
      exact absurd (goesBack_undoOp (h.journal.lasting u (h.subset u hu)))
        (hclean _ (List.mem_append_right _ List.mem_cons_self))

/-- The directory has its name again. -/
theorem triple_rename_back {written : List Update} (h : Reversible source r t updates written) :
    Triple (fun w => Away source destination t (touchedBy updates written) w ∧
        Restored source destination t written w)
      (perform Failure.os (.rename destination source)) (fun _ => Failed source destination t)
      (Failed source destination t) := by
  refine triple_perform_alone (fun _ h => h.1.quiet) (fun w v hw hv => ?_) fun w v fault hw _ => ?_
  · refine ⟨hw.1.quiet.after, fun _ p hp => ?_⟩
    obtain ⟨hmoved, hgone, -⟩ := rename_apply hv fun _ => hw.1.gone
    show v.held p = t.held p
    by_cases hsource : source <+: p
    · obtain ⟨rel, rfl⟩ := hsource
      rw [held_congr (hmoved rel)]
      by_cases hrel : rel ∈ touchedBy updates written
      · rcases hrel with ⟨u, hu, rfl⟩ | hmem
        · exact absurd rfl (hp u.1 (h.journal.writes u hu))
        · obtain ⟨u, hu, rfl⟩ := List.mem_map.mp hmem
          exact hw.2 u hu
      · exact held_congr (hw.1.same rel hrel)
    · by_cases hdestination : destination <+: p
      · rw [held_eq_none.mpr (hgone p hdestination hsource), held_eq_none.mpr (hw.1.free p hdestination)]
      · rw [← held_congr (hw.1.other p hsource hdestination)]
        refine held_congr ((get_apply hv fun site hsite => ?_).resolve_right nofun)
        rcases List.mem_cons.mp hsite with rfl | hsite
        · exact hdestination
        · exact List.mem_singleton.mp hsite ▸ hsource
  · exact ⟨hw.1.quiet.failed, fun hclean => absurd (.inl rfl) (hclean _ (List.mem_append_right _ List.mem_cons_self))⟩

theorem triple_goBack {written : List Update} (h : Reversible source r t updates written) :
    Triple (Away source destination t (touchedBy updates written)) (goBack source destination written)
      (fun _ => Failed source destination t) (Failed source destination t) := by
  refine Triple.bind ((triple_undoOps h written.reverse [] fun u hu => List.mem_reverse.mp hu).weaken
    (fun w hw => ⟨hw, fun u hu => absurd hu List.not_mem_nil⟩) (fun _ _ hw => hw) fun _ hw => hw) fun _ => ?_
  exact (triple_rename_back h).weaken
    (fun w hw => ⟨hw.1, fun u hu => hw.2 u (List.mem_reverse.mpr hu)⟩) (fun _ _ hw => hw) fun _ hw => hw

/-! ### The whole program -/

theorem triple_putFiles {written : List Update} (us : List Update) (hupdates : updates = written ++ us)
    (h : Reversible source r t updates written) :
    Triple (Away source destination t (touchedBy updates written)) (putFiles source destination written us)
      (fun _ _ => True) (Failed source destination t) := by
  induction us generalizing written with
  | nil => exact Triple.pure fun _ _ => trivial
  | cons u us ih =>
    have hu : u ∈ updates := hupdates ▸ List.mem_append_right _ List.mem_cons_self
    have hnew : u.1 ∉ written.map Prod.fst := by
      have hnodup := h.journal.nodup
      rw [hupdates, List.map_append, List.nodup_append'] at hnodup
      exact fun hmem => hnodup.2.2 hmem List.mem_cons_self
    refine Triple.bind ((triple_putFile h.journal hu hnew).onError (triple_goBack h)) fun _ => ?_
    intro w hw
    refine ih (by rw [hupdates, List.append_assoc]; rfl) ⟨h.journal, fun u' hu' => ?_, fun u' hu' => ?_⟩ w hw.1
    · exact (List.mem_append.mp hu').elim (h.subset u') fun hlast => List.mem_singleton.mp hlast ▸ hu
    · exact (List.mem_append.mp hu').elim (h.notDir u') fun hlast => List.mem_singleton.mp hlast ▸ hw.2

theorem triple_rename (hrooted : Rooted destination t) :
    Triple (Before t) (perform Failure.os (.rename source destination))
      (fun _ => Away source destination t ∅) (Failed source destination t) := by
  refine triple_perform_alone (fun _ h => h.quiet) (fun w v h hv => ?_) fun w v fault h hv => ?_
  · obtain ⟨hquiet, rfl⟩ := h
    obtain ⟨hmoved, hgone, hapart⟩ := rename_apply hv hrooted
    have hfree : Dict.get w.tree destination = none := by
      rw [Op.apply] at hv
      split at hv
      · next hcond =>
        have hisFree := hcond.2.1
        unfold Tree.isFree at hisFree
        rw [Bool.and_eq_true, Bool.and_eq_true] at hisFree
        exact Option.isNone_iff_eq_none.1 hisFree.1.2
      · cases hv
    have hback : ¬ destination <+: source := by
      intro hpre
      have hsome : (Dict.get w.tree source).isSome := by
        rw [Op.apply] at hv
        split at hv
        · next hcond => exact hcond.1
        · cases hv
      rw [hrooted hfree source hpre] at hsome
      cases hsome
    refine ⟨hquiet.after, ⟨hapart, hback⟩, hrooted hfree, fun rel _ => hmoved rel, fun p hp => ?_, fun p hs hd => ?_⟩
    · refine hgone p hp fun hd => ?_
      exact (List.prefix_or_prefix_of_prefix hp hd).elim hapart hback
    · have hmakes : ¬ (Op.rename source destination).Makes w.tree p := by
        rintro ⟨d, h, -⟩
        cases h
      refine (get_apply hv fun site hsite => ?_).resolve_right hmakes
      rcases List.mem_cons.mp hsite with rfl | hsite
      · exact hs
      · exact List.mem_singleton.mp hsite ▸ hd
  · have hunchanged : v = w.tree := Saving.left_unchanged hv fun _ => rfl
    exact Before.failed ⟨h.quiet.failed, hunchanged.trans h.tree⟩

theorem triple_relocate (hrooted : Rooted destination t) :
    Triple (Before t) (relocate source destination r) (fun _ _ => True) (Failed source destination t) := by
  have hfailed : ∀ w, Before t w → Failed source destination t w := fun _ h => h.failed
  have hlook : ∀ {P : Prop}, Triple (fun w => Before t w ∧ P) (observe Failure.look)
      (fun v w => (Before t w ∧ P) ∧ v = t) (Failed source destination t) := by
    intro P
    exact triple_observe_alone (fun _ h => h.1.quiet) (fun _ h => ⟨⟨h.1.look, h.2⟩, h.1.tree⟩)
      fun _ h => h.1.look.failed
  unfold relocate
  refine Triple.bind (triple_look.weaken (fun _ h => h) (fun _ _ h => h.1) hfailed) fun _ => ?_
  refine (Triple.check hfailed).bind fun _ => ?_
  refine Triple.bind (triple_look.weaken (fun _ h => h) (fun _ _ h => h.1) hfailed) fun _ => ?_
  refine Triple.bind ((triple_orThrow hfailed).weaken (fun _ h => h) (fun _ _ h => h.1) fun _ h => h) fun data => ?_
  refine Triple.bind (triple_look.weaken (fun _ h => h) (fun _ _ h => h) hfailed) fun v => ?_
  intro w hw
  obtain ⟨hbefore, rfl⟩ := hw
  refine Triple.bind ((triple_readFiles (r.listing v).candidates (fun rel hrel => ?_) []).weaken
    (fun _ h => h) (fun _ _ h => h) hfailed) (fun updates => ?_) w ⟨hbefore, journal_nil⟩
  · have hcandidate := ((r.listing v).mem_candidates rel).mp hrel
    exact ⟨hcandidate.lasting, .inr (.inl hcandidate)⟩
  refine hlook.bind fun v' => ?_
  intro w hw
  obtain ⟨⟨hbefore, hjournal⟩, rfl⟩ := hw
  have hput : Journal source v' (Dict.put updates manifest (v'.bytesAt (source ++ manifest), data)) :=
    hjournal.put rfl lasting_manifest (.inl rfl)
  refine hlook.bind (fun v => ?_) w ⟨hbefore, hput⟩
  intro w hw
  obtain ⟨hw, rfl⟩ := hw
  refine Triple.bind ((triple_readFiles (r.listing v).bundles (fun rel hrel => ?_) _).weaken
    (fun _ h => h) (fun _ _ h => h) hfailed) (fun updates => ?_) w hw
  · have hbundle := ((r.listing v).mem_bundles rel).mp hrel
    exact ⟨hbundle.lasting, .inr (.inr hbundle)⟩
  intro w hw
  obtain ⟨hbefore, hjournal⟩ := hw
  have hreversible : Reversible source r v updates [] := ⟨hjournal, nofun, nofun⟩
  have hempty : ∀ w, Away source destination v ∅ w → Away source destination v (touchedBy updates []) w :=
    fun _ h => h.mono (Set.empty_subset _)
  refine Triple.bind ((triple_rename hrooted).weaken (fun _ h => h) (fun _ w h => hempty w h) fun _ h => h) (fun _ => ?_)
    w hbefore
  exact Triple.bind (R := fun _ _ => True) (triple_putFiles updates rfl hreversible) fun _ =>
    Triple.pure fun _ h => h

theorem triple_renameWorkflow {runs : Path} (hrooted : Rooted (runs ++ [r.name]) t) :
    Triple (Before t) (renameWorkflow runs source r) (fun _ _ => True) (Failed source (runs ++ [r.name]) t) := by
  have hfailed : ∀ w, Before t w → Failed source (runs ++ [r.name]) t w := fun _ h => h.failed
  unfold renameWorkflow
  refine (Triple.check hfailed).bind fun _ => (Triple.check hfailed).bind fun _ => ?_
  split
  · exact Triple.pure fun _ _ => trivial
  · exact triple_relocate hrooted

/-- A replacement or a renaming that fails leaves everything as it was, but for temporary files. -/
theorem replacing_undone (t : Files) (faults : List (Option ℕ)) :
    (∀ (dir : Path) (r : Replacing.Request) (e : Replacing.Failure) (w : World Text UInt8),
      Rooted (r.backup dir) t → Replacing.replace dir r (World.start t faults) = .error e w → w.broken.length ≤ 1 →
      Op.rmtree (r.backup dir) ∉ w.broken → Replacing.Undone dir r t w.tree) ∧
    ∀ (runs source : Path) (r : Request source) (e : Failure) (w : World Text UInt8),
      Rooted (runs ++ [r.name]) t → renameWorkflow runs source r (World.start t faults) = .error e w →
      (∀ op ∈ w.broken, ¬ GoesBack source (runs ++ [r.name]) op) → Unmoved source t w.tree := by
  constructor
  · intro dir r e w hrooted h hsingle hbackup
    have hafter := Replacing.triple_replace hrooted (World.start t faults)
      ⟨quiet_start t faults, rfl, fun _ _ => rfl⟩
    rw [h] at hafter
    exact hafter.undone hsingle hbackup
  · intro runs source r e w hrooted h hback
    have hafter := triple_renameWorkflow (r := r) hrooted (World.start t faults) ⟨quiet_start t faults, rfl⟩
    rw [h] at hafter
    exact hafter.unmoved hback

/-! ### A `Makefile` -/

/-- A workflow with a `Makefile`, and another file beside it. -/
def sampleTree (other : Path) : Files :=
  [([], .dir), ([['w']], .dir), ([['w'], FileName.makefile.text], .file 420 [1]), (other, .file 420 [7])]

def sampleReplacement : Replacing.Request where
  name := .makefile
  own := true
  valid := true
  content := [9]
  definition _ := some ⟨[(.makefile, [2])], by decide, 1⟩
  orders d := .ofLists d.files
  uploadSuffix := ['x']
  backupSuffix := ['y']

def sampleRenaming : Request [['w']] where
  name := ['v']
  manifest _ := some [3]
  rewrite _ := [2]
  rewriteBundle _ := some none
  listing := Listing.ofTree [['w']]

theorem rooted_of_forall {d : Path} {t : Files} (h : ∀ entry ∈ t, ¬ d <+: entry.1) : Rooted d t :=
  fun _ _ hq => Dict.get_eq_none fun entry hentry heq => h entry hentry (heq ▸ hq)

/-- The new `Makefile` cannot be put in its place. -/
theorem replacing_undone_makefile :
    (∃ e w, Replacing.replace [['w']] sampleReplacement
        (World.start (sampleTree [['w'], ['o']]) (List.replicate 16 none ++ [some 0])) = .error e w ∧
      Replacing.Undone [['w']] sampleReplacement (sampleTree [['w'], ['o']]) w.tree) ∧
    ∃ e w, renameWorkflow [] [['w']] sampleRenaming
        (World.start (sampleTree [['w'], ['o']]) (List.replicate 10 none ++ [some 0])) = .error e w ∧
      Unmoved [['w']] (sampleTree [['w'], ['o']]) w.tree := by
  constructor
  · obtain ⟨e, h⟩ := exists_of_isError (r := Replacing.replace [['w']] sampleReplacement
      (World.start (sampleTree [['w'], ['o']]) (List.replicate 16 none ++ [some 0]))) (by decide +kernel)
    refine ⟨e, _, h, (replacing_undone _ _).1 _ _ _ _ (rooted_of_forall ?_) h ?_ ?_⟩ <;> decide +kernel
  · obtain ⟨e, h⟩ := exists_of_isError (r := renameWorkflow [] [['w']] sampleRenaming
      (World.start (sampleTree [['w'], ['o']]) (List.replicate 10 none ++ [some 0]))) (by decide +kernel)
    refine ⟨e, _, h, (replacing_undone _ _).2 _ _ _ _ _ (rooted_of_forall ?_) h fun op hop => ?_⟩
    · decide +kernel
    · have hbroken : (state (renameWorkflow [] [['w']] sampleRenaming (World.start (sampleTree [['w'], ['o']])
          (List.replicate 10 none ++ [some 0])))).broken =
            [.replace ([['v']] ++ temporary [FileName.makefile.text]) [['v'], FileName.makefile.text]] := by
        decide +kernel
      rw [hbroken, List.mem_singleton] at hop
      rw [hop]
      rintro (hrename | ⟨p, hdiscard⟩ | ⟨rel, before, -, hwrite⟩)
      · cases hrename
      · cases hdiscard
      · cases hwrite

/-- Three ways in which something is lost: a file with the name of a temporary one, for either program, and the
directory of the copies that cannot be removed. -/
theorem replacing_loses :
    (¬ ∀ (dir : Path) (r : Replacing.Request) (t : Files) (faults : List (Option ℕ)) (e : Replacing.Failure)
      (w : World Text UInt8), Rooted (r.backup dir) t → Replacing.replace dir r (World.start t faults) = .error e w →
      w.broken.length ≤ 1 → Op.rmtree (r.backup dir) ∉ w.broken → Saving.Restored dir t w.tree) ∧
    (¬ ∀ (dir : Path) (r : Replacing.Request) (t : Files) (faults : List (Option ℕ)) (e : Replacing.Failure)
      (w : World Text UInt8), Rooted (r.backup dir) t → Replacing.replace dir r (World.start t faults) = .error e w →
      w.broken.length ≤ 1 → Replacing.Undone dir r t w.tree) ∧
    ¬ ∀ (runs source : Path) (r : Request source) (t : Files) (faults : List (Option ℕ)) (e : Failure)
      (w : World Text UInt8), Rooted (runs ++ [r.name]) t → renameWorkflow runs source r (World.start t faults) =
      .error e w → (∀ op ∈ w.broken, ¬ GoesBack source (runs ++ [r.name]) op) →
      Saving.Restored source t w.tree := by
  refine ⟨fun h => ?_, fun h => ?_, fun h => ?_⟩
  · obtain ⟨e, hrun⟩ := exists_of_isError (r := Replacing.replace [['w']] sampleReplacement
      (World.start (sampleTree (Saving.stage [['w']] .makefile)) (List.replicate 16 none ++ [some 0])))
      (by decide +kernel)
    have hrestored := h _ _ _ _ _ _ (rooted_of_forall (by decide +kernel)) hrun (by decide +kernel) (by decide +kernel)
    have hbytes := hrestored.bytes (Saving.stage [['w']] .makefile) (List.prefix_append _ _) [7] (by decide +kernel)
    exact absurd hbytes (by decide +kernel)
  · obtain ⟨e, hrun⟩ := exists_of_isError (r := Replacing.replace [['w']] sampleReplacement
      (World.start (sampleTree [['w'], ['o']]) (List.replicate 24 none ++ [some 0]))) (by decide +kernel)
    have hundone := h _ _ _ _ _ _ (rooted_of_forall (by decide +kernel)) hrun (by decide +kernel)
    have hheld := hundone (Replacing.Target.path [['w']] (.file .makefile)) (fun f _ =>
      Replacing.path_ne_stage _ _ f) (.inr ⟨_, rfl⟩)
    exact absurd hheld (by decide +kernel)
  · obtain ⟨e, hrun⟩ := exists_of_isError (r := renameWorkflow [] [['w']] sampleRenaming
      (World.start (sampleTree ([['w']] ++ temporary [FileName.makefile.text])) (List.replicate 7 none ++ [some 1])))
      (by decide +kernel)
    have hrestored := h _ _ _ _ _ _ _ (rooted_of_forall (by decide +kernel)) hrun fun op hop => ?_
    · have hbytes := hrestored.bytes ([['w']] ++ temporary [FileName.makefile.text]) (List.prefix_append _ _) [7]
        (by decide +kernel)
      exact absurd hbytes (by decide +kernel)
    · have hbroken : (state (renameWorkflow [] [['w']] sampleRenaming (World.start
          (sampleTree ([['w']] ++ temporary [FileName.makefile.text])) (List.replicate 7 none ++ [some 1])))).broken =
            [.write ([['v']] ++ temporary [FileName.makefile.text]) [2]] := by decide +kernel
      rw [hbroken, List.mem_singleton] at hop
      rw [hop]
      rintro (hrename | ⟨p, hdiscard⟩ | ⟨rel, before, hrel, hwrite⟩)
      · cases hrename
      · cases hdiscard
      · have hpath := (Op.write.inj hwrite).1
        exact hrel _ (List.append_cancel_left hpath).symm

end Relocating
end Slurmy
