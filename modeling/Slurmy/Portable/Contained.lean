import Slurmy.Portable.Import

/-!
# An import is contained

Whatever an archive holds, and wherever the import breaks off.

* `key_child`, `key_join`: where the paths of the import lie;
* `Op.Below`, `Staged`, `Published`: what the import has done until and since the new workflow is claimed;
* `triple_extractMember`, `triple_prepare`, `triple_publish`: one lemma for each part;
* `importBundle_contained`: the import works below its own directory, and leaves nothing when it fails.
-/

namespace Slurmy
namespace Portable

open Disk Attempt

variable (place : Place)

/-! ### Paths -/

theorem key_of_normal {p : PosixPath} (h : p.Normal) : key p = p.parts := by
  unfold key
  rw [PosixPath.normalize_of_normal h]

theorem normal_join {p q : PosixPath} (hp : p.Normal) (hq : q.Normal) : (p.join q).Normal := by
  unfold PosixPath.join
  split
  · exact hq
  · intro hmem
    exact (List.mem_append.1 hmem).elim hp hq

theorem parts_join {p q : PosixPath} (hq : q.isAbsolute = false) : (p.join q).parts = p.parts ++ q.parts := by
  unfold PosixPath.join
  rw [hq, if_neg Bool.false_ne_true]

theorem key_join {p q : PosixPath} (hp : p.Normal) (hq : q.Normal) (habs : q.isAbsolute = false) :
    key (p.join q) = key p ++ q.parts := by
  rw [key_of_normal (normal_join hp hq), parts_join habs, key_of_normal hp]

theorem normal_child {p : PosixPath} {name : Text} (hp : p.Normal) (hname : name ≠ ['.', '.']) : (child p name).Normal :=
  normal_join hp fun hmem => hname (List.mem_singleton.1 hmem).symm

theorem key_child {p : PosixPath} {name : Text} (hp : p.Normal) (hname : name ≠ ['.', '.']) :
    key (child p name) = key p ++ [name] :=
  key_join hp (fun hmem => hname (List.mem_singleton.1 hmem).symm) rfl

/-- The name of the temporary directory. -/
def Place.temporary : Text := ".import-".toList ++ place.random

theorem temporary_ne : place.temporary ≠ ['.', '.'] := fun h => by
  have hhead := congrArg (fun t => t.getD 1 ' ') h
  cases hhead

theorem normal_staging : place.staging.Normal := normal_child place.runs_normal (temporary_ne place)

theorem key_staging : key place.staging = key place.runs ++ [place.temporary] :=
  key_child place.runs_normal (temporary_ne place)

theorem ne_of_isWorkflowName {name : Text} (h : isWorkflowName name = true) :
    name ≠ ['.', '.'] ∧ name ≠ place.temporary := by
  have hdot : name.head? ≠ some '.' := by
    intro hhead
    unfold isWorkflowName at h
    rw [hhead] at h
    cases h
  constructor
  · rintro rfl
    exact hdot rfl
  · rintro rfl
    exact hdot rfl

theorem key_destination {name : Text} (h : isWorkflowName name = true) :
    key (place.destination name) = key place.runs ++ [name] :=
  key_child place.runs_normal (ne_of_isWorkflowName place h).1

theorem normal_axiomRoot : (axiomRoot place).Normal :=
  normal_child (normal_child (normal_staging place) (by decide)) (by decide)

theorem key_axiomRoot : key (axiomRoot place) = key place.staging ++ ["portable-tptp".toList, "Axioms".toList] := by
  unfold axiomRoot
  rw [key_child (normal_child (normal_staging place) (by decide)) (by decide),
    key_child (normal_staging place) (by decide), List.append_assoc]
  rfl

theorem normal_parent {p : PosixPath} (hp : p.Normal) : (parent p).Normal := fun hmem =>
  hp ((List.dropLast_sublist _).subset hmem)

/-! ### What has been done -/

/-- Everything that the operation changes is at or below one of some paths. -/
def Below (bases : List (List Text)) (op : Op Text UInt8) : Prop :=
  (∀ site ∈ op.sites, ∃ b ∈ bases, b <+: site) ∧ ∀ q, op = .mkdirs q → ∃ b ∈ bases, b <+: q

/-- Until the new workflow is claimed: operations below the temporary directory, or the making of the
directory of all workflows. -/
def Staged (log : List (Op Text UInt8)) : Prop :=
  ∀ op ∈ log, op = .mkdirs (key place.runs) ∨ Below [key place.staging] op

/-- After that: also operations below the new workflow. -/
def Published (name : Text) (log : List (Op Text UInt8)) : Prop :=
  ∃ pre post, log = pre ++ .mkdir (key (place.destination name)) :: post ∧ Staged place pre ∧
    ∀ op ∈ post, Below [key place.staging, key (place.destination name)] op

/-- The paths outside the temporary directory, and not above it. -/
def outside : Set (List Text) := {p | ¬ key place.staging <+: p ∧ ¬ p <+: key place.runs}

/-- Those that are not in the new workflow either. -/
def elsewhere (name : Text) : Set (List Text) := {p | p ∈ outside place ∧ ¬ key (place.destination name) <+: p}

theorem below_of_within {bases : List (List Text)} {op : Op Text UInt8} (h : op.Within bases) : Below bases op :=
  ⟨fun site hsite => (h.1 site hsite).imp fun _ hb => ⟨hb.1, hb.2.1⟩, h.2⟩

theorem Staged.concat {log : List (Op Text UInt8)} {op : Op Text UInt8} (h : Staged place log)
    (hop : Below [key place.staging] op) : Staged place (log ++ [op]) := by
  intro done hdone
  rcases List.mem_append.1 hdone with hdone | hdone
  · exact h done hdone
  · rw [List.mem_singleton.1 hdone]
    exact .inr hop

theorem Published.concat {name : Text} {log : List (Op Text UInt8)} {op : Op Text UInt8}
    (h : Published place name log) (hop : Below [key place.staging, key (place.destination name)] op) :
    Published place name (log ++ [op]) := by
  obtain ⟨pre, post, rfl, hpre, hpost⟩ := h
  refine ⟨pre, post ++ [op], by simp, hpre, fun done hdone => ?_⟩
  rcases List.mem_append.1 hdone with hdone | hdone
  · exact hpost done hdone
  · rw [List.mem_singleton.1 hdone]
    exact hop

/-! ### In the temporary directory -/

section Temporary

variable {place} {name : Text}

/-- The import while it works in its temporary directory. -/
abbrev InStaging (place : Place) (name : Text) : World Text UInt8 → Prop :=
  Confined (outside place) (key (place.destination name)) [key place.staging] (Staged place)

theorem separate_staging : Separate (outside place) [key place.staging] :=
  ⟨fun p hp o ho => List.mem_singleton.1 ho ▸ hp.1,
    fun o ho o' ho' _ => (List.mem_singleton.1 ho).trans (List.mem_singleton.1 ho').symm⟩

/-- An operation strictly below the temporary directory. -/
theorem triple_below {op : Op Text UInt8} (hop : op.Within [key place.staging]) :
    Triple (InStaging place name) (perform Failure.os op) (fun _ => InStaging place name) (InStaging place name) :=
  triple_perform separate_staging hop fun _ hlog => hlog.concat place (below_of_within hop)

theorem within_of_sites {op : Op Text UInt8} {q rest : List Text} (hsites : op.sites ⊆ [q])
    (hop : ∀ r, op ≠ .mkdirs r) (hq : q = key place.staging ++ rest) (hrest : rest ≠ []) :
    op.Within [key place.staging] := by
  refine ⟨fun site hsite => ⟨_, List.mem_cons_self, ?_⟩, fun r hr => absurd hr (hop r)⟩
  rw [List.mem_singleton.1 (hsites hsite), hq]
  exact ⟨List.prefix_append _ _, fun heq => hrest (List.self_eq_append_right.1 heq)⟩

theorem within_mkdirs {q rest : List Text} (hq : q = key place.staging ++ rest) :
    (Op.mkdirs q : Op Text UInt8).Within [key place.staging] := by
  refine ⟨fun site hsite => (by cases hsite), fun r hr => ⟨_, List.mem_cons_self, ?_⟩⟩
  cases hr
  rw [hq]
  exact List.prefix_append _ _

theorem key_parent {p : PosixPath} (hp : p.Normal) : key (parent p) = (key p).dropLast := by
  rw [key_of_normal (normal_parent hp), key_of_normal hp]
  rfl

/-- A file or a directory at a path strictly below the temporary directory. -/
theorem triple_writeMember {target : PosixPath} {rest : List Text} (m : TarMember) (hnormal : target.Normal)
    (htarget : key target = key place.staging ++ rest) (hrest : rest ≠ []) :
    Triple (InStaging place name) (writeMember target m) (fun _ => InStaging place name) (InStaging place name) := by
  have hparent : key (parent target) = key place.staging ++ rest.dropLast := by
    rw [key_parent hnormal, htarget, List.dropLast_append_of_ne_nil hrest]
  unfold writeMember
  split
  · exact triple_below (within_mkdirs htarget)
  · refine (triple_below (within_mkdirs hparent)).bind fun _ => ?_
    refine (triple_below ?_).bind fun _ => triple_below ?_
    · exact within_of_sites (List.Subset.refl _) (fun r hr => by cases hr) htarget hrest
    · exact within_of_sites (List.Subset.refl _) (fun r hr => by cases hr) htarget hrest

/-- A member is unpacked below the temporary directory, whatever its name. -/
theorem triple_extractMember (total : ℕ) (seen : List PosixPath) (m : TarMember) :
    Triple (InStaging place name) (extractMember place total seen m) (fun _ => InStaging place name)
      (InStaging place name) := by
  have hsafe : Triple (InStaging place name) (safeMember m)
      (fun relative w => InStaging place name w ∧ relative.isAbsolute = false ∧ relative.Normal ∧ relative.parts ≠ [])
      (InStaging place name) :=
    (Triple.require fun _ hw => hw).bind fun _ => Triple.pure fun w hw =>
      ⟨hw.1, hw.2.1, hw.2.2.1, hw.2.2.2.2.1⟩
  refine hsafe.bind fun relative => ?_
  intro w hw
  obtain ⟨hw, habs, hnormal, hparts⟩ := hw
  have hrest : Triple (InStaging place name) (do
      require (relative.parts.head? = some assets ∨ relative.parts = [definitionName]) Failure.notPortable
      require (relative ∉ seen) .duplicate
      require (total + m.size ≤ maxExpanded) .tooLarge
      require (relative.parts = [definitionName] → m.size ≤ 128 * 1024 ^ 2) .definitionTooLarge
      writeMember (place.staging.join relative) m
      return (total + m.size, relative :: seen)) (fun _ => InStaging place name) (InStaging place name) := by
    refine (Triple.check fun _ hw => hw).bind fun _ => ?_
    refine (Triple.check fun _ hw => hw).bind fun _ => ?_
    refine (Triple.check fun _ hw => hw).bind fun _ => ?_
    refine (Triple.check fun _ hw => hw).bind fun _ => ?_
    refine (triple_writeMember m (normal_join (normal_staging place) hnormal)
      (key_join (normal_staging place) hnormal habs) hparts).bind fun _ => ?_
    exact Triple.pure fun _ hw => hw
  exact hrest w hw

theorem triple_extractMembers (readerFails : Bool) (total : ℕ) (seen : List PosixPath) (members : List TarMember) :
    Triple (InStaging place name) (extractMembers place readerFails total seen members) (fun _ => InStaging place name)
      (InStaging place name) := by
  induction members generalizing total seen with
  | nil => exact Triple.check fun _ hw => hw
  | cons m members ih => exact (triple_extractMember total seen m).bind fun r => ih r.1 r.2

theorem triple_localPath (value : Text) :
    Triple (InStaging place name) (localPath place value) (fun _ => InStaging place name) (InStaging place name) :=
  (Triple.check fun _ hw => hw).bind fun _ => triple_observe.bind fun _ => Triple.check fun _ hw => hw

theorem triple_copyAxiom (item : Text × Text) :
    Triple (InStaging place name) (copyAxiom place item) (fun _ => InStaging place name) (InStaging place name) := by
  unfold copyAxiom
  refine Triple.bind (R := fun _ w => InStaging place name w ∧ (PosixPath.parse item.2).isAbsolute = false ∧
    ['.', '.'] ∉ (PosixPath.parse item.2).parts) (Triple.require fun _ hw => hw) fun _ => ?_
  intro w hw
  obtain ⟨hw, habs, hnormal⟩ := hw
  have hrelative : PosixPath.parse (PosixPath.parse item.2).str = PosixPath.parse item.2 :=
    PosixPath.parse_str (PosixPath.parse_valid item.2)
  have htarget : key ((axiomRoot place).join (PosixPath.parse item.2)) =
      key place.staging ++ (["portable-tptp".toList, "Axioms".toList] ++ (PosixPath.parse item.2).parts) := by
    rw [key_join (normal_axiomRoot place) hnormal habs, key_axiomRoot, List.append_assoc]
  have hparent : key (parent ((axiomRoot place).join (PosixPath.parse item.2))) =
      key place.staging ++ (["portable-tptp".toList, "Axioms".toList] ++ (PosixPath.parse item.2).parts).dropLast := by
    rw [key_parent (normal_join (normal_axiomRoot place) hnormal), htarget,
      List.dropLast_append_of_ne_nil (by simp)]
  have hrest : Triple (InStaging place name) (do
      localPath place item.1
      perform Failure.os (.mkdirs (key (parent ((axiomRoot place).join (PosixPath.parse item.2)))))
      perform .os (.copyFile (key (inputPath place item.1)) (key ((axiomRoot place).join (PosixPath.parse item.2)))))
      (fun _ => InStaging place name) (InStaging place name) := by
    refine (triple_localPath item.1).bind fun _ => ?_
    refine (triple_below (within_mkdirs hparent)).bind fun _ => triple_below ?_
    exact within_of_sites (List.Subset.refl _) (fun r hr => by cases hr) htarget (by simp)
  rw [hrelative]
  exact hrest w hw

/-- A file in the temporary directory itself. -/
theorem triple_writeFile {file : Text} (content : Bytes) (hfile : file ≠ ['.', '.']) :
    Triple (InStaging place name) (writeFile place file content) (fun _ => InStaging place name)
      (InStaging place name) :=
  triple_below (within_of_sites (List.Subset.refl _) (fun r hr => by cases hr)
    (key_child (normal_staging place) hfile) (List.cons_ne_nil _ _))

theorem triple_unlinkFile {file : Text} (hfile : file ≠ ['.', '.']) :
    Triple (InStaging place name) (unlinkFile place file) (fun _ => InStaging place name) (InStaging place name) :=
  triple_below (within_of_sites (List.Subset.refl _) (fun r hr => by cases hr)
    (key_child (normal_staging place) hfile) (List.cons_ne_nil _ _))

variable (reader : Reader)

theorem triple_writeFiles (texts : Texts) :
    Triple (InStaging place name) (writeFiles place reader texts) (fun _ => InStaging place name)
      (InStaging place name) := by
  unfold writeFiles
  refine (triple_writeFile _ (by decide)).bind fun _ => ?_
  refine (triple_writeFile _ (by decide)).bind fun _ => ?_
  refine (triple_writeFile _ (by decide)).bind fun _ => ?_
  refine (triple_writeFile _ (by decide)).bind fun _ => ?_
  refine (triple_writeFile _ (by decide)).bind fun _ => ?_
  refine triple_observe.bind fun t => ?_
  refine (Triple.check fun _ hw => hw).bind fun _ => ?_
  refine (triple_unlinkFile (by decide)).bind fun _ => ?_
  refine (triple_unlinkFile (by decide)).bind fun _ => ?_
  refine (Triple.forM fun globs _ => triple_writeFile globs (by decide)).bind fun _ => ?_
  refine (triple_writeFile _ (by decide)).bind fun _ => ?_
  refine (triple_writeFile _ (by decide)).bind fun _ => ?_
  exact triple_unlinkFile (by decide)

theorem triple_prepare (payload : Payload) :
    Triple (InStaging place name) (prepare place reader payload) (fun _ => InStaging place name)
      (InStaging place name) := by
  unfold prepare
  refine (Triple.check fun _ hw => hw).bind fun _ => ?_
  refine (Triple.check fun _ hw => hw).bind fun _ => ?_
  refine (Triple.forM fun value _ => triple_localPath value).bind fun _ => ?_
  refine (Triple.check fun _ hw => hw).bind fun _ => ?_
  refine (Triple.forM fun item _ => triple_copyAxiom item).bind fun _ => ?_
  refine triple_observe.bind fun t => ?_
  unfold writeTexts
  split
  · exact triple_writeFiles reader _
  · exact Triple.throw fun _ hw => hw

theorem triple_loadDefinition (t : Files) :
    Triple (InStaging place name) (loadDefinition place reader t) (fun _ => InStaging place name)
      (InStaging place name) := by
  unfold loadDefinition
  split
  · split
    · exact Triple.pure fun _ hw => hw
    · exact Triple.throw fun _ hw => hw
  · exact Triple.throw fun _ hw => hw

end Temporary

/-! ### The new workflow -/

section Publication

variable {place} {name : Text}

/-- A removal has not completed. -/
def Leftover (w : World Text UInt8) : Prop := ∃ p, Op.rmtree p ∈ w.broken

/-- Outside the temporary directory and the new workflow all is as without the import; and outside the
temporary directory, unless the new workflow is there. -/
structure Tidy (place : Place) (name : Text) (w : World Text UInt8) : Prop where
  log : Staged place w.log ∨ Published place name w.log
  others : Agree (elsewhere place name) w
  fresh : Agree (outside place) w ∨
    (key (place.destination name) ∈ w.own ∧ Dict.get w.alone (key (place.destination name)) = none)
  rooted : Rooted (key (place.destination name)) w.alone
  steps : ∀ step ∈ w.steps, ∀ c ∈ step.changes, c.Apart (key (place.destination name))

/-- The import has failed. -/
def Undone (place : Place) (name : Text) (w : World Text UInt8) : Prop :=
  Tidy place name w ∧ (Agree (outside place) w ∨ Leftover w)

/-- The import while it moves its files. -/
def Moving (place : Place) (name : Text) (w : World Text UInt8) : Prop :=
  Confined (elsewhere place name) (key (place.destination name)) [key place.staging, key (place.destination name)]
      (Published place name) w ∧
    Dict.get w.alone (key (place.destination name)) = none

theorem elsewhere_subset : elsewhere place name ⊆ outside place := fun _ hp => hp.1

theorem Tidy.of_confined {own : List (List Text)} {G : List (Op Text UInt8) → Prop} {w : World Text UInt8}
    (h : Confined (outside place) (key (place.destination name)) own G w)
    (hG : G w.log → Staged place w.log ∨ Published place name w.log) : Tidy place name w where
  log := hG h.log
  others p hp := h.agree p (elsewhere_subset hp)
  fresh := .inl h.agree
  rooted := h.rooted
  steps := h.steps

theorem Moving.tidy {w : World Text UInt8} (h : Moving place name w) : Tidy place name w where
  log := .inr h.1.log
  others := h.1.agree
  fresh := .inr ⟨h.1.own_eq ▸ List.mem_cons_of_mem _ List.mem_cons_self, h.2⟩
  rooted := h.1.rooted
  steps := h.1.steps

theorem not_staging_below_destination (place : Place) (hname : isWorkflowName name = true) :
    ¬ key place.staging <+: key (place.destination name) ∧ ¬ key (place.destination name) <+: key place.staging := by
  rw [key_staging, key_destination place hname]
  constructor
  · intro hpre
    have hlast := List.append_cancel_left (hpre.eq_of_length (by simp))
    exact (ne_of_isWorkflowName place hname).2 (List.singleton_injective hlast.symm)
  · intro hpre
    have hlast := List.append_cancel_left (hpre.eq_of_length (by simp))
    exact (ne_of_isWorkflowName place hname).2 (List.singleton_injective hlast)

theorem separate_published (hname : isWorkflowName name = true) :
    Separate (elsewhere place name) [key place.staging, key (place.destination name)] := by
  obtain ⟨hbelow, habove⟩ := not_staging_below_destination place hname
  constructor
  · intro p hp o ho
    rcases List.mem_cons.1 ho with rfl | ho
    · exact hp.1.1
    · exact List.mem_singleton.1 ho ▸ hp.2
  · intro o ho o' ho' hpre
    rcases List.mem_cons.1 ho with rfl | ho <;> rcases List.mem_cons.1 ho' with rfl | ho'
    · rfl
    · exact absurd (List.mem_singleton.1 ho' ▸ hpre) hbelow
    · exact absurd (List.mem_singleton.1 ho ▸ hpre) habove
    · rw [List.mem_singleton.1 ho, List.mem_singleton.1 ho']

/-! #### The removals -/

theorem below_rmtree {bases : List (List Text)} {p : List Text} (hp : p ∈ bases) : Below bases (.rmtree p) :=
  ⟨fun _ hsite => ⟨p, hp, List.mem_singleton.1 hsite ▸ List.prefix_refl _⟩, fun _ hr => by cases hr⟩

/-- What the removal of the temporary directory leaves. -/
theorem Tidy.remove {w : World Text UInt8} (h : Tidy place name w) :
    Tidy place name (state (perform Failure.os (.rmtree (key place.staging)) w)) := by
  obtain ⟨halone, hown, hlog, hsteps⟩ := perform_frame Failure.os (.rmtree (key place.staging)) w
  refine ⟨?_, h.others.rmtree fun q hq => hq.1.1, ?_, ?_, ?_⟩
  · rw [hlog]
    exact h.log.imp (fun hl => hl.concat place (below_rmtree List.mem_cons_self))
      fun hl => hl.concat place (below_rmtree List.mem_cons_self)
  · rcases h.fresh with hagree | ⟨hmem, hnone⟩
    · exact .inl (hagree.rmtree fun q hq => hq.1)
    · refine .inr ⟨hown ▸ hmem, ?_⟩
      rw [halone, (get_next_of_own hmem (.inl (List.prefix_refl _))).2]
      exact hnone
  · rw [halone]
    exact h.rooted.next h.steps
  · rw [hsteps]
    exact fun step hstep => h.steps step (steps_next w hstep)

/-- What the removal of the new workflow leaves. -/
theorem Moving.remove {w : World Text UInt8} (h : Moving place name w) :
    Tidy place name (state (perform Failure.os (.rmtree (key (place.destination name))) w)) := by
  obtain ⟨halone, hown, hlog, hsteps⟩ := perform_frame Failure.os (.rmtree (key (place.destination name))) w
  have htidy := h.tidy
  have hmem : key (place.destination name) ∈ w.own := h.1.own_eq ▸ List.mem_cons_of_mem _ List.mem_cons_self
  refine ⟨.inr ?_, htidy.others.rmtree fun q hq => hq.2, .inr ⟨hown ▸ hmem, ?_⟩, ?_, ?_⟩
  · rw [hlog]
    exact h.1.log.concat place (below_rmtree (List.mem_cons_of_mem _ List.mem_cons_self))
  · rw [halone, (get_next_of_own hmem (.inl (List.prefix_refl _))).2]
    exact h.2
  · rw [halone]
    exact htidy.rooted.next htidy.steps
  · rw [hsteps]
    exact fun step hstep => htidy.steps step (steps_next w hstep)

/-- Without the new workflow, and nothing below it, all is as without the import. -/
theorem agree_of_cut {w : World Text UInt8} (hothers : Agree (elsewhere place name) w)
    (hrooted : Rooted (key (place.destination name)) w.alone)
    (halone : Dict.get w.alone (key (place.destination name)) = none)
    (htree : ∀ q, key (place.destination name) <+: q → Dict.get w.tree q = none) : Agree (outside place) w := by
  intro q hq
  by_cases hbelow : key (place.destination name) <+: q
  · rw [htree q hbelow, hrooted halone q hbelow]
  · exact hothers q ⟨hq, hbelow⟩

theorem Leftover.perform {w : World Text UInt8} {op : Op Text UInt8} (h : Leftover w) :
    Leftover (state (perform Failure.os op w)) :=
  h.imp fun _ hp => (broken_perform Failure.os op w).1 hp

/-- The removal of the new workflow, when the move has failed. -/
theorem triple_rollback :
    Triple (Moving place name) (perform Failure.os (.rmtree (key (place.destination name))))
      (fun _ => Undone place name) (Undone place name) := by
  intro w hw
  have htidy := hw.remove
  have hbroken := (broken_perform Failure.os (.rmtree (key (place.destination name))) w).2
  rcases perform_cases Failure.os (.rmtree (key (place.destination name))) w with ⟨t, happly, heq⟩ | ⟨t, -, heq⟩
  · rw [heq] at htidy ⊢
    cases happly
    have halone : Dict.get w.next.2.alone (key (place.destination name)) = none :=
      (get_next_of_own (hw.1.own_eq ▸ List.mem_cons_of_mem _ List.mem_cons_self) (.inl (List.prefix_refl _))).2.trans hw.2
    refine ⟨htidy, .inl (agree_of_cut htidy.others htidy.rooted halone fun q hq => ?_)⟩
    exact (get_cut _ _ q).trans (if_pos hq)
  · rw [heq] at htidy hbroken ⊢
    exact ⟨htidy, .inr ⟨_, hbroken _ _ rfl⟩⟩

/-- The removal of the temporary directory, when something has failed. -/
theorem triple_cleanup_undone :
    Triple (Undone place name) (perform Failure.os (.rmtree (key place.staging)))
      (fun _ => Undone place name) (Undone place name) :=
  triple_of_state fun _ hw => ⟨hw.1.remove, hw.2.imp (fun h => h.rmtree fun _ hq => hq.1) fun h => h.perform⟩

/-- The removal of the temporary directory after the move. -/
theorem triple_cleanup_moving :
    Triple (Moving place name) (perform Failure.os (.rmtree (key place.staging)))
      (fun _ => Tidy place name) (Undone place name) := by
  intro w hw
  have htidy := hw.tidy.remove
  have hbroken := (broken_perform Failure.os (.rmtree (key place.staging)) w).2
  rcases perform_cases Failure.os (.rmtree (key place.staging)) w with ⟨t, -, heq⟩ | ⟨t, -, heq⟩
  · rw [heq] at htidy ⊢
    exact htidy
  · rw [heq] at htidy hbroken ⊢
    exact ⟨htidy, .inr ⟨_, hbroken _ _ rfl⟩⟩

/-! #### The move -/

theorem undone_of_inStaging {w : World Text UInt8} (h : InStaging place name w) : Undone place name w :=
  ⟨.of_confined h .inl, .inl h.agree⟩

/-- A move from the temporary directory into the new workflow. -/
theorem triple_move (hname : isWorkflowName name = true) (entry : Text) :
    Triple (Moving place name)
      (perform Failure.os (.rename (key place.staging ++ [entry]) (key (place.destination name) ++ [entry])))
      (fun _ => Moving place name) (Moving place name) := by
  have hwithin : (Op.rename (key place.staging ++ [entry]) (key (place.destination name) ++ [entry]) :
      Op Text UInt8).Within [key place.staging, key (place.destination name)] := by
    refine ⟨fun site hsite => ?_, fun q hq => by cases hq⟩
    rcases List.mem_cons.1 hsite with rfl | hsite
    · exact ⟨_, List.mem_cons_self, List.prefix_append _ _, by simp⟩
    · rw [List.mem_singleton.1 hsite]
      exact ⟨_, List.mem_cons_of_mem _ List.mem_cons_self, List.prefix_append _ _, by simp⟩
  have hconfined : Triple (Confined (elsewhere place name) (key (place.destination name))
      [key place.staging, key (place.destination name)] (Published place name))
      (perform Failure.os (.rename (key place.staging ++ [entry]) (key (place.destination name) ++ [entry]))) _ _ :=
    triple_perform (separate_published hname) hwithin fun _ hlog => hlog.concat place (below_of_within hwithin)
  apply triple_of_state
  intro w hw
  have hafter := hconfined w hw.1
  have halone : Dict.get (state (perform Failure.os
      (.rename (key place.staging ++ [entry]) (key (place.destination name) ++ [entry])) w)).alone
      (key (place.destination name)) = none := by
    rw [(perform_frame Failure.os _ w).1, (get_next_of_own
      (hw.1.own_eq ▸ List.mem_cons_of_mem _ List.mem_cons_self) (.inl (List.prefix_refl _))).2]
    exact hw.2
  cases hrun : perform Failure.os
      (.rename (key place.staging ++ [entry]) (key (place.destination name) ++ [entry])) w with
  | ok a w' =>
    rw [hrun] at hafter halone
    exact ⟨hafter, halone⟩
  | error e w' =>
    rw [hrun] at hafter halone
    exact ⟨hafter, halone⟩

theorem triple_observe_moving :
    Triple (Moving place name) (observe Failure.os) (fun _ => Moving place name) (Moving place name) := by
  intro w hw
  have hnext : Moving place name w.next.2 := ⟨hw.1.next, (get_next_of_own
    (hw.1.own_eq ▸ List.mem_cons_of_mem _ List.mem_cons_self) (.inl (List.prefix_refl _))).2.trans hw.2⟩
  unfold observe
  cases h : w.next with
  | mk fault w' =>
    rw [h] at hnext
    cases fault <;> exact hnext

theorem destination_outside (hname : isWorkflowName name = true) :
    key (place.destination name) ∈ outside place := by
  refine ⟨(not_staging_below_destination place hname).1, fun hpre => ?_⟩
  rw [key_destination place hname] at hpre
  have hlength := hpre.length_le
  simp at hlength

/-- The new workflow is claimed and filled, or taken back. -/
theorem triple_publish (hname : isWorkflowName name = true) :
    Triple (InStaging place name) (publish place name) (fun _ => Moving place name) (Undone place name) := by
  have hmkdir : Triple (InStaging place name) (perform Failure.os (.mkdir (key (place.destination name))))
      (fun _ w => Confined (elsewhere place name) (key (place.destination name)) [key place.staging]
          (Published place name) w ∧ Dict.get w.tree (key (place.destination name)) = some .dir ∧
        (key (place.destination name) ∈ outside place → Dict.get w.alone (key (place.destination name)) = none))
      (Undone place name) := by
    refine (triple_mkdir (fun p hp => hp) (fun b hb => ?_) fun log hlog => ?_).weaken (fun _ hw => hw)
      (fun _ _ hw => hw) fun w hw => ⟨.of_confined hw .inr, .inl hw.agree⟩
    · exact List.mem_singleton.1 hb ▸ (not_staging_below_destination place hname).2
    · exact ⟨log, [], rfl, hlog, fun op hop => by cases hop⟩
  refine hmkdir.bind fun _ => Triple.bind (R := fun _ => Moving place name) (fun w hw =>
    ⟨hw.1.claim hw.2.1, hw.2.2 (destination_outside hname)⟩) fun _ => ?_
  exact Triple.onError (triple_observe_moving.bind fun t => Triple.forM fun entry _ => triple_move hname entry)
    triple_rollback

variable (place) (reader : Reader)

theorem triple_importStaged (hname : isWorkflowName name = true) (members : List TarMember) (readerFails : Bool) :
    Triple (InStaging place name) (importStaged place reader members readerFails name) (fun _ => Moving place name)
      (Undone place name) := by
  have hundone : ∀ {γ : Type} {m : EStateM Failure (World Text UInt8) γ},
      Triple (InStaging place name) m (fun _ => InStaging place name) (InStaging place name) →
        Triple (InStaging place name) m (fun _ => InStaging place name) (Undone place name) := fun h =>
    h.weaken (fun _ hw => hw) (fun _ _ hw => hw) fun _ hw => undone_of_inStaging hw
  unfold importStaged
  refine (hundone (triple_extractMembers readerFails 0 [] members)).bind fun _ => ?_
  refine (hundone triple_observe).bind fun t => ?_
  refine (hundone (triple_loadDefinition reader t)).bind fun payload => ?_
  refine (hundone (triple_prepare reader payload)).bind fun _ => ?_
  exact (triple_publish hname).bind fun _ => Triple.pure fun _ hw => hw

theorem triple_importNamed (hname : isWorkflowName name = true) (members : List TarMember) (readerFails : Bool) :
    Triple (Confined (outside place) (key (place.destination name)) [] (Staged place))
      (importNamed place reader members readerFails name) (fun _ => Tidy place name) (Undone place name) := by
  have hundone : ∀ {own : List (List Text)} w,
      Confined (outside place) (key (place.destination name)) own (Staged place) w → Undone place name w :=
    fun w hw => ⟨.of_confined hw .inl, .inl hw.agree⟩
  have hmkdirs : Triple (Confined (outside place) (key (place.destination name)) [] (Staged place))
      (perform Failure.os (.mkdirs (key place.runs)))
      (fun _ => Confined (outside place) (key (place.destination name)) [] (Staged place))
      (Confined (outside place) (key (place.destination name)) [] (Staged place)) := by
    refine triple_of_state fun w hw => hw.perform (fun log hlog op hop => ?_) (fun p hp => ?_) fun o ho => by cases ho
    · rcases List.mem_append.1 hop with hop | hop
      · exact hlog op hop
      · exact .inl (List.mem_singleton.1 hop)
    · refine ⟨fun site hsite => (by cases hsite), ?_⟩
      rintro ⟨q, hq, hpre, -⟩
      cases hq
      exact hp.2 hpre
  have hmkdir : Triple (Confined (outside place) (key (place.destination name)) [] (Staged place))
      (perform Failure.os (.mkdir (key place.staging)))
      (fun _ w => Confined (outside place) (key (place.destination name)) [] (Staged place) w ∧
        Dict.get w.tree (key place.staging) = some .dir) (Undone place name) := by
    refine (triple_mkdir (S := outside place) (fun p hp => ⟨hp, hp.1⟩) (fun b hb => by cases hb)
      fun log hlog => ?_).weaken (fun _ hw => hw) (fun _ _ hw => ⟨hw.1, hw.2.1⟩) hundone
    refine hlog.concat place ⟨fun site hsite => ⟨_, List.mem_cons_self, ?_⟩, fun q hq => by cases hq⟩
    exact List.mem_singleton.1 hsite ▸ List.prefix_refl _
  unfold importNamed
  refine (triple_observe.weaken (fun _ hw => hw) (fun _ _ hw => hw) hundone).bind fun t => ?_
  refine (Triple.check hundone).bind fun _ => ?_
  refine (hmkdirs.weaken (fun _ hw => hw) (fun _ _ hw => hw) hundone).bind fun _ => ?_
  refine hmkdir.bind fun _ => Triple.bind (R := fun _ => InStaging place name)
    (fun w hw => hw.1.claim hw.2) fun _ => ?_
  exact Triple.ensure (triple_importStaged place reader hname members readerFails) (fun _ => triple_cleanup_moving)
    triple_cleanup_undone

end Publication

/-! ### The import -/

/-- Until the new workflow is claimed the import writes in its temporary directory only, apart from making
the directory of all workflows; no workflow that is there changes; and after a failure, in which the
removals have completed, all is as without the import. -/
structure Contained (name : Text) (r : EStateM.Result Failure (World Text UInt8) (PosixPath × ℕ)) : Prop where
  writes : Staged place (state r).log ∨ Published place name (state r).log
  workflows : ∀ x ≠ place.temporary, Dict.get (state r).alone (key place.runs ++ [x]) ≠ none →
    ∀ p, key place.runs ++ [x] <+: p → Dict.get (state r).tree p = Dict.get (state r).alone p
  failure : ∀ e w, r = .error e w → (∀ p, Op.rmtree p ∉ w.broken) → Agree (outside place) w

theorem outside_of_workflow {x : Text} (hx : x ≠ place.temporary) {p : List Text}
    (hp : key place.runs ++ [x] <+: p) : p ∈ outside place := by
  constructor
  · intro hpre
    rw [key_staging] at hpre
    have heq := (List.prefix_of_prefix_length_le hpre hp (by simp)).eq_of_length (by simp)
    exact hx (List.singleton_injective (List.append_cancel_left heq)).symm
  · intro hpre
    have hlength := (hp.trans hpre).length_le
    simp at hlength

theorem Tidy.workflows {name : Text} (hname : isWorkflowName name = true) {w : World Text UInt8}
    (h : Tidy place name w) {x : Text} (hx : x ≠ place.temporary)
    (hthere : Dict.get w.alone (key place.runs ++ [x]) ≠ none) {p : List Text} (hp : key place.runs ++ [x] <+: p) :
    Dict.get w.tree p = Dict.get w.alone p := by
  rcases h.fresh with hagree | ⟨-, hnone⟩
  · exact hagree p (outside_of_workflow place hx hp)
  · refine h.others p ⟨outside_of_workflow place hx hp, fun hpre => ?_⟩
    rw [key_destination place hname] at hpre hnone
    have heq := (List.prefix_of_prefix_length_le hp hpre (by simp)).eq_of_length (by simp)
    exact hthere (heq ▸ hnone)

/-- An import is contained, for every archive, every definition, every failure and whatever other programs
do with the other workflows in the meantime. -/
theorem importBundle_contained (reader : Reader) (members : List TarMember) (readerFails : Bool) (name : Text)
    (w : World Text UInt8) (htree : w.tree = w.alone) (hlog : w.log = []) (hown : w.own = [])
    (hrooted : Rooted (key (place.destination name)) w.alone)
    (hsteps : ∀ step ∈ w.steps, ∀ c ∈ step.changes, ∃ x, c.entry = key place.runs ++ [x]) :
    Contained place name (importBundle place reader members readerFails name w) := by
  have hsame : ∀ p, Dict.get w.tree p = Dict.get w.alone p := fun p => by rw [htree]
  by_cases hname : isWorkflowName name = true
  · have hstart : Confined (outside place) (key (place.destination name)) [] (Staged place) w := by
      refine ⟨fun p _ => hsame p, hown, fun o ho => (by cases ho), ?_, hrooted, fun step hstep c hc => ?_⟩
      · rw [hlog]
        exact fun op hop => by cases hop
      · obtain ⟨x, hx⟩ := hsteps step hstep c hc
        by_cases hx' : x = name
        · exact .inl (by rw [hx, hx', key_destination place hname])
        · refine .inr ⟨fun hpre => hx' ?_, fun hpre => hx' ?_⟩
          · rw [hx, key_destination place hname] at hpre
            exact (List.singleton_injective (List.append_cancel_left (hpre.eq_of_length (by simp)))).symm
          · rw [hx, key_destination place hname] at hpre
            exact List.singleton_injective (List.append_cancel_left (hpre.eq_of_length (by simp)))
    have hrun : Triple (fun v => v = w) (importBundle place reader members readerFails name)
        (fun _ => Tidy place name) (Undone place name) := by
      refine Triple.bind (R := fun _ v => v = w) (fun v hv => ?_) fun _ => Triple.bind (R := fun _ => Tidy place name)
        ((triple_importNamed place reader hname members readerFails).weaken (fun v hv => hv ▸ hstart)
          (fun _ _ hv => hv) fun _ hv => hv) fun _ => Triple.pure fun _ hv => hv
      rw [Attempt.require, if_pos hname]
      exact hv
    have hafter := hrun w rfl
    cases hresult : importBundle place reader members readerFails name w with
    | ok a w' =>
      rw [hresult] at hafter
      exact ⟨hafter.log, fun x hx hthere p hp => hafter.workflows place hname hx hthere hp, fun e v h => by cases h⟩
    | error e w' =>
      rw [hresult] at hafter
      refine ⟨hafter.1.log, fun x hx hthere p hp => hafter.1.workflows place hname hx hthere hp, ?_⟩
      rintro e' v ⟨rfl, rfl⟩ hclean
      exact hafter.2.resolve_right fun ⟨p, hp⟩ => hclean p hp
  · have hresult : importBundle place reader members readerFails name w = .error .invalidName w := by
      show (Attempt.require (isWorkflowName name = true) Failure.invalidName >>= _) w = _
      unfold Attempt.require
      rw [if_neg hname]
      rfl
    rw [hresult]
    refine ⟨.inl ?_, fun x _ _ p _ => hsame p, ?_⟩
    · show Staged place w.log
      rw [hlog]
      exact fun op hop => by cases hop
    · rintro e' v ⟨rfl, rfl⟩ -
      exact fun p _ => hsame p

/-! ### An archive -/

def homeRuns : Place where
  runs := PosixPath.parse "/runs".toList
  runs_absolute := by decide
  runs_valid := PosixPath.parse_valid _
  runs_normal := by unfold PosixPath.Normal; decide
  random := "x".toList
  random_noSlash := by decide

/-- A directory of workflows with one workflow. -/
def homeTree : Files :=
  [([], .dir), (["runs".toList], .dir), (["runs".toList, "old".toList], .dir),
    (["runs".toList, "old".toList, "Makefile".toList], .file 420 [1])]

def plainReader : Reader where
  loads _ := some ⟨true, 1, [], true, [], fun _ => some ⟨[], [], [], [], [], none, [], []⟩⟩
  valid _ := true

def plainMember : TarMember := ⟨definitionName, .file, 1, 420, [7]⟩

/-- The directory, where the operation after `before` others breaks off. -/
def homeWorld (before : ℕ) : World Text UInt8 where
  tree := homeTree
  alone := homeTree
  own := []
  log := []
  broken := []
  steps := List.replicate before ⟨[], none⟩ ++ [⟨[], some 0⟩]

theorem importBundle_contained_sample :
    Contained homeRuns "new".toList (importBundle homeRuns plainReader [plainMember] false "new".toList (homeWorld 23)) := by
  refine importBundle_contained homeRuns plainReader [plainMember] false "new".toList (homeWorld 23) rfl rfl rfl
    (fun _ q hq => Dict.get_eq_none fun e he heq => ?_) fun step hstep c hc => ?_
  · have hnew : ∀ e ∈ homeTree, ¬ key (homeRuns.destination "new".toList) <+: e.1 := by decide +kernel
    exact hnew e he (heq ▸ hq)
  · rcases List.mem_append.1 hstep with hstep | hstep
    · rw [(List.mem_replicate.1 hstep).2] at hc
      cases hc
    · rw [List.mem_singleton.1 hstep] at hc
      cases hc

/-- When the temporary directory cannot be removed at the very end, the import fails, and the new workflow
is there. -/
theorem importBundle_fails_published :
    Dict.get (homeWorld 26).tree (key (homeRuns.destination "new".toList)) = none ∧
      (match importBundle homeRuns plainReader [plainMember] false "new".toList (homeWorld 26) with
        | .error _ w => Dict.get w.tree (key (homeRuns.destination "new".toList))
        | .ok _ _ => none) = some .dir := by
  decide +kernel

end Portable
end Slurmy
