import Slurmy.Lib.DiskAlone
import Slurmy.Portable.Import

/-!
# Saving a workflow

`save` and `rename_and_save` of `workflows.py` write the generated files of a workflow one after the other.

* `FileName`, `Definition`: the generated files;
* `fileOps`, `save`, `renameAndSave`: the file operations;
* `Restored`: the directory holds what it held;
* `Harmless`: what has to be so where an operation fails;
* `saving_restores_iff`: then, and only then, everything is as before.
-/

namespace Slurmy
namespace Saving

open Disk Attempt

abbrev Bytes := List UInt8

/-- The components from the root. -/
abbrev Path := List Text

abbrev Files := Tree Text UInt8

/-! ### The generated files -/

inductive FileName
  | jobpairs
  | configurations
  | problemGlobs
  | axiomGlobs
  | building
  | limiterTemplate
  | makefile
  | manifest
  | buildResource (index : ℕ)
  deriving DecidableEq

def FileName.text : FileName → Text
  | jobpairs => "jobpairs.csv".toList
  | configurations => "configurations.csv".toList
  | problemGlobs => "problem-globs.txt".toList
  | axiomGlobs => "axiom-globs.txt".toList
  | building => "building.txt".toList
  | limiterTemplate => "resource_limiter_template.txt".toList
  | makefile => "Makefile".toList
  | manifest => ".slurmy-workflow.json".toList
  | buildResource index => "build-resource-".toList ++ decimal index ++ ".sh".toList

/-- `path.suffix == '.sh'`. -/
def FileName.isScript : FileName → Bool
  | buildResource _ => true
  | _ => false

/-- What `specification` makes of the data: the generated files, and the number of pairs. -/
structure Definition where
  files : List (FileName × Bytes)
  nodup : (files.map Prod.fst).Nodup
  count : ℕ

/-- The errors; `look` is that of a check or of reading a file, and `os` that of an operation that changes one. -/
inductive Failure
  | invalidName
  | existing
  | specification
  | manifest
  | look
  | os
  deriving DecidableEq

abbrev Program := EStateM Failure (World Text UInt8)

def target (dir : Path) (f : FileName) : Path := dir ++ [f.text]

/-- `'.' + path.name + '.slurmy-new'`. -/
def stage (dir : Path) (f : FileName) : Path := dir ++ ['.' :: (f.text ++ ".slurmy-new".toList)]

/-! ### Saving -/

/-- What is done for a file. -/
def fileOps (dir : Path) (f : FileName × Bytes) : List (Op Text UInt8) :=
  [.write (stage dir f.1) f.2, .replace (stage dir f.1) (target dir f.1)] ++
    if f.1.isScript then [.chmod (target dir f.1) 493] else []

/-- The loop over the files. -/
def saveOps (dir : Path) (files : List (FileName × Bytes)) : List (Op Text UInt8) := files.flatMap (fileOps dir)

def writeFiles (dir : Path) (files : List (FileName × Bytes)) : Program PUnit :=
  files.forM fun f => (fileOps dir f).forM (perform .os)

def orThrow {γ : Type} (e : Failure) : Option γ → Program γ
  | some a => pure a
  | none => throw e

/-- A new directory, which is removed again when a file cannot be written. -/
def createFiles (dir : Path) (files : List (FileName × Bytes)) : Program PUnit := do
  perform .os (.mkdirs dir.dropLast)
  perform .os (.mkdir dir)
  onError (perform .os (.rmtree dir)) (writeFiles dir files)

/-- `save`, with what `specification` makes of the data. -/
def save (definition : Option Definition) (destination : Path) : Program ℕ := do
  let definition ← orThrow .specification definition
  let t ← observe .look
  ((if (Dict.get t destination).isNone then createFiles else writeFiles) destination definition.files)
  return definition.count

/-- What `rename_and_save` computes: the files, with the former directories that the manifest may name, and
the files of the renamed workflow, from these and the manifest. -/
structure Data where
  name : Text
  specification : Option Bytes → Option Definition
  relocate : Definition → Option Bytes → Option Definition

/-- Under its name. -/
def resave (data : Data) (source : Path) : Program ℕ := do
  let t ← observe .look
  save (data.specification (t.bytesAt (target source .manifest))) source

/-- Under another name. -/
def moveAndSave (data : Data) (source destination : Path) : Program ℕ := do
  let t ← observe .look
  require (Dict.get t destination = none) .existing
  let definition ← orThrow .specification (data.specification none)
  let t ← observe .look
  let definition ← orThrow .manifest (data.relocate definition (t.bytesAt (target source .manifest)))
  perform .os (.rename source destination)
  onError (perform .os (.rename destination source)) (writeFiles destination definition.files)
  return definition.count

/-- `rename_and_save`; `runs` is `USER_RUNS`. -/
def renameAndSave (runs : Path) (data : Data) (source : Path) : Program ℕ := do
  require (Portable.isWorkflowName data.name = true) .invalidName
  if runs ++ [data.name] = source then resave data source else moveAndSave data source (runs ++ [data.name])

/-! ### What a failure leaves -/

/-- The directory has its name, its files have their bytes, and there is no generated file that was not there. -/
structure Restored (dir : Path) (t u : Files) : Prop where
  isDir : Dict.get u dir = some .dir
  bytes : ∀ p, dir <+: p → ∀ content, t.bytesAt p = some content → u.bytesAt p = some content
  noMore : ∀ f : FileName, Dict.get t (target dir f) = none → Dict.get u (target dir f) = none

/-- `done` are the operations before the one that fails, with its fault.  The files that have been replaced had
their new bytes already, without a file of the name of the temporary one; and the temporary file that is left
over does not differ from one that was there. -/
structure Harmless (dir : Path) (t : Files) (files : List (FileName × Bytes)) (before : List (Op Text UInt8))
    (op : Op Text UInt8) (fault : Option ℕ) : Prop where
  replaced : ∀ f ∈ files, Op.replace (stage dir f.1) (target dir f.1) ∈ before →
    t.bytesAt (target dir f.1) = some f.2 ∧ t.bytesAt (stage dir f.1) = none
  staged : ∀ f ∈ files, op = .replace (stage dir f.1) (target dir f.1) →
    ∀ content, t.bytesAt (stage dir f.1) = some content → content = f.2
  begun : ∀ f ∈ files, op = .write (stage dir f.1) f.2 →
    ∀ n content, fault = some (n + 1) → t.bytesAt (stage dir f.1) = some content → content = f.2.take n

/-! ### Names -/

theorem getLast?_text (f : FileName) : f.text.getLast? ≠ some 'w' := by
  cases f with
  | buildResource index =>
    have hlast : ".sh".toList.getLast? = some 'h' := by decide +kernel
    show ("build-resource-".toList ++ decimal index ++ ".sh".toList).getLast? ≠ some 'w'
    rw [List.getLast?_append, hlast, Option.some_or]
    decide
  | _ => decide +kernel

theorem take_buildResource (index : ℕ) : (FileName.buildResource index).text.take 6 = "build-".toList := by
  have hlen : 6 ≤ "build-resource-".toList.length := by decide +kernel
  show ("build-resource-".toList ++ decimal index ++ ".sh".toList).take 6 = "build-".toList
  rw [List.append_assoc, List.take_append_of_le_length hlen]
  decide +kernel

theorem text_injective : Function.Injective FileName.text := by
  have hbuild : ∀ (index : ℕ) (f : FileName), (FileName.buildResource index).text = f.text →
      FileName.buildResource index = f := by
    intro index f h
    cases f with
    | buildResource index' =>
      have hdecimal : decimal index = decimal index' :=
        List.append_cancel_left (List.append_cancel_right h)
      rw [decimal_injective hdecimal]
    | _ =>
      have htake := take_buildResource index
      rw [h] at htake
      exact absurd htake (by decide +kernel)
  intro f g h
  cases g with
  | buildResource index => exact (hbuild index f h.symm).symm
  | _ =>
    cases f with
    | buildResource index => exact hbuild index _ h
    | _ => first | rfl | exact absurd h (by decide +kernel)

theorem below_target (dir : Path) (f : FileName) : dir <+: target dir f := List.prefix_append _ _

theorem below_stage (dir : Path) (f : FileName) : dir <+: stage dir f := List.prefix_append _ _

theorem target_inj {dir : Path} {f g : FileName} (h : target dir f = target dir g) : f = g :=
  text_injective (List.cons.inj (List.append_cancel_left h)).1

theorem stage_inj {dir : Path} {f g : FileName} (h : stage dir f = stage dir g) : f = g :=
  text_injective (List.append_cancel_right (List.cons.inj (List.cons.inj (List.append_cancel_left h)).1).2)

theorem target_ne_stage (dir : Path) (f g : FileName) : target dir f ≠ stage dir g := by
  intro h
  have hname := (List.cons.inj (List.append_cancel_left h)).1
  have hlast : ".slurmy-new".toList.getLast? = some 'w' := by decide +kernel
  apply getLast?_text f
  rw [hname, ← List.cons_append, List.getLast?_append, hlast, Option.some_or]

/-! ### One file -/

variable {dir : Path} {t t₁ u v : Files} {f : FileName × Bytes} {fs : List (FileName × Bytes)}
  {before rest : List (Op Text UInt8)} {op : Op Text UInt8} {fault : Option ℕ}

/-- The file has been replaced, and nothing else. -/
structure Published (dir : Path) (f : FileName × Bytes) (t u : Files) : Prop where
  holds : u.bytesAt (target dir f.1) = some f.2
  gone : Dict.get u (stage dir f.1) = none
  other : ∀ p, p ≠ target dir f.1 → p ≠ stage dir f.1 → Dict.get u p = Dict.get t p
  notDir : Dict.get t (target dir f.1) ≠ some .dir

/-- The temporary file has been written, and nothing else. -/
structure Staged (dir : Path) (f : FileName × Bytes) (t u : Files) : Prop where
  holds : u.bytesAt (stage dir f.1) = some f.2
  other : ∀ p, p ≠ stage dir f.1 → Dict.get u p = Dict.get t p

theorem staged_of_apply (h : t.applyAll [.write (stage dir f.1) f.2] = some u) : Staged dir f t u := by
  obtain ⟨u', hu', hnil⟩ := Option.bind_eq_some_iff.mp ((applyAll_cons _ _ _).symm.trans h)
  cases hnil
  obtain ⟨⟨mode, hfile⟩, hother, -⟩ := write_apply hu'
  exact ⟨bytesAt_of_get hfile, hother⟩

theorem published_of_apply
    (h : t.applyAll [.write (stage dir f.1) f.2, .replace (stage dir f.1) (target dir f.1)] = some u) :
    Published dir f t u := by
  have hne := target_ne_stage dir f.1 f.1
  obtain ⟨v, hv, hrest⟩ := Option.bind_eq_some_iff.mp ((applyAll_append t [_] [_]).symm.trans h)
  have hstaged := staged_of_apply hv
  obtain ⟨u', hu', hnil⟩ := Option.bind_eq_some_iff.mp ((applyAll_cons _ _ _).symm.trans hrest)
  cases hnil
  obtain ⟨⟨mode, content, hfile, htarget⟩, hstage, hother, hdir⟩ := replace_apply hu' hne.symm
  have hcontent : content = f.2 := by
    have hbytes := hstaged.holds
    rw [bytesAt_of_get hfile] at hbytes
    exact Option.some.inj hbytes
  refine ⟨hcontent ▸ bytesAt_of_get htarget, hstage, ?_, ?_⟩
  · intro p hp hp'
    rw [hother p hp' hp, hstaged.other p hp']
  · rw [← hstaged.other _ hne]
    exact hdir

theorem published_of_fileOps (h : t.applyAll (fileOps dir f) = some u) : Published dir f t u := by
  unfold fileOps at h
  rw [applyAll_append] at h
  obtain ⟨v, hv, hchmod⟩ := Option.bind_eq_some_iff.mp h
  have hpublished := published_of_apply hv
  split_ifs at hchmod with hscript
  · obtain ⟨u', hu', hnil⟩ := Option.bind_eq_some_iff.mp ((applyAll_cons _ _ _).symm.trans hchmod)
    cases hnil
    obtain ⟨hother, hbytes⟩ := chmod_apply hu'
    refine ⟨hbytes.trans hpublished.holds, ?_, ?_, hpublished.notDir⟩
    · rw [hother _ (target_ne_stage dir f.1 f.1).symm, hpublished.gone]
    · intro p hp hp'
      rw [hother p hp, hpublished.other p hp hp']
  · cases hchmod
    exact hpublished

theorem ne_child (dir : Path) (x : Text) : dir ≠ dir ++ [x] := by
  intro heq
  have hlen := congrArg List.length heq
  rw [List.length_append, List.length_singleton] at hlen
  omega

theorem Published.get_dir (h : Published dir f t u) : Dict.get u dir = Dict.get t dir :=
  h.other dir (ne_child dir _) (ne_child dir _)

/-- A file that has been replaced counts against the tree before. -/
theorem Published.restored_iff (h : Published dir f t t₁)
    (htarget : Dict.get u (target dir f.1) = Dict.get t₁ (target dir f.1))
    (hstage : Dict.get u (stage dir f.1) = Dict.get t₁ (stage dir f.1)) :
    Restored dir t u ↔ (t.bytesAt (target dir f.1) = some f.2 ∧ t.bytesAt (stage dir f.1) = none) ∧
      Restored dir t₁ u := by
  have hnew : u.bytesAt (target dir f.1) = some f.2 := (bytesAt_congr htarget).trans h.holds
  have hgone : u.bytesAt (stage dir f.1) = none := by
    rw [bytesAt_congr hstage]
    unfold Tree.bytesAt
    rw [h.gone]
  have hnew₁ : Dict.get t₁ (target dir f.1) ≠ none := by
    obtain ⟨mode, hmode⟩ := get_of_bytesAt h.holds
    rw [hmode]
    exact Option.some_ne_none _
  constructor
  · intro hr
    refine ⟨⟨?_, ?_⟩, hr.isDir, ?_, ?_⟩
    · cases hold : Dict.get t (target dir f.1) with
      | none => exact absurd (htarget.symm.trans (hr.noMore f.1 hold)) hnew₁
      | some n =>
        cases n with
        | dir => exact absurd hold h.notDir
        | file mode content =>
          have hkept := hr.bytes _ (below_target dir f.1) content (bytesAt_of_get hold)
          rw [bytesAt_of_get hold, ← hkept, hnew]
    · cases hold : t.bytesAt (stage dir f.1) with
      | none => rfl
      | some content =>
        have hkept := hr.bytes _ (below_stage dir f.1) content hold
        rw [hgone] at hkept
        cases hkept
    · intro p hp content hcontent
      by_cases hpt : p = target dir f.1
      · subst hpt
        rw [hnew, ← hcontent, h.holds]
      · by_cases hps : p = stage dir f.1
        · subst hps
          rw [← bytesAt_congr hstage, hgone] at hcontent
          cases hcontent
        · rw [bytesAt_congr (h.other p hpt hps)] at hcontent
          exact hr.bytes p hp content hcontent
    · intro g hg
      by_cases hgf : target dir g = target dir f.1
      · rw [hgf] at hg
        exact absurd hg hnew₁
      · rw [h.other _ hgf (target_ne_stage dir g f.1)] at hg
        exact hr.noMore g hg
  · rintro ⟨⟨hsame, hfree⟩, hr⟩
    refine ⟨hr.isDir, ?_, ?_⟩
    · intro p hp content hcontent
      by_cases hpt : p = target dir f.1
      · subst hpt
        rw [hnew, ← hcontent, hsame]
      · by_cases hps : p = stage dir f.1
        · subst hps
          rw [hfree] at hcontent
          cases hcontent
        · rw [← bytesAt_congr (h.other p hpt hps)] at hcontent
          exact hr.bytes p hp content hcontent
    · intro g hg
      by_cases hgf : target dir g = target dir f.1
      · obtain ⟨mode, hmode⟩ := get_of_bytesAt hsame
        rw [hgf, hmode] at hg
        cases hg
      · rw [← h.other _ hgf (target_ne_stage dir g f.1)] at hg
        exact hr.noMore g hg

/-- A temporary file that is left over. -/
theorem restored_stage_iff {content : Bytes} (hdir : Dict.get t dir = some .dir)
    (hstage : u.bytesAt (stage dir f.1) = some content)
    (hother : ∀ p, p ≠ stage dir f.1 → Dict.get u p = Dict.get t p) :
    Restored dir t u ↔ ∀ c, t.bytesAt (stage dir f.1) = some c → c = content := by
  constructor
  · intro hr c hc
    have hkept := hr.bytes _ (below_stage dir f.1) c hc
    rw [hstage] at hkept
    exact (Option.some.inj hkept).symm
  · intro hsame
    refine ⟨?_, ?_, ?_⟩
    · rw [hother dir (ne_child dir _), hdir]
    · intro p hp c hc
      by_cases hps : p = stage dir f.1
      · subst hps
        rw [hstage, hsame c hc]
      · rw [bytesAt_congr (hother p hps)]
        exact hc
    · intro g hg
      rw [hother _ (target_ne_stage dir g f.1)]
      exact hg

theorem restored_refl (hdir : Dict.get t dir = some .dir) : Restored dir t t :=
  ⟨hdir, fun _ _ _ h => h, fun _ h => h⟩

/-! ### All the files -/

theorem mem_fileOps {o : Op Text UInt8} (h : o ∈ fileOps dir f) :
    o = .write (stage dir f.1) f.2 ∨ o = .replace (stage dir f.1) (target dir f.1) ∨ o = .chmod (target dir f.1) 493 := by
  unfold fileOps at h
  rcases List.mem_append.mp h with h | h
  · rcases List.mem_cons.mp h with h | h
    · exact .inl h
    · exact .inr (.inl (List.mem_singleton.mp h))
  · split_ifs at h with hscript
    · exact .inr (.inr (List.mem_singleton.mp h))
    · cases h

/-- The operations for a file have its paths as their sites. -/
theorem sites_of_mem_saveOps {o : Op Text UInt8} (h : o ∈ saveOps dir fs) :
    (∀ site ∈ o.sites, ∃ g ∈ fs, site = target dir g.1 ∨ site = stage dir g.1) ∧ ∀ q, o ≠ .mkdirs q := by
  obtain ⟨g, hg, ho⟩ := List.mem_flatMap.mp h
  rcases mem_fileOps ho with rfl | rfl | rfl
  · exact ⟨fun site hsite => ⟨g, hg, .inr (List.mem_singleton.mp hsite)⟩, fun q hq => by cases hq⟩
  · refine ⟨fun site hsite => ⟨g, hg, ?_⟩, fun q hq => by cases hq⟩
    rcases List.mem_cons.mp hsite with hsite | hsite
    · exact .inr hsite
    · exact .inl (List.mem_singleton.mp hsite)
  · exact ⟨fun site hsite => ⟨g, hg, .inl (List.mem_singleton.mp hsite)⟩, fun q hq => by cases hq⟩

/-- A path of another file is no concern of theirs. -/
theorem spares_of_mem_saveOps {o : Op Text UInt8} (h : o ∈ saveOps dir fs) (hf : f.1 ∉ fs.map Prod.fst) {p : Path}
    (hp : p = target dir f.1 ∨ p = stage dir f.1) (w : Files) : o.Spares w p := by
  obtain ⟨hsites, hmkdirs⟩ := sites_of_mem_saveOps h
  refine ⟨?_, fun hmakes => hmkdirs _ hmakes.choose_spec.1⟩
  intro site hsite hpre
  obtain ⟨g, hg, heq⟩ := hsites site hsite
  have hname : f.1 ≠ g.1 := by
    intro hfg
    exact hf (hfg ▸ List.mem_map_of_mem hg)
  have hlen : site.length = p.length := by
    rcases hp with rfl | rfl <;> rcases heq with rfl | rfl <;> simp [target, stage]
  have hsame := hpre.eq_of_length hlen
  rcases hp with rfl | rfl <;> rcases heq with rfl | rfl
  · exact hname (target_inj hsame).symm
  · exact target_ne_stage dir f.1 g.1 hsame.symm
  · exact target_ne_stage dir g.1 f.1 hsame
  · exact hname (stage_inj hsame).symm

/-- A replacement is of one file only. -/
theorem replace_mem_fileOps {g : FileName} (h : Op.replace (stage dir g) (target dir g) ∈ fileOps dir f) : g = f.1 := by
  rcases mem_fileOps h with heq | heq | heq
  · cases heq
  · exact target_inj (Op.replace.inj heq).2
  · cases heq

theorem replace_mem_saveOps {g : FileName} (h : Op.replace (stage dir g) (target dir g) ∈ saveOps dir fs) :
    g ∈ fs.map Prod.fst := by
  obtain ⟨f, hf, hmem⟩ := List.mem_flatMap.mp h
  exact replace_mem_fileOps hmem ▸ List.mem_map_of_mem hf

theorem write_mem_saveOps {g : FileName} {content : Bytes} (h : Op.write (stage dir g) content ∈ saveOps dir fs) :
    g ∈ fs.map Prod.fst := by
  obtain ⟨f, hf, hmem⟩ := List.mem_flatMap.mp h
  rcases mem_fileOps hmem with heq | heq | heq
  · exact stage_inj (Op.write.inj heq).1 ▸ List.mem_map_of_mem hf
  · cases heq
  · cases heq

/-- A file of its own does not count among the others. -/
theorem not_mem_of_nodup (hnodup : ((f :: fs).map Prod.fst).Nodup) {g : FileName × Bytes} (hg : g ∈ fs) : g.1 ≠ f.1 := by
  intro heq
  exact (List.nodup_cons.mp hnodup).1 (heq ▸ List.mem_map_of_mem hg)

/-- The conditions of a file that has been replaced, and those of the files after it. -/
theorem harmless_cons_iff (hnodup : ((f :: fs).map Prod.fst).Nodup) (hp : Published dir f t t₁)
    (hreplace : Op.replace (stage dir f.1) (target dir f.1) ∈ fileOps dir f) (hop : op ∈ saveOps dir fs)
    (hbefore : ∀ o ∈ before, o ∈ saveOps dir fs) :
    Harmless dir t (f :: fs) (fileOps dir f ++ before) op fault ↔
      (t.bytesAt (target dir f.1) = some f.2 ∧ t.bytesAt (stage dir f.1) = none) ∧
        Harmless dir t₁ fs before op fault := by
  have hhead := (List.nodup_cons.mp hnodup).1
  have hsame : ∀ g ∈ fs, t₁.bytesAt (target dir g.1) = t.bytesAt (target dir g.1) ∧
      t₁.bytesAt (stage dir g.1) = t.bytesAt (stage dir g.1) := by
    intro g hg
    have hne := not_mem_of_nodup hnodup hg
    exact ⟨bytesAt_congr (hp.other _ (fun heq => hne (target_inj heq)) (target_ne_stage dir g.1 f.1)),
      bytesAt_congr (hp.other _ (target_ne_stage dir f.1 g.1).symm (fun heq => hne (stage_inj heq)))⟩
  constructor
  · intro h
    refine ⟨h.replaced f List.mem_cons_self (List.mem_append_left _ hreplace), ?_, ?_, ?_⟩
    · intro g hg hmem
      rw [(hsame g hg).1, (hsame g hg).2]
      exact h.replaced g (List.mem_cons_of_mem f hg) (List.mem_append_right _ hmem)
    · intro g hg heq
      rw [(hsame g hg).2]
      exact h.staged g (List.mem_cons_of_mem f hg) heq
    · intro g hg heq
      rw [(hsame g hg).2]
      exact h.begun g (List.mem_cons_of_mem f hg) heq
  · rintro ⟨hfile, h⟩
    refine ⟨?_, ?_, ?_⟩
    · intro g hg hmem
      rcases List.mem_cons.mp hg with rfl | hg
      · exact hfile
      · rw [← (hsame g hg).1, ← (hsame g hg).2]
        refine h.replaced g hg ?_
        rcases List.mem_append.mp hmem with hmem | hmem
        · exact absurd (replace_mem_fileOps hmem) (not_mem_of_nodup hnodup hg)
        · exact hmem
    · intro g hg heq
      rcases List.mem_cons.mp hg with rfl | hg
      · exact absurd (replace_mem_saveOps (heq ▸ hop)) hhead
      · rw [← (hsame g hg).2]
        exact h.staged g hg heq
    · intro g hg heq
      rcases List.mem_cons.mp hg with rfl | hg
      · exact absurd (write_mem_saveOps (heq ▸ hop)) hhead
      · rw [← (hsame g hg).2]
        exact h.begun g hg heq

/-- The writing of the temporary file fails. -/
theorem restored_begun_iff (hnodup : ((f :: fs).map Prod.fst).Nodup) (hdir : Dict.get t dir = some .dir)
    (hleft : (Op.write (stage dir f.1) f.2).left fault t = some u) :
    Restored dir t u ↔ Harmless dir t (f :: fs) [] (.write (stage dir f.1) f.2) fault := by
  have hharmless : Harmless dir t (f :: fs) [] (.write (stage dir f.1) f.2) fault ↔
      ∀ n content, fault = some (n + 1) → t.bytesAt (stage dir f.1) = some content → content = f.2.take n := by
    constructor
    · exact fun h => h.begun f List.mem_cons_self rfl
    · intro h
      refine ⟨?_, ?_, ?_⟩
      · intro g _ hmem
        cases hmem
      · intro g _ heq
        cases heq
      intro g hg heq
      have hgf : g.1 = f.1 := (stage_inj (Op.write.inj heq).1).symm
      rw [hgf, ← (Op.write.inj heq).2]
      exact h
  rw [hharmless]
  have hunchanged : u = t → (∀ n, fault = some (n + 1) → t.bytesAt (stage dir f.1) = none) →
      (Restored dir t u ↔
        ∀ n content, fault = some (n + 1) → t.bytesAt (stage dir f.1) = some content → content = f.2.take n) := by
    rintro rfl hnone
    refine iff_of_true (restored_refl hdir) ?_
    intro n content hfault hcontent
    rw [hnone n hfault] at hcontent
    cases hcontent
  unfold Op.left at hleft
  split at hleft
  · next n =>
    cases hleft
    cases n with
    | zero => exact hunchanged rfl fun n hn => by cases hn
    | succ n =>
      cases happly : (Op.write (stage dir f.1) (f.2.take n) : Op Text UInt8).apply t with
      | some v =>
        obtain ⟨⟨mode, hfile⟩, hother, -⟩ := write_apply happly
        rw [Op.torn, tornWrite, happly, Option.getD_some, restored_stage_iff hdir (bytesAt_of_get hfile) hother]
        constructor
        · intro h n' content hn hcontent
          cases hn
          exact h content hcontent
        · exact fun h content hcontent => h n content rfl hcontent
      | none =>
        -- there is a directory under that name
        refine hunchanged ?_ fun _ _ => ?_
        · rw [Op.torn, tornWrite, happly]
          rfl
        have hparent : (stage dir f.1).dropLast = dir := List.dropLast_concat
        rw [Op.apply, Tree.isWritable, hparent, hdir] at happly
        unfold Tree.bytesAt
        cases hget : Dict.get t (stage dir f.1) with
        | none => rfl
        | some node =>
          cases node with
          | dir => rfl
          | file mode content =>
            rw [hget] at happly
            simp [Node.isDir, stage] at happly
  · split_ifs at hleft
    exact hunchanged (Option.some.inj hleft).symm fun n hn => by cases hn

/-- The tree that an operation leaves that fails as a whole. -/
theorem left_unchanged (hleft : op.left fault t = some u) (hop : ∀ n, op.torn n t = t) : u = t := by
  unfold Op.left at hleft
  split at hleft
  · next n =>
    rw [hop n] at hleft
    exact (Option.some.inj hleft).symm
  · split_ifs at hleft
    exact (Option.some.inj hleft).symm

/-- The replacement fails. -/
theorem restored_staged_iff (hnodup : ((f :: fs).map Prod.fst).Nodup) (hdir : Dict.get t dir = some .dir)
    (hstaged : Staged dir f t u) :
    Restored dir t u ↔ Harmless dir t (f :: fs) [.write (stage dir f.1) f.2]
      (.replace (stage dir f.1) (target dir f.1)) fault := by
  rw [restored_stage_iff hdir hstaged.holds hstaged.other]
  constructor
  · intro h
    refine ⟨?_, ?_, ?_⟩
    · intro g _ hmem
      cases List.mem_singleton.mp hmem
    · intro g hg heq
      rcases List.mem_cons.mp hg with rfl | hg
      · exact h
      · exact absurd (target_inj (Op.replace.inj heq).2).symm (not_mem_of_nodup hnodup hg)
    · intro g _ heq
      cases heq
  · exact fun h => h.staged f List.mem_cons_self rfl

/-- The `chmod` fails. -/
theorem restored_published_iff (hnodup : ((f :: fs).map Prod.fst).Nodup) (hdir : Dict.get t dir = some .dir)
    (hp : Published dir f t u) :
    Restored dir t u ↔ Harmless dir t (f :: fs)
      [.write (stage dir f.1) f.2, .replace (stage dir f.1) (target dir f.1)] (.chmod (target dir f.1) 493) fault := by
  rw [hp.restored_iff rfl rfl, and_iff_left (restored_refl (hp.get_dir.trans hdir))]
  constructor
  · intro h
    refine ⟨?_, ?_, ?_⟩
    · intro g hg hmem
      rcases List.mem_cons.mp hg with rfl | hg
      · exact h
      · rcases List.mem_cons.mp hmem with heq | hmem
        · cases heq
        · have heq := List.mem_singleton.mp hmem
          exact absurd (target_inj (Op.replace.inj heq).2) (not_mem_of_nodup hnodup hg)
    · intro g _ heq
      cases heq
    · intro g _ heq
      cases heq
  · exact fun h => h.replaced f List.mem_cons_self (List.mem_cons_of_mem _ List.mem_cons_self)

theorem replace_mem_self (dir : Path) (f : FileName × Bytes) :
    Op.replace (stage dir f.1) (target dir f.1) ∈ fileOps dir f :=
  List.mem_append_left _ (List.mem_cons_of_mem _ List.mem_cons_self)

/-- The operations of one file, and where one of them is. -/
theorem fileOps_eq (h : fileOps dir f = before ++ op :: rest) :
    (before = [] ∧ op = .write (stage dir f.1) f.2) ∨
      (before = [.write (stage dir f.1) f.2] ∧ op = .replace (stage dir f.1) (target dir f.1)) ∨
      (before = [.write (stage dir f.1) f.2, .replace (stage dir f.1) (target dir f.1)] ∧
        op = .chmod (target dir f.1) 493) := by
  unfold fileOps at h
  match before, h with
  | [], h => exact .inl ⟨rfl, (List.cons.inj h).1.symm⟩
  | [_], h =>
    obtain ⟨hfirst, htail⟩ := List.cons.inj h
    exact .inr (.inl ⟨by rw [hfirst], (List.cons.inj htail).1.symm⟩)
  | [_, _], h =>
    obtain ⟨hfirst, htail⟩ := List.cons.inj h
    obtain ⟨hsecond, hlast⟩ := List.cons.inj htail
    split_ifs at hlast
    · exact .inr (.inr ⟨by rw [hfirst, hsecond], (List.cons.inj hlast).1.symm⟩)
    · cases hlast
  | _ :: _ :: _ :: before, h =>
    have hlen := congrArg List.length h
    simp only [List.length_append, List.length_cons] at hlen
    split_ifs at hlen
    · simp only [List.length_cons, List.length_nil] at hlen
      omega
    · simp only [List.length_nil] at hlen
      omega

/-- What the loop over the files leaves is as before if and only if what it has done is harmless. -/
theorem restored_iff (hnodup : (fs.map Prod.fst).Nodup) (hdir : Dict.get t dir = some .dir)
    (hops : saveOps dir fs = before ++ op :: rest) (hbefore : t.applyAll before = some v)
    (hleft : op.left fault v = some u) : Restored dir t u ↔ Harmless dir t fs before op fault := by
  induction fs generalizing t before with
  | nil => exact absurd hops.symm (by simp [saveOps])
  | cons f fs ih =>
    have hhead : fileOps dir f ++ saveOps dir fs = before ++ op :: rest := hops
    have hinside : ∀ inside, fileOps dir f = before ++ op :: inside →
        (Restored dir t u ↔ Harmless dir t (f :: fs) before op fault) := by
      intro inside hfile
      rcases fileOps_eq hfile with ⟨rfl, rfl⟩ | ⟨rfl, rfl⟩ | ⟨rfl, rfl⟩
      · cases hbefore
        exact restored_begun_iff hnodup hdir hleft
      · rw [left_unchanged hleft fun _ => rfl]
        exact restored_staged_iff hnodup hdir (staged_of_apply hbefore)
      · rw [left_unchanged hleft fun _ => rfl]
        exact restored_published_iff hnodup hdir (published_of_apply hbefore)
    have hpast : ∀ before', before = fileOps dir f ++ before' → saveOps dir fs = before' ++ op :: rest →
        (Restored dir t u ↔ Harmless dir t (f :: fs) before op fault) := by
      rintro before' rfl hrest
      rw [applyAll_append] at hbefore
      obtain ⟨t₁, hfile, hbefore⟩ := Option.bind_eq_some_iff.mp hbefore
      have hp := published_of_fileOps hfile
      have hmem : ∀ o ∈ before', o ∈ saveOps dir fs := fun o ho => hrest ▸ List.mem_append_left _ ho
      have hop : op ∈ saveOps dir fs := hrest ▸ List.mem_append_right _ List.mem_cons_self
      have hfresh := (List.nodup_cons.mp hnodup).1
      have hkeep : ∀ p, p = target dir f.1 ∨ p = stage dir f.1 → Dict.get u p = Dict.get t₁ p := by
        intro p hpath
        rw [get_left hleft (spares_of_mem_saveOps hop hfresh hpath v),
          get_applyAll hbefore fun o ho => spares_of_mem_saveOps (hmem o ho) hfresh hpath]
      rw [hp.restored_iff (hkeep _ (.inl rfl)) (hkeep _ (.inr rfl)),
        harmless_cons_iff hnodup hp (replace_mem_self dir f) hop hmem,
        ih (List.nodup_cons.mp hnodup).2 (hp.get_dir.trans hdir) hrest hbefore]
    rcases List.append_eq_append_iff.mp hhead with ⟨before', hsplit, hrest⟩ | ⟨inside, hfile, hrest⟩
    · exact hpast before' hsplit hrest
    · cases inside with
      | nil =>
        rw [List.append_nil] at hfile
        exact hpast [] (by rw [hfile, List.append_nil]) hrest.symm
      | cons o inside =>
        rw [List.cons_append, List.cons.injEq] at hrest
        rw [← hrest.1] at hfile
        exact hinside inside hfile

/-! ### Runs -/

variable {w : World Text UInt8} {faults : List (Option ℕ)} {files : List (FileName × Bytes)}

theorem writeFiles_eq (dir : Path) (files : List (FileName × Bytes)) :
    writeFiles dir files = (saveOps dir files).forM (perform .os) := by
  unfold writeFiles saveOps
  induction files with
  | nil => rfl
  | cons f files ih =>
    have happend : (fileOps dir f ++ files.flatMap (fileOps dir)).forM (perform Failure.os) =
        (do (fileOps dir f).forM (perform .os); (files.flatMap (fileOps dir)).forM (perform .os)) := List.forM_append
    rw [List.flatMap_cons, happend, ← ih]
    rfl

/-- What the first operation that fails finds. -/
def HarmlessAt (dir : Path) (t : Files) (files : List (FileName × Bytes)) (faults : List (Option ℕ)) : Prop :=
  let before := performed faults t (saveOps dir files)
  ∀ op, (saveOps dir files)[before.length]? = some op →
    Harmless dir t files before op (faults[before.length]?).join

/-- The loop fails with one of its operations. -/
theorem writeFiles_error (hquiet : w.Quiet) (hnodup : (files.map Prod.fst).Nodup)
    (hdir : Dict.get w.tree dir = some .dir) {e : Failure} {w' : World Text UInt8}
    (h : writeFiles dir files w = .error e w') :
    e = .os ∧ w'.Quiet ∧ (Restored dir w.tree w'.tree ↔ HarmlessAt dir w.tree files w.faults) ∧
      (∃ o ∈ saveOps dir files, w'.broken = w.broken ++ [o]) ∧
      ∀ p, (∀ o ∈ saveOps dir files, ∀ v : Files, o.Spares v p) → Dict.get w'.tree p = Dict.get w.tree p := by
  rw [writeFiles_eq] at h
  rcases forM_perform Failure.os (saveOps dir files) hquiet with
    ⟨-, v, -, hok⟩ | ⟨op, rest, v, u, hops, hbefore, hleft, herror⟩
  · rw [hok] at h
    cases h
  · rw [herror] at h
    cases h
    have hop : op ∈ saveOps dir files := by
      rw [hops]
      exact List.mem_append_right _ List.mem_cons_self
    refine ⟨rfl, hquiet.after.failed, ?_, ⟨op, hop, rfl⟩, ?_⟩
    · show Restored dir w.tree u ↔ _
      rw [restored_iff hnodup hdir hops hbefore hleft]
      have hget : (saveOps dir files)[(performed w.faults w.tree (saveOps dir files)).length]? = some op := by
        generalize performed w.faults w.tree (saveOps dir files) = before at hops
        rw [hops, List.getElem?_append_right le_rfl, Nat.sub_self]
        rfl
      constructor
      · intro hharmless op' hop'
        rw [hget] at hop'
        cases hop'
        exact hharmless
      · exact fun hharmless => hharmless op hget
    · intro p hp
      show Dict.get u p = _
      rw [get_left hleft (hp op hop v), get_applyAll hbefore]
      intro o ho
      exact hp o (hops ▸ List.mem_append_left _ ho)

theorem orThrow_ok {γ : Type} {e : Failure} {o : Option γ} {a : γ} {w' : World Text UInt8}
    (h : orThrow e o w = .ok a w') : o = some a ∧ w' = w := by
  cases o with
  | none => cases h
  | some b =>
    cases h
    exact ⟨rfl, rfl⟩

theorem orThrow_error {γ : Type} {e e' : Failure} {o : Option γ} {w' : World Text UInt8}
    (h : orThrow e o w = .error e' w') : e' = e := by
  cases o with
  | none =>
    cases h
    rfl
  | some b => cases h

/-- A look fails with an error of its own, or goes on. -/
theorem observe_error (hquiet : w.Quiet) {e e' : Failure} {w' : World Text UInt8}
    (h : (observe e : Program Files) w = .error e' w') : e' = e := by
  rcases observe_alone e hquiet with ⟨-, -, heq⟩ | ⟨-, heq⟩
  · rw [heq] at h
    cases h
    rfl
  · rw [heq] at h
    cases h

theorem observe_ok (hquiet : w.Quiet) {e : Failure} {t : Files} {w' : World Text UInt8}
    (h : (observe e : Program Files) w = .ok t w') :
    t = w.tree ∧ w'.tree = w.tree ∧ w'.Quiet ∧ w'.faults = w.faults.tail ∧ w'.broken = w.broken := by
  rcases observe_alone e hquiet with ⟨-, -, heq⟩ | ⟨-, heq⟩
  · rw [heq] at h
    cases h
  · rw [heq] at h
    cases h
    refine ⟨rfl, rfl, hquiet.drop, ?_, rfl⟩
    show (w.steps.drop 1).map Step.fault = w.faults.tail
    rw [List.drop_one, List.map_tail]
    rfl

theorem save_error (hquiet : w.Quiet) (hdir : Dict.get w.tree dir = some .dir) {definition : Option Definition}
    {w' : World Text UInt8} (h : save definition dir w = .error .os w') :
    ∃ d, definition = some d ∧ (Restored dir w.tree w'.tree ↔ HarmlessAt dir w.tree d.files w.faults.tail) := by
  unfold save at h
  rcases bind_eq_error.mp h with hthrow | ⟨d, w₁, hd, hrest⟩
  · cases orThrow_error hthrow
  obtain ⟨rfl, rfl⟩ := orThrow_ok hd
  refine ⟨d, rfl, ?_⟩
  rcases bind_eq_error.mp hrest with hlook | ⟨t, w₂, ht, hrest⟩
  · cases observe_error hquiet hlook
  obtain ⟨rfl, htree, hquiet₂, hfaults, -⟩ := observe_ok hquiet ht
  rw [hdir] at hrest
  rcases bind_eq_error.mp hrest with hwrite | ⟨_, w₃, -, hreturn⟩
  · rw [← htree, ← hfaults]
    exact (writeFiles_error hquiet₂ d.nodup (htree ▸ hdir) hwrite).2.2.1
  · cases hreturn

/-- A directory that has been renamed, and renamed back. -/
theorem restored_moved {source destination : Path} {t' v' : Files}
    (ht : ∀ r, Dict.get t' (destination ++ r) = Dict.get t (source ++ r))
    (hv : ∀ r, Dict.get v (source ++ r) = Dict.get v' (destination ++ r)) :
    Restored source t v ↔ Restored destination t' v' := by
  have hself : Dict.get v source = Dict.get v' destination := by simpa using hv []
  constructor
  · intro h
    refine ⟨hself ▸ h.isDir, ?_, ?_⟩
    · rintro _ ⟨r, rfl⟩ content hcontent
      rw [bytesAt_congr (ht r)] at hcontent
      rw [← bytesAt_congr (hv r)]
      exact h.bytes _ (List.prefix_append _ _) content hcontent
    · intro f hf
      have hnone : Dict.get t (target source f) = none := (ht [f.text]).symm.trans hf
      exact (hv [f.text]).symm.trans (h.noMore f hnone)
  · intro h
    refine ⟨hself.trans h.isDir, ?_, ?_⟩
    · rintro _ ⟨r, rfl⟩ content hcontent
      rw [← bytesAt_congr (ht r)] at hcontent
      rw [bytesAt_congr (hv r)]
      exact h.bytes _ (List.prefix_append _ _) content hcontent
    · intro f hf
      have hnone : Dict.get t' (target destination f) = none := (ht [f.text]).trans hf
      exact (hv [f.text]).trans (h.noMore f hnone)

/-- The operations in one directory spare what is in another. -/
theorem spares_of_apart {o : Op Text UInt8} (h : o ∈ saveOps dir fs) {p : Path} (hp : ¬ dir <+: p) (u : Files) :
    o.Spares u p := by
  obtain ⟨hsites, hmkdirs⟩ := sites_of_mem_saveOps h
  refine ⟨?_, fun hmakes => hmkdirs _ hmakes.choose_spec.1⟩
  intro site hsite hpre
  obtain ⟨g, -, rfl | rfl⟩ := hsites site hsite
  · exact hp ((below_target dir g.1).trans hpre)
  · exact hp ((below_stage dir g.1).trans hpre)

/-- The files of the renamed workflow. -/
def Data.moved (data : Data) (t : Files) (source : Path) : Option Definition :=
  (data.specification none).bind fun definition => data.relocate definition (t.bytesAt (target source .manifest))

/-- What the first operation of `rename_and_save` that fails finds; the third step is the renaming. -/
def Data.HarmlessAt (data : Data) (t : Files) (source destination : Path) (faults : List (Option ℕ)) : Prop :=
  if destination = source then
    ∀ d, data.specification (t.bytesAt (target source .manifest)) = some d →
      Saving.HarmlessAt source t d.files (faults.drop 2)
  else
    (faults.drop 2).head?.join = none → ∀ d, data.moved t source = some d →
      ∀ t', (Op.rename source destination).apply t = some t' →
        Saving.HarmlessAt destination t' d.files (faults.drop 3)

theorem resave_error (hquiet : w.Quiet) {source : Path} (hdir : Dict.get w.tree source = some .dir) {data : Data}
    {w' : World Text UInt8} (h : resave data source w = .error .os w') :
    Restored source w.tree w'.tree ↔ data.HarmlessAt w.tree source source w.faults := by
  unfold resave at h
  rcases bind_eq_error.mp h with hlook | ⟨t, w₁, ht, hrest⟩
  · cases observe_error hquiet hlook
  obtain ⟨rfl, htree, hquiet₁, hfaults, -⟩ := observe_ok hquiet ht
  obtain ⟨d, hd, hiff⟩ := save_error hquiet₁ (htree ▸ hdir) hrest
  have hdrop : w₁.faults.tail = w.faults.drop 2 := by
    rw [hfaults, ← List.drop_one, ← List.drop_one, List.drop_drop]
  rw [htree, hdrop] at hiff
  rw [hiff]
  unfold Data.HarmlessAt
  rw [if_pos rfl, hd]
  constructor
  · intro hharmless d' hd'
    cases hd'
    exact hharmless
  · exact fun hharmless => hharmless d rfl

/-- The renaming and what follows it. -/
theorem moved_error (hquiet : w.Quiet) {source destination : Path} (hdir : Dict.get w.tree source = some .dir)
    (hrooted : Rooted destination w.tree) (hfree : Dict.get w.tree destination = none) {d : Definition}
    {w' : World Text UInt8} (hback : Op.rename destination source ∉ w'.broken)
    (h : (do
        perform Failure.os (.rename source destination)
        onError (perform .os (.rename destination source)) (writeFiles destination d.files)
        return d.count : Program ℕ) w = .error .os w') :
    Dict.get w'.tree destination = none ∧ (Restored source w.tree w'.tree ↔
      (w.faults.head?.join = none → ∀ t', (Op.rename source destination).apply w.tree = some t' →
        HarmlessAt destination t' d.files w.faults.tail)) := by
  rcases perform_alone Failure.os (.rename source destination) hquiet with
    ⟨t', hfault, happly, hok⟩ | ⟨u, hleft, herror⟩
  · rcases bind_eq_error.mp h with hrename | ⟨_, w₁, hrename, hrest⟩
    · rw [hok] at hrename
      cases hrename
    rw [hok] at hrename
    cases hrename
    have hquiet₁ : (w.after [.rename source destination] t').Quiet := hquiet.after
    obtain ⟨hmoved, hgone, hbelow⟩ := rename_apply happly hrooted
    have habove : ¬ destination <+: source := by
      intro hpre
      rw [hrooted hfree source hpre] at hdir
      cases hdir
    have hdir' : Dict.get t' destination = some .dir := by
      have hself := hmoved []
      rw [List.append_nil, List.append_nil] at hself
      exact hself.trans hdir
    rcases bind_eq_error.mp hrest with hwrite | ⟨_, _, -, hreturn⟩
    · obtain ⟨e, w₂, hfiles, hundo⟩ := onError_eq_error hwrite
      obtain ⟨rfl, hquiet₂, hiff, -, hother⟩ := writeFiles_error hquiet₁ d.nodup hdir' hfiles
      rcases perform_alone Failure.os (.rename destination source) hquiet₂ with
        ⟨v, -, happly', hok'⟩ | ⟨v, -, herror'⟩
      · have hw' : w' = w₂.after [.rename destination source] v := by
          rcases hundo with ⟨_, hundo, -⟩ | hundo
          · rw [hok'] at hundo
            cases hundo
            rfl
          · rw [hok'] at hundo
            cases hundo
        subst hw'
        -- nothing has come to the former place meanwhile
        have hrooted' : Rooted source w₂.tree := by
          intro _ r hr
          have hapart : ¬ destination <+: r := by
            intro hdr
            exact (List.prefix_or_prefix_of_prefix hr hdr).elim hbelow habove
          rw [hother r fun o ho => spares_of_apart ho hapart]
          exact hgone r hr hapart
        obtain ⟨hback', hgone', -⟩ := rename_apply happly' hrooted'
        refine ⟨hgone' destination (List.prefix_refl _) hbelow, ?_⟩
        show Restored source w.tree v ↔ _
        rw [restored_moved hmoved hback']
        have hfaults : (w.after [.rename source destination] t').faults = w.faults.tail := by
          show (w.steps.drop 1).map Step.fault = _
          rw [List.drop_one, List.map_tail]
          rfl
        rw [hfaults] at hiff
        refine hiff.trans ?_
        constructor
        · intro hharmless _ t'' ht''
          rw [happly] at ht''
          cases ht''
          exact hharmless
        · exact fun hharmless => hharmless hfault t' happly
      · -- the compensation has failed as well
        have hw' : w' = w₂.failed (.rename destination source) v := by
          rcases hundo with ⟨_, hundo, -⟩ | hundo
          · rw [herror'] at hundo
            cases hundo
          · rw [herror'] at hundo
            cases hundo
            rfl
        subst hw'
        exact absurd (List.mem_append_right _ List.mem_cons_self) hback
    · cases hreturn
  · rcases bind_eq_error.mp h with hrename | ⟨_, w₁, hrename, -⟩
    · rw [herror] at hrename
      cases hrename
      have hu : u = w.tree := left_unchanged hleft fun _ => rfl
      subst hu
      refine ⟨hfree, iff_of_true (restored_refl hdir) ?_⟩
      intro hfault t' ht'
      unfold Op.left at hleft
      rw [hfault, ht'] at hleft
      cases hleft
    · rw [herror] at hrename
      cases hrename

theorem moveAndSave_error (hquiet : w.Quiet) {source destination : Path} (hdir : Dict.get w.tree source = some .dir)
    (hrooted : Rooted destination w.tree) (hne : destination ≠ source) {data : Data} {w' : World Text UInt8}
    (hback : Op.rename destination source ∉ w'.broken)
    (h : moveAndSave data source destination w = .error .os w') :
    Dict.get w'.tree destination = none ∧
      (Restored source w.tree w'.tree ↔ data.HarmlessAt w.tree source destination w.faults) := by
  unfold moveAndSave at h
  rcases bind_eq_error.mp h with hlook | ⟨t, w₁, ht, hrest⟩
  · cases observe_error hquiet hlook
  obtain ⟨rfl, htree₁, hquiet₁, hfaults₁, -⟩ := observe_ok hquiet ht
  rcases bind_eq_error.mp hrest with hrequire | ⟨_, w₂, hrequire, hrest₂⟩
  · cases require_eq_error hrequire
  obtain ⟨hfree, rfl⟩ := require_eq_ok hrequire
  rcases bind_eq_error.mp hrest₂ with hthrow | ⟨d₀, w₃, hd₀, hrest₃⟩
  · cases orThrow_error hthrow
  obtain ⟨hspecification, rfl⟩ := orThrow_ok hd₀
  rcases bind_eq_error.mp hrest₃ with hlook | ⟨t, w₄, ht, hrest₄⟩
  · cases observe_error hquiet₁ hlook
  obtain ⟨rfl, htree₄, hquiet₄, hfaults₄, -⟩ := observe_ok hquiet₁ ht
  rcases bind_eq_error.mp hrest₄ with hthrow | ⟨d, w₅, hd, hrest₅⟩
  · cases orThrow_error hthrow
  obtain ⟨hrelocate, rfl⟩ := orThrow_ok hd
  have htree : w₅.tree = w.tree := htree₄.trans htree₁
  have hfaults : w₅.faults = w.faults.drop 2 := by
    rw [hfaults₄, hfaults₁, ← List.drop_one, ← List.drop_one, List.drop_drop]
  have hmoved : data.moved w.tree source = some d := by
    unfold Data.moved
    rw [hspecification, Option.bind_some, ← htree₁]
    exact hrelocate
  obtain ⟨hnone, hiff⟩ :=
    moved_error hquiet₄ (htree ▸ hdir) (htree ▸ hrooted) (htree ▸ hfree) hback hrest₅
  refine ⟨hnone, ?_⟩
  rw [htree, hfaults, ← List.drop_one, List.drop_drop] at hiff
  rw [hiff]
  unfold Data.HarmlessAt
  rw [if_neg hne, hmoved]
  constructor
  · intro hharmless hfault d' hd'
    cases hd'
    exact hharmless hfault
  · exact fun hharmless hfault => hharmless hfault d rfl

/-- A save that fails leaves everything as before if and only if what it has done till then is harmless. -/
theorem saving_restores_iff (t : Files) (faults : List (Option ℕ)) (dir : Path) (hdir : Dict.get t dir = some .dir) :
    (∀ (definition : Definition) (w : World Text UInt8),
      save (some definition) dir (World.start t faults) = .error .os w →
      (Restored dir t w.tree ↔ HarmlessAt dir t definition.files faults.tail)) ∧
    ∀ (runs : Path) (data : Data) (w : World Text UInt8), Rooted (runs ++ [data.name]) t →
      renameAndSave runs data dir (World.start t faults) = .error .os w →
      Op.rename (runs ++ [data.name]) dir ∉ w.broken →
      (Restored dir t w.tree ∧ (runs ++ [data.name] ≠ dir → Dict.get w.tree (runs ++ [data.name]) = none) ↔
        data.HarmlessAt t dir (runs ++ [data.name]) faults) := by
  have hquiet := quiet_start t faults
  have hfaults := faults_start t faults
  constructor
  · intro definition w h
    obtain ⟨d, hd, hiff⟩ := save_error hquiet hdir h
    cases hd
    rw [hfaults] at hiff
    exact hiff
  · intro runs data w hrooted h hback
    unfold renameAndSave at h
    rcases bind_eq_error.mp h with hrequire | ⟨_, w₁, hrequire, hrest⟩
    · cases require_eq_error hrequire
    obtain ⟨-, rfl⟩ := require_eq_ok hrequire
    split at hrest
    · next hsame =>
      have hiff := resave_error hquiet hdir hrest
      rw [hfaults] at hiff
      rw [hsame]
      exact (and_iff_left fun hne => absurd rfl hne).trans hiff
    · next hne =>
      obtain ⟨hnone, hiff⟩ := moveAndSave_error hquiet hdir hrooted hne hback hrest
      rw [and_iff_left fun _ => hnone, ← hfaults]
      exact hiff

/-- The first operation fails before it does anything. -/
theorem saving_restores_first : ∃ w : World Text UInt8,
    save (some ⟨[(.jobpairs, [2])], by decide, 1⟩) [['w']] (World.start [([], .dir), ([['w']], .dir)] [none, some 0]) =
      .error .os w ∧ Restored [['w']] [([], .dir), ([['w']], .dir)] w.tree := by
  refine ⟨_, rfl, ((saving_restores_iff [([], .dir), ([['w']], .dir)] [none, some 0] [['w']] rfl).1
    ⟨[(.jobpairs, [2])], by decide, 1⟩ _ rfl).mpr ?_⟩
  intro op hop
  have hop' : op = .write (stage [['w']] .jobpairs) [2] := (Option.some.inj hop).symm
  refine ⟨fun f _ hmem => ?_, fun f _ heq => ?_, fun f _ _ n content hfault => ?_⟩
  · cases hmem
  · rw [hop'] at heq
    cases heq
  · cases hfault

/-- The second of two files cannot be written. -/
theorem save_mixes : ¬ ∀ (t : Files) (faults : List (Option ℕ)) (dir : Path) (definition : Definition)
    (w : World Text UInt8), Dict.get t dir = some .dir →
    save (some definition) dir (World.start t faults) = .error .os w → Restored dir t w.tree := by
  intro h
  have hrestored := h [([], .dir), ([['w']], .dir), ([['w'], FileName.jobpairs.text], .file 420 [1]),
      ([['w'], FileName.building.text], .file 420 [1])] [none, none, none, some 0] [['w']]
    ⟨[(.jobpairs, [2]), (.building, [2])], by decide, 1⟩ _ rfl rfl
  have hbytes := hrestored.bytes (target [['w']] .jobpairs) (below_target _ _) [1] rfl
  revert hbytes
  decide +kernel

end Saving
end Slurmy
