import Slurmy.Upload.Machine

/-!
# Publication of an upload

* `Own`, `Local`: the paths that the steps write before the publication, and what they leave alone;
* `Published`, `Completed`: what a published job holds, and what a completed step has achieved;
* `Pc.Knows`, `Sound`: the invariant, with what has been established before each command;
* `upload_publication`: the publication is atomic, completed steps can be repeated, and a published
  job is left alone.
-/

namespace Slurmy
namespace Upload

open FileTree

/-! ### Changes before the publication -/

section Local

variable (job : Text)

theorem staging_ne : ".staging-".toList ++ job ≠ job := by
  intro h
  have hlen := congrArg List.length h
  simp at hlen
  omega

theorem job_apart (p q : Path) : ¬ job :: p <+: staging job ++ q := by
  rintro h
  exact staging_ne job (List.cons_prefix_cons.1 h).1.symm

theorem archivePath_injective {a a' : Archive} (h : archivePath job a = archivePath job a') :
    a = a' := by
  have hname := (List.cons.inj (List.append_cancel_left h)).1
  revert hname
  cases a <;> cases a' <;> decide

/-- A path below the staging directory that has no archive on its way. -/
def Own (p : Path) : Prop := (∃ q, p = staging job ++ q) ∧ ∀ a, ¬ archivePath job a <+: p

theorem own_staging : Own job (staging job) := by
  refine ⟨⟨[], rfl⟩, fun a h => ?_⟩
  have hlen := h.length_le
  simp [archivePath, incoming, staging] at hlen

theorem own_incoming : Own job (incoming job) := by
  refine ⟨⟨_, rfl⟩, fun a h => ?_⟩
  have hlen := h.length_le
  simp [archivePath, incoming, staging] at hlen

theorem own_cons {name : Text} (h : name ≠ "incoming".toList) (q : Path) :
    Own job (staging job ++ name :: q) := by
  refine ⟨⟨_, rfl⟩, fun a hp => ?_⟩
  have hnames := (List.cons_prefix_cons.1 hp).2
  exact h (List.cons_prefix_cons.1 hnames).1.symm

/-- The change from `t` to `u` leaves alone the job, the archives and every directory. -/
structure Local (t u : Disk) : Prop where
  dirs : ∀ r, t r = some .dir → u r = some .dir
  jobs : ∀ p, u (job :: p) = t (job :: p)
  archives : ∀ a, u (archivePath job a) = t (archivePath job a)

variable {job} {t u : Disk}

theorem local_mkdir {p : Path} (hp : Own job p) (h : t.mkdir p = some u) : Local job t u where
  dirs r hr := Tree.mkdir_keeps h hr
  jobs q := by
    obtain ⟨⟨q', rfl⟩, -⟩ := hp
    exact Tree.mkdir_of_not_prefix h (job_apart job q q')
  archives a := Tree.mkdir_of_not_prefix h (hp.2 a)

theorem local_write {p : Path} {c : Bytes} (hp : Own job p) (h : t.write p c = some u) :
    Local job t u where
  dirs r hr := Tree.write_keeps_dir h hr
  jobs q := by
    obtain ⟨⟨q', rfl⟩, -⟩ := hp
    exact Tree.write_of_ne h fun heq => job_apart job q q' (heq ▸ List.prefix_rfl)
  archives a := Tree.write_of_ne h fun heq => hp.2 a (heq ▸ List.prefix_rfl)

theorem local_extract {root : Path} {m : Member} (hp : Own job (root ++ m.path))
    (h : t.extract root m = some u) : Local job t u where
  dirs r hr := Tree.extract_keeps_dir h hr
  jobs q := by
    obtain ⟨⟨q', hq⟩, -⟩ := hp
    exact Tree.extract_of_not_prefix h (hq ▸ job_apart job q q')
  archives a := Tree.extract_of_not_prefix h (hp.2 a)

end Local

/-! ### What the steps achieve -/

section Achieved

variable {tar : Bytes → List Member × Bool} (P : Package tar) (job : Text)

/-- A complete job directory. -/
structure Published (disk : Disk) : Prop where
  inputsReady : disk.isFile (jobDir job ++ [".inputs-ready".toList]) = true
  metadata : disk.isFile (jobDir job ++ ["metadata.json".toList]) = true
  jobFiles : disk.Holds (jobDir job) (P.members .jobFiles)
  inputs : disk.Holds (jobDir job ++ ["rootfs".toList]) (P.members .inputs)

/-- What has been achieved by a step that has exited with code 0. -/
def Completed (disk : Disk) : Stage → Prop
  | .prepare => disk (incoming job) = some .dir
  | .copy => copied P job disk = true
  | .finish => disk.isFile (jobDir job ++ [".inputs-ready".toList]) = true

/-- No job of this name exists, and the name is allowed. -/
def Free (disk : Disk) : Prop := present job disk = false ∧ isJobId job = true

/-- Both archives have been unpacked. -/
def Unpacked (disk : Disk) : Prop :=
  disk.Holds (staging job) (P.members .jobFiles) ∧
    disk.Holds (unpackDir job .inputs) (P.members .inputs)

/-- `tar` has come to `todo`, and reports a success only if it has unpacked a complete archive. -/
def Unpacking (disk : Disk) (a : Archive) (todo : List Member) (ok : Bool) : Prop :=
  ∃ k done, (tar ((P.bytes a).take k)).1 = done ++ todo ∧
    (ok = true → (tar ((P.bytes a).take k)).2 = true ∧ disk.Holds (unpackDir job a) done)

/-- What has been established before the command. -/
def Pc.Knows (disk : Disk) : Pc → Prop
  | .prepare | .copying | .finish => True
  | .makeIncoming todo => Free job disk ∧ (∀ p ∈ todo, Own job p) ∧
      (disk (incoming job) = some .dir ∨ incoming job ∈ todo)
  | .makeFolders todo => Free job disk ∧ ∀ p ∈ todo, Own job p
  | .unpack a todo ok => Free job disk ∧
      (a = .inputs → disk.Holds (staging job) (P.members .jobFiles)) ∧ Unpacking P job disk a todo ok
  | .metadata => Free job disk ∧ Unpacked P job disk
  | .ready | .inputsReady => Free job disk ∧ Unpacked P job disk ∧
      disk.isFile (staging job ++ ["metadata.json".toList]) = true
  | .publish => Free job disk ∧ Unpacked P job disk ∧
      disk.isFile (staging job ++ ["metadata.json".toList]) = true ∧
        disk.isFile (staging job ++ [".inputs-ready".toList]) = true
  | .announce => Completed P job disk .finish
  | .exited stage code => code = 0 → Completed P job disk stage

/-- The invariant of an upload. -/
structure Sound (s : State) : Prop where
  root : s.disk [] = some .dir
  staged : ∀ r n, s.disk (staging job ++ r) = some n → Free job s.disk
  archives : ∀ a n, s.disk (archivePath job a) = some n →
    (∃ k, n = .file ((P.bytes a).take k)) ∧ s.disk (incoming job) = some .dir
  published : ∀ p n, s.disk (job :: p) = some n → isJobId job = true ∧ Published P job s.disk
  knows : ∀ pc, s.run = some pc → pc.Knows P job s.disk

/-- A job that exists is left alone. -/
def Frame (t u : Disk) : Prop := t (jobDir job) ≠ none → ∀ p, u (job :: p) = t (job :: p)

end Achieved

section Steps

variable {tar : Bytes → List Member × Bool} {P : Package tar} {job : Text} {t u : Disk}

theorem Published.congr (h : Published P job t) (heq : ∀ p, u (job :: p) = t (job :: p)) :
    Published P job u where
  inputsReady := (Tree.isFile_congr (heq [".inputs-ready".toList])).trans h.inputsReady
  metadata := (Tree.isFile_congr (heq ["metadata.json".toList])).trans h.metadata
  jobFiles p n hp := (heq p).trans (h.jobFiles p n hp)
  inputs p n hp := (heq _).trans (h.inputs p n hp)

theorem Free.congr (h : Free job t) (heq : ∀ p, u (job :: p) = t (job :: p)) : Free job u := by
  refine ⟨?_, h.2⟩
  have hfree := h.1
  unfold present jobDir at hfree ⊢
  rwa [heq []]

theorem Free.jobDir_eq_none (h : Free job t) : t (jobDir job) = none := by
  have hfree := h.1
  unfold present at hfree
  cases hj : t (jobDir job) with
  | none => rfl
  | some n =>
    rw [hj] at hfree
    simp at hfree

/-- Where a member of an archive is extracted. -/
theorem own_member {a : Archive} {k : ℕ} {m : Member} (hm : m ∈ (tar ((P.bytes a).take k)).1) :
    Own job (unpackDir job a ++ m.path) := by
  obtain ⟨m', hm', hpath⟩ := P.paths a k m hm
  cases a with
  | inputs =>
    show Own job (staging job ++ ["rootfs".toList] ++ m.path)
    rw [List.append_assoc]
    exact own_cons job (by decide) m.path
  | jobFiles =>
    have hout := P.outside m' hm' "incoming".toList (by decide)
    rw [hpath] at hout
    show Own job (staging job ++ m.path)
    cases hp : m.path with
    | nil => exact own_staging job
    | cons name q =>
      rw [hp] at hout
      exact own_cons job (fun heq => hout (congrArg some heq)) q

/-- A change below the staging directory at a name that the job files do not use. -/
theorem holds_of_reserved {name : Text} {q : Path} (hname : name ∈ reserved)
    (h : t.Holds (staging job) (P.members .jobFiles))
    (hkeep : ∀ p n, t p = some n → p ≠ staging job ++ name :: q → u p = some n) :
    u.Holds (staging job) (P.members .jobFiles) := by
  intro p n hp
  refine hkeep _ n (h p n hp) fun heq => ?_
  obtain ⟨m, hm, rfl⟩ := mem_of_latest hp
  have hpath : m.path = name :: q := List.append_cancel_left heq
  exact P.outside m hm name hname (by rw [hpath]; rfl)

namespace Sound

variable {s : State} {d : Disk} {r : Option Pc}

/-- A command without an effect. -/
theorem same (h : Sound P job s) (hknows : ∀ pc, r = some pc → pc.Knows P job s.disk) :
    Sound P job ⟨s.disk, r⟩ ∧ Frame job s.disk s.disk :=
  ⟨⟨h.root, h.staged, h.archives, h.published, hknows⟩, fun _ _ => rfl⟩

/-- A command with an effect on the staging directory. -/
theorem changed (h : Sound P job s) (hfree : Free job s.disk) (hlocal : Local job s.disk d)
    (hknows : ∀ pc, r = some pc → pc.Knows P job d) :
    Sound P job ⟨d, r⟩ ∧ Frame job s.disk d := by
  refine ⟨⟨hlocal.dirs _ h.root, fun _ _ _ => hfree.congr hlocal.jobs, fun a n hn => ?_,
    fun p n hn => ?_, hknows⟩, fun _ => hlocal.jobs⟩
  · replace hn : d (archivePath job a) = some n := hn
    rw [hlocal.archives a] at hn
    obtain ⟨hk, hdir⟩ := h.archives a n hn
    exact ⟨hk, hlocal.dirs _ hdir⟩
  · replace hn : d (job :: p) = some n := hn
    rw [hlocal.jobs p] at hn
    obtain ⟨hjob, hpub⟩ := h.published p n hn
    exact ⟨hjob, hpub.congr hlocal.jobs⟩

/-- A command that may fail. -/
theorem after (h : Sound P job s) (stage : Stage) {pc : Pc} {o : Option Disk}
    (hfree : Free job s.disk) (ho : ∀ d, o = some d → Local job s.disk d ∧ pc.Knows P job d) :
    let e := Pc.after s.disk stage pc o
    Sound P job ⟨e.1, some e.2⟩ ∧ Frame job s.disk e.1 := by
  cases o with
  | none =>
    refine h.same fun pc' hpc => ?_
    cases hpc
    intro hcode
    cases hcode
  | some d =>
    obtain ⟨hlocal, hknows⟩ := ho d rfl
    refine h.changed hfree hlocal fun pc' hpc => ?_
    cases hpc
    exact hknows

/-- While `tar` extracts something at the path of its next member. -/
theorem extracting {a : Archive} {m m' : Member} {todo : List Member} {ok : Bool}
    (hknows : (Pc.unpack a (m :: todo) ok).Knows P job s.disk) (hpath : m'.path = m.path)
    (hd : s.disk.extract (unpackDir job a) m' = some d) :
    Local job s.disk d ∧ (a = .inputs → d.Holds (staging job) (P.members .jobFiles)) := by
  obtain ⟨-, hfiles, k, done, hread, -⟩ := hknows
  have hm : m ∈ (tar ((P.bytes a).take k)).1 := by rw [hread]; simp
  refine ⟨local_extract (hpath ▸ own_member hm) hd, ?_⟩
  rintro rfl
  have hkeep : ∀ p n, s.disk p = some n → p ≠ staging job ++ "rootfs".toList :: m'.path →
      d p = some n := by
    intro p n hp hne
    refine Tree.extract_keeps hd hp fun heq => hne (heq.trans ?_)
    exact List.append_assoc ..
  exact holds_of_reserved (by decide) (hfiles rfl) hkeep

/-- The next member has been extracted. -/
theorem extracted (h : Sound P job s) {a : Archive} {m : Member} {todo : List Member} {ok : Bool}
    (hknows : (Pc.unpack a (m :: todo) ok).Knows P job s.disk)
    (hd : s.disk.extract (unpackDir job a) m = some d) :
    Sound P job ⟨d, some (.unpack a todo ok)⟩ ∧ Frame job s.disk d := by
  obtain ⟨hlocal, hfiles⟩ := extracting hknows rfl hd
  obtain ⟨hfree, -, k, done, hread, hok⟩ := hknows
  refine h.changed hfree hlocal fun pc hpc => ?_
  cases hpc
  refine ⟨hfree.congr hlocal.jobs, hfiles, k, done ++ [m], by rw [hread]; simp, fun hgood => ?_⟩
  exact ⟨(hok hgood).1, (hok hgood).2.extract h.root hd⟩

/-- What a command leaves that does not come to its end. -/
theorem leaves_spec {pc : Pc} (hknows : pc.Knows P job s.disk) (part : Option ℕ) :
    pc.leaves job s.disk part = s.disk ∨
      (Free job s.disk ∧ Local job s.disk (pc.leaves job s.disk part) ∧
        ∀ todo ok, pc = .unpack .inputs todo ok →
          (pc.leaves job s.disk part).Holds (staging job) (P.members .jobFiles)) := by
  cases pc with
  | unpack a todo ok =>
    cases todo with
    | nil => exact .inl rfl
    | cons m todo =>
      cases part with
      | none => exact .inl rfl
      | some k =>
        simp only [Pc.leaves]
        cases hd : s.disk.extract (unpackDir job a) (partOf m k) with
        | none => exact .inl rfl
        | some d =>
          have hpath : (partOf m k).path = m.path := by
            unfold partOf
            split <;> rfl
          obtain ⟨hlocal, hfiles⟩ := extracting hknows hpath hd
          refine .inr ⟨hknows.1, hlocal, fun todo' ok' heq => ?_⟩
          cases heq
          exact hfiles rfl
  | _ => exact .inl rfl

/-- A step is cut off. -/
theorem cut (h : Sound P job s) {pc : Pc} (hrun : s.run = some pc) (part : Option ℕ)
    (hknows : ∀ pc', r = some pc' → pc'.Knows P job (pc.leaves job s.disk part)) :
    Sound P job ⟨pc.leaves job s.disk part, r⟩ ∧ Frame job s.disk (pc.leaves job s.disk part) := by
  rcases leaves_spec (h.knows pc hrun) part with heq | ⟨hfree, hlocal, -⟩
  · rw [heq] at hknows ⊢
    exact h.same hknows
  · exact h.changed hfree hlocal hknows

/-- A command fails. -/
theorem fails (h : Sound P job s) {pc pc' : Pc} (hrun : s.run = some pc) (part : Option ℕ)
    (hfails : pc.fails = some pc') : pc'.Knows P job (pc.leaves job s.disk part) := by
  have hknows := h.knows pc hrun
  have hexit : pc' = .exited pc.stage 1 → pc'.Knows P job (pc.leaves job s.disk part) := by
    rintro rfl hcode
    cases hcode
  have hleaves := leaves_spec hknows part
  cases pc with
  | unpack a todo ok =>
    cases todo with
    | nil => exact hexit (Option.some.inj hfails).symm
    | cons m todo =>
      cases hfails
      obtain ⟨hfree, hfiles, k, done, hread, -⟩ := hknows
      refine ⟨?_, ?_, k, done ++ [m], by rw [hread]; simp, fun hok => by cases hok⟩
      · rcases hleaves with heq | ⟨-, hlocal, -⟩
        · rwa [heq]
        · exact hfree.congr hlocal.jobs
      · rintro rfl
        rcases hleaves with heq | ⟨-, -, hholds⟩
        · rw [heq]
          exact hfiles rfl
        · exact hholds _ _ rfl
  | exited stage code => cases hfails
  | _ => exact hexit (Option.some.inj hfails).symm

/-- `tar` opens an archive. -/
theorem opens (h : Sound P job s) (hfree : Free job s.disk) {a : Archive}
    (hfiles : a = .inputs → s.disk.Holds (staging job) (P.members .jobFiles)) :
    (Pc.open tar job s.disk a).Knows P job s.disk := by
  unfold Pc.open
  split
  · next b hb =>
    obtain ⟨⟨k, hk⟩, -⟩ := h.archives a _ hb
    cases hk
    exact ⟨hfree, hfiles, k, [], rfl, fun hok => ⟨hok, Tree.holds_nil _ _⟩⟩
  · intro hcode
    cases hcode

end Sound

/-- A success of `tar` means that the whole archive is unpacked. -/
theorem Unpacking.holds {a : Archive} (h : Unpacking P job t a [] true) :
    t.Holds (unpackDir job a) (P.members a) := by
  obtain ⟨k, done, hread, hok⟩ := h
  obtain ⟨hsuccess, hholds⟩ := hok rfl
  have hlen : (P.bytes a).length ≤ k := by
    by_contra hlt
    rw [P.truncated a k (by omega)] at hsuccess
    cases hsuccess
  rw [List.take_of_length_le hlen, P.reads a, List.append_nil] at hread
  rwa [← show P.members a = done from hread] at hholds

/-- The scripts' own files are none of the archives'. -/
theorem Unpacked.write (h : Unpacked P job t) {name : Text} {q : Path} {c : Bytes}
    (hname : name ∈ reserved) (hroot : name ≠ "rootfs".toList)
    (hu : t.write (staging job ++ name :: q) c = some u) : Unpacked P job u := by
  constructor
  · exact holds_of_reserved hname h.1 fun p n hp hne => (Tree.write_of_ne hu hne).trans hp
  · intro p n hp
    rw [Tree.write_of_ne hu, h.2 p n hp]
    intro heq
    have hnames : "rootfs".toList :: p = name :: q := by
      have hpaths : staging job ++ "rootfs".toList :: p = staging job ++ name :: q := by
        rw [← heq]
        exact (List.append_assoc (staging job) ["rootfs".toList] p).symm
      exact List.append_cancel_left hpaths
    exact hroot (List.cons.inj hnames).1.symm

namespace Sound

variable {s : State} {d : Disk} {r : Option Pc}

/-- The publication itself. -/
theorem publish (h : Sound P job s) (hknows : Pc.publish.Knows P job s.disk) :
    Sound P job ⟨s.disk.move (staging job) (jobDir job), some .announce⟩ ∧
      Frame job s.disk (s.disk.move (staging job) (jobDir job)) := by
  obtain ⟨hfree, hunpacked, hmetadata, hinputs⟩ := hknows
  have hnew : ∀ p, s.disk.move (staging job) (jobDir job) (job :: p) = s.disk (staging job ++ p) :=
    Tree.move_new s.disk (staging job) (jobDir job)
  have hold : ∀ p, s.disk.move (staging job) (jobDir job) (staging job ++ p) = none := fun p =>
    Tree.move_old (job_apart job [] p)
  have hpublished : Published P job (s.disk.move (staging job) (jobDir job)) := by
    constructor
    · exact (Tree.isFile_congr (hnew [".inputs-ready".toList])).trans hinputs
    · exact (Tree.isFile_congr (hnew ["metadata.json".toList])).trans hmetadata
    · intro p n hp
      exact (hnew p).trans (hunpacked.1 p n hp)
    · intro p n hp
      exact (hnew _).trans ((congrArg s.disk (List.append_assoc ..).symm).trans (hunpacked.2 p n hp))
  have hroot : s.disk.move (staging job) (jobDir job) [] = s.disk [] := by
    apply Tree.move_of_not_prefix
    · exact fun hp => List.cons_ne_nil _ _ (List.prefix_nil.1 hp)
    · exact fun hp => List.cons_ne_nil _ _ (List.prefix_nil.1 hp)
  refine ⟨⟨hroot.trans h.root, fun p n hn => ?_, fun a n hn => ?_,
    fun p n hn => ⟨hfree.2, hpublished⟩, fun pc hpc => ?_⟩,
    fun hjob => absurd hfree.jobDir_eq_none hjob⟩
  · rw [show State.disk _ _ = _ from hold p] at hn
    cases hn
  · rw [archivePath, incoming, List.append_assoc, show State.disk _ _ = _ from hold _] at hn
    cases hn
  · cases hpc
    exact hpublished.inputsReady

/-- The next command of a step. -/
protected theorem next (h : Sound P job s) {pc pc' : Pc} (hrun : s.run = some pc)
    (hnext : pc.next P job s.disk = some (d, pc')) :
    Sound P job ⟨d, some pc'⟩ ∧ Frame job s.disk d := by
  have hknows := h.knows pc hrun
  -- a command without an effect establishes what its successor needs
  have hsame : ∀ {pc''}, some (s.disk, pc'') = some (d, pc') → pc''.Knows P job s.disk →
      Sound P job ⟨d, some pc'⟩ ∧ Frame job s.disk d := by
    intro pc'' heq hk
    cases heq
    exact h.same fun pc hpc => by cases hpc; exact hk
  have hafter : ∀ {stage pc'' o}, some (Pc.after s.disk stage pc'' o) = some (d, pc') →
      Free job s.disk → (∀ d, o = some d → Local job s.disk d ∧ pc''.Knows P job d) →
      Sound P job ⟨d, some pc'⟩ ∧ Frame job s.disk d := by
    intro stage pc'' o heq hfree ho
    have hdone := h.after stage hfree ho
    rw [Option.some.inj heq] at hdone
    exact hdone
  cases pc with
  | prepare =>
    refine hsame hnext ?_
    split_ifs with hvalid hdir hthere
    · intro hcode
      cases hcode
    · intro _
      exact Tree.isDir_iff.1 (Bool.and_eq_true_iff.1 hdir).1
    · intro hcode
      cases hcode
    · simp only [Bool.or_eq_true, not_or, Bool.not_eq_true] at hthere
      refine ⟨⟨hthere.1, by simpa using hvalid⟩, fun p hp => ?_, .inr (by simp)⟩
      rcases List.mem_cons.1 hp with rfl | hp
      · exact own_staging job
      · rcases List.mem_singleton.1 hp with rfl
        exact own_incoming job
  | makeIncoming todo =>
    obtain ⟨hfree, hown, hincoming⟩ := hknows
    cases todo with
    | nil => exact hsame hnext fun _ => hincoming.resolve_right List.not_mem_nil
    | cons p todo =>
      refine hafter hnext hfree fun d hd => ?_
      have hlocal := local_mkdir (hown p List.mem_cons_self) hd
      refine ⟨hlocal, hfree.congr hlocal.jobs, fun q hq => hown q (List.mem_cons_of_mem p hq), ?_⟩
      rcases hincoming with hdir | hmem
      · exact .inl (hlocal.dirs _ hdir)
      · rcases List.mem_cons.1 hmem with rfl | hmem
        · exact .inl (Tree.mkdir_self hd h.root)
        · exact .inr hmem
  | copying =>
    obtain ⟨hcopied, hnext⟩ := Option.ite_none_right_eq_some.1 hnext
    exact hsame hnext fun _ => hcopied
  | finish =>
    refine hsame hnext ?_
    split_ifs with hvalid hready hthere hempty
    · intro hcode
      cases hcode
    · exact fun _ => hready
    · intro hcode
      cases hcode
    · intro hcode
      cases hcode
    · simp only [Bool.or_eq_true, not_or, Bool.not_eq_true] at hthere
      refine ⟨⟨hthere.2, by simpa using hvalid⟩, fun p hp => ?_⟩
      simp only [folders, List.mem_cons, List.not_mem_nil, or_false] at hp
      rcases hp with rfl | rfl | rfl | rfl | rfl <;> exact own_cons job (by decide) _
  | makeFolders todo =>
    obtain ⟨hfree, hown⟩ := hknows
    cases todo with
    | nil => exact hsame hnext (h.opens hfree fun ha => by cases ha)
    | cons p todo =>
      refine hafter hnext hfree fun d hd => ?_
      have hlocal := local_mkdir (hown p List.mem_cons_self) hd
      exact ⟨hlocal, hfree.congr hlocal.jobs, fun q hq => hown q (List.mem_cons_of_mem p hq)⟩
  | unpack a todo ok =>
    obtain ⟨hfree, hfiles, hunpacking⟩ := hknows
    cases todo with
    | cons m todo =>
      simp only [Pc.next] at hnext
      split at hnext
      · next d' hd =>
        cases hnext
        exact h.extracted ⟨hfree, hfiles, hunpacking⟩ hd
      · refine hsame hnext ⟨hfree, hfiles, ?_⟩
        obtain ⟨k, done, hread, -⟩ := hunpacking
        exact ⟨k, done ++ [m], by rw [hread]; simp, fun hok => by cases hok⟩
    | nil =>
      cases ok with
      | false =>
        have hexit : some (s.disk, Pc.exited .finish 2) = some (d, pc') := by
          cases a <;> exact hnext
        refine hsame hexit fun hcode => ?_
        cases hcode
      | true =>
        cases a with
        | jobFiles => exact hsame hnext (h.opens hfree fun _ => hunpacking.holds)
        | inputs => exact hsame hnext ⟨hfree, hfiles rfl, hunpacking.holds⟩
  | metadata =>
    refine hsame hnext ?_
    split_ifs with hmetadata
    · exact ⟨hknows.1, hknows.2, hmetadata⟩
    · intro hcode
      cases hcode
  | ready =>
    obtain ⟨hfree, hunpacked, hmetadata⟩ := hknows
    refine hafter hnext hfree fun d hd => ?_
    have hlocal := local_write (own_cons job (by decide) _) hd
    exact ⟨hlocal, hfree.congr hlocal.jobs, hunpacked.write (by decide) (by decide) hd,
      Tree.write_keeps_file hd hmetadata⟩
  | inputsReady =>
    obtain ⟨hfree, hunpacked, hmetadata⟩ := hknows
    refine hafter hnext hfree fun d hd => ?_
    have hlocal := local_write (own_cons job (by decide) _) hd
    exact ⟨hlocal, hfree.congr hlocal.jobs, hunpacked.write (by decide) (by decide) hd,
      Tree.write_keeps_file hd hmetadata, Tree.isFile_iff.2 ⟨_, Tree.write_self hd⟩⟩
  | publish =>
    simp only [Pc.next, hknows.1.jobDir_eq_none, Option.isNone_none, if_true] at hnext
    cases hnext
    exact h.publish hknows
  | announce => exact hsame hnext fun _ => hknows
  | exited stage code => cases hnext

/-- `scp` writes an archive. -/
theorem transfer (h : Sound P job s) {a : Archive} {k : ℕ}
    (hd : s.disk.write (archivePath job a) ((P.bytes a).take k) = some d) :
    Sound P job ⟨d, some .copying⟩ ∧ Frame job s.disk d := by
  have hdir : s.disk (incoming job) = some .dir := by
    have hparent := (Tree.write_eq_some hd).1
    rwa [archivePath, List.dropLast_concat] at hparent
  have hfree := h.staged ["incoming".toList] .dir hdir
  have hjobs : ∀ p, d (job :: p) = s.disk (job :: p) := fun p =>
    Tree.write_of_ne hd fun heq => job_apart job p ["incoming".toList, a.name]
      (heq ▸ List.prefix_rfl)
  refine ⟨⟨Tree.write_keeps_dir hd h.root, fun _ _ _ => hfree.congr hjobs, fun a' n hn => ?_,
    fun p n hn => ?_, fun pc hpc => by cases hpc; trivial⟩, fun _ => hjobs⟩
  · refine ⟨?_, Tree.write_keeps_dir hd hdir⟩
    replace hn : d (archivePath job a') = some n := hn
    by_cases heq : a' = a
    · subst heq
      rw [Tree.write_self hd] at hn
      exact ⟨k, (Option.some.inj hn).symm⟩
    · rw [Tree.write_of_ne hd fun hpath => heq (archivePath_injective job hpath)] at hn
      exact (h.archives a' n hn).1
  · replace hn : d (job :: p) = some n := hn
    rw [hjobs p] at hn
    obtain ⟨hjob, hpublished⟩ := h.published p n hn
    exact ⟨hjob, hpublished.congr hjobs⟩

protected theorem step (h : Sound P job s) {s' : State} {e : Event}
    (hstep : s.step P job e = some s') : Sound P job s' ∧ Frame job s.disk s'.disk := by
  cases e with
  | start stage =>
    obtain ⟨-, hstep⟩ := Option.ite_none_right_eq_some.1 hstep
    cases hstep
    exact h.same fun pc hpc => by cases hpc; cases stage <;> trivial
  | next =>
    simp only [State.step] at hstep
    split at hstep
    · next pc hrun =>
      obtain ⟨⟨d, pc'⟩, hnext, rfl⟩ := Option.map_eq_some_iff.1 hstep
      exact h.next hrun hnext
    · cases hstep
  | transfer a k =>
    simp only [State.step] at hstep
    split at hstep
    · next hrun =>
      cases hstep
      cases hd : s.disk.write (archivePath job a) ((P.bytes a).take k) with
      | none => exact h.same fun pc hpc => by cases hpc; intro hcode; cases hcode
      | some d => exact h.transfer hd
    · cases hstep
  | fails part =>
    simp only [State.step] at hstep
    split at hstep
    · next pc hrun =>
      obtain ⟨pc', hfails, rfl⟩ := Option.map_eq_some_iff.1 hstep
      exact h.cut hrun part fun pc'' hpc => by cases hpc; exact h.fails hrun part hfails
    · cases hstep
  | cut part =>
    simp only [State.step] at hstep
    split at hstep
    · next pc hrun =>
      cases hstep
      exact h.cut hrun part fun pc' hpc => by cases hpc
    · cases hstep

end Sound

/-! ### Repeated steps -/

/-- The step goes on undisturbed. -/
def Event.proceeds : Event → Bool
  | .next | .transfer .. => true
  | _ => false

/-- The step can be run to a successful end, and undisturbed it has no other end. -/
def Repeats (P : Package tar) (job : Text) (s : State) (stage : Stage) : Prop :=
  (∃ es s', (∀ e ∈ es, e.proceeds = true) ∧
    Machine.run (State.step P job) s (.start stage :: es) = some s' ∧
      s'.run = some (.exited stage 0)) ∧
  ∀ es s', (∀ e ∈ es, e.proceeds = true) →
    Machine.run (State.step P job) s (.start stage :: es) = some s' →
      ∀ code, s'.run = some (.exited stage code) → code = 0

/-- A step that stays at its first command until it exits with code 0. -/
theorem exits_zero {s : State} {stage : Stage} {Q : Disk → Prop} (hs : Q s.disk)
    (hstep : ∀ d e s', Q d → e.proceeds = true →
      State.step P job ⟨d, some stage.start⟩ e = some s' →
        (s'.run = some stage.start ∧ Q s'.disk) ∨ s'.run = some (.exited stage 0))
    {es : List Event} {s' : State} (hes : ∀ e ∈ es, e.proceeds = true)
    (hrun : Machine.run (State.step P job) s (.start stage :: es) = some s') (code : ℕ)
    (hcode : s'.run = some (.exited stage code)) : code = 0 := by
  obtain ⟨m, hm, hrun⟩ := Machine.run_cons_some.1 hrun
  obtain ⟨-, hm⟩ := Option.ite_none_right_eq_some.1 hm
  cases hm
  have hend : (s'.run = some stage.start ∧ Q s'.disk) ∨ s'.run = some (.exited stage 0) := by
    refine Machine.invariant_along (I := fun u => (u.run = some stage.start ∧ Q u.disk) ∨
      u.run = some (.exited stage 0)) ?_ (.inl ⟨rfl, hs⟩) (Machine.along_of_forall hes _) hrun
    rintro ⟨d, r⟩ e u (⟨hr, hq⟩ | hr) he hu
    · cases hr
      exact hstep d e u hq he hu
    · cases hr
      cases e <;> cases he <;> cases hu
  rcases hend with ⟨hstart, -⟩ | hzero
  · rw [hstart] at hcode
    cases stage <;> cases hcode
  · rw [hzero] at hcode
    cases hcode
    rfl

/-- A step whose tests find its work done. -/
theorem repeats_of_next {s : State} {stage : Stage} (hidle : s.idle = true) (hcopy : stage ≠ .copy)
    (hnext : stage.start.next P job s.disk = some (s.disk, .exited stage 0)) :
    Repeats P job s stage := by
  refine ⟨⟨[.next], ⟨s.disk, some (.exited stage 0)⟩, by decide, ?_, rfl⟩, fun es s' hes hrun => ?_⟩
  · simp only [Machine.run, State.step, hidle, if_true, Option.bind_some, hnext, Option.map_some]
  · refine exits_zero (Q := fun d => d = s.disk) rfl ?_ hes hrun
    rintro d e u rfl he hu
    cases e with
    | next =>
      simp only [State.step, hnext] at hu
      cases hu
      exact .inr rfl
    | transfer a k => cases stage <;> first | exact absurd rfl hcopy | cases hu
    | _ => cases he

/-- `scp` can write the archives. -/
def Receives (job : Text) (d : Disk) : Prop :=
  d (incoming job) = some .dir ∧ ∀ a, d.isDir (archivePath job a) = false

theorem Receives.write {d : Disk} (h : Receives job d) (a : Archive) (c : Bytes) :
    ∃ d', d.write (archivePath job a) c = some d' ∧ Receives job d' := by
  have hparent : d (archivePath job a).dropLast = some .dir := by
    rw [archivePath, List.dropLast_concat]
    exact h.1
  have hd := Tree.exists_write hparent (h.2 a) c
  refine ⟨_, hd, Tree.write_keeps_dir hd h.1, fun a' => ?_⟩
  by_cases heq : archivePath job a' = archivePath job a
  · unfold Tree.isDir
    rw [heq, Tree.write_self hd]
  · have hother := h.2 a'
    unfold Tree.isDir at hother ⊢
    rwa [Tree.write_of_ne hd heq]

/-- `scp` copies the archives again. -/
theorem repeats_copy {s : State} (hidle : s.idle = true) (hs : Receives job s.disk) :
    Repeats P job s .copy := by
  constructor
  · obtain ⟨d, hd, hreceives⟩ := hs.write .inputs ((P.bytes .inputs).take (P.bytes .inputs).length)
    obtain ⟨d', hd', -⟩ :=
      hreceives.write .jobFiles ((P.bytes .jobFiles).take (P.bytes .jobFiles).length)
    have hcopied : copied P job d' = true := by
      have hinputs : d' (archivePath job .inputs) = some (.file (P.bytes .inputs)) := by
        have hne : archivePath job .inputs ≠ archivePath job .jobFiles := fun heq =>
          Archive.noConfusion (archivePath_injective job heq)
        rw [Tree.write_of_ne hd' hne, Tree.write_self hd, List.take_length]
      have hfiles : d' (archivePath job .jobFiles) = some (.file (P.bytes .jobFiles)) := by
        rw [Tree.write_self hd', List.take_length]
      simp [copied, hinputs, hfiles]
    refine ⟨[.transfer .inputs (P.bytes .inputs).length,
      .transfer .jobFiles (P.bytes .jobFiles).length, .next], ⟨d', some (.exited .copy 0)⟩,
      by simp [Event.proceeds], ?_, rfl⟩
    simp only [Machine.run, State.step, hidle, if_true, Option.bind_some, Stage.start, hd, hd',
      Pc.after, Pc.next, hcopied, Option.map_some]
  · intro es s' hes hrun
    refine exits_zero (Q := Receives job) hs ?_ hes hrun
    intro d e u hd he hu
    cases e with
    | next =>
      simp only [State.step, Stage.start, Pc.next] at hu
      split_ifs at hu
      · cases hu
        exact .inr rfl
      · cases hu
    | transfer a k =>
      obtain ⟨d', hd', hreceives⟩ := hd.write a ((P.bytes a).take k)
      simp only [State.step, Stage.start, hd', Pc.after] at hu
      cases hu
      exact .inl ⟨rfl, hreceives⟩
    | _ => cases he

/-- A completed step can be repeated. -/
theorem Sound.repeats {s : State} (h : Sound P job s) (hidle : s.idle = true) {stage : Stage}
    (hdone : Completed P job s.disk stage) : Repeats P job s stage := by
  cases stage with
  | prepare =>
    obtain ⟨hfree, hjob⟩ := h.staged ["incoming".toList] .dir hdone
    refine repeats_of_next hidle (by decide) ?_
    have hdir : s.disk.isDir (incoming job) = true := Tree.isDir_iff.2 hdone
    simp only [Stage.start, Pc.next, hjob, hfree, hdir]
    rfl
  | copy =>
    have hcopied : ∀ a, s.disk (archivePath job a) = some (.file (P.bytes a)) := by
      have hall := of_decide_eq_true hdone
      intro a
      apply hall
      cases a <;> decide
    refine repeats_copy hidle ⟨(h.archives .inputs _ (hcopied .inputs)).2, fun a => ?_⟩
    unfold Tree.isDir
    rw [hcopied a]
  | finish =>
    obtain ⟨c, hc⟩ := Tree.isFile_iff.1 hdone
    obtain ⟨hjob, -⟩ := h.published [".inputs-ready".toList] _ hc
    refine repeats_of_next hidle (by decide) ?_
    have hready : s.disk.isFile (jobDir job ++ [".inputs-ready".toList]) = true := hdone
    simp only [Stage.start, Pc.next, hjob, hready]
    rfl

end Steps

/-! ### Uploads -/

section Uploads

variable {tar : Bytes → List Member × Bool} {P : Package tar} {job : Text} {s t : State}

theorem sound_fresh : Sound P job State.fresh := by
  have hnone : ∀ (p : Text) (q : Path), State.fresh.disk (p :: q) = none := by
    intro p q
    rfl
  constructor
  · rfl
  · intro r n hn
    rw [staging, List.singleton_append, hnone] at hn
    cases hn
  · intro a n hn
    rw [archivePath, incoming, staging, List.append_assoc, List.singleton_append, hnone] at hn
    cases hn
  · intro p n hn
    rw [hnone] at hn
    cases hn
  · intro pc hpc
    cases hpc

theorem Sound.run (h : Sound P job s) {es : List Event}
    (hrun : Machine.run (State.step P job) s es = some t) : Sound P job t :=
  Machine.invariant (fun _ _ _ hs hstep => (hs.step hstep).1) h hrun

/-- A published job is left alone by every later run. -/
theorem Sound.frame (h : Sound P job s) {es : List Event}
    (hrun : Machine.run (State.step P job) s es = some t) (hjob : s.disk (jobDir job) ≠ none) (p : Path) :
    t.disk (job :: p) = s.disk (job :: p) := by
  have hend : Sound P job t ∧ ∀ p, t.disk (job :: p) = s.disk (job :: p) := by
    refine Machine.invariant (I := fun u => Sound P job u ∧
      ∀ p, u.disk (job :: p) = s.disk (job :: p)) ?_ ⟨h, fun _ => rfl⟩ hrun
    rintro u e v ⟨hu, hsame⟩ hstep
    obtain ⟨hv, hframe⟩ := hu.step hstep
    have hthere : u.disk (jobDir job) ≠ none := by
      rw [show u.disk (jobDir job) = s.disk (jobDir job) from hsame []]
      exact hjob
    exact ⟨hv, fun p => (hframe hthere p).trans (hsame p)⟩
  exact hend.2 p

/-- **Publication is atomic.**  In every run of the three steps of an upload, cut off anywhere and
repeated at will: the job directory exists only as a complete one; a step that has exited with code 0
has completed its work, and a completed step can be repeated; and an existing job directory is never
changed. -/
theorem upload_publication (tar : Bytes → List Member × Bool) (P : Package tar) (job : Text)
    (es : List Event) (s : State)
    (hrun : Machine.run (State.step P job) State.fresh es = some s) :
    (s.disk (jobDir job) ≠ none → Published P job s.disk) ∧
    (∀ stage, (s.run = some (.exited stage 0) → Completed P job s.disk stage) ∧
      (s.idle = true → Completed P job s.disk stage → Repeats P job s stage)) ∧
    ∀ es' t, Machine.run (State.step P job) s es' = some t → s.disk (jobDir job) ≠ none →
      ∀ p, t.disk (job :: p) = s.disk (job :: p) := by
  have hsound : Sound P job s := sound_fresh.run hrun
  refine ⟨fun hjob => ?_, fun stage => ⟨fun hexit => ?_, fun hidle => hsound.repeats hidle⟩,
    fun es' t hlater hjob => hsound.frame hlater hjob⟩
  · obtain ⟨n, hn⟩ := Option.ne_none_iff_exists'.1 hjob
    exact (hsound.published [] n hn).2
  · exact hsound.knows _ hexit rfl

/-- A compressed archive of `metadata.json`, which holds an empty object. -/
def sampleJobFiles : Bytes :=
  [31, 139, 8, 0, 0, 0, 0, 0, 2, 255, 203, 77, 45, 73, 76, 73, 44, 73, 212, 203, 42, 206, 207, 99,
   160, 13, 48, 0, 2, 51, 19, 19, 48, 13, 4, 232, 52, 16, 24, 35, 177, 129, 226, 134, 6, 38, 134,
   134, 12, 10, 6, 12, 116, 0, 165, 197, 37, 137, 69, 64, 235, 25, 70, 38, 168, 174, 229, 98, 24,
   5, 163, 96, 20, 140, 130, 81, 48, 242, 0, 0, 47, 245, 66, 141, 0, 8, 0, 0]

/-- A compressed archive of a file `p` of two characters. -/
def sampleInputs : Bytes :=
  [31, 139, 8, 0, 0, 0, 0, 0, 2, 255, 43, 96, 160, 61, 48, 0, 2, 51, 19, 19, 48, 13, 4, 232, 52,
   16, 24, 33, 177, 65, 226, 102, 134, 134, 230, 12, 10, 6, 116, 112, 27, 67, 105, 113, 73, 98,
   17, 208, 74, 134, 145, 9, 10, 184, 24, 70, 193, 40, 24, 5, 163, 96, 20, 140, 64, 0, 0, 34, 210,
   19, 98, 0, 8, 0, 0]

/-- `tar` on these two archives, and on truncated copies of them. -/
def sampleTar (b : Bytes) : List Member × Bool :=
  if b = sampleJobFiles then ([⟨["metadata.json".toList], .file [123, 125, 10]⟩], true)
  else if b = sampleInputs then ([⟨["p".toList], .file [112, 10]⟩], true)
  else ([], false)

/-- A truncated copy of one of the archives is neither of them. -/
theorem sampleTar_truncated {b : Bytes} (hb : b = sampleJobFiles ∨ b = sampleInputs) {k : ℕ}
    (hk : k < b.length) : sampleTar (b.take k) = ([], false) := by
  rcases hb with rfl | rfl
  · have hall : ∀ k < sampleJobFiles.length, sampleTar (sampleJobFiles.take k) = ([], false) := by
      decide +kernel
    exact hall k hk
  · have hall : ∀ k < sampleInputs.length, sampleTar (sampleInputs.take k) = ([], false) := by
      decide +kernel
    exact hall k hk

def sampleBytes : Archive → Bytes
  | .inputs => sampleInputs
  | .jobFiles => sampleJobFiles

theorem sampleBytes_eq (a : Archive) :
    sampleBytes a = sampleJobFiles ∨ sampleBytes a = sampleInputs := by
  cases a
  · exact .inr rfl
  · exact .inl rfl

def samplePackage : Package sampleTar where
  bytes := sampleBytes
  members a := (sampleTar (sampleBytes a)).1
  reads a := by cases a <;> decide +kernel
  truncated a k hk := by rw [sampleTar_truncated (sampleBytes_eq a) hk]
  paths a k m hm := by
    by_cases hk : k < (sampleBytes a).length
    · rw [sampleTar_truncated (sampleBytes_eq a) hk] at hm
      cases hm
    · rw [List.take_of_length_le (by omega)] at hm
      exact ⟨m, hm, rfl⟩
  outside := by decide +kernel

/-- An upload without an incident. -/
theorem upload_publication_sample :
    let job : Text := "j_1_1".toList
    let es : List Event := .start .prepare :: List.replicate 4 .next ++
      [.start .copy, .transfer .inputs 75, .transfer .jobFiles 88, .next, .start .finish] ++
      List.replicate 16 .next
    ∃ s, Machine.run (State.step samplePackage job) State.fresh es = some s ∧
      s.run = some (.exited .finish 0) ∧ Published samplePackage job s.disk := by
  intro job es
  have hend : (Machine.run (State.step samplePackage job) State.fresh es).map (fun s =>
      (s.run, (s.disk (jobDir job)).isSome)) = some (some (.exited .finish 0), true) := by
    decide +kernel
  obtain ⟨s, hrun, hs⟩ := Option.map_eq_some_iff.1 hend
  obtain ⟨hexit, hjob⟩ := Prod.mk.inj hs
  refine ⟨s, hrun, hexit, (upload_publication sampleTar samplePackage job es s hrun).1 ?_⟩
  exact Option.isSome_iff_ne_none.1 hjob

end Uploads

end Upload
end Slurmy
