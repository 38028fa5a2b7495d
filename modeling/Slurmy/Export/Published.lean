import Mathlib.Data.List.AList
import Slurmy.Lib.Machine
import Slurmy.Export.PairArchives

/-!
# Publishing the archives of the pairs

`publish_verbose_pairs` keeps the archives whose sources have the size and the time in its index, makes the others
again, and removes those that only the former index has.

* `State`, `Event`, `step`: downloads and publications, one replacement after the other; a publication may be killed
  anywhere, and between two of them a user may add and remove files;
* `keepsTime`: an archive that has changed has a later time;
* `State.Inv`: the index never lies about the files, and how far a publication has come;
* `published_archives`: what the directory holds after a publication;
* `kept`: what it holds at any time, and that nothing else is touched.

One process publishes at a time.
-/

namespace Slurmy
namespace Export
namespace PairArchives

/-! ### Publications -/

/-- `.archive-index.json`. -/
abbrev Index := AList fun _ : Text => Signature

/-- A file in `solver-problem-pairs`, next to the index. -/
inductive File
  | pair (members : List Member)
  | other
  deriving DecidableEq

inductive Phase
  /-- the records that are not looked at yet -/
  | pairs (todo : List ℕ)
  /-- the names of `previous` that `current` lacks, as long as they are not looked at -/
  | drop (todo : List Text)
  /-- the new index is written under its temporary name -/
  | index

structure Run where
  definitions : List (ℤ × Item)
  previous : Index
  current : Index
  phase : Phase

/-- `past` are all mirrors, the last one first; `index` is `none` when it cannot be read. -/
structure State where
  mirror : Mirror
  past : List Mirror
  files : AList fun _ : Text => File
  index : Option Index
  active : Option Run

inductive Event
  /-- a download -/
  | mirror (m : Mirror)
  | start
  /-- the next record -/
  | pair
  /-- there are no more records -/
  | compare
  /-- a name that is in the former index only -/
  | drop (name : Text)
  | writeIndex
  | finish
  /-- the publication is killed, and may leave a temporary file, or it fails -/
  | kill (leftover : Option Text)
  /-- a user puts a file there -/
  | place (name : Text)
  /-- a user removes a file -/
  | remove (name : Text)
  /-- a user removes the index -/
  | forget

def Mirror.empty : Mirror := ⟨⟨[], fun _ => none⟩, fun _ => 0, fun _ => 0⟩

def State.initial : State := ⟨.empty, [.empty], ∅, none, none⟩

/-- The next step of a publication. -/
def advance (s : State) (r : Run) : Event → Option State
  | .pair =>
      match r.phase with
      | .pairs (task :: todo) =>
          (s.mirror.pair r.definitions task).bind fun
            | none => some { s with active := some { r with phase := .pairs todo } }
            | some p =>
                let r := { r with current := r.current.insert p.name p.signature, phase := .pairs todo }
                if r.previous.lookup p.name = some p.signature ∧ p.name ∈ s.files then some { s with active := some r }
                else p.archive.map fun members =>
                  { s with files := s.files.insert p.name (.pair members), active := some r }
      | _ => none
  | .compare =>
      match r.phase with
      | .pairs [] =>
          some { s with active := some { r with phase := .drop (r.previous.keys.filter (· ∉ r.current)) } }
      | _ => none
  | .drop name =>
      match r.phase with
      | .drop todo =>
          if name ∈ todo then
            some { s with
              files := if isGenerated name then s.files.erase name else s.files
              active := some { r with phase := .drop (todo.erase name) } }
          else none
      | _ => none
  | .writeIndex =>
      match r.phase with
      | .drop [] =>
          some { s with files := s.files.insert temporaryIndex .other, active := some { r with phase := .index } }
      | _ => none
  | .finish =>
      match r.phase with
      | .index => some { s with files := s.files.erase temporaryIndex, index := some r.current, active := none }
      | _ => none
  | .kill none => some { s with active := none }
  | .kill (some name) =>
      match r.phase with
      | .pairs _ =>
          if isTemporary name ∧ name ∉ s.files then
            some { s with files := s.files.insert name .other, active := none }
          else none
      | _ => none
  | _ => none

/-- A user puts no file under a name of the index. -/
def step (s : State) (e : Event) : Option State :=
  match s.active, e with
  | some r, e => advance s r e
  | none, .mirror m => some { s with mirror := m, past := m :: s.past }
  | none, .start =>
      s.mirror.job.definitions.map fun definitions =>
        { s with active := some ⟨definitions, s.index.getD ∅, ∅, .pairs s.mirror.tasks⟩ }
  | none, .place name =>
      if name ∈ s.index.getD ∅ then none else some { s with files := s.files.insert name .other }
  | none, .remove name => some { s with files := s.files.erase name }
  | none, .forget => some { s with index := none }
  | none, _ => none

/-- An archive that has changed since an earlier download has a later time. -/
def keepsTime (s : State) : Event → Prop
  | .mirror m => ∀ p ∈ m.pairs, ∀ former ∈ s.past, ∀ p' ∈ former.pairs, p'.name = p.name →
      p' = p ∨ p'.signature.mtime < p.signature.mtime
  | _ => True

instance (s : State) (e : Event) : Decidable (keepsTime s e) := by
  unfold keepsTime
  split <;> infer_instance

/-! ### The index and the files -/

section Index

variable {s t : State} {r : Run} {name : Text} {signature : Signature} {p : Pair} {members : List Member}

/-- The pair has been in the mirror. -/
def State.Seen (s : State) (p : Pair) : Prop := ∃ m ∈ s.past, p ∈ m.pairs

/-- The name of an index was that of a pair with this signature, and the file under it, if there is one, is made of
this pair or of a later one. -/
def State.Shows (s : State) (name : Text) (signature : Signature) : Prop :=
  ∃ former, s.Seen former ∧ former.name = name ∧ former.signature = signature ∧
    ∀ f, s.files.lookup name = some f → ∃ p, s.Seen p ∧ p.name = name ∧
      (p = former ∨ former.signature.mtime < p.signature.mtime) ∧ ∃ members, p.archive = some members ∧ f = .pair members

/-- The records `done` have been looked at. -/
structure State.Working (s : State) (r : Run) (done : List ℕ) : Prop where
  definitions : s.mirror.job.definitions = some r.definitions
  previous : r.previous = s.index.getD ∅
  current : ∀ name signature, r.current.lookup name = some signature ↔
    ∃ task ∈ done, ∃ p, s.mirror.pair r.definitions task = some (some p) ∧ p.name = name ∧ p.signature = signature
  written : ∀ task ∈ done, ∀ p, s.mirror.pair r.definitions task = some (some p) →
    ∃ members, p.archive = some members ∧ s.files.lookup p.name = some (.pair members)

/-- The names that only the former index has, but for `todo`, are gone. -/
def State.Dropped (s : State) (r : Run) (todo : List Text) : Prop :=
  ∀ name ∈ r.previous, name ∉ r.current → name ∉ todo → s.files.lookup name = none

/-- How far a publication has come. -/
def State.At (s : State) (r : Run) : Phase → Prop
  | .pairs todo => ∃ done, s.mirror.tasks = done ++ todo ∧ s.Working r done
  | .drop todo => s.Working r s.mirror.tasks ∧ (∀ name ∈ todo, name ∈ r.previous ∧ name ∉ r.current) ∧ s.Dropped r todo
  | .index => s.Working r s.mirror.tasks ∧ s.Dropped r []

structure State.Inv (s : State) : Prop where
  mirror : s.mirror ∈ s.past
  latest : ∀ p ∈ s.mirror.pairs, ∀ former, s.Seen former → former.name = p.name →
    former = p ∨ former.signature.mtime < p.signature.mtime
  index : ∀ name signature, (s.index.getD ∅).lookup name = some signature → s.Shows name signature
  active : ∀ r, s.active = some r → s.At r r.phase

/-- Other files may be lost, and others may be replaced by the archives of pairs that are in the mirror now. -/
theorem State.Shows.change (h : s.Shows name signature) (hseen : ∀ p, s.Seen p → t.Seen p)
    (hfiles : ∀ f, t.files.lookup name = some f → s.files.lookup name = some f ∨
      ∃ p members, t.Seen p ∧ p.name = name ∧ p.archive = some members ∧ f = .pair members ∧
        ∀ former, s.Seen former → former.name = name → former = p ∨ former.signature.mtime < p.signature.mtime) :
    t.Shows name signature := by
  obtain ⟨former, hformer, hname, hsignature, hfile⟩ := h
  refine ⟨former, hseen former hformer, hname, hsignature, fun f hf => ?_⟩
  rcases hfiles f hf with hf | ⟨p, members, hp, hpname, hmembers, rfl, hlater⟩
  · obtain ⟨p, hp, hpname, hlater, hmembers⟩ := hfile f hf
    exact ⟨p, hseen p hp, hpname, hlater, hmembers⟩
  · exact ⟨p, hp, hpname, (hlater former hformer hname).imp Eq.symm id, members, hmembers, rfl⟩

/-- A file with the signature of the mirror is made of the archive in the mirror. -/
theorem State.Inv.current (h : s.Inv) (hp : p ∈ s.mirror.pairs)
    (hsignature : (s.index.getD ∅).lookup p.name = some p.signature) (hfile : p.name ∈ s.files) :
    ∃ members, p.archive = some members ∧ s.files.lookup p.name = some (.pair members) := by
  obtain ⟨f, hf⟩ := Option.isSome_iff_exists.mp (AList.lookup_isSome.mpr hfile)
  obtain ⟨former, hformer, hname, hsame, hfiles⟩ := h.index _ _ hsignature
  obtain ⟨q, hq, hqname, hlater, members, hmembers, rfl⟩ := hfiles f hf
  have hmtime : former.signature.mtime = p.signature.mtime := congrArg Signature.mtime hsame
  obtain rfl : former = p := (h.latest p hp former hformer hname).resolve_right (by omega)
  obtain rfl : q = former := by
    rcases hlater with heq | hlater
    · exact heq
    · exact (h.latest former hp q hq hqname).resolve_right (by omega)
  exact ⟨members, hmembers, hf⟩

/-- The files that change, but for those outside the index, become the archives of pairs that are in the mirror. -/
theorem State.Inv.move (h : s.Inv) {files : AList fun _ : Text => File} {active : Option Run}
    (hfiles : ∀ name ∈ s.index.getD ∅, ∀ f, files.lookup name = some f → s.files.lookup name = some f ∨
      ∃ p ∈ s.mirror.pairs, p.name = name ∧ ∃ members, p.archive = some members ∧ f = .pair members)
    (hactive : ∀ r, active = some r → State.At { s with files := files, active := active } r r.phase) :
    State.Inv { s with files := files, active := active } where
  mirror := h.mirror
  latest := h.latest
  index name signature hname := by
    refine (h.index name signature hname).change (fun _ hp => hp) fun f hf => ?_
    refine (hfiles name (AList.lookup_isSome.mp (by rw [hname]; rfl)) f hf).imp id ?_
    rintro ⟨p, hp, rfl, members, hmembers, rfl⟩
    exact ⟨p, members, ⟨s.mirror, h.mirror, hp⟩, rfl, hmembers, rfl, fun former => h.latest p hp former⟩
  active := hactive

/-! ### One step -/

theorem State.Inv.mirror_step (h : s.Inv) {m : Mirror} (hactive : s.active = none) (htime : keepsTime s (.mirror m)) :
    State.Inv { s with mirror := m, past := m :: s.past } where
  mirror := List.mem_cons_self
  latest p hp former hformer hname := by
    obtain ⟨m', hm', hformer⟩ := hformer
    rcases List.mem_cons.mp hm' with rfl | hm'
    · exact .inl (mem_pairs_unique hp hformer hname)
    · exact htime p hp m' hm' former hformer hname
  index name signature hname :=
    (h.index name signature hname).change
      (fun _ hp => hp.imp fun _ hm => ⟨List.mem_cons_of_mem _ hm.1, hm.2⟩) fun f hf => .inl hf
  active r hr := by
    rw [hactive] at hr
    cases hr

/-- The first record of `todo` has no archive. -/
theorem State.Working.skip {done : List ℕ} {task : ℕ} (h : s.Working r done)
    (hpair : s.mirror.pair r.definitions task = some none) : s.Working r (done ++ [task]) where
  definitions := h.definitions
  previous := h.previous
  current name signature := by
    rw [h.current]
    constructor
    · rintro ⟨t, ht, hp⟩
      exact ⟨t, List.mem_append_left _ ht, hp⟩
    · rintro ⟨t, ht, p, hp, hrest⟩
      rcases List.mem_append.mp ht with ht | ht
      · exact ⟨t, ht, p, hp, hrest⟩
      · rw [List.mem_singleton.mp ht, hpair] at hp
        cases hp
  written t ht p hp := by
    rcases List.mem_append.mp ht with ht | ht
    · exact h.written t ht p hp
    · rw [List.mem_singleton.mp ht, hpair] at hp
      cases hp

/-- The first record of `todo` has an archive, and its new archive is there. -/
theorem State.Working.add {done : List ℕ} {task : ℕ} {files : AList fun _ : Text => File} {active : Option Run}
    {phase : Phase} (h : s.Working r done) (hpair : s.mirror.pair r.definitions task = some (some p))
    (hmembers : p.archive = some members) (hfile : files.lookup p.name = some (.pair members))
    (hfiles : ∀ name ≠ p.name, files.lookup name = s.files.lookup name) :
    State.Working { s with files := files, active := active }
      ⟨r.definitions, r.previous, r.current.insert p.name p.signature, phase⟩ (done ++ [task]) where
  definitions := h.definitions
  previous := h.previous
  current name signature := by
    show (r.current.insert p.name p.signature).lookup name = some signature ↔
      ∃ t ∈ done ++ [task], ∃ q, s.mirror.pair r.definitions t = some (some q) ∧ q.name = name ∧ q.signature = signature
    by_cases hname : name = p.name
    · subst hname
      rw [AList.lookup_insert, Option.some.injEq]
      constructor
      · rintro rfl
        exact ⟨task, List.mem_append_right _ List.mem_cons_self, p, hpair, rfl, rfl⟩
      · rintro ⟨t, -, q, hq, hname, rfl⟩
        rw [pair_unique hpair hq hname]
    · rw [AList.lookup_insert_ne hname, h.current]
      constructor
      · rintro ⟨t, ht, hq⟩
        exact ⟨t, List.mem_append_left _ ht, hq⟩
      · rintro ⟨t, ht, q, hq, hqname, hrest⟩
        rcases List.mem_append.mp ht with ht | ht
        · exact ⟨t, ht, q, hq, hqname, hrest⟩
        · rw [List.mem_singleton.mp ht, hpair] at hq
          cases hq
          exact absurd hqname.symm hname
  written t ht q hq := by
    by_cases hname : q.name = p.name
    · obtain rfl := pair_unique hpair hq hname
      exact ⟨members, hmembers, hfile⟩
    · rcases List.mem_append.mp ht with ht | ht
      · obtain ⟨members', hmembers', hwritten⟩ := h.written t ht q hq
        exact ⟨members', hmembers', (hfiles q.name hname).trans hwritten⟩
      · rw [List.mem_singleton.mp ht] at hq
        have heq : some (some q) = some (some p) := hq.symm.trans hpair
        cases heq
        exact absurd rfl hname

theorem State.Inv.pair_step (h : s.Inv) (hactive : s.active = some r) (hstep : advance s r .pair = some t) : t.Inv := by
  have hat := h.active r hactive
  dsimp only [advance] at hstep
  split at hstep
  · next task todo hphase =>
    rw [hphase] at hat
    obtain ⟨done, htasks, hworking⟩ := hat
    have htasks' : s.mirror.tasks = (done ++ [task]) ++ todo := by
      rw [htasks, List.append_assoc, List.singleton_append]
    obtain ⟨found, hpair, hstep⟩ := Option.bind_eq_some_iff.mp hstep
    cases found with
    | none =>
      rw [← Option.some.inj hstep]
      refine h.move (fun _ _ f hf => .inl hf) fun r' hr' => ?_
      rw [← Option.some.inj hr']
      have hskip := hworking.skip hpair
      exact ⟨done ++ [task], htasks', hskip.definitions, hskip.previous, hskip.current, hskip.written⟩
    | some p =>
      have hp : p ∈ s.mirror.pairs := by
        refine mem_pairs.mpr ⟨r.definitions, hworking.definitions, task, ?_, hpair⟩
        rw [htasks]
        exact List.mem_append_right _ List.mem_cons_self
      dsimp only at hstep
      split_ifs at hstep with hkeep
      · rw [← Option.some.inj hstep]
        rw [hworking.previous] at hkeep
        obtain ⟨members, hmembers, hfile⟩ := h.current hp hkeep.1 hkeep.2
        refine h.move (fun _ _ f hf => .inl hf) fun r' hr' => ?_
        rw [← Option.some.inj hr']
        exact ⟨done ++ [task], htasks', hworking.add hpair hmembers hfile fun _ _ => rfl⟩
      · obtain ⟨members, hmembers, rfl⟩ := Option.map_eq_some_iff.mp hstep
        refine h.move (fun name _ f hf => ?_) fun r' hr' => ?_
        · by_cases hname : name = p.name
          · subst hname
            rw [AList.lookup_insert] at hf
            exact .inr ⟨p, hp, rfl, members, hmembers, (Option.some.inj hf).symm⟩
          · rw [AList.lookup_insert_ne hname] at hf
            exact .inl hf
        · rw [← Option.some.inj hr']
          exact ⟨done ++ [task], htasks', hworking.add hpair hmembers (AList.lookup_insert _) fun name hname =>
            AList.lookup_insert_ne hname⟩
  · cases hstep

/-- The names of the index are those of pairs. -/
theorem State.Inv.exists_pair (h : s.Inv) (hname : name ∈ s.index.getD ∅) :
    ∃ p m, m ∈ s.past ∧ p ∈ Mirror.pairs m ∧ p.name = name := by
  obtain ⟨signature, hsignature⟩ := Option.isSome_iff_exists.mp (AList.lookup_isSome.mpr hname)
  obtain ⟨p, ⟨m, hm, hp⟩, hpname, -⟩ := h.index name signature hsignature
  exact ⟨p, m, hm, hp, hpname⟩

/-- The archives of the mirror are in the new index. -/
theorem State.Working.mem_current (h : s.Working r s.mirror.tasks) (hp : p ∈ s.mirror.pairs) :
    r.current.lookup p.name = some p.signature ∧
      ∃ members, p.archive = some members ∧ s.files.lookup p.name = some (.pair members) := by
  obtain ⟨definitions, hdefinitions, task, htask, hpair⟩ := mem_pairs.mp hp
  obtain rfl : r.definitions = definitions := Option.some.inj (h.definitions.symm.trans hdefinitions)
  exact ⟨(h.current _ _).mpr ⟨task, htask, p, hpair, rfl, rfl⟩, h.written task htask p hpair⟩

/-- All records have been looked at, and the archives stay. -/
theorem State.Working.keep {files : AList fun _ : Text => File} {active : Option Run} {phase : Phase}
    (h : s.Working r s.mirror.tasks)
    (hfiles : ∀ p : Pair, p.name ∈ r.current → files.lookup p.name = s.files.lookup p.name) :
    State.Working { s with files := files, active := active } ⟨r.definitions, r.previous, r.current, phase⟩
      s.mirror.tasks where
  definitions := h.definitions
  previous := h.previous
  current := h.current
  written task htask p hpair := by
    obtain ⟨members, hmembers, hfile⟩ := h.written task htask p hpair
    have hcurrent := (h.current p.name p.signature).mpr ⟨task, htask, p, hpair, rfl, rfl⟩
    exact ⟨members, hmembers, (hfiles p (AList.lookup_isSome.mp (by rw [hcurrent]; rfl))).trans hfile⟩

theorem State.Inv.compare_step (h : s.Inv) (hactive : s.active = some r) (hstep : advance s r .compare = some t) :
    t.Inv := by
  have hat := h.active r hactive
  dsimp only [advance] at hstep
  split at hstep
  · next hphase =>
    rw [hphase] at hat
    obtain ⟨done, htasks, hworking⟩ := hat
    rw [List.append_nil] at htasks
    rw [← htasks] at hworking
    rw [← Option.some.inj hstep]
    refine h.move (fun _ _ f hf => .inl hf) fun r' hr' => ?_
    rw [← Option.some.inj hr']
    refine ⟨hworking.keep fun _ _ => rfl, fun name hname => ?_, fun name hprevious hcurrent htodo => ?_⟩
    · have hfilter := List.mem_filter.mp hname
      exact ⟨AList.mem_keys.mpr hfilter.1, of_decide_eq_true hfilter.2⟩
    · exact absurd (List.mem_filter.mpr ⟨AList.mem_keys.mp hprevious, decide_eq_true hcurrent⟩) htodo
  · cases hstep

theorem State.Inv.drop_step (h : s.Inv) (hactive : s.active = some r) (hstep : advance s r (.drop name) = some t) :
    t.Inv := by
  have hat := h.active r hactive
  dsimp only [advance] at hstep
  split at hstep
  · next todo hphase =>
    rw [hphase] at hat
    obtain ⟨hworking, htodo, hdropped⟩ := hat
    obtain ⟨hname, hstep⟩ := Option.ite_none_right_eq_some.mp hstep
    obtain ⟨hprevious, hcurrent⟩ := htodo name hname
    obtain ⟨p, m, -, hp, hpname⟩ := h.exists_pair (hworking.previous ▸ hprevious)
    rw [if_pos (hpname ▸ isGenerated_name hp)] at hstep
    rw [← Option.some.inj hstep]
    refine h.move (fun name' _ f hf => .inl ?_) fun r' hr' => ?_
    · by_cases heq : name' = name
      · rw [heq, AList.lookup_erase] at hf
        cases hf
      · rwa [AList.lookup_erase_ne heq] at hf
    · rw [← Option.some.inj hr']
      refine ⟨hworking.keep fun q hq => AList.lookup_erase_ne fun heq => hcurrent (heq ▸ hq),
        fun name' hname' => htodo name' (List.mem_of_mem_erase hname'), fun name' hprevious' hcurrent' htodo' => ?_⟩
      show (s.files.erase name).lookup name' = none
      by_cases heq : name' = name
      · rw [heq, AList.lookup_erase]
      · rw [AList.lookup_erase_ne heq]
        exact hdropped name' hprevious' hcurrent' fun hmem => htodo' ((List.mem_erase_of_ne heq).mpr hmem)
  · cases hstep

theorem State.Inv.writeIndex_step (h : s.Inv) (hactive : s.active = some r)
    (hstep : advance s r .writeIndex = some t) : t.Inv := by
  have hat := h.active r hactive
  dsimp only [advance] at hstep
  split at hstep
  · next hphase =>
    rw [hphase] at hat
    obtain ⟨hworking, -, hdropped⟩ := hat
    rw [← Option.some.inj hstep]
    refine h.move (fun name hname f hf => .inl ?_) fun r' hr' => ?_
    · obtain ⟨p, m, -, -, rfl⟩ := h.exists_pair hname
      rwa [AList.lookup_insert_ne (name_ne_temporaryIndex p)] at hf
    · rw [← Option.some.inj hr']
      refine ⟨hworking.keep fun q _ => AList.lookup_insert_ne (name_ne_temporaryIndex q),
        fun name hprevious hcurrent htodo => ?_⟩
      obtain ⟨p, m, -, -, rfl⟩ := h.exists_pair (hworking.previous ▸ hprevious)
      exact (AList.lookup_insert_ne (name_ne_temporaryIndex p)).trans (hdropped p.name hprevious hcurrent htodo)
  · cases hstep

/-- What a publication leaves. -/
theorem finish_cases (h : s.Inv) (hactive : s.active = some r) (hstep : advance s r .finish = some t) :
    t = { s with files := s.files.erase temporaryIndex, index := some r.current, active := none } ∧
      s.Working r s.mirror.tasks ∧ s.Dropped r [] := by
  have hat := h.active r hactive
  dsimp only [advance] at hstep
  split at hstep
  · next hphase =>
    rw [hphase] at hat
    exact ⟨(Option.some.inj hstep).symm, hat⟩
  · cases hstep

theorem State.Inv.finish_step (h : s.Inv) (hactive : s.active = some r) (hstep : advance s r .finish = some t) :
    t.Inv := by
  obtain ⟨rfl, hworking, -⟩ := finish_cases h hactive hstep
  refine ⟨h.mirror, h.latest, fun name signature hname => ?_, fun r' hr' => by cases hr'⟩
  obtain ⟨task, htask, p, hpair, rfl, rfl⟩ := (hworking.current name signature).mp hname
  have hp : p ∈ s.mirror.pairs := mem_pairs.mpr ⟨r.definitions, hworking.definitions, task, htask, hpair⟩
  have hseen : s.Seen p := ⟨s.mirror, h.mirror, hp⟩
  obtain ⟨members, hmembers, hfile⟩ := hworking.written task htask p hpair
  refine ⟨p, hseen, rfl, rfl, fun f hf => ⟨p, hseen, rfl, .inl rfl, members, hmembers, ?_⟩⟩
  have hf' : (s.files.erase temporaryIndex).lookup p.name = some f := hf
  rw [AList.lookup_erase_ne (name_ne_temporaryIndex p), hfile] at hf'
  exact (Option.some.inj hf').symm

theorem State.Inv.kill_step (h : s.Inv) {leftover : Option Text}
    (hstep : advance s r (.kill leftover) = some t) : t.Inv := by
  cases leftover with
  | none =>
    rw [← Option.some.inj hstep]
    exact h.move (fun _ _ f hf => .inl hf) fun r' hr' => by cases hr'
  | some name =>
    dsimp only [advance] at hstep
    split at hstep
    · split_ifs at hstep with hname
      rw [← Option.some.inj hstep]
      refine h.move (fun name' hname' f hf => .inl ?_) fun r' hr' => by cases hr'
      obtain ⟨p, m, -, -, rfl⟩ := h.exists_pair hname'
      have hne : p.name ≠ name := fun heq => by
        rw [← heq, not_isTemporary_name] at hname
        cases hname.1
      rwa [AList.lookup_insert_ne hne] at hf
    · cases hstep

/-- **The index never lies about the files**: this is kept by every step. -/
theorem State.Inv.step (h : s.Inv) {e : Event} (htime : keepsTime s e) (hstep : PairArchives.step s e = some t) :
    t.Inv := by
  unfold PairArchives.step at hstep
  cases hactive : s.active with
  | some r =>
    rw [hactive] at hstep
    cases e with
    | pair => exact h.pair_step hactive hstep
    | compare => exact h.compare_step hactive hstep
    | drop name => exact h.drop_step hactive hstep
    | writeIndex => exact h.writeIndex_step hactive hstep
    | finish => exact h.finish_step hactive hstep
    | kill leftover => exact h.kill_step hstep
    | _ => cases hstep
  | none =>
    rw [hactive] at hstep
    cases e with
    | mirror m =>
      rw [← Option.some.inj hstep, ← hactive]
      exact h.mirror_step hactive htime
    | start =>
      obtain ⟨definitions, hdefinitions, rfl⟩ := Option.map_eq_some_iff.mp hstep
      refine h.move (fun _ _ f hf => .inl hf) fun r' hr' => ?_
      rw [← Option.some.inj hr']
      refine ⟨[], rfl, hdefinitions, rfl, fun name signature => ⟨fun hnone => ?_, ?_⟩, fun task htask => ?_⟩
      · rw [show (∅ : Index).lookup name = none from AList.lookup_empty name] at hnone
        cases hnone
      · rintro ⟨task, htask, -⟩
        cases htask
      · cases htask
    | place name =>
      dsimp only at hstep
      split_ifs at hstep with hname
      rw [← Option.some.inj hstep, ← hactive]
      refine h.move (fun name' hname' f hf => .inl ?_) fun r' hr' => ?_
      · have hne : name' ≠ name := fun heq => hname (heq ▸ hname')
        rwa [AList.lookup_insert_ne hne] at hf
      · rw [hactive] at hr'
        cases hr'
    | remove name =>
      rw [← Option.some.inj hstep, ← hactive]
      refine h.move (fun name' _ f hf => .inl ?_) fun r' hr' => ?_
      · by_cases heq : name' = name
        · rw [heq, AList.lookup_erase] at hf
          cases hf
        · rwa [AList.lookup_erase_ne heq] at hf
      · rw [hactive] at hr'
        cases hr'
    | forget =>
      rw [← Option.some.inj hstep]
      refine ⟨h.mirror, h.latest, fun name signature hname => ?_, fun r' hr' => ?_⟩
      · have hnone : (∅ : Index).lookup name = some signature := hname
        rw [AList.lookup_empty] at hnone
        cases hnone
      · cases hr'
    | _ => cases hstep

/-! ### Runs -/

theorem inv_initial : State.initial.Inv where
  mirror := List.mem_cons_self
  latest _ hp := absurd hp List.not_mem_nil
  index name signature hname := by
    rw [show (State.initial.index.getD ∅).lookup name = none from AList.lookup_empty name] at hname
    cases hname
  active r hr := by cases hr

theorem inv_run {es : List Event} (hrun : Machine.run step State.initial es = some s)
    (htime : Machine.Along step keepsTime State.initial es) : s.Inv :=
  Machine.invariant_along (fun _ _ _ h htime hstep => h.step htime hstep) inv_initial htime hrun

/-- Why a step may change the file under a name. -/
def State.Touches (s : State) (e : Event) (name : Text) : Prop :=
  e = .place name ∨ e = .remove name ∨ name = temporaryIndex ∨
    (∃ r task todo p, s.active = some r ∧ r.phase = .pairs (task :: todo) ∧
      s.mirror.pair r.definitions task = some (some p) ∧ p.name = name) ∨
    ∃ r todo, s.active = some r ∧ r.phase = .drop todo ∧ name ∈ todo

theorem lookup_insert_or {files : AList fun _ : Text => File} {name' : Text} {f f' : File}
    (h : files.lookup name = some f) : (files.insert name' f').lookup name = some f ∨ name = name' := by
  by_cases heq : name = name'
  · exact .inr heq
  · exact .inl ((AList.lookup_insert_ne heq).trans h)

theorem lookup_erase_or {files : AList fun _ : Text => File} {name' : Text} {f : File}
    (h : files.lookup name = some f) : (files.erase name').lookup name = some f ∨ name = name' := by
  by_cases heq : name = name'
  · exact .inr heq
  · exact .inl ((AList.lookup_erase_ne heq).trans h)

/-- What a step does to the files and the mirrors. -/
theorem step_cases {e : Event} (hstep : step s e = some t) :
    (t.past = s.past ∨ ∃ m, t.past = m :: s.past) ∧
      ∀ name f, s.files.lookup name = some f → t.files.lookup name = some f ∨ s.Touches e name := by
  unfold step at hstep
  cases hactive : s.active with
  | some r =>
    rw [hactive] at hstep
    cases e with
    | pair =>
      dsimp only [advance] at hstep
      split at hstep
      · next task todo hphase =>
        obtain ⟨found, hpair, hstep⟩ := Option.bind_eq_some_iff.mp hstep
        cases found with
        | none =>
          rw [← Option.some.inj hstep]
          exact ⟨.inl rfl, fun _ _ hf => .inl hf⟩
        | some p =>
          dsimp only at hstep
          split_ifs at hstep
          · rw [← Option.some.inj hstep]
            exact ⟨.inl rfl, fun _ _ hf => .inl hf⟩
          · obtain ⟨_, -, rfl⟩ := Option.map_eq_some_iff.mp hstep
            refine ⟨.inl rfl, fun name f hf => (lookup_insert_or hf).imp id fun heq => ?_⟩
            exact .inr (.inr (.inr (.inl ⟨r, task, todo, p, hactive, hphase, hpair, heq.symm⟩)))
      · cases hstep
    | compare =>
      dsimp only [advance] at hstep
      split at hstep
      · rw [← Option.some.inj hstep]
        exact ⟨.inl rfl, fun _ _ hf => .inl hf⟩
      · cases hstep
    | drop name =>
      dsimp only [advance] at hstep
      split at hstep
      · next todo hphase =>
        obtain ⟨hname, hstep⟩ := Option.ite_none_right_eq_some.mp hstep
        rw [← Option.some.inj hstep]
        refine ⟨.inl rfl, fun name' f hf => ?_⟩
        dsimp only
        split_ifs
        · refine (lookup_erase_or hf).imp id fun heq => ?_
          exact .inr (.inr (.inr (.inr ⟨r, todo, hactive, hphase, heq ▸ hname⟩)))
        · exact .inl hf
      · cases hstep
    | writeIndex =>
      dsimp only [advance] at hstep
      split at hstep
      · rw [← Option.some.inj hstep]
        exact ⟨.inl rfl, fun _ _ hf => (lookup_insert_or hf).imp id fun heq => .inr (.inr (.inl heq))⟩
      · cases hstep
    | finish =>
      dsimp only [advance] at hstep
      split at hstep
      · rw [← Option.some.inj hstep]
        exact ⟨.inl rfl, fun _ _ hf => (lookup_erase_or hf).imp id fun heq => .inr (.inr (.inl heq))⟩
      · cases hstep
    | kill leftover =>
      cases leftover with
      | none =>
        rw [← Option.some.inj hstep]
        exact ⟨.inl rfl, fun _ _ hf => .inl hf⟩
      | some name =>
        dsimp only [advance] at hstep
        split at hstep
        · split_ifs at hstep with hname
          rw [← Option.some.inj hstep]
          refine ⟨.inl rfl, fun name' f hf => .inl ((AList.lookup_insert_ne fun heq => hname.2 ?_).trans hf)⟩
          rw [← heq]
          exact AList.lookup_isSome.mp (by rw [hf]; rfl)
        · cases hstep
    | _ => cases hstep
  | none =>
    rw [hactive] at hstep
    cases e with
    | mirror m =>
      rw [← Option.some.inj hstep]
      exact ⟨.inr ⟨m, rfl⟩, fun _ _ hf => .inl hf⟩
    | start =>
      obtain ⟨_, -, rfl⟩ := Option.map_eq_some_iff.mp hstep
      exact ⟨.inl rfl, fun _ _ hf => .inl hf⟩
    | place name =>
      dsimp only at hstep
      split_ifs at hstep
      rw [← Option.some.inj hstep]
      refine ⟨.inl rfl, fun _ _ hf => (lookup_insert_or hf).imp id fun heq => ?_⟩
      exact .inl (heq ▸ rfl)
    | remove name =>
      rw [← Option.some.inj hstep]
      refine ⟨.inl rfl, fun _ _ hf => (lookup_erase_or hf).imp id fun heq => ?_⟩
      exact .inr (.inl (heq ▸ rfl))
    | forget =>
      rw [← Option.some.inj hstep]
      exact ⟨.inl rfl, fun _ _ hf => .inl hf⟩
    | _ => cases hstep

theorem seen_step {e : Event} (hstep : step s e = some t) (hp : s.Seen p) : t.Seen p := by
  obtain ⟨m, hm, hp⟩ := hp
  rcases (step_cases hstep).1 with hpast | ⟨m', hpast⟩
  · exact ⟨m, hpast ▸ hm, hp⟩
  · exact ⟨m, hpast ▸ List.mem_cons_of_mem m' hm, hp⟩

/-- A name that a publication changes is that of a pair. -/
theorem State.Inv.seen_of_touches (h : s.Inv) {e : Event} (htouches : s.Touches e name) (hplace : e ≠ .place name)
    (hremove : e ≠ .remove name) (hindex : name ≠ temporaryIndex) : ∃ p, s.Seen p ∧ p.name = name := by
  rcases htouches with hplace' | hremove' | hindex' | ⟨r, task, todo, p, hactive, hphase, hpair, rfl⟩ |
    ⟨r, todo, hactive, hphase, hname⟩
  · exact absurd hplace' hplace
  · exact absurd hremove' hremove
  · exact absurd hindex' hindex
  · have hat := h.active r hactive
    rw [hphase] at hat
    obtain ⟨done, htasks, hworking⟩ := hat
    refine ⟨p, ⟨s.mirror, h.mirror, mem_pairs.mpr ⟨r.definitions, hworking.definitions, task, ?_, hpair⟩⟩, rfl⟩
    rw [htasks]
    exact List.mem_append_right _ List.mem_cons_self
  · have hat := h.active r hactive
    rw [hphase] at hat
    obtain ⟨p, m, hm, hp, hpname⟩ := h.exists_pair (hat.1.previous ▸ (hat.2.1 name hname).1)
    exact ⟨p, ⟨m, hm, hp⟩, hpname⟩

theorem seen_run {es : List Event} (hrun : Machine.run step s es = some t) (hp : s.Seen p) : t.Seen p :=
  Machine.invariant (I := fun s => s.Seen p) (fun _ _ _ h hstep => seen_step hstep h) hp hrun

/-- A file stays as long as no pair has its name and the user leaves it there. -/
theorem lookup_run {es : List Event} {f : File} (h : s.Inv) (hrun : Machine.run step s es = some t)
    (htime : Machine.Along step keepsTime s es) (hindex : name ≠ temporaryIndex)
    (huser : ∀ e ∈ es, e ≠ .place name ∧ e ≠ .remove name) (hpairs : ∀ p, t.Seen p → p.name ≠ name)
    (hf : s.files.lookup name = some f) : t.files.lookup name = some f := by
  induction es generalizing s with
  | nil =>
    cases hrun
    exact hf
  | cons e es ih =>
    obtain ⟨m, hm, hlater⟩ := Machine.run_cons_some.mp hrun
    refine ih (h.step htime.1 hm) hlater (htime.2 m hm) (fun e' he' => huser e' (List.mem_cons_of_mem e he')) ?_
    obtain ⟨hplace, hremove⟩ := huser e List.mem_cons_self
    rcases (step_cases hm).2 name f hf with hf' | htouches
    · exact hf'
    · obtain ⟨p, hp, hpname⟩ := h.seen_of_touches htouches hplace hremove hindex
      exact absurd hpname (hpairs p (seen_run hrun hp))

end Index

/-! ### Publications -/

variable {s t : State} {es : List Event}

/-- **A publication is complete.** However the downloads and the publications before it have gone, when one has
finished, each pair of the mirror has its archive, made of the one in the mirror; the index has exactly these pairs;
and what only the former index had is gone. -/
theorem published_archives (hrun : Machine.run step State.initial es = some s)
    (htime : Machine.Along step keepsTime State.initial es) (hfinish : step s .finish = some t) :
    (∀ p ∈ t.mirror.pairs, ∃ members, p.archive = some members ∧ t.files.lookup p.name = some (.pair members)) ∧
    (∃ index, t.index = some index ∧ ∀ name signature, index.lookup name = some signature ↔
      ∃ p ∈ t.mirror.pairs, p.name = name ∧ p.signature = signature) ∧
    ∀ name ∈ s.index.getD ∅, (∀ p ∈ t.mirror.pairs, p.name ≠ name) → t.files.lookup name = none := by
  have h := inv_run hrun htime
  have hcases := hfinish
  unfold step at hcases
  cases hactive : s.active with
  | none =>
    rw [hactive] at hcases
    cases hcases
  | some r =>
    rw [hactive] at hcases
    obtain ⟨rfl, hworking, hdropped⟩ := finish_cases h hactive hcases
    have hcurrent (name : Text) (signature : Signature) : r.current.lookup name = some signature ↔
        ∃ p ∈ s.mirror.pairs, p.name = name ∧ p.signature = signature := by
      rw [hworking.current]
      constructor
      · rintro ⟨task, htask, p, hpair, hp⟩
        exact ⟨p, mem_pairs.mpr ⟨r.definitions, hworking.definitions, task, htask, hpair⟩, hp⟩
      · rintro ⟨p, hp, rfl, rfl⟩
        exact (hworking.current _ _).mp (hworking.mem_current hp).1
    refine ⟨fun p hp => ?_, ⟨r.current, rfl, hcurrent⟩, fun name hname hpairs => ?_⟩
    · obtain ⟨members, hmembers, hfile⟩ := (hworking.mem_current hp).2
      exact ⟨members, hmembers, (AList.lookup_erase_ne (name_ne_temporaryIndex p)).trans hfile⟩
    · obtain ⟨p, m, -, -, rfl⟩ := h.exists_pair hname
      refine (AList.lookup_erase_ne (name_ne_temporaryIndex p)).trans
        (hdropped p.name (hworking.previous ▸ hname) (fun hmem => ?_) List.not_mem_nil)
      obtain ⟨signature, hsignature⟩ := Option.isSome_iff_exists.mp (AList.lookup_isSome.mpr hmem)
      obtain ⟨q, hq, hqname, -⟩ := (hcurrent p.name signature).mp hsignature
      exact hpairs q hq hqname

/-- **At any time**, also in the middle of a publication and after one that was killed: a file under a name of the
index is the complete archive of a pair that has been in the mirror, and no older than the index says; and a file that
no pair has the name of is what the user has put there. -/
theorem kept {es' : List Event} (hrun : Machine.run step State.initial es = some s)
    (hrun' : Machine.run step s es' = some t) (htime : Machine.Along step keepsTime State.initial (es ++ es')) :
    (∀ name signature, (t.index.getD ∅).lookup name = some signature → ∀ f, t.files.lookup name = some f →
      ∃ p, t.Seen p ∧ p.name = name ∧ signature.mtime ≤ p.signature.mtime ∧
        ∃ members, p.archive = some members ∧ f = .pair members) ∧
    ∀ name f, s.files.lookup name = some f → name ≠ temporaryIndex →
      (∀ e ∈ es', e ≠ .place name ∧ e ≠ .remove name) → (∀ p, t.Seen p → p.name ≠ name) →
      t.files.lookup name = some f := by
  have h := inv_run (Machine.run_append_some.mpr ⟨s, hrun, hrun'⟩) htime
  refine ⟨fun name signature hname f hf => ?_, fun name f hf hindex huser hpairs => ?_⟩
  · obtain ⟨former, -, -, rfl, hfile⟩ := h.index name signature hname
    obtain ⟨p, hp, hpname, hlater, hmembers⟩ := hfile f hf
    refine ⟨p, hp, hpname, ?_, hmembers⟩
    rcases hlater with rfl | hlater
    · exact le_rfl
    · exact hlater.le
  · exact lookup_run (inv_run hrun htime.of_append) hrun' (htime.append hrun) hindex huser hpairs hf

/-! ### A retried pair -/

/-- The download in which the result of the only pair names this archive. -/
def sampleMirror (archive output : Text) (mtime : ℕ) : Mirror where
  job.names := ["batch_000000_task_000000000.csv".toList]
  job.file n :=
    if n = manifestFile then some (.manifest [some sampleDefinition])
    else if n = archive then some (.archive (callArchive 0 "ab".toList [(.solver, output), (.time, [])]))
    else if ".csv".toList.isSuffixOf n then some (.table ("0,,,,,,,,,,,,,,".toList ++ archive ++ ['\n']))
    else none
  size _ := 1
  mtime _ := mtime

def sampleEvents : List Event :=
  [.mirror (sampleMirror "a-1.tar.gz".toList "out".toList 1), .place "notes.txt".toList,
    .start, .pair, .kill (some ".pair-x.tmp".toList), .start, .pair, .compare, .writeIndex, .finish,
    .mirror (sampleMirror "a-2.tar.gz".toList "again".toList 2), .start, .pair, .compare, .writeIndex]

def sampleName : Text := "E___A.p___000000000.tgz".toList

theorem exists_of_isSome {o : Option State} (h : o.isSome = true) : ∃ s, o = some s := Option.isSome_iff_exists.mp h

theorem published_archives_retried : ∃ s t, Machine.run step State.initial sampleEvents = some s ∧ step s .finish = some t ∧
    ∀ p ∈ t.mirror.pairs, ∃ members, p.archive = some members ∧ t.files.lookup p.name = some (.pair members) := by
  obtain ⟨s, hrun⟩ := exists_of_isSome (o := Machine.run step State.initial sampleEvents) (by decide +kernel)
  have hfinish : ((Machine.run step State.initial sampleEvents).bind fun s => step s .finish).isSome = true := by
    decide +kernel
  rw [hrun, Option.bind_some] at hfinish
  obtain ⟨t, ht⟩ := exists_of_isSome hfinish
  exact ⟨s, t, hrun, ht, (published_archives hrun (by decide +kernel) ht).1⟩

theorem kept_retried : ∃ s t, Machine.run step State.initial (sampleEvents.take 2) = some s ∧
    Machine.run step s [.start, .pair, .kill none] = some t ∧ t.files.lookup "notes.txt".toList = some .other := by
  obtain ⟨s, hrun⟩ := exists_of_isSome (o := Machine.run step State.initial (sampleEvents.take 2)) (by decide +kernel)
  have hlater : ((Machine.run step State.initial (sampleEvents.take 2)).bind fun s =>
      Machine.run step s [.start, .pair, .kill none]).isSome = true := by decide +kernel
  have hfile : ((Machine.run step State.initial (sampleEvents.take 2)).bind fun s =>
      s.files.lookup "notes.txt".toList) = some .other := by decide +kernel
  rw [hrun, Option.bind_some] at hlater hfile
  obtain ⟨t, hrun'⟩ := exists_of_isSome hlater
  refine ⟨s, t, hrun, hrun', (kept hrun hrun' (by decide +kernel)).2 _ _ hfile (by decide +kernel) ?_ fun p _ =>
    name_ne p (by decide +kernel)⟩
  intro e he
  simp only [List.mem_cons, List.not_mem_nil, or_false] at he
  rcases he with rfl | rfl | rfl <;> exact ⟨fun h => (by cases h), fun h => (by cases h)⟩

end PairArchives
end Export
end Slurmy
