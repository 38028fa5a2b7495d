import Slurmy.Export.Reuse
import Slurmy.Lib.Gather

/-!
# What a run of the exporter reports

As long as every run reads the export name that it has signed, its report is sound: its three files come
from one completed export, which are its own files or those of a job that has not changed.

* `Tracks`: all files so far are known apart by their sizes and time stamps;
* `Knows`: what a run has seen is newer than what it has signed, and that is newer than the job at its
  start;
* `Intact`, `Changed`: the files of the last completed export are there, or no later run has its
  signature;
* `Stands`, `Inv`: the invariant, `inv_step`;
* `report_sound`: the report, and `report_stale`: a job that is renamed at the wrong moment.
-/

namespace Slurmy
namespace Export

open NumberedFiles

/-! ### The order of looks -/

theorem Older.refl (o : Option File) : Older o o := fun f hf => ⟨f, hf, le_rfl⟩

theorem Older.trans {o o' o'' : Option File} (h : Older o o') (h' : Older o' o'') : Older o o'' := by
  intro f hf
  obtain ⟨g, hg, hle⟩ := h f hf
  obtain ⟨k, hk, hle'⟩ := h' g hg
  exact ⟨k, hk, hle.trans hle'⟩

theorem older_none (o : Option File) : Older none o := by
  intro f hf
  cases hf

theorem Older.eq_none {o : Option File} (h : Older o none) : o = none := by
  cases o with
  | none => rfl
  | some f =>
    obtain ⟨g, hg, -⟩ := h f rfl
    cases hg

/-- `o` is one of the states of the file `n`. -/
def State.Past (s : State) (n : Text) (o : Option File) : Prop := ∀ f, o = some f → (n, f) ∈ s.past

/-- All files so far are known apart. -/
structure State.Tracks (s : State) : Prop where
  current : ∀ n, s.Past n (s.job.lookup n)
  newest : ∀ n f, (n, f) ∈ s.past → Older (some f) (s.job.lookup n)
  bounded : ∀ n f, (n, f) ∈ s.past → f.serial < s.past.length
  stat_injective : ∀ n f g, (n, f) ∈ s.past → (n, g) ∈ s.past → f.stat = g.stat → f = g
  serial_injective : ∀ n f g, (n, f) ∈ s.past → (n, g) ∈ s.past → f.serial = g.serial → f = g

variable {s t : State} {r e : Run} {n : Text} {o o' : Option File}

theorem State.past_none (s : State) (n : Text) : s.Past n none := by
  intro f hf
  cases hf

theorem State.Tracks.older (h : s.Tracks) (hpast : s.Past n o) : Older o (s.job.lookup n) := by
  cases o with
  | none => exact older_none _
  | some f => exact h.newest n f (hpast f rfl)

theorem State.Tracks.antisymm (h : s.Tracks) (hpast : s.Past n o) (hpast' : s.Past n o')
    (hle : Older o o') (hge : Older o' o) : o = o' := by
  cases o with
  | none => exact hge.eq_none.symm
  | some f =>
    obtain ⟨g, rfl, hfg⟩ := hle f rfl
    obtain ⟨f', hf', hgf⟩ := hge g rfl
    cases hf'
    rw [h.serial_injective n f g (hpast f rfl) (hpast' g rfl) (le_antisymm hfg hgf)]

theorem State.Tracks.publish {content : Content} {size mtime : ℕ} (h : s.Tracks)
    (hstep : s.step (.publish n content size mtime) = some t) :
    t.Tracks ∧ (∀ m o, s.Past m o → t.Past m o) ∧
      (t.files = s.files ∧ t.marker = s.marker ∧ t.completed = s.completed ∧ t.active = s.active) := by
  simp only [State.step] at hstep
  split at hstep
  · cases hstep
  next hfresh =>
  cases hstep
  have hnew : ∀ g, (n, g) ∈ s.past → g.stat ≠ (size, mtime) := by
    intro g hg hsame
    apply hfresh
    rw [List.any_eq_true]
    exact ⟨(n, g), hg, by simpa [File.stat] using hsame⟩
  have hlt : ∀ m g, (m, g) ∈ s.past → g.serial ≠ s.past.length := fun m g hg =>
    (h.bounded m g hg).ne
  refine ⟨⟨?_, ?_, ?_, ?_, ?_⟩, fun m o ho f hf => List.mem_cons_of_mem _ (ho f hf), rfl, rfl, rfl, rfl⟩
  · intro m f hf
    by_cases hm : m = n
    · subst hm
      have heq : (s.job.insert m ⟨content, size, mtime, s.past.length⟩).lookup m = some f := hf
      rw [AList.lookup_insert] at heq
      cases heq
      exact List.mem_cons_self
    · have heq : (s.job.insert n ⟨content, size, mtime, s.past.length⟩).lookup m = some f := hf
      rw [AList.lookup_insert_ne hm] at heq
      exact List.mem_cons_of_mem _ (h.current m f heq)
  · intro m f hf
    show Older (some f) ((s.job.insert n ⟨content, size, mtime, s.past.length⟩).lookup m)
    by_cases hm : m = n
    · subst hm
      rw [AList.lookup_insert]
      intro g hg
      cases hg
      rcases List.mem_cons.1 hf with heq | hold
      · cases heq
        exact ⟨_, rfl, le_rfl⟩
      · exact ⟨_, rfl, (h.bounded m f hold).le⟩
    · rw [AList.lookup_insert_ne hm]
      rcases List.mem_cons.1 hf with heq | hold
      · cases heq
        exact absurd rfl hm
      · exact h.newest m f hold
  · intro m f hf
    show f.serial < s.past.length + 1
    rcases List.mem_cons.1 hf with heq | hold
    · cases heq
      exact Nat.lt_succ_self _
    · exact (h.bounded m f hold).trans (Nat.lt_succ_self _)
  · intro m f g hf hg hsame
    rcases List.mem_cons.1 hf with hf' | hf' <;> rcases List.mem_cons.1 hg with hg' | hg'
    · cases hf'
      cases hg'
      rfl
    · cases hf'
      exact absurd hsame.symm (hnew g hg')
    · cases hg'
      exact absurd hsame (hnew f hf')
    · exact h.stat_injective m f g hf' hg' hsame
  · intro m f g hf hg hsame
    rcases List.mem_cons.1 hf with hf' | hf' <;> rcases List.mem_cons.1 hg with hg' | hg'
    · cases hf'
      cases hg'
      rfl
    · cases hf'
      exact absurd hsame.symm (hlt _ g hg')
    · cases hg'
      exact absurd hsame (hlt _ f hf')
    · exact h.serial_injective m f g hf' hg' hsame

/-! ### Signatures -/

theorem mem_tableNames {d : Files} : n ∈ tableNames d ↔ (d.lookup n).isSome = true ∧ isResultName n = true := by
  rw [tableNames, List.mem_filter, mem_glob, ← AList.mem_keys, AList.lookup_isSome]

theorem mem_tarNames {d : Files} : n ∈ tarNames d ↔ (d.lookup n).isSome = true ∧ isTarName n = true := by
  rw [tarNames, List.mem_filter, mem_glob, ← AList.mem_keys, AList.lookup_isSome]

/-- The entry of a file. -/
theorem mem_signature {st : ℕ × ℕ} (hn : isSource n) :
    (n, st) ∈ r.signature ↔ (r.signed.lookup n).map File.stat = some st := by
  rw [Run.signature, List.mem_filterMap]
  constructor
  · rintro ⟨m, -, hm⟩
    obtain ⟨f, hf, heq⟩ := Option.map_eq_some_iff.1 hm
    cases heq
    rw [hf]
    rfl
  · intro h
    obtain ⟨f, hf, hst⟩ := Option.map_eq_some_iff.1 h
    refine ⟨n, ?_, by rw [hf, ← hst]; rfl⟩
    have hsome : (r.signed.lookup n).isSome = true := by rw [hf]; rfl
    rcases hn with rfl | rfl | hresult | htar
    · exact List.mem_cons_self
    · exact List.mem_cons_of_mem _ List.mem_cons_self
    · exact List.mem_cons_of_mem _ (List.mem_cons_of_mem _
        (List.mem_append_left _ (mem_tableNames.2 ⟨hsome, hresult⟩)))
    · exact List.mem_cons_of_mem _ (List.mem_cons_of_mem _
        (List.mem_append_right _ (mem_tarNames.2 ⟨hsome, htar⟩)))

theorem State.Tracks.signed_eq (h : s.Tracks) (hr : ∀ n, s.Past n (r.signed.lookup n))
    (he : ∀ n, s.Past n (e.signed.lookup n)) (hsame : e.signature = r.signature) (hn : isSource n) :
    e.signed.lookup n = r.signed.lookup n := by
  have hiff : ∀ st, (e.signed.lookup n).map File.stat = some st ↔
      (r.signed.lookup n).map File.stat = some st := fun st => by
    rw [← mem_signature hn, ← mem_signature hn, hsame]
  have hstat : (e.signed.lookup n).map File.stat = (r.signed.lookup n).map File.stat := by
    ext st
    exact hiff st
  cases hf : e.signed.lookup n with
  | none =>
    rw [hf, Option.map_none, eq_comm, Option.map_eq_none_iff] at hstat
    exact hstat.symm
  | some f =>
    rw [hf, Option.map_some, eq_comm] at hstat
    obtain ⟨g, hg, hst⟩ := Option.map_eq_some_iff.1 hstat
    rw [hg, h.stat_injective n f g (he n f hf) (hr n g hg) hst.symm]

theorem signature_congr (h : ∀ n, isSource n → e.signed.lookup n = r.signed.lookup n) :
    e.signature = r.signature := by
  have htables : tableNames e.signed = tableNames r.signed :=
    filter_glob_congr fun n hn => h n (.inr (.inr (.inl hn)))
  have htars : tarNames e.signed = tarNames r.signed :=
    filter_glob_congr fun n hn => h n (.inr (.inr (.inr hn)))
  rw [Run.signature, Run.signature, htables, htars]
  apply List.filterMap_congr
  intro n hn
  have hsource : isSource n := by
    rcases List.mem_cons.1 hn with rfl | hn
    · exact .inl rfl
    · rcases List.mem_cons.1 hn with rfl | hn
      · exact .inr (.inl rfl)
      · rcases List.mem_append.1 hn with hn | hn
        · exact .inr (.inr (.inl (mem_tableNames.1 hn).2))
        · exact .inr (.inr (.inr (mem_tarNames.1 hn).2))
  rw [h n hsource]

/-! ### What a run has seen -/

/-- The signature is not complete yet. -/
def Phase.signs : Phase → Bool
  | .listTables | .listArchives | .stat _ => true
  | _ => false

/-- The files that `records` has still to read, once they are listed. -/
def Phase.rowsLeft : Phase → Option (List Text)
  | .rows todo => some todo
  | .replace _ | .ready => some []
  | _ => none

/-- The run will still look at the file to sign it. -/
def Run.pending (r : Run) (n : Text) : Prop :=
  match r.phase with
  | .listTables => True
  | .listArchives => n ∈ r.listed ∨ isTarName n = true
  | .stat todo => n ∈ todo
  | _ => False

/-- What the run has read is newer than what it has signed. -/
structure State.Knows (s : State) (r : Run) : Prop where
  base_past : ∀ n, s.Past n (r.base.lookup n)
  signed_past : ∀ n, s.Past n (r.signed.lookup n)
  rows_past : ∀ n, s.Past n (r.rows.lookup n)
  signed_newer : ∀ n, isSource n → r.pending n ∨ Older (r.base.lookup n) (r.signed.lookup n)
  early : r.phase.signs = true → r.metadata = none ∧ r.manifest = none ∧ r.rows = ∅ ∧ r.opened = []
  metadata_seen : s.Past metadataFile r.metadata ∧
    (r.metadata = none ∨ Older (r.signed.lookup metadataFile) r.metadata)
  manifest_seen : s.Past manifestFile r.manifest ∧
    (r.manifest = none ∨ Older (r.signed.lookup manifestFile) r.manifest)
  rows_seen : ∀ todo, r.phase.rowsLeft = some todo → ∀ n, isResultName n = true →
    n ∈ todo ∨ Older (r.signed.lookup n) (r.rows.lookup n)
  opened_seen : ∀ p ∈ r.opened, (p.1 = none → p.2 = none) ∧ ∀ n, p.1 = some n →
    isTarName n = true ∧ s.Past n p.2 ∧ Older (r.signed.lookup n) p.2
  opened_names : ∀ results, r.results = some results → r.phase.rowsLeft = some [] →
    (List.range r.opened.length).mapM (archiveName results) = some (r.opened.map Prod.fst)
  unopened : r.phase.rowsLeft ≠ some [] → r.opened = []

theorem State.Knows.mono (h : s.Knows r) (hpast : ∀ n o, s.Past n o → t.Past n o) : t.Knows r where
  base_past n := hpast n _ (h.base_past n)
  signed_past n := hpast n _ (h.signed_past n)
  rows_past n := hpast n _ (h.rows_past n)
  signed_newer := h.signed_newer
  early := h.early
  metadata_seen := ⟨hpast _ _ h.metadata_seen.1, h.metadata_seen.2⟩
  manifest_seen := ⟨hpast _ _ h.manifest_seen.1, h.manifest_seen.2⟩
  rows_seen := h.rows_seen
  opened_seen p hp := ⟨(h.opened_seen p hp).1, fun n hn =>
    ⟨((h.opened_seen p hp).2 n hn).1, hpast n _ ((h.opened_seen p hp).2 n hn).2.1,
      ((h.opened_seen p hp).2 n hn).2.2⟩⟩
  opened_names := h.opened_names
  unopened := h.unopened

theorem Run.start_knows (htracks : s.Tracks) (id : ℕ) : s.Knows (Run.start id s.job) where
  base_past := htracks.current
  signed_past n := s.past_none n
  rows_past n := s.past_none n
  signed_newer _ _ := .inl trivial
  early _ := ⟨rfl, rfl, rfl, rfl⟩
  metadata_seen := ⟨s.past_none _, .inl rfl⟩
  manifest_seen := ⟨s.past_none _, .inl rfl⟩
  rows_seen todo h := by cases h
  opened_seen p hp := by cases hp
  opened_names results _ h := by cases h
  unopened _ := rfl

/-- Only the phase of a run changes, and its lists are complete. -/
theorem State.Knows.withPhase (h : s.Knows r) {phase : Phase} (hpending : ∀ n, ¬ r.pending n)
    (hsigns : phase.signs = false) (hrows : phase.rowsLeft = none ∨ phase.rowsLeft = r.phase.rowsLeft)
    (hopened : phase.rowsLeft = none → r.opened = []) : s.Knows { r with phase := phase } where
  base_past := h.base_past
  signed_past := h.signed_past
  rows_past := h.rows_past
  signed_newer n hn := .inr ((h.signed_newer n hn).resolve_left (hpending n))
  early hphase := by
    have hphase' : phase.signs = true := hphase
    rw [hsigns] at hphase'
    cases hphase'
  metadata_seen := h.metadata_seen
  manifest_seen := h.manifest_seen
  rows_seen todo htodo := by
    have htodo' : phase.rowsLeft = some todo := htodo
    rcases hrows with hnone | hsame
    · rw [hnone] at htodo'
      cases htodo'
    · exact h.rows_seen todo (hsame ▸ htodo')
  opened_seen := h.opened_seen
  opened_names results hresults hleft := by
    have hleft' : phase.rowsLeft = some [] := hleft
    rcases hrows with hnone | hsame
    · rw [hnone] at hleft'
      cases hleft'
    · exact h.opened_names results hresults (hsame ▸ hleft')
  unopened hleft := by
    have hleft' : phase.rowsLeft ≠ some [] := hleft
    rcases hrows with hnone | hsame
    · exact hopened hnone
    · exact h.unopened (hsame ▸ hleft')

/-- The signature goes on. -/
theorem State.Knows.signing (h : s.Knows r) (hsigns : r.phase.signs = true) {listed : List Text}
    {signed : Files} {phase : Phase} (hphase : phase.signs = true)
    (hpast : ∀ n, s.Past n (signed.lookup n))
    (hnewer : ∀ n, isSource n →
      { r with listed := listed, signed := signed, phase := phase }.pending n ∨
        Older (r.base.lookup n) (signed.lookup n)) :
    s.Knows { r with listed := listed, signed := signed, phase := phase } := by
  obtain ⟨hmetadata, hmanifest, hrows, hopened⟩ := h.early hsigns
  have hleft : phase.rowsLeft = none := by
    cases phase with
    | listTables => rfl
    | listArchives => rfl
    | stat todo => rfl
    | _ => cases hphase
  constructor
  · exact h.base_past
  · exact hpast
  · exact h.rows_past
  · exact hnewer
  · exact fun _ => ⟨hmetadata, hmanifest, hrows, hopened⟩
  · exact ⟨h.metadata_seen.1, .inl hmetadata⟩
  · exact ⟨h.manifest_seen.1, .inl hmanifest⟩
  · intro todo htodo
    rw [hleft] at htodo
    cases htodo
  · intro p hp
    rw [show r.opened = [] from hopened] at hp
    cases hp
  · intro results _ htodo
    rw [hleft] at htodo
    cases htodo
  · exact fun _ => hopened

theorem isTarName_of_archiveName {results : List (ℕ × Csv.DictRow)} {task : ℕ}
    (h : archiveName results task = some (some n)) : isTarName n = true := by
  unfold archiveName at h
  split at h
  · cases h
  · cases h
  · split at h
    · next harchive =>
      cases h
      simp only [isArchiveName, Bool.and_eq_true] at harchive
      exact harchive.1.2
    · cases h

/-- One step of a run, for what it has seen. -/
theorem State.Knows.advance {ev : Event} (htracks : s.Tracks) (h : s.Knows r)
    (hstep : s.advance r ev = some t) : ∀ r', t.active = some r' → s.Knows r' := by
  intro r' hr'
  have hnow : ∀ n, Older (r.signed.lookup n) (s.job.lookup n) := fun n =>
    htracks.older (h.signed_past n)
  have hbase : ∀ n, s.job.lookup n = none → r.base.lookup n = none := fun n hnone =>
    (hnone ▸ htracks.older (h.base_past n)).eq_none
  cases ev <;> simp only [State.advance] at hstep
  case listTables =>
    split at hstep
    · next hphase =>
      cases hstep
      cases hr'
      apply h.signing (by rw [hphase]; rfl) rfl h.signed_past
      intro n hn
      rcases hn with rfl | rfl | hresult | htar
      · exact .inl (.inl List.mem_cons_self)
      · exact .inl (.inl (List.mem_cons_of_mem _ List.mem_cons_self))
      · cases hjob : s.job.lookup n with
        | none => exact .inr (hbase n hjob ▸ older_none _)
        | some f =>
          have hmem : n ∈ tableNames s.job := mem_tableNames.2 ⟨by rw [hjob]; rfl, hresult⟩
          exact .inl (.inl (List.mem_cons_of_mem _ (List.mem_cons_of_mem _ hmem)))
      · exact .inl (.inr htar)
    · cases hstep
  case listArchives =>
    split at hstep
    · next hphase =>
      cases hstep
      cases hr'
      apply h.signing (by rw [hphase]; rfl) rfl h.signed_past
      intro n hn
      rcases h.signed_newer n hn with hpending | holder
      · have hcases : n ∈ r.listed ∨ isTarName n = true := by
          simpa only [Run.pending, hphase] using hpending
        rcases hcases with hmem | htar
        · exact .inl (List.mem_append_left _ hmem)
        · cases hjob : s.job.lookup n with
          | none => exact .inr (hbase n hjob ▸ older_none _)
          | some f => exact .inl (List.mem_append_right _ (mem_tarNames.2 ⟨by rw [hjob]; rfl, htar⟩))
      · exact .inr holder
    · cases hstep
  case stat =>
    split at hstep
    · next m todo hphase =>
      have hsigns : r.phase.signs = true := by rw [hphase]; rfl
      have hold : ∀ n, isSource n → n = m ∨ n ∈ todo ∨ Older (r.base.lookup n) (r.signed.lookup n) := by
        intro n hn
        rcases h.signed_newer n hn with hpending | holder
        · have hmem : n ∈ m :: todo := by simpa only [Run.pending, hphase] using hpending
          exact (List.mem_cons.1 hmem).imp_right .inl
        · exact .inr (.inr holder)
      split at hstep
      · next f hjob =>
        cases hstep
        cases hr'
        apply h.signing hsigns rfl
        · intro n
          by_cases hnm : n = m
          · subst hnm
            rw [AList.lookup_insert, ← hjob]
            exact htracks.current n
          · rw [AList.lookup_insert_ne hnm]
            exact h.signed_past n
        · intro n hn
          by_cases hnm : n = m
          · subst hnm
            rw [AList.lookup_insert, ← hjob]
            exact .inr (htracks.older (h.base_past n))
          · rw [AList.lookup_insert_ne hnm]
            exact (hold n hn).resolve_left hnm
      · next hjob =>
        cases hstep
        cases hr'
        apply h.signing hsigns rfl h.signed_past
        intro n hn
        rcases hold n hn with rfl | hrest
        · exact .inr (hbase n hjob ▸ older_none _)
        · exact hrest
    · cases hstep
  case names =>
    split at hstep
    · next hphase =>
      cases hstep
      cases hr'
      obtain ⟨-, hmanifest, hrows, hopened⟩ := h.early (by rw [hphase.1]; rfl)
      have hpending : ∀ n, ¬ r.pending n := fun n hn => by
        simp [Run.pending, hphase.1] at hn
      constructor
      · exact h.base_past
      · exact h.signed_past
      · exact h.rows_past
      · exact fun n hn => .inr ((h.signed_newer n hn).resolve_left (hpending n))
      · intro hsigns
        simp only at hsigns
        split at hsigns <;> cases hsigns
      · exact ⟨htracks.current _, .inr (hnow _)⟩
      · exact ⟨h.manifest_seen.1, .inl hmanifest⟩
      · intro todo htodo
        simp only at htodo
        split at htodo <;> cases htodo
      · intro p hp
        rw [show r.opened = [] from hopened] at hp
        cases hp
      · intro results _ htodo
        simp only at htodo
        split at htodo <;> cases htodo
      · exact fun _ => hopened
    · cases hstep
  case manifest =>
    split at hstep
    · next hphase =>
      cases hstep
      cases hr'
      have hpending : ∀ n, ¬ r.pending n := fun n hn => by simp [Run.pending, hphase] at hn
      have hopened : r.opened = [] := h.unopened (by rw [hphase]; simp [Phase.rowsLeft])
      constructor
      · exact h.base_past
      · exact h.signed_past
      · exact h.rows_past
      · exact fun n hn => .inr ((h.signed_newer n hn).resolve_left (hpending n))
      · intro hsigns
        cases hsigns
      · exact h.metadata_seen
      · exact ⟨htracks.current _, .inr (hnow _)⟩
      · intro todo htodo
        cases htodo
      · exact h.opened_seen
      · intro results _ htodo
        cases htodo
      · exact fun _ => hopened
    · cases hstep
  case listRows =>
    split at hstep
    · next hphase =>
      cases hstep
      cases hr'
      have hpending : ∀ n, ¬ r.pending n := fun n hn => by simp [Run.pending, hphase] at hn
      have hopened : r.opened = [] := h.unopened (by rw [hphase]; simp [Phase.rowsLeft])
      constructor
      · exact h.base_past
      · exact h.signed_past
      · exact h.rows_past
      · exact fun n hn => .inr ((h.signed_newer n hn).resolve_left (hpending n))
      · intro hsigns
        cases hsigns
      · exact h.metadata_seen
      · exact h.manifest_seen
      · intro todo htodo n hresult
        cases htodo
        cases hjob : s.job.lookup n with
        | none => exact .inr ((hjob ▸ hnow n).eq_none ▸ older_none _)
        | some f => exact .inl (mem_tableNames.2 ⟨by rw [hjob]; rfl, hresult⟩)
      · exact h.opened_seen
      · intro results _ _
        show (List.range r.opened.length).mapM _ = some (r.opened.map Prod.fst)
        rw [hopened]
        rfl
      · exact fun _ => hopened
    · cases hstep
  case row =>
    split at hstep
    · next m todo hphase =>
      obtain ⟨f, hjob, rfl⟩ := Option.map_eq_some_iff.1 hstep
      cases hr'
      have hpending : ∀ n, ¬ r.pending n := fun n hn => by simp [Run.pending, hphase] at hn
      have hopened : r.opened = [] := h.unopened (by rw [hphase]; simp [Phase.rowsLeft])
      constructor
      · exact h.base_past
      · exact h.signed_past
      · intro n
        show s.Past n ((r.rows.insert m f).lookup n)
        by_cases hnm : n = m
        · subst hnm
          rw [AList.lookup_insert, ← hjob]
          exact htracks.current n
        · rw [AList.lookup_insert_ne hnm]
          exact h.rows_past n
      · exact fun n hn => .inr ((h.signed_newer n hn).resolve_left (hpending n))
      · intro hsigns
        cases hsigns
      · exact h.metadata_seen
      · exact h.manifest_seen
      · intro todo' htodo n hresult
        cases htodo
        show n ∈ todo ∨ Older _ ((r.rows.insert m f).lookup n)
        by_cases hnm : n = m
        · subst hnm
          rw [AList.lookup_insert, ← hjob]
          exact .inr (hnow n)
        · rw [AList.lookup_insert_ne hnm]
          rcases h.rows_seen (m :: todo) (by rw [hphase]; rfl) n hresult with hmem | holder
          · exact .inl ((List.mem_cons.1 hmem).resolve_left hnm)
          · exact .inr holder
      · exact h.opened_seen
      · intro results _ _
        show (List.range r.opened.length).mapM _ = some (r.opened.map Prod.fst)
        rw [hopened]
        rfl
      · exact fun _ => hopened
    · cases hstep
  case pair =>
    split at hstep
    · next results count hphase hresults hcount =>
      split at hstep
      · obtain ⟨name, hname, rfl⟩ := Option.map_eq_some_iff.1 hstep
        cases hr'
        have hpending : ∀ n, ¬ r.pending n := fun n hn => by simp [Run.pending, hphase] at hn
        constructor
        · exact h.base_past
        · exact h.signed_past
        · exact h.rows_past
        · exact fun n hn => .inr ((h.signed_newer n hn).resolve_left (hpending n))
        · intro hsigns
          have hsigns' : r.phase.signs = true := hsigns
          rw [hphase] at hsigns'
          cases hsigns'
        · exact h.metadata_seen
        · exact h.manifest_seen
        · exact h.rows_seen
        · intro p hp
          rcases List.mem_append.1 hp with hold | hnew
          · exact h.opened_seen p hold
          · rw [List.mem_singleton] at hnew
            subst hnew
            constructor
            · intro hnone
              simp only at hnone
              rw [hnone]
              rfl
            · intro n hn
              simp only at hn
              subst hn
              exact ⟨isTarName_of_archiveName hname, htracks.current n, hnow n⟩
        · intro results' hresults' _
          have heq : results' = results := by
            have hsame : r.results = some results' := hresults'
            rw [hresults] at hsame
            exact (Option.some.inj hsame).symm
          subst heq
          have hold := h.opened_names results' hresults (by rw [hphase]; rfl)
          rw [List.length_append, List.length_singleton, List.range_succ, List.mapM_append, hold,
            List.map_append]
          simp [hname]
        · intro hleft
          have hleft' : r.phase.rowsLeft ≠ some [] := hleft
          rw [hphase] at hleft'
          exact absurd rfl hleft'
      · cases hstep
    · cases hstep
  case stage =>
    split at hstep
    · next hphase =>
      cases hstep
      cases hr'
      apply h.withPhase
      · exact fun n hn => by simp [Run.pending, hphase.1] at hn
      · rfl
      · exact .inr (by rw [hphase.1]; rfl)
      · exact fun hnone => by cases hnone
    · cases hstep
  case replace =>
    split at hstep
    · next hphase _ =>
      cases hstep
      cases hr'
      apply h.withPhase
      · exact fun n hn => by simp [Run.pending, hphase] at hn
      · rfl
      · exact .inr (by rw [hphase]; rfl)
      · exact fun hnone => by cases hnone
    · cases hstep
  case mark =>
    split at hstep
    · next hphase =>
      cases hstep
      cases hr'
      apply h.withPhase
      · exact fun n hn => by simp [Run.pending, hphase] at hn
      · rfl
      · exact .inr (by rw [hphase]; rfl)
      · exact fun hnone => by cases hnone
    · cases hstep
  case report =>
    split at hstep
    · cases hstep
      cases hr'
    · cases hstep
  case kill =>
    cases hstep
    cases hr'
  all_goals cases hstep

/-! ### Completed exports -/

/-- A run that has written `.signature`. -/
structure State.Done (s : State) (e : Run) : Prop where
  completed : e ∈ s.completed
  knows : s.Knows e
  ready : e.phase = .ready
  bundle : ∃ b, e.bundle = some b
  count : e.count = some e.opened.length

theorem Run.exists_files {b : Bundle} (h : r.bundle = some b) :
    (∃ f, r.metadata = some f) ∧ (∃ f, r.manifest = some f) ∧ ∃ results, r.results = some results := by
  obtain ⟨definitions, hdefinitions, h⟩ := Option.bind_eq_some_iff.1 h
  obtain ⟨results, hresults, h⟩ := Option.bind_eq_some_iff.1 h
  obtain ⟨count, hcount, -⟩ := Option.bind_eq_some_iff.1 h
  obtain ⟨item, hitem, -⟩ := Option.bind_eq_some_iff.1 hcount
  obtain ⟨f, hf, -⟩ := Option.bind_eq_some_iff.1 hitem
  obtain ⟨g, hg, -⟩ := Option.bind_eq_some_iff.1 hdefinitions
  exact ⟨⟨f, hf⟩, ⟨g, hg⟩, results, hresults⟩

/-- What a completed run has seen. -/
theorem State.Done.sees (h : s.Done e) (hsees : e.Sees n o) :
    isSource n ∧ s.Past n o ∧ Older (e.signed.lookup n) o := by
  obtain ⟨b, hb⟩ := h.bundle
  obtain ⟨⟨f, hf⟩, ⟨g, hg⟩, -⟩ := Run.exists_files hb
  rcases hsees with ⟨rfl, rfl⟩ | ⟨rfl, rfl⟩ | ⟨hresult, rfl⟩ | hopened
  · exact ⟨.inl rfl, h.knows.metadata_seen.1,
      h.knows.metadata_seen.2.resolve_left (by rw [hf]; exact Option.some_ne_none f)⟩
  · exact ⟨.inr (.inl rfl), h.knows.manifest_seen.1,
      h.knows.manifest_seen.2.resolve_left (by rw [hg]; exact Option.some_ne_none g)⟩
  · have hseen := h.knows.rows_seen [] (by rw [h.ready]; rfl) n hresult
    exact ⟨.inr (.inr (.inl hresult)), h.knows.rows_past n, hseen.resolve_left List.not_mem_nil⟩
  · obtain ⟨htar, hpast, holder⟩ := (h.knows.opened_seen _ hopened).2 n rfl
    exact ⟨.inr (.inr (.inr htar)), hpast, holder⟩

theorem State.Done.mono (h : s.Done e) (hpast : ∀ n o, s.Past n o → t.Past n o)
    (hcompleted : ∀ e ∈ s.completed, e ∈ t.completed) : t.Done e :=
  ⟨hcompleted e h.completed, h.knows.mono hpast, h.ready, h.bundle, h.count⟩

/-- The three files of the run are there. -/
def State.Intact (s : State) (e : Run) : Prop :=
  ∃ b, e.bundle = some b ∧ ∀ k, s.files.lookup (k.file e.name) = some (Stored.mk (b.file k) e.id)

/-- Here a file is newer than the run has signed it. -/
def Run.Changed (e : Run) (look : Text → Option File) : Prop :=
  ∃ n, isSource n ∧ ¬ Older (look n) (e.signed.lookup n)

/-- The run has started after all that `e` has seen. -/
def Run.After (r e : Run) : Prop :=
  (∀ n o, e.Sees n o → Older o (r.base.lookup n)) ∧ ∀ n, Older (e.signed.lookup n) (r.base.lookup n)

theorem Run.Changed.mono {look look' : Text → Option File} (h : e.Changed look)
    (hlook : ∀ n, Older (look n) (look' n)) : e.Changed look' := by
  obtain ⟨n, hn, hnot⟩ := h
  exact ⟨n, hn, fun holder => hnot ((hlook n).trans holder)⟩

/-- How the last completed run stands to the active one. -/
def State.StandsTo (s : State) (e r : Run) : Prop :=
  match r.phase with
  | .listTables | .listArchives | .stat _ => r.After e ∧ (s.Intact e ∨ e.Changed r.base.lookup)
  | .reuse => r.After e ∧ s.Intact e ∧ e.name = r.name ∧ e.signature = r.signature
  | .ready => e = r ∧ s.Intact e
  | _ => e.Changed s.job.lookup

def State.Stands (s : State) (e : Run) : Option Run → Prop
  | none => s.Intact e ∨ e.Changed s.job.lookup
  | some r => s.StandsTo e r

/-- What the run has already replaced. -/
def State.Written (s : State) (r : Run) : Prop :=
  ∀ todo, r.phase = .replace todo → r.count = some r.opened.length ∧
    ∃ b, r.bundle = some b ∧
      ∀ k, k ∈ todo ∨ s.files.lookup (k.file r.name) = some (Stored.mk (b.file k) r.id)

structure State.Inv (s : State) : Prop where
  tracks : s.Tracks
  knows : ∀ r, s.active = some r → s.Knows r
  written : ∀ r, s.active = some r → s.Written r
  marked : ∀ r, s.active = some r → r.phase = .reuse ∨ r.phase = .ready → s.marker.isSome = true
  done : ∀ e, s.marker = some e → s.Done e
  stands : ∀ e, s.marker = some e → s.Stands e s.active

/-! ### The decision -/

section Decision

variable (htracks : s.Tracks) (hdone : s.Done e) (hknows : s.Knows r) (hafter : r.After e)
  (hsigned : ∀ n, isSource n → Older (r.base.lookup n) (r.signed.lookup n))

include htracks hdone hknows hafter hsigned

/-- A file that is signed as before has not changed since the completed run has seen it. -/
theorem sees_eq (hsame : e.signature = r.signature) (hsees : e.Sees n o) : o = r.signed.lookup n := by
  obtain ⟨hn, hpast, holder⟩ := hdone.sees hsees
  apply htracks.antisymm hpast (hknows.signed_past n)
  · exact (hafter.1 n o hsees).trans (hsigned n hn)
  · rwa [← htracks.signed_eq hknows.signed_past hdone.knows.signed_past hsame hn]

theorem not_changed_base (hsame : e.signature = r.signature) : ¬ e.Changed r.base.lookup := by
  rintro ⟨n, hn, hnot⟩
  apply hnot
  rw [htracks.signed_eq hknows.signed_past hdone.knows.signed_past hsame hn]
  exact hsigned n hn

theorem changed_of_signature_ne (hne : e.signature ≠ r.signature) : e.Changed s.job.lookup := by
  by_contra hsame
  apply hne
  apply signature_congr
  intro n hn
  have holder : Older (s.job.lookup n) (e.signed.lookup n) := by
    by_contra hnot
    exact hsame ⟨n, hn, hnot⟩
  apply htracks.antisymm (hdone.knows.signed_past n) (hknows.signed_past n)
  · exact (hafter.2 n).trans (hsigned n hn)
  · exact (htracks.older (hknows.signed_past n)).trans holder

/-- The files of the completed run have another name. -/
theorem changed_of_name_ne (hsame : e.signature = r.signature)
    (hne : e.metadata ≠ s.job.lookup metadataFile) : e.Changed s.job.lookup := by
  refine ⟨metadataFile, .inl rfl, fun holder => hne ?_⟩
  have heq : e.signed.lookup metadataFile = r.signed.lookup metadataFile :=
    htracks.signed_eq hknows.signed_past hdone.knows.signed_past hsame (.inl rfl)
  have hjob : s.job.lookup metadataFile = e.signed.lookup metadataFile :=
    htracks.antisymm (htracks.current _) (hdone.knows.signed_past _) holder
      (htracks.older (hdone.knows.signed_past _))
  rw [hjob, heq]
  exact sees_eq htracks hdone hknows hafter hsigned hsame (.inl ⟨rfl, rfl⟩)

end Decision

/-! ### Steps -/

theorem State.standsTo_signs (hsigns : r.phase.signs = true) :
    s.StandsTo e r ↔ r.After e ∧ (s.Intact e ∨ e.Changed r.base.lookup) := by
  unfold State.StandsTo
  cases hphase : r.phase <;> first | rfl | (rw [hphase] at hsigns; cases hsigns)

/-- The run has decided to export. -/
def Phase.works : Phase → Bool
  | .manifest | .listRows | .rows _ | .replace _ => true
  | _ => false

theorem State.standsTo_works (hworks : r.phase.works = true) :
    s.StandsTo e r ↔ e.Changed s.job.lookup := by
  unfold State.StandsTo
  cases hphase : r.phase <;> first | rfl | (rw [hphase] at hworks; cases hworks)

theorem State.StandsTo.signing {r' : Run} (h : s.StandsTo e r) (hr : r.phase.signs = true)
    (hr' : r'.phase.signs = true) (hbase : r'.base = r.base) : s.StandsTo e r' := by
  rw [State.standsTo_signs hr', Run.After, hbase]
  exact (State.standsTo_signs hr).1 h

theorem State.StandsTo.working {r' : Run} (h : s.StandsTo e r) (hr : r.phase.works = true)
    (hr' : r'.phase.works = true) : s.StandsTo e r' :=
  (State.standsTo_works hr').2 ((State.standsTo_works hr).1 h)

theorem State.StandsTo.released (htracks : s.Tracks) (hknows : s.Knows r) (h : s.StandsTo e r) :
    s.Intact e ∨ e.Changed s.job.lookup := by
  have hbase : e.Changed r.base.lookup → e.Changed s.job.lookup := fun hchanged =>
    hchanged.mono fun n => htracks.older (hknows.base_past n)
  unfold State.StandsTo at h
  split at h
  · exact h.2.imp_right hbase
  · exact h.2.imp_right hbase
  · exact h.2.imp_right hbase
  · exact .inl h.2.1
  · exact .inl h.2
  · exact .inr h

theorem Output.file_injective {name : Text} {k k' : Output} (h : k.file name = k'.file name) : k = k' := by
  cases k with
  | summary =>
    cases k' with
    | summary => rfl
    | archive stream =>
      simp only [Output.file, archiveRoot, List.append_assoc, List.append_cancel_left_eq] at h
      cases stream <;> exact absurd h (by decide +kernel)
  | archive stream =>
    cases k' with
    | summary =>
      simp only [Output.file, archiveRoot, List.append_assoc, List.append_cancel_left_eq] at h
      cases stream <;> exact absurd h (by decide +kernel)
    | archive stream' =>
      simp only [Output.file, archiveRoot, List.append_assoc, List.append_cancel_left_eq] at h
      cases stream <;> cases stream' <;> first | rfl | exact absurd h (by decide +kernel)

/-- The decision of a run about the last completed one. -/
theorem State.StandsTo.decide (htracks : s.Tracks) (hdone : s.Done e) (hknows : s.Knows r)
    (hmarker : s.marker = some e) (hphase : r.phase = .stat []) (h : s.StandsTo e r)
    (hname : e.signature = r.signature →
      exportNameOf (s.job.lookup metadataFile) = exportNameOf (r.signed.lookup metadataFile))
    {r' : Run} (hr' : r' = { r with metadata := s.job.lookup metadataFile }) :
    if s.unchanged r' then s.Intact e ∧ e.name = r'.name ∧ e.signature = r.signature
    else e.Changed s.job.lookup := by
  subst hr'
  obtain ⟨hafter, hcase⟩ := (State.standsTo_signs (by rw [hphase]; rfl)).1 h
  have hsigned : ∀ n, isSource n → Older (r.base.lookup n) (r.signed.lookup n) := fun n hn =>
    (hknows.signed_newer n hn).resolve_left fun hpending => by simp [Run.pending, hphase] at hpending
  split
  · next hunchanged =>
    simp only [State.unchanged, Bool.and_eq_true, hmarker, Option.any_some, decide_eq_true_eq] at hunchanged
    have hsame : e.signature = r.signature := hunchanged.2
    refine ⟨hcase.resolve_right
      (not_changed_base htracks hdone hknows hafter hsigned hsame), ?_, hsame⟩
    have hmetadata : e.metadata = r.signed.lookup metadataFile :=
      sees_eq htracks hdone hknows hafter hsigned hsame (.inl ⟨rfl, rfl⟩)
    show (exportNameOf e.metadata).getD [] = (exportNameOf (s.job.lookup metadataFile)).getD []
    rw [hmetadata, hname hsame]
  · next hunchanged =>
    rcases hcase with hintact | hchanged
    · by_cases hsame : e.signature = r.signature
      · apply changed_of_name_ne htracks hdone hknows hafter hsigned hsame
        intro hmetadata
        -- the files of `e` would be the files of the run
        apply hunchanged
        obtain ⟨b, -, hfiles⟩ := hintact
        have heq : e.name = Run.name { r with metadata := s.job.lookup metadataFile } := by
          show (exportNameOf e.metadata).getD [] = _
          rw [hmetadata]
          rfl
        simp only [State.unchanged, Bool.and_eq_true, hmarker, Option.any_some, decide_eq_true_eq,
          List.all_eq_true]
        exact ⟨fun k _ => by rw [← heq, hfiles k]; rfl, hsame⟩
      · exact changed_of_signature_ne htracks hdone hknows hafter hsigned hsame
    · exact hchanged.mono fun n => htracks.older (hknows.base_past n)

theorem State.Inv.publish {content : Content} {size mtime : ℕ} (h : s.Inv)
    (hstep : s.step (.publish n content size mtime) = some t) : t.Inv := by
  obtain ⟨htracks, hpast, hfiles, hmarker, hcompleted, hactive⟩ := h.tracks.publish hstep
  have hjob : ∀ m, Older (s.job.lookup m) (t.job.lookup m) := fun m =>
    htracks.older (hpast m _ (h.tracks.current m))
  have hintact : ∀ e, s.Intact e → t.Intact e := fun e he => by
    rwa [State.Intact, hfiles]
  constructor
  · exact htracks
  · intro r hr
    exact (h.knows r (hactive ▸ hr)).mono hpast
  · intro r hr todo htodo
    rw [hfiles]
    exact h.written r (hactive ▸ hr) todo htodo
  · intro r hr hphase
    rw [hmarker]
    exact h.marked r (hactive ▸ hr) hphase
  · intro e he
    exact (h.done e (hmarker ▸ he)).mono hpast fun e he => hcompleted ▸ he
  · intro e he
    have hold := h.stands e (hmarker ▸ he)
    rw [hactive]
    cases hs : s.active with
    | none =>
      rw [hs] at hold
      exact hold.imp (hintact e) fun hchanged => hchanged.mono hjob
    | some r =>
      rw [hs] at hold
      have hold' : s.StandsTo e r := hold
      show t.StandsTo e r
      unfold State.StandsTo at hold' ⊢
      split at hold'
      · exact ⟨hold'.1, hold'.2.imp_left (hintact e)⟩
      · exact ⟨hold'.1, hold'.2.imp_left (hintact e)⟩
      · exact ⟨hold'.1, hold'.2.imp_left (hintact e)⟩
      · exact ⟨hold'.1, hintact e hold'.2.1, hold'.2.2⟩
      · exact ⟨hold'.1, hintact e hold'.2⟩
      · exact Run.Changed.mono hold' hjob

theorem State.Inv.start (h : s.Inv) (hstep : s.step .start = some t) : t.Inv := by
  simp only [State.step] at hstep
  split at hstep
  · next hactive =>
    cases hstep
    constructor
    · exact ⟨h.tracks.current, h.tracks.newest, h.tracks.bounded, h.tracks.stat_injective,
        h.tracks.serial_injective⟩
    · intro r hr
      cases hr
      exact (Run.start_knows h.tracks s.runs).mono fun _ _ ho => ho
    · intro r hr todo htodo
      cases hr
      cases htodo
    · intro r hr hphase
      cases hr
      rcases hphase with hphase | hphase <;> cases hphase
    · exact fun e he => (h.done e he).mono (fun _ _ ho => ho) fun _ he => he
    · intro e he
      have hold := h.stands e he
      rw [hactive] at hold
      have hdone := h.done e he
      exact ⟨⟨fun n o hsees => h.tracks.older (hdone.sees hsees).2.1,
        fun n => h.tracks.older (hdone.knows.signed_past n)⟩, hold⟩
  · cases hstep

/-- The run goes on, and no file is replaced. -/
theorem State.Inv.move (h : s.Inv) (hr : s.active = some r) {ev : Event} {r' : Run}
    (hstep : s.advance r ev = some { s with active := some r' }) (hwritten : s.Written r')
    (hmarked : r'.phase = .reuse ∨ r'.phase = .ready → s.marker.isSome = true)
    (hstands : ∀ e, s.marker = some e → s.StandsTo e r → s.StandsTo e r') :
    State.Inv { s with active := some r' } where
  tracks := ⟨h.tracks.current, h.tracks.newest, h.tracks.bounded, h.tracks.stat_injective,
    h.tracks.serial_injective⟩
  knows q hq := by
    cases hq
    exact ((h.knows r hr).advance h.tracks hstep r' rfl).mono fun _ _ ho => ho
  written q hq := by
    cases hq
    exact hwritten
  marked q hq hphase := by
    cases hq
    exact hmarked hphase
  done e he := (h.done e he).mono (fun _ _ ho => ho) fun _ hmem => hmem
  stands e he := by
    have hold := h.stands e he
    rw [hr] at hold
    exact hstands e he hold

/-- The run ends. -/
theorem State.Inv.release (h : s.Inv) (hr : s.active = some r) :
    State.Inv { s with active := none } where
  tracks := ⟨h.tracks.current, h.tracks.newest, h.tracks.bounded, h.tracks.stat_injective,
    h.tracks.serial_injective⟩
  knows q hq := by cases hq
  written q hq := by cases hq
  marked q hq := by cases hq
  done e he := (h.done e he).mono (fun _ _ ho => ho) fun _ hmem => hmem
  stands e he := by
    have hold := h.stands e he
    rw [hr] at hold
    have hold' : s.StandsTo e r := hold
    have hfree : s.Intact e ∨ e.Changed s.job.lookup := hold'.released h.tracks (h.knows r hr)
    exact hfree

theorem Phase.not_reports {phase : Phase} (h : phase.signs = true ∨ phase.works = true) {P : Prop}
    (hphase : phase = .reuse ∨ phase = .ready) : P := by
  rcases hphase with rfl | rfl <;> rcases h with h | h <;> cases h

theorem State.written_of_ne (h : ∀ todo, r.phase ≠ .replace todo) : s.Written r := by
  intro todo htodo
  exact absurd htodo (h todo)

theorem State.Inv.replace (h : s.Inv) (hr : s.active = some r)
    (hstep : s.advance r .replace = some t) : t.Inv := by
  have hknows := (h.knows r hr).advance h.tracks hstep
  simp only [State.advance] at hstep
  split at hstep
  · next k todo b hphase hbundle =>
    cases hstep
    obtain ⟨hcount, b', hb', hfiles⟩ := h.written r hr _ hphase
    rw [hbundle] at hb'
    cases hb'
    constructor
    · exact ⟨h.tracks.current, h.tracks.newest, h.tracks.bounded, h.tracks.stat_injective,
        h.tracks.serial_injective⟩
    · intro q hq
      exact (hknows q hq).mono fun _ _ ho => ho
    · intro q hq todo' htodo
      cases hq
      cases htodo
      refine ⟨hcount, b, hbundle, fun k' => ?_⟩
      show k' ∈ todo ∨
        (s.files.insert (k.file r.name) (Stored.mk (b.file k) r.id)).lookup (k'.file r.name) = _
      by_cases hk : k' = k
      · subst hk
        exact .inr (AList.lookup_insert _)
      · rw [AList.lookup_insert_ne fun hfile => hk (Output.file_injective hfile)]
        exact (hfiles k').imp_left fun hmem => (List.mem_cons.1 hmem).resolve_left hk
    · intro q hq hphase'
      cases hq
      rcases hphase' with hphase' | hphase' <;> cases hphase'
    · exact fun e he => (h.done e he).mono (fun _ _ ho => ho) fun _ hmem => hmem
    · intro e he
      have hold := h.stands e he
      rw [hr] at hold
      have hold' : s.StandsTo e r := hold
      have hchanged : e.Changed s.job.lookup := (State.standsTo_works (by rw [hphase]; rfl)).1 hold'
      exact hchanged
  · cases hstep

theorem State.Inv.mark (h : s.Inv) (hr : s.active = some r) (hstep : s.advance r .mark = some t) :
    t.Inv := by
  have hknows := (h.knows r hr).advance h.tracks hstep
  simp only [State.advance] at hstep
  split at hstep
  · next hphase =>
    cases hstep
    obtain ⟨hcount, b, hb, hfiles⟩ := h.written r hr _ hphase
    constructor
    · exact ⟨h.tracks.current, h.tracks.newest, h.tracks.bounded, h.tracks.stat_injective,
        h.tracks.serial_injective⟩
    · intro q hq
      exact (hknows q hq).mono fun _ _ ho => ho
    · intro q hq
      cases hq
      exact State.written_of_ne fun todo => Phase.noConfusion
    · exact fun q hq _ => rfl
    · intro e he
      cases he
      exact ⟨List.mem_cons_self, (hknows _ rfl).mono fun _ _ ho => ho, rfl, ⟨b, hb⟩, hcount⟩
    · intro e he
      cases he
      exact ⟨rfl, b, hb, fun k => (hfiles k).resolve_left List.not_mem_nil⟩
  · cases hstep

theorem State.Inv.advance {ev : Event} (h : s.Inv) (hr : s.active = some r) (hname : keepsName s ev = true)
    (hstep : s.advance r ev = some t) : t.Inv := by
  cases ev
  case replace => exact h.replace hr hstep
  case mark => exact h.mark hr hstep
  case kill =>
    simp only [State.advance] at hstep
    cases hstep
    exact h.release hr
  case report =>
    simp only [State.advance] at hstep
    split at hstep
    · cases hstep
      exact h.release hr
    · cases hstep
  case listTables | listArchives =>
    have hstep' := hstep
    simp only [State.advance] at hstep
    split at hstep
    · next hphase =>
      cases hstep
      apply h.move hr hstep' (State.written_of_ne fun todo => Phase.noConfusion)
        (Phase.not_reports (.inl rfl))
      intro e _ hold
      exact hold.signing (by rw [hphase]; rfl) rfl rfl
    · cases hstep
  case stat =>
    have hstep' := hstep
    simp only [State.advance] at hstep
    split at hstep
    · next m todo hphase =>
      split at hstep
      all_goals
        cases hstep
        apply h.move hr hstep' (State.written_of_ne fun todo => Phase.noConfusion)
          (Phase.not_reports (.inl rfl))
        intro e _ hold
        exact hold.signing (by rw [hphase]; rfl) rfl rfl
    · cases hstep
  case names =>
    have hstep' := hstep
    simp only [State.advance] at hstep
    split at hstep
    · next hphase =>
      cases hstep
      refine h.move hr hstep' (State.written_of_ne fun todo htodo => ?_) (fun hphase' => ?_) ?_
      · simp only at htodo
        split at htodo <;> cases htodo
      · simp only at hphase'
        split at hphase'
        · next hunchanged =>
          rw [State.unchanged, Bool.and_eq_true] at hunchanged
          obtain ⟨hsome, -⟩ := (Option.any_eq_true_iff_get _ _).1 hunchanged.2
          exact hsome
        · exact Phase.not_reports (.inr rfl) hphase'
      · intro e he hold
        have hname' : e.signature = r.signature →
            exportNameOf (s.job.lookup metadataFile) = exportNameOf (r.signed.lookup metadataFile) := by
          intro hsame
          simpa [keepsName, hr, he, hsame] using hname
        have hdecide := State.StandsTo.decide h.tracks (h.done e he) (h.knows r hr) he hphase.1 hold
          hname' rfl
        split at hdecide
        · next hunchanged =>
          simp only [hunchanged, if_true]
          exact ⟨((State.standsTo_signs (by rw [hphase.1]; rfl)).1 hold).1, hdecide⟩
        · next hunchanged =>
          simp only [hunchanged, if_false, Bool.false_eq_true]
          exact hdecide
    · cases hstep
  case manifest | listRows =>
    have hstep' := hstep
    simp only [State.advance] at hstep
    split at hstep
    · next hphase =>
      cases hstep
      apply h.move hr hstep' (State.written_of_ne fun todo => Phase.noConfusion)
        (Phase.not_reports (.inr rfl))
      intro e _ hold
      exact hold.working (by rw [hphase]; rfl) rfl
    · cases hstep
  case row =>
    have hstep' := hstep
    simp only [State.advance] at hstep
    split at hstep
    · next m todo hphase =>
      obtain ⟨f, hjob, rfl⟩ := Option.map_eq_some_iff.1 hstep
      apply h.move hr hstep' (State.written_of_ne fun todo => Phase.noConfusion)
        (Phase.not_reports (.inr rfl))
      intro e _ hold
      exact hold.working (by rw [hphase]; rfl) rfl
    · cases hstep
  case pair =>
    have hstep' := hstep
    simp only [State.advance] at hstep
    split at hstep
    · next results count hphase hresults hcount =>
      split at hstep
      · obtain ⟨name, hname, rfl⟩ := Option.map_eq_some_iff.1 hstep
        apply h.move hr hstep'
        · exact State.written_of_ne fun todo htodo => by
            have htodo' : r.phase = .replace todo := htodo
            rw [hphase] at htodo'
            cases htodo'
        · intro hphase'
          have hphase'' : r.phase = .reuse ∨ r.phase = .ready := hphase'
          exact Phase.not_reports (.inr (by rw [hphase]; rfl)) hphase''
        · intro e _ hold
          have hworks : r.phase.works = true := by rw [hphase]; rfl
          exact hold.working hworks hworks
      · cases hstep
    · cases hstep
  case stage =>
    have hstep' := hstep
    simp only [State.advance] at hstep
    split at hstep
    · next hphase =>
      cases hstep
      apply h.move hr hstep'
      · intro todo htodo
        cases htodo
        obtain ⟨b, hb⟩ := Option.isSome_iff_exists.1 hphase.2.2
        refine ⟨hphase.2.1, b, hb, fun k => .inl ?_⟩
        cases k with
        | summary => exact List.mem_cons_self
        | archive stream => cases stream <;> simp [outputs]
      · exact Phase.not_reports (.inr rfl)
      · intro e _ hold
        exact hold.working (by rw [hphase.1]; rfl) rfl
    · cases hstep
  all_goals
    simp only [State.advance] at hstep
    cases hstep

theorem State.inv_initial : State.initial.Inv where
  tracks := by
    constructor
    · exact fun n => State.past_none _ n
    · intro n f hf
      cases hf
    · intro n f hf
      cases hf
    · intro n f g hf
      cases hf
    · intro n f g hf
      cases hf
  knows _ h := by cases h
  written _ h := by cases h
  marked _ h := by cases h
  done _ h := by cases h
  stands _ h := by cases h

theorem State.inv_step (s : State) (ev : Event) (t : State) (h : s.Inv) (hname : keepsName s ev = true)
    (hstep : s.step ev = some t) : t.Inv := by
  cases ev
  case publish n content size mtime => exact h.publish hstep
  case start => exact h.start hstep
  all_goals
    obtain ⟨r, hr, hadvance⟩ := Option.bind_eq_some_iff.1 hstep
    exact h.advance hr hname hadvance

/-! ### The contents of the files -/

theorem membersOf_bind (name : Option Text) :
    membersOf (name.bind r.signed.lookup) =
      match name.bind r.signedJob.file with
      | none => some []
      | some c => c.archive? := by
  cases name with
  | none => rfl
  | some n =>
    show membersOf (r.signed.lookup n) = match (r.signed.lookup n).map File.content with
      | none => some []
      | some c => c.archive?
    cases r.signed.lookup n <;> rfl

section Contents

variable (hdone : s.Done e) (hsees : ∀ n o, e.Sees n o → o = r.signed.lookup n)

include hsees

theorem metadata_signedJob : r.signedJob.metadata = e.metadata.bind fun f => f.content.metadata? := by
  have hmetadata : e.metadata = r.signed.lookup metadataFile := hsees _ _ (.inl ⟨rfl, rfl⟩)
  rw [hmetadata]
  show ((r.signed.lookup metadataFile).map File.content).bind Content.metadata? = _
  cases r.signed.lookup metadataFile <;> rfl

theorem definitions_signedJob : r.signedJob.definitions = e.definitions := by
  have hmanifest : e.manifest = r.signed.lookup manifestFile := hsees _ _ (.inr (.inl ⟨rfl, rfl⟩))
  rw [Run.definitions, hmanifest]
  show ((r.signed.lookup manifestFile).map File.content).bind _ = _
  cases r.signed.lookup manifestFile <;> rfl

theorem records_signedJob : r.signedJob.records = e.results := by
  have hrows : ∀ n, isResultName n = true → e.rows.lookup n = r.signed.lookup n := fun n hn =>
    hsees n _ (.inr (.inr (.inl ⟨hn, rfl⟩)))
  have hnames : tableNames e.rows = tableNames r.signed := filter_glob_congr hrows
  have htexts : (tableNames r.signed).mapM (fun n => (r.signedJob.file n).bind Content.table?) =
      (tableNames e.rows).mapM fun n => (e.rows.lookup n).bind fun f => f.content.table? := by
    rw [hnames]
    apply Gather.mapM_congr
    intro n hn
    rw [hrows n (mem_tableNames.1 hn).2]
    show ((r.signed.lookup n).map File.content).bind _ = _
    cases r.signed.lookup n <;> rfl
  rw [Job.records, Run.results, ← htexts]
  rfl

include hdone

theorem open_signedJob {results : List (ℕ × Csv.DictRow)} (hresults : e.results = some results) :
    (List.range e.opened.length).mapM (r.signedJob.open results) =
      e.opened.mapM fun p => membersOf p.2 := by
  have hseen : ∀ p ∈ e.opened, p.2 = p.1.bind r.signed.lookup := by
    rintro ⟨name, o⟩ hp
    cases name with
    | none => exact (hdone.knows.opened_seen _ hp).1 rfl
    | some n => exact hsees n o (.inr (.inr (.inr hp)))
  have hmembers : e.opened.mapM (fun p => membersOf p.2) =
      (e.opened.map Prod.fst).mapM fun name => membersOf (name.bind r.signed.lookup) := by
    rw [List.mapM_map]
    exact Gather.mapM_congr fun p hp => by rw [hseen p hp]; rfl
  have hnames := hdone.knows.opened_names results hresults (by rw [hdone.ready]; rfl)
  have hopen : (fun task => r.signedJob.open results task) = fun task =>
      (archiveName results task).bind fun name => membersOf (name.bind r.signed.lookup) := by
    funext task
    rw [Job.open]
    congr 1
    funext name
    exact (membersOf_bind name).symm
  calc (List.range e.opened.length).mapM (r.signedJob.open results)
      = ((List.range e.opened.length).mapM (archiveName results)).bind fun names =>
          names.mapM fun name => membersOf (name.bind r.signed.lookup) := by
        rw [← Gather.mapM_bind, ← hopen]
    _ = e.opened.mapM fun p => membersOf p.2 := by
        rw [hnames, Option.bind_some, hmembers]

/-- A run that has seen the signed files makes their export. -/
theorem remoteExport_signedJob {b : Bundle} (hb : e.bundle = some b) :
    remoteExport r.signedJob = some (e.name, b) := by
  obtain ⟨definitions, hdefinitions, hb⟩ := Option.bind_eq_some_iff.1 hb
  obtain ⟨results, hresults, hb⟩ := Option.bind_eq_some_iff.1 hb
  obtain ⟨count, hcount, hb⟩ := Option.bind_eq_some_iff.1 hb
  obtain ⟨opened, hopened, hb⟩ := Option.bind_eq_some_iff.1 hb
  have hlength : count = e.opened.length := Option.some.inj (hcount.symm.trans hdone.count)
  obtain ⟨item, hitem, hcount⟩ := Option.bind_eq_some_iff.1 hcount
  rw [hdefinitions, Option.bind_some] at hcount
  have hname : e.name = exportName item := by
    rw [Run.name, exportNameOf, hitem]
    rfl
  rw [remoteExport, metadata_signedJob hsees, hitem, Option.bind_some, definitions_signedJob hsees,
    hdefinitions, Option.bind_some, records_signedJob hsees, hresults, Option.bind_some, hcount,
    Option.bind_some, hlength, open_signedJob hdone hsees hresults, hopened, Option.bind_some, ← hname,
    ← hlength, hb]
  rfl

end Contents

/-! ### Reports -/

theorem State.Inv.sound (h : s.Inv) (hr : s.reports = some r) : s.Sound r := by
  obtain ⟨hactive, hphase⟩ := Option.filter_eq_some_iff.1 hr
  have hphase' : r.phase = .reuse ∨ r.phase = .ready := by simpa using hphase
  obtain ⟨e, he⟩ := Option.isSome_iff_exists.1 (h.marked r hactive hphase')
  have hdone := h.done e he
  have hknows := h.knows r hactive
  have hstands := h.stands e he
  rw [hactive] at hstands
  have hstands' : s.StandsTo e r := hstands
  unfold State.StandsTo at hstands'
  rcases hphase' with hreuse | hend
  · rw [hreuse] at hstands'
    obtain ⟨hafter, ⟨b, hb, hfiles⟩, hname, hsame⟩ := hstands'
    have hsigned : ∀ n, isSource n → Older (r.base.lookup n) (r.signed.lookup n) := fun n hn =>
      (hknows.signed_newer n hn).resolve_left fun hpending => by simp [Run.pending, hreuse] at hpending
    have hsees : ∀ n o, e.Sees n o → o = r.signed.lookup n := fun n o hsees =>
      sees_eq h.tracks hdone hknows hafter hsigned hsame hsees
    constructor
    · refine ⟨e, hdone.completed, ⟨b, hb, fun k => hname ▸ hfiles k⟩, ?_⟩
      intro n o ho
      rw [hsees n o ho]
      exact Older.refl _
    · intro _
      refine ⟨hsigned, b, hname ▸ remoteExport_signedJob hdone hsees hb, fun k => ?_⟩
      rw [← hname, hfiles k]
      rfl
  · rw [hend] at hstands'
    obtain ⟨rfl, b, hb, hfiles⟩ := hstands'
    constructor
    · exact ⟨e, hdone.completed, ⟨b, hb, hfiles⟩, fun n o ho => (hdone.sees ho).2.2⟩
    · intro hreuse
      rw [hend] at hreuse
      cases hreuse

/-- In every run in which the exporter reads the name that it has signed, all reports are sound. -/
theorem report_sound {es : List Event}
    (hname : Machine.Along State.step (fun s ev => keepsName s ev = true) State.initial es)
    (hrun : Machine.run State.step State.initial es = some s) (hr : s.reports = some r) : s.Sound r :=
  State.Inv.sound (Machine.invariant_along State.inv_step State.inv_initial hname hrun) hr

/-! ### Two jobs -/

/-- The looks of a run before its decision. -/
def signing (files : ℕ) : List Event :=
  [Event.start, Event.listTables, Event.listArchives] ++ List.replicate files Event.stat

/-- A run that exports `pairs` pairs with results in `tables` files. -/
def exporting (files tables pairs : ℕ) : List Event :=
  signing files ++ [Event.names, Event.manifest, Event.listRows] ++ List.replicate tables Event.row ++
    List.replicate pairs Event.pair ++
    [Event.stage, Event.replace, Event.replace, Event.replace, Event.mark, Event.report]

def nameMetadata (name : String) : Content :=
  .metadata [("job_name".toList, ⟨name.toList, true, none, name.toList⟩),
    ("task_count".toList, ⟨['1'], true, some 1, ['1']⟩)]

def resultName : Text := "batch_000000_task_000000000.csv".toList

def resultTable : Content := .table "task_id,status\n0,ok\n".toList

/-- A job is exported twice, and does not change in between. -/
def sampleRun : List Event :=
  [Event.publish metadataFile (nameMetadata "b") 1 1, Event.publish manifestFile (.manifest []) 1 2,
    Event.publish resultName resultTable 1 3] ++
    exporting 3 1 1 ++ signing 3 ++ [Event.names]

/-- A result arrives after the first export, and the job is renamed and exported again.  The third run signs
the job before it gets its first name back, and reads the metadata afterwards. -/
def staleRun : List Event :=
  [Event.publish metadataFile (nameMetadata "b") 1 1, Event.publish manifestFile (.manifest []) 1 2] ++
    exporting 2 0 1 ++
    [Event.publish resultName resultTable 1 3, Event.publish metadataFile (nameMetadata "a") 1 4] ++
    exporting 3 1 1 ++ signing 3 ++
    [Event.publish metadataFile (nameMetadata "b") 1 5, Event.names]

theorem report_sound_sample :
    ∃ s r, Machine.run State.step State.initial sampleRun = some s ∧ s.reports = some r ∧
      r.phase = .reuse ∧ s.Sound r := by
  have hrun : ((Machine.run State.step State.initial sampleRun).bind State.reports).map Run.phase =
      some .reuse := by decide +kernel
  obtain ⟨r, hr, hphase⟩ := Option.map_eq_some_iff.1 hrun
  obtain ⟨s, hs, hr⟩ := Option.bind_eq_some_iff.1 hr
  exact ⟨s, r, hs, hr, hphase, report_sound (by decide +kernel) hs hr⟩

/-- The export of the run that has written the summary lacks a result that the run `r` has signed. -/
def State.lacks (s : State) (r : Run) (n : Text) : Bool :=
  s.completed.all fun e =>
    (s.files.lookup (Output.summary.file r.name)).map Stored.run != some e.id ||
      !decide (Older (r.signed.lookup n) (e.rows.lookup n))

theorem State.not_sound_of_lacks (hn : isResultName n = true) (h : s.lacks r n = true) : ¬ s.Sound r := by
  rintro ⟨⟨e, he⟩, -⟩
  obtain ⟨b, -, hfiles⟩ := he.files
  have hall := List.all_eq_true.1 h e he.completed
  rw [hfiles .summary, decide_eq_true (he.newer n _ (.inr (.inr (.inl ⟨hn, rfl⟩))))] at hall
  simp at hall

/-- The third run reports the files of the first one. -/
theorem report_stale :
    ∃ s r, Machine.run State.step State.initial staleRun = some s ∧ s.reports = some r ∧ ¬ s.Sound r := by
  have hrun : ((Machine.run State.step State.initial staleRun).bind fun s =>
      s.reports.map fun r => s.lacks r resultName) = some true := by decide +kernel
  obtain ⟨s, hs, hr⟩ := Option.bind_eq_some_iff.1 hrun
  obtain ⟨r, hr, hlacks⟩ := Option.map_eq_some_iff.1 hr
  exact ⟨s, r, hs, hr, State.not_sound_of_lacks rfl hlacks⟩

end Export
end Slurmy
