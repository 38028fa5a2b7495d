import Slurmy.Archives.Sound

/-!
# Expansion with a warm cache

* `Expansion`, `Expands`: a call that runs to its end, and the files of a pattern, one after the other;
* `Pc.Alone`, `alone_run`: what a call does to its entry when nobody else acts;
* `expansion_listing`: what is returned is the same in every state of the cache;
* `expansion_faithful_iff`: the files are there exactly when no completed entry has lost one.
-/

namespace Slurmy
namespace Archives

open Disk (Op)

variable {ι : Type} {S : Store ι} {i j : ι} {r : Name} {m : Member} {ms : List Member} {t t₀ u : Tree} {p q : Path}
  {c : Choice} {pc : Pc} {s s' s₀ : State ι} {n : ℕ} {l : List PosixPath}

/-! ### Calls that run alone -/

/-- A call for the archive runs to its end, and returns the paths. -/
def Expansion (S : Store ι) (i : ι) (s : State ι) (l : List PosixPath) (s' : State ι) : Prop :=
  ∃ (s₁ : State ι) (choices : List Choice) (call : Call ι), step S s (.start i) = some s₁ ∧
    Machine.run (step S) s₁ (choices.map (Event.act s.calls.length)) = some s' ∧
    s'.calls[s.calls.length]? = some call ∧ call.pc = .finished (some l)

/-- A file that a pattern matches. -/
inductive Source (ι : Type)
  | archive (i : ι)
  | file (path : PosixPath)

/-- The files of a pattern, one after the other; the problems are then sorted without their duplicates. -/
inductive Expands (S : Store ι) : State ι → List (Source ι) → List PosixPath → State ι → Prop
  | nil (s : State ι) : Expands S s [] [] s
  | file {s s' : State ι} {files : List (Source ι)} {l : List PosixPath} (path : PosixPath)
      (h : Expands S s files l s') : Expands S s (.file path :: files) (path :: l) s'
  | archive {s s₁ s' : State ι} {files : List (Source ι)} {l l' : List PosixPath} {i : ι}
      (h : Expansion S i s l s₁) (h' : Expands S s₁ files l' s') :
      Expands S s (.archive i :: files) (l ++ l') s'

/-! ### The entry of a call -/

/-- The entry is as it was. -/
def Same (S : Store ι) (i : ι) (t₀ t : Tree) : Prop :=
  ∀ q, Dict.get t (S.base (S.key i) ++ q) = Dict.get t₀ (S.base (S.key i) ++ q)

/-- The entry is as it was, but for its index. -/
def SameFiles (S : Store ι) (i : ι) (t₀ t : Tree) : Prop :=
  ∀ q, q ≠ indexName.parts → Dict.get t (S.base (S.key i) ++ q) = Dict.get t₀ (S.base (S.key i) ++ q)

/-- What a call has made of the entry. -/
def Outcome (S : Store ι) (i : ι) (ms : List Member) (t₀ t : Tree) : Prop :=
  (S.isComplete i t₀ = false ∧ Unpacked strict t (S.base (S.key i)) ms) ∨
    (S.isComplete i t₀ = true ∧ SameFiles S i t₀ t)

/-- What holds before the step, with the tree `t₀` in the beginning. -/
def Pc.Alone (S : Store ι) (i : ι) (t₀ t : Tree) : Pc → Prop
  | .look | .scan | .check => Same S i t₀ t
  | .makeCache | .makeTemp | .folder _ _ | .file _ _ _ | .index _ | .arrive _ | .place _ =>
      Same S i t₀ t ∧ S.isComplete i t₀ = false
  | .announce _ => ∀ ms, S.Members i ms → S.isComplete i t₀ = false ∧ Unpacked strict t (S.base (S.key i)) ms
  | .discard _ => False
  | .reindex | .refill _ => S.isComplete i t₀ = true ∧ SameFiles S i t₀ t
  | .cleanup _ | .finished none => True
  | .finished (some l) => ∃ ms, S.Members i ms ∧ l = S.listing i ms ∧ Outcome S i ms t₀ t

theorem Same.isComplete (h : Same S i t₀ t) : S.isComplete i t = S.isComplete i t₀ := by
  unfold Store.isComplete isFile
  rw [entry_eq plain_completeName]
  exact congrArg Option.isSome (Disk.bytesAt_congr (h _))

theorem Same.sameFiles (h : Same S i t₀ t) : SameFiles S i t₀ t := fun q _ => h q

theorem EntryOK.exists_members (h : EntryOK S t i) (hcomplete : S.isComplete i t = true) : ∃ ms, S.Members i ms := by
  refine h.known fun hnone => ?_
  unfold Store.isComplete isFile at hcomplete
  obtain ⟨content, hcontent⟩ := Option.isSome_iff_exists.mp hcomplete
  obtain ⟨mode, hfile⟩ := Disk.get_of_bytesAt hcontent
  rw [entry_eq plain_completeName, h.rooted hnone _ ⟨_, rfl⟩] at hfile
  cases hfile

/-- A call that works in its temporary directory leaves its entry alone. -/
theorem Same.advance (h : Same S i t₀ t) (hpc : pc.Knows strict S i t) (hworks : ¬ S.WorksIn i c pc (S.key i)) :
    Same S i t₀ (S.advance i t c pc).1 := fun q => (get_advance hpc.accepted hworks q).trans (h q)

theorem attempt_snd_cases (t : Tree) (op : Op Name UInt8) (fault : Option ℕ) (ok error : Pc) :
    (attempt t op fault ok error).2 = ok ∨ (attempt t op fault ok error).2 = error := by
  rcases attempt_cases t op fault ok error with ⟨u, -, heq⟩ | ⟨u, -, heq⟩
  · exact .inl (by rw [heq])
  · exact .inr (by rw [heq])

/-- A call that writes the index changes nothing else. -/
theorem get_advance_index (hpc : pc = .reindex ∨ ∃ k, pc = .refill k) (hp : p ≠ S.entry i indexName) :
    Dict.get (S.advance i t c pc).1 p = Dict.get t p := by
  rcases hpc with rfl | ⟨k, rfl⟩
  · have hwrite : ∀ {content : Bytes} {u}, (Op.write (S.entry i indexName) content).apply t = some u →
        Dict.get u p = Dict.get t p := fun happly => (Disk.write_apply happly).2.1 p hp
    unfold Store.advance
    dsimp only
    rcases attempt_cases t (.write (S.entry i indexName) []) c.fault (.refill 0) (.finished none) with
      ⟨u, happly, heq⟩ | ⟨u, hu, heq⟩
    · rw [heq]
      exact hwrite happly
    · rw [heq]
      rcases hu with rfl | ⟨n, rfl⟩
      · rfl
      · cases n with
        | zero => rfl
        | succ n =>
          show Dict.get (((Op.write (S.entry i indexName) (([] : Bytes).take n)).apply t).getD t) p = _
          cases happly : (Op.write (S.entry i indexName) (([] : Bytes).take n)).apply t with
          | none => rfl
          | some u => exact hwrite happly
  · unfold Store.advance
    dsimp only
    split
    · rfl
    · show Dict.get (overwrite t _ _ _) p = _
      unfold overwrite
      split
      · exact Dict.get_put_of_ne _ _ hp
      · rfl

theorem SameFiles.advance (h : SameFiles S i t₀ t) (hpc : pc = .reindex ∨ ∃ k, pc = .refill k) :
    SameFiles S i t₀ (S.advance i t c pc).1 := by
  intro q hq
  refine (get_advance_index hpc ?_).trans (h q hq)
  rw [entry_eq plain_indexName]
  exact fun heq => hq (List.append_cancel_left heq)

theorem Pc.Alone.advance (h : pc.Alone S i t₀ t) (hpc : pc.Knows strict S i t) (hentry : EntryOK S t i) :
    (S.advance i t c pc).2.Alone S i t₀ (S.advance i t c pc).1 := by
  have hkey : ∀ {r}, S.key i ≠ temporaryName r := key_ne S i rfl
  -- an operation in the temporary directory
  have hwork : ∀ {op : Op Name UInt8} {ok error : Pc}, S.advance i t c pc = attempt t op c.fault ok error →
      Same S i t₀ (S.advance i t c pc).1 → (Same S i t₀ (S.advance i t c pc).1 → ok.Alone S i t₀ (S.advance i t c pc).1) →
      (∀ u, error.Alone S i t₀ u) → (S.advance i t c pc).2.Alone S i t₀ (S.advance i t c pc).1 := by
    intro op ok error heq hsame hok herror
    rcases attempt_snd_cases t op c.fault ok error with hsnd | hsnd
    · rw [show (S.advance i t c pc).2 = ok by rw [heq, hsnd]]
      exact hok hsame
    · rw [show (S.advance i t c pc).2 = error by rw [heq, hsnd]]
      exact herror _
  cases pc with
  | look =>
    unfold Store.advance decideNext
    dsimp only
    split
    · trivial
    · cases hcached : S.cached i t with
      | none => exact h
      | some l =>
        have hcomplete : S.isComplete i t = true := by
          unfold Store.cached at hcached
          split at hcached
          · next hcond => exact hcond.1
          · cases hcached
        obtain ⟨ms, hms⟩ := hentry.exists_members hcomplete
        obtain ⟨hl, -, -⟩ := cached_eq_some hms.1 (fun content => hentry.index ms content hms.1) hcached
        exact ⟨ms, hms, hl, .inr ⟨h.isComplete ▸ hcomplete, h.sameFiles⟩⟩
  | scan =>
    unfold Store.advance decideNext
    dsimp only
    split
    · trivial
    · split
      · split
        · trivial
        · exact h
      · trivial
  | check =>
    obtain ⟨ms, hms⟩ := hpc
    unfold Store.advance decideNext
    dsimp only
    rw [hms.getD]
    split
    · trivial
    · split
      · next hcomplete => exact ⟨h, h.isComplete ▸ Bool.eq_false_iff.mpr hcomplete⟩
      · next hcomplete =>
        rw [not_not] at hcomplete
        have hcomplete₀ : S.isComplete i t₀ = true := h.isComplete ▸ hcomplete
        split
        · exact ⟨hcomplete₀, h.sameFiles⟩
        · exact ⟨ms, hms, rfl, .inr ⟨hcomplete₀, h.sameFiles⟩⟩
  | makeCache => exact hwork rfl (h.1.advance hpc id) (fun hsame => ⟨hsame, h.2⟩) fun _ => trivial
  | makeTemp => exact hwork rfl (h.1.advance hpc hkey) (fun hsame => ⟨hsame, h.2⟩) fun _ => trivial
  | folder r todo =>
    cases todo with
    | nil => exact hwork rfl (h.1.advance hpc hkey) (fun hsame => ⟨hsame, h.2⟩) fun _ => trivial
    | cons m todo => exact hwork rfl (h.1.advance hpc hkey) (fun hsame => ⟨hsame, h.2⟩) fun _ => trivial
  | file r m todo => exact hwork rfl (h.1.advance hpc hkey) (fun hsame => ⟨hsame, h.2⟩) fun _ => trivial
  | index r => exact hwork rfl (h.1.advance hpc hkey) (fun hsame => ⟨hsame, h.2⟩) fun _ => trivial
  | arrive r =>
    have hcomplete : S.isComplete i t = false := h.1.isComplete.trans h.2
    unfold Store.advance decideNext
    dsimp only
    rw [hcomplete]
    split
    · trivial
    · split
      · trivial
      · exact h
  | place r =>
    obtain ⟨ms, hms, hall, -⟩ := hpc
    unfold Store.advance
    dsimp only
    split
    · next u _ happly =>
      intro ms' hms'
      have heq : ms' = ms := Option.some.inj (hms'.1.symm.trans hms.1)
      subst heq
      exact ⟨h.2, hall.congr (rename_entry hentry.rooted happly).1⟩
    · trivial
  | announce r =>
    obtain ⟨ms, hms⟩ := hpc
    unfold Store.advance decideNext
    dsimp only
    rw [hms.getD]
    split
    · trivial
    · exact ⟨ms, hms, rfl, .inl (h ms hms)⟩
  | discard r => exact h.elim
  | cleanup r =>
    unfold Store.advance
    dsimp only
    rcases attempt_snd_cases t (.rmtree (resolve (S.temporary r))) c.fault (.finished none) (.finished none) with
      hsnd | hsnd
    all_goals
      rw [hsnd]
      trivial
  | reindex =>
    have hfiles := h.2.advance (c := c) (.inl rfl)
    rcases attempt_snd_cases t (.write (S.entry i indexName) []) c.fault (.refill 0) (.finished none) with hsnd | hsnd
    · rw [show (S.advance i t c .reindex).2 = .refill 0 from hsnd]
      exact ⟨h.1, hfiles⟩
    · rw [show (S.advance i t c .reindex).2 = .finished none from hsnd]
      trivial
  | refill k =>
    obtain ⟨ms, hms⟩ := hpc
    have hfiles := h.2.advance (c := c) (.inr ⟨k, rfl⟩)
    unfold Store.advance decideNext at hfiles ⊢
    dsimp only at hfiles ⊢
    rw [hms.getD] at hfiles ⊢
    split
    · split
      · trivial
      · exact ⟨ms, hms, rfl, .inr h⟩
    · next hk =>
      rw [if_neg hk] at hfiles
      split
      · trivial
      · exact ⟨h.1, hfiles⟩
  | finished result => exact h

/-- What holds while nobody but the call `n` acts. -/
structure RunsAlone (S : Store ι) (i : ι) (n : ℕ) (t₀ : Tree) (s : State ι) : Prop where
  sound : Sound S s
  others : ∀ j, j ≠ i → Same S j t₀ s.tree
  call : ∃ call, s.calls[n]? = some call ∧ call.archive = i ∧ call.pc.Knows strict S i s.tree ∧
    call.pc.Alone S i t₀ s.tree

theorem RunsAlone.step (h : RunsAlone S i n t₀ s) (hstep : step S s (.act n c) = some s') : RunsAlone S i n t₀ s' := by
  obtain ⟨call, hcall, rfl, hknows, halone⟩ := h.call
  refine ⟨sound_step h.sound hstep, fun j hj q => ?_, ?_⟩
  all_goals
    obtain ⟨call', hcall', -, rfl⟩ := step_act hstep
    rw [hcall] at hcall'
    cases hcall'
  · -- the call works in its own directories
    have hworks : ¬ S.WorksIn call.archive c call.pc (S.key j) := by
      intro hworks
      have hkey : ∀ {r}, S.key j ≠ temporaryName r := key_ne S j rfl
      have hown : S.key j ≠ S.key call.archive := fun heq => hj (S.key_injective heq)
      cases hpc : call.pc with
      | place r =>
        rw [hpc] at hworks
        exact hworks.elim hkey hown
      | reindex =>
        rw [hpc] at hworks
        exact hown hworks
      | refill k =>
        rw [hpc] at hworks
        exact hown hworks
      | makeTemp =>
        rw [hpc] at hworks
        exact hkey hworks
      | folder r todo =>
        rw [hpc] at hworks
        exact hkey hworks
      | file r m todo =>
        rw [hpc] at hworks
        exact hkey hworks
      | index r =>
        rw [hpc] at hworks
        exact hkey hworks
      | discard r =>
        rw [hpc] at hworks
        exact hkey hworks
      | cleanup r =>
        rw [hpc] at hworks
        exact hkey hworks
      | _ =>
        rw [hpc] at hworks
        exact hworks
    exact (get_advance hknows.accepted hworks q).trans (h.others j hj q)
  · refine ⟨(call.next S s.tree c).2, ?_, rfl, hknows.advance, halone.advance hknows (h.sound.entries _)⟩
    obtain ⟨hlt, -⟩ := List.getElem?_eq_some_iff.mp hcall
    exact List.getElem?_set_self hlt

theorem alone_run (h : RunsAlone S i n t₀ s) {choices : List Choice}
    (hrun : Machine.run (step S) s (choices.map (Event.act n)) = some s') : RunsAlone S i n t₀ s' := by
  induction choices generalizing s with
  | nil =>
    cases hrun
    exact h
  | cons c choices ih =>
    obtain ⟨m, hm, hrest⟩ := Machine.run_cons_some.mp hrun
    exact ih (h.step hm) hrest

/-- A call that runs alone returns the members, and does to its entry what it should; it leaves other entries
alone. -/
theorem expansion_spec (hsound : Sound S s) (h : Expansion S i s l s') :
    (∃ ms, S.Members i ms ∧ l = S.listing i ms ∧ Outcome S i ms s.tree s'.tree) ∧
      (∀ j, j ≠ i → Same S j s.tree s'.tree) ∧ Sound S s' := by
  obtain ⟨s₁, choices, call, hstart, hrun, hcall, hpc⟩ := h
  have hstarted : RunsAlone S i s.calls.length s.tree s₁ := by
    refine ⟨sound_step hsound hstart, ?_, ?_⟩
    all_goals cases hstart
    · exact fun j _ q => rfl
    · exact ⟨⟨i, .look, false⟩, by simp, rfl, trivial, fun q => rfl⟩
  obtain ⟨hsound', hothers, call', hcall', -, -, halone⟩ := alone_run hstarted hrun
  rw [hcall] at hcall'
  cases hcall'
  rw [hpc] at halone
  exact ⟨halone, hothers, hsound'⟩

/-! ### Entries with all their files -/

/-- Every member has its file. -/
def Store.Held (S : Store ι) (i : ι) (t : Tree) : Prop :=
  ∀ ms, S.members i = some ms → ∀ m ∈ ms, t.bytesAt (S.entry i m.name) = some m.content

/-- No completed entry has lost a file. -/
def Store.Whole (S : Store ι) (i : ι) (t : Tree) : Prop :=
  S.isComplete i t = true → ∀ ms, S.members i = some ms → ∀ m ∈ ms, isFile t (S.entry i m.name) = true

theorem SameFiles.bytesAt (h : SameFiles S i t₀ t) (hms : S.members i = some ms) (hm : m ∈ ms) :
    t.bytesAt (S.entry i m.name) = t₀.bytesAt (S.entry i m.name) := by
  have hname := accepted_of_mem hms hm
  rw [entry_eq hname.plain]
  exact Disk.bytesAt_congr (h _ hname.ne_marker.2)

theorem Unpacked.held (h : Unpacked strict t (S.base (S.key i)) ms) (hms : S.members i = some ms) : S.Held i t := by
  intro ms' hms' m hm
  rw [hms] at hms'
  cases hms'
  obtain ⟨mode, hfile⟩ := h m hm
  rw [entry_eq (accepted_of_mem hms hm).plain]
  exact Disk.bytesAt_of_get hfile

/-- A file of an entry is the member. -/
theorem EntryOK.bytesAt (h : EntryOK S t i) (hms : S.members i = some ms) (hm : m ∈ ms)
    (hfile : isFile t (S.entry i m.name) = true) : t.bytesAt (S.entry i m.name) = some m.content := by
  obtain ⟨content, hcontent⟩ := Option.isSome_iff_exists.mp hfile
  obtain ⟨mode, hget⟩ := Disk.get_of_bytesAt hcontent
  rw [entry_eq (accepted_of_mem hms hm).plain] at hget
  rw [hcontent, h.members ms hms m hm mode content hget]

theorem Expansion.held (hsound : Sound S s) (h : Expansion S i s l s') (hheld : S.Held j s.tree) : S.Held j s'.tree := by
  obtain ⟨⟨ms, hms, -, houtcome⟩, hothers, -⟩ := expansion_spec hsound h
  by_cases hj : j = i
  · subst hj
    rcases houtcome with ⟨-, hall⟩ | ⟨-, hfiles⟩
    · exact hall.held hms.1
    · intro ms' hms' m hm
      rw [hfiles.bytesAt hms' hm]
      exact hheld ms' hms' m hm
  · intro ms' hms' m hm
    rw [(hothers j hj).sameFiles.bytesAt hms' hm]
    exact hheld ms' hms' m hm

/-- A completed entry stays as it is. -/
theorem Expansion.complete (hsound : Sound S s) (h : Expansion S i s l s') (hcomplete : S.isComplete j s.tree = true) :
    S.isComplete j s'.tree = true ∧ SameFiles S j s.tree s'.tree := by
  obtain ⟨⟨ms, hms, -, houtcome⟩, hothers, -⟩ := expansion_spec hsound h
  by_cases hj : j = i
  · subst hj
    rcases houtcome with ⟨hnot, -⟩ | ⟨-, hfiles⟩
    · rw [hcomplete] at hnot
      cases hnot
    · refine ⟨?_, hfiles⟩
      rw [← hcomplete]
      unfold Store.isComplete isFile
      rw [entry_eq plain_completeName]
      exact congrArg Option.isSome (Disk.bytesAt_congr (hfiles _ (by decide +kernel)))
  · exact ⟨(hothers j hj).isComplete.trans hcomplete, (hothers j hj).sameFiles⟩

/-- Unless its entry has lost a file, the members of an expanded archive are there. -/
theorem Expansion.held_of_whole (hsound : Sound S s) (h : Expansion S i s l s') (hwhole : S.Whole i s.tree) :
    S.Held i s'.tree := by
  obtain ⟨⟨ms, hms, -, houtcome⟩, -, -⟩ := expansion_spec hsound h
  rcases houtcome with ⟨-, hall⟩ | ⟨hcomplete, hfiles⟩
  · exact hall.held hms.1
  · intro ms' hms' m hm
    rw [hfiles.bytesAt hms' hm]
    exact (hsound.entries i).bytesAt hms' hm (hwhole hcomplete ms' hms' m hm)

/-- Another entry has lost nothing by the call. -/
theorem Expansion.whole (hsound : Sound S s) (h : Expansion S i s l s') (hi : S.Whole i s.tree)
    (hj : S.Whole j s.tree) : S.Whole j s'.tree := by
  by_cases hji : j = i
  · subst hji
    intro _ ms hms m hm
    unfold isFile
    rw [h.held_of_whole hsound hi ms hms m hm]
    rfl
  · obtain ⟨-, hothers, -⟩ := expansion_spec hsound h
    intro hcomplete ms hms m hm
    unfold isFile
    rw [(hothers j hji).sameFiles.bytesAt hms hm]
    exact hj ((hothers j hji).isComplete ▸ hcomplete) ms hms m hm

/-! ### The files of a pattern -/

variable {files : List (Source ι)}

theorem Expands.sound (h : Expands S s files l s') (hsound : Sound S s) : Sound S s' := by
  induction h with
  | nil s => exact hsound
  | file path h ih => exact ih hsound
  | archive h h' ih => exact ih (expansion_spec hsound h).2.2

/-- The list that is returned, whatever is in the cache. -/
def Store.expected (S : Store ι) (files : List (Source ι)) : List PosixPath :=
  files.flatMap fun
    | .file path => [path]
    | .archive i => S.listing i ((S.members i).getD [])

theorem Expands.eq_expected (h : Expands S s files l s') (hsound : Sound S s) : l = S.expected files := by
  induction h with
  | nil s => rfl
  | file path h ih =>
    rw [ih hsound]
    rfl
  | archive h h' ih =>
    obtain ⟨⟨ms, hms, hl, -⟩, -, hsound'⟩ := expansion_spec hsound h
    rw [hl, ih hsound', ← hms.getD]
    rfl

theorem Expands.held (h : Expands S s files l s') (hsound : Sound S s) (hheld : S.Held j s.tree) :
    S.Held j s'.tree := by
  induction h with
  | nil s => exact hheld
  | file path h ih => exact ih hsound hheld
  | archive h h' ih => exact ih (expansion_spec hsound h).2.2 (h.held hsound hheld)

theorem Expands.complete (h : Expands S s files l s') (hsound : Sound S s) (hcomplete : S.isComplete j s.tree = true) :
    SameFiles S j s.tree s'.tree := by
  induction h with
  | nil s => exact fun q _ => rfl
  | file path h ih => exact ih hsound hcomplete
  | archive h h' ih =>
    obtain ⟨hcomplete', hfiles⟩ := h.complete hsound hcomplete
    exact fun q hq => (ih (expansion_spec hsound h).2.2 hcomplete' q hq).trans (hfiles q hq)

theorem Expands.held_of_whole (h : Expands S s files l s') (hsound : Sound S s)
    (hwhole : ∀ i, .archive i ∈ files → S.Whole i s.tree) : ∀ i, .archive i ∈ files → S.Held i s'.tree := by
  induction h with
  | nil s => exact nofun
  | file path h ih =>
    intro i hi
    refine ih hsound (fun j hj => hwhole j (List.mem_cons_of_mem _ hj)) i ?_
    exact (List.mem_cons.mp hi).resolve_left nofun
  | archive h h' ih =>
    have hsound' := (expansion_spec hsound h).2.2
    have hfirst := hwhole _ List.mem_cons_self
    intro i hi
    rcases List.mem_cons.mp hi with heq | hi
    · cases heq
      exact h'.held hsound' (h.held_of_whole hsound hfirst)
    · exact ih hsound' (fun j hj => h.whole hsound hfirst (hwhole j (List.mem_cons_of_mem _ hj))) i hi

/-- The list of a cold cache, with a file for every member. -/
def Faithful (S : Store ι) (files : List (Source ι)) (l : List PosixPath) (s' : State ι) : Prop :=
  (∀ cold cold' l', Initial S cold → Expands S cold files l' cold' → l = l') ∧
    ∀ i, .archive i ∈ files → S.Held i s'.tree

/-- In every state that calls, interruptions and deletions can leave, expansion returns the list of a cold cache,
and the files are there exactly when no completed entry has lost one. -/
theorem expansion_faithful_iff {events : List (Event ι)} (h₀ : Initial S s₀)
    (hrun : Machine.run (step S) s₀ events = some s) (h : Expands S s files l s') :
    Faithful S files l s' ↔ ∀ i, .archive i ∈ files → S.Whole i s.tree := by
  have hsound := sound_run h₀ hrun
  constructor
  · rintro ⟨-, hheld⟩ i hi hcomplete ms hms m hm
    unfold isFile
    rw [← (h.complete hsound hcomplete).bytesAt hms hm, hheld i hi ms hms m hm]
    rfl
  · intro hwhole
    refine ⟨fun cold cold' l' hcold h' => ?_, h.held_of_whole hsound hwhole⟩
    rw [h.eq_expected hsound, h'.eq_expected hcold.sound]

/-! ### An archive with one problem -/

def sampleStore : Store Unit where
  cache := ["cache".toList]
  cache_normal := normal_cache
  label _ := .problem
  archive _ := .zip [⟨"a.p".toList, 0, [112]⟩]
  key _ := "0f".toList
  key_injective _ _ _ := rfl
  key_visible := visible_entry

def sampleStart : State Unit := ⟨[([], .dir)], []⟩

/-- Steps that do not break off. -/
def sampleChoices (k : ℕ) : List Choice := List.replicate k ⟨none, "x".toList, 0⟩

/-- The archive is expanded; then its problem may be deleted. -/
def sampleEvents (deleted : Bool) : List (Event Unit) :=
  .start () :: (sampleChoices 12).map (Event.act 0) ++
    if deleted then [.delete ["cache".toList, "0f".toList, "a.p".toList]] else []

/-- The next expansion looks at the entry, and at the archive if it has to. -/
def sampleRun (deleted : Bool) : Option (State Unit) :=
  Machine.run (step sampleStore) sampleStart
    (sampleEvents deleted ++ .start () :: (sampleChoices (if deleted then 3 else 1)).map (Event.act 1))

def samplePath : PosixPath := ⟨1, ["cache".toList, "0f".toList, "a.p".toList]⟩

theorem initial_sampleStart : Initial sampleStore sampleStart := ⟨fun _ _ => rfl, rfl⟩

/-- The run, cut where the second call begins. -/
theorem exists_sample (deleted : Bool) : ∃ s s', Machine.run (step sampleStore) sampleStart (sampleEvents deleted) = some s ∧
    sampleRun deleted = some s' ∧ Expands sampleStore s [.archive ()] [samplePath] s' := by
  have hsome : (sampleRun deleted).isSome = true := by
    revert deleted
    decide +kernel
  obtain ⟨s', hs'⟩ := Option.isSome_iff_exists.mp hsome
  obtain ⟨s, hs, hrest⟩ := Machine.run_append_some.mp hs'
  obtain ⟨s₁, hstart, hrun⟩ := Machine.run_cons_some.mp hrest
  have hlength : s.calls.length = 1 := by
    have heq : (Machine.run (step sampleStore) sampleStart (sampleEvents deleted)).map (fun s => s.calls.length) = some 1 := by
      clear hrun hstart hrest hs hs' hsome
      revert deleted
      decide +kernel
    rw [hs] at heq
    exact Option.some.inj heq
  have hpc : (sampleRun deleted).bind (fun s => s.calls[1]?.map Call.pc) = some (.finished (some [samplePath])) := by
    clear hlength hrun hstart hrest hs hs' hsome
    revert deleted
    decide +kernel
  rw [hs', Option.bind_some] at hpc
  obtain ⟨call, hcall, hfinished⟩ := Option.map_eq_some_iff.mp hpc
  refine ⟨s, s', hs, hs', ?_⟩
  have hexpansion : Expansion sampleStore () s [samplePath] s' := by
    refine ⟨s₁, sampleChoices (if deleted then 3 else 1), call, hstart, ?_, ?_, hfinished⟩
    · rw [hlength]
      exact hrun
    · rw [hlength]
      exact hcall
  exact .archive hexpansion (.nil s')

theorem expansion_faithful_iff_warm : ∃ s s', Machine.run (step sampleStore) sampleStart (sampleEvents false) = some s ∧
    Expands sampleStore s [.archive ()] [samplePath] s' ∧ Faithful sampleStore [.archive ()] [samplePath] s' := by
  obtain ⟨s, s', hs, -, h⟩ := exists_sample false
  refine ⟨s, s', hs, h, (expansion_faithful_iff initial_sampleStart hs h).mpr fun i _ _ ms hms m hm => ?_⟩
  have hfiles : (Machine.run (step sampleStore) sampleStart (sampleEvents false)).map (fun s =>
      ((sampleStore.members ()).getD []).all fun m => isFile s.tree (sampleStore.entry () m.name)) = some true := by
    decide +kernel
  rw [hs, hms] at hfiles
  exact List.all_eq_true.mp (Option.some.inj hfiles) m hm

/-- A completed entry that has lost a file: the path is returned all the same. -/
theorem deleted_not_faithful : ∃ s s', Machine.run (step sampleStore) sampleStart (sampleEvents true) = some s ∧
    Expands sampleStore s [.archive ()] [samplePath] s' ∧ isFile s'.tree (resolve samplePath) = false ∧
      ¬ Faithful sampleStore [.archive ()] [samplePath] s' := by
  obtain ⟨s, s', hs, hs', h⟩ := exists_sample true
  have hmissing : isFile s'.tree (resolve samplePath) = false := by
    have heq : (sampleRun true).map (fun s => isFile s.tree (resolve samplePath)) = some false := by decide +kernel
    rw [hs'] at heq
    exact Option.some.inj heq
  refine ⟨s, s', hs, h, hmissing, fun hfaithful => ?_⟩
  have hmembers : sampleStore.members () = some [⟨⟨0, ["a.p".toList]⟩, [112]⟩] := by decide +kernel
  have hheld := hfaithful.2 () List.mem_cons_self _ hmembers _ List.mem_cons_self
  have hentry : sampleStore.entry () ⟨0, ["a.p".toList]⟩ = resolve samplePath := by decide +kernel
  unfold isFile at hmissing
  rw [← hentry, hheld] at hmissing
  cases hmissing

end Archives
end Slurmy
