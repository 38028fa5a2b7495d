import Slurmy.Archives.Sound

/-!
# Extraction

* `Pc.Extracts`, `OnTheWay`: the steps that unpack, and the paths that they may make;
* `get_advance_extracts`: they change nothing but such paths of the temporary directory;
* `keeps_members`: no member overwrites another one;
* `cold_run`: as long as no call has renamed its directory there is no entry;
* `extraction_contained`: the three together.
-/

namespace Slurmy
namespace Archives

open Disk (Op)

variable {ι : Type} {S : Store ι} {i j : ι} {r : Name} {m m' : Member} {ms : List Member} {t u : Tree} {p q : Path}
  {c : Choice} {pc : Pc} {s s' s₀ : State ι} {n : ℕ} {op : Op Name UInt8} {fault : Option ℕ} {ok error : Pc}

/-! ### Steps that unpack -/

/-- The step unpacks, or marks what has been unpacked. -/
def Pc.Extracts (r : Name) : Pc → Prop
  | .folder r' _ | .file r' _ _ | .index r' => r' = r
  | _ => False

/-- A path on the way to an accepted member, or one of the two files that mark an entry. -/
def OnTheWay (ms : List Member) (q : Path) : Prop :=
  q ≠ [] ∧ ((∃ m ∈ ms, q <+: m.name.parts) ∨ q = completeName.parts ∨ q = indexName.parts)

/-- A file is written, or a part of it. -/
theorem get_attempt_write {file : Path} {content : Bytes} (hp : p ≠ file) :
    Dict.get (attempt t (.write file content) fault ok error).1 p = Dict.get t p := by
  have hwrite : ∀ {content : Bytes} {u}, (Op.write file content).apply t = some u → Dict.get u p = Dict.get t p :=
    fun happly => (Disk.write_apply happly).2.1 p hp
  rcases attempt_cases t (.write file content) fault ok error with ⟨u, happly, heq⟩ | ⟨u, hu, heq⟩
  · rw [heq]
    exact hwrite happly
  · rw [heq]
    rcases hu with rfl | ⟨n, rfl⟩
    · rfl
    · cases n with
      | zero => rfl
      | succ n =>
        show Dict.get (((Op.write file (content.take n)).apply t).getD t) p = _
        cases happly : (Op.write file (content.take n)).apply t with
        | none => rfl
        | some u => exact hwrite happly

/-- Directories are made only on the way, below a directory that is there. -/
theorem get_attempt_mkdirs {dir d : Path} (hdir : Dict.get t dir = some .dir)
    (hp : ∀ q, q ≠ [] → q <+: d → p ≠ dir ++ q) :
    Dict.get (attempt t (.mkdirs (dir ++ d)) fault ok error).1 p = Dict.get t p := by
  refine get_attempt ⟨nofun, ?_⟩
  rintro ⟨d', hd', hprefix, hnone⟩
  cases hd'
  rcases List.prefix_or_prefix_of_prefix hprefix (List.prefix_append dir d) with hbelow | ⟨q, rfl⟩
  · rw [hnone dir hbelow (List.prefix_append _ _)] at hdir
    cases hdir
  · have hq : q <+: d := (List.prefix_append_right_inj dir).mp hprefix
    by_cases hnil : q = []
    · subst hnil
      rw [hnone dir (by rw [List.append_nil]) (List.prefix_append _ _)] at hdir
      cases hdir
    · exact hp q hnil hq rfl

/-- Unpacking changes nothing but what is on the way to an accepted member. -/
theorem get_advance_extracts (hms : S.members i = some ms) (hknows : pc.Knows loose S i t) (hpc : pc.Extracts r)
    (hdir : Dict.get t (S.base (temporaryName r)) = some .dir)
    (hp : ∀ q, OnTheWay ms q → p ≠ S.base (temporaryName r) ++ q) :
    Dict.get (S.advance i t c pc).1 p = Dict.get t p := by
  have hmember : ∀ {m q}, m ∈ ms → q ≠ [] → q <+: m.name.parts → p ≠ S.base (temporaryName r) ++ q :=
    fun hm hne hq => hp _ ⟨hne, .inl ⟨_, hm, hq⟩⟩
  have hmarkers : completeName.parts ≠ [] ∧ indexName.parts ≠ [] := by decide +kernel
  cases pc with
  | folder r' todo =>
    obtain ⟨done, hall, -⟩ := hknows
    have heq : ms = done ++ todo := Option.some.inj (hms.symm.trans hall.1)
    cases hpc
    cases todo with
    | nil =>
      refine get_attempt_write ?_
      rw [draft_eq plain_completeName]
      exact hp _ ⟨hmarkers.1, .inr (.inl rfl)⟩
    | cons m todo =>
      have hm : m ∈ ms := heq ▸ List.mem_append_right done List.mem_cons_self
      have hname := accepted_of_mem hms hm
      show Dict.get (attempt t (.mkdirs (S.draft r m.name).dropLast) c.fault _ _).1 p = _
      rw [dropLast_draft hname.plain hname.nonempty]
      exact get_attempt_mkdirs hdir fun q hne hq => hmember hm hne (hq.trans (List.dropLast_prefix _))
  | file r' m todo =>
    obtain ⟨done, hall, -⟩ := hknows
    have heq : ms = done ++ m :: todo := Option.some.inj (hms.symm.trans hall.1)
    cases hpc
    have hm : m ∈ ms := heq ▸ List.mem_append_right done List.mem_cons_self
    have hname := accepted_of_mem hms hm
    refine get_attempt_write ?_
    rw [draft_eq hname.plain]
    exact hmember hm hname.nonempty List.prefix_rfl
  | index r' =>
    cases hpc
    refine get_attempt_write ?_
    rw [draft_eq plain_indexName]
    exact hp _ ⟨hmarkers.2, .inr (.inr rfl)⟩
  | _ => exact hpc.elim

/-- What is at the path of a member stays there while another one is unpacked. -/
theorem keeps_members {node : Disk.Node UInt8} (hms : S.members i = some ms) (hknows : pc.Knows loose S i t)
    (hpc : pc.Extracts r) (hm' : m' ∈ ms) (hother : ∀ todo, pc ≠ .file r m' todo)
    (hnode : Dict.get t (S.draft r m'.name) = some node) :
    Dict.get (S.advance i t c pc).1 (S.draft r m'.name) = some node := by
  have hname' := accepted_of_mem hms hm'
  have hmarker := hname'.ne_marker
  rw [draft_eq hname'.plain] at hnode ⊢
  rw [← hnode]
  cases pc with
  | folder r' todo =>
    obtain ⟨done, hall, -⟩ := hknows
    cases hpc
    cases todo with
    | nil =>
      refine get_attempt_write ?_
      rw [draft_eq plain_completeName]
      exact fun heq => hmarker.1 (List.append_cancel_left heq)
    | cons m todo =>
      -- a directory is made only where nothing is
      refine get_attempt ⟨nofun, ?_⟩
      rintro ⟨d, hd, hprefix, hnone⟩
      rw [hnone _ List.prefix_rfl hprefix] at hnode
      cases hnode
  | file r' m todo =>
    obtain ⟨done, hall, -⟩ := hknows
    have heq : ms = done ++ m :: todo := Option.some.inj (hms.symm.trans hall.1)
    cases hpc
    have hm : m ∈ ms := heq ▸ List.mem_append_right done List.mem_cons_self
    have hname := accepted_of_mem hms hm
    refine get_attempt_write ?_
    rw [draft_eq hname.plain]
    intro hsame
    have hnames := hname'.eq_of_parts hname (List.append_cancel_left hsame)
    have hnodup := hall.2
    rw [← heq] at hnodup
    have hmm' := List.inj_on_of_nodup_map hnodup hm' hm hnames
    exact hother todo (by rw [hmm'])
  | index r' =>
    cases hpc
    refine get_attempt_write ?_
    rw [draft_eq plain_indexName]
    exact fun heq => hmarker.2 (List.append_cancel_left heq)
  | _ => exact hpc.elim

/-- The directory of a call is new when the call gets it. -/
theorem fresh_temp (hpc : pc.temp ≠ some r) (h : (S.advance i t c pc).2.temp = some r) :
    Dict.get t (S.base (temporaryName r)) = none := by
  obtain ⟨rfl, rfl⟩ := (temp_advance h).resolve_left hpc
  rcases attempt_cases t (.mkdir (resolve (S.temporary c.name))) c.fault (.folder c.name ((S.members i).getD []))
      (.finished none) with ⟨u, happly, -⟩ | ⟨u, -, heq⟩
  · rw [resolve_temporary, Op.apply] at happly
    split at happly
    · next hfree =>
      unfold Disk.Tree.isFree at hfree
      rw [Bool.and_eq_true, Bool.and_eq_true] at hfree
      exact Option.isNone_iff_eq_none.mp hfree.1.2
    · cases happly
  · have hnone : (S.advance i t c .makeTemp).2 = .finished none := by
      show (attempt t _ c.fault _ _).2 = _
      rw [heq]
    rw [hnone] at h
    cases h

/-! ### Entries -/

/-- There is an entry only if a call has renamed its directory. -/
def Placed (S : Store ι) (i : ι) (s : State ι) : Prop :=
  (∃ call ∈ s.calls, call.archive = i ∧ call.placed = true) ∨ S.Cold i s.tree

theorem Store.Cold.advance (h : S.Cold i t) (hknows : pc.Knows loose S j t) :
    S.Cold i (S.advance j t c pc).1 ∨ (i = j ∧ ∃ r, pc = .place r ∧ (S.advance j t c pc).2 = .announce r) := by
  by_cases hx : S.WorksIn j c pc (S.key i)
  · have hkey : ∀ {r}, S.key i ≠ temporaryName r := key_ne S i rfl
    cases pc with
    | place r =>
      have hij : i = j := S.key_injective (hx.resolve_left hkey)
      unfold Store.advance
      dsimp only
      split
      · exact .inr ⟨hij, r, rfl, rfl⟩
      · exact .inl h
    | reindex =>
      have hij : i = j := S.key_injective hx
      subst hij
      left
      -- there is no directory to write in
      have hfails : ∀ content : Bytes, (Op.write (S.entry i indexName) content).apply t = none := by
        intro content
        have hparent : (S.base (S.key i) ++ indexName.parts).dropLast = S.base (S.key i) := List.dropLast_concat
        have hbase := h []
        rw [List.append_nil] at hbase
        rw [Op.apply, if_neg]
        unfold Disk.Tree.isWritable
        rw [entry_eq plain_indexName, hparent, hbase]
        exact Bool.false_ne_true
      unfold Store.advance
      dsimp only
      rcases attempt_cases t (.write (S.entry i indexName) []) c.fault (.refill 0) (.finished none) with
        ⟨u, happly, -⟩ | ⟨u, hu, heq⟩
      · rw [hfails] at happly
        cases happly
      · rw [heq]
        rcases hu with rfl | ⟨n, rfl⟩
        · exact h
        · cases n with
          | zero => exact h
          | succ n =>
            show S.Cold i (((Op.write (S.entry i indexName) (([] : Bytes).take n)).apply t).getD t)
            rw [hfails]
            exact h
    | refill k =>
      have hij : i = j := S.key_injective hx
      subst hij
      left
      unfold Store.advance
      dsimp only
      split
      · exact h
      · show S.Cold i (overwrite t (S.entry i indexName) k _)
        unfold overwrite
        rw [entry_eq plain_indexName, h]
        exact h
    | makeTemp => exact absurd hx hkey
    | folder r todo => exact absurd hx hkey
    | file r m todo => exact absurd hx hkey
    | index r => exact absurd hx hkey
    | discard r => exact absurd hx hkey
    | cleanup r => exact absurd hx hkey
    | _ => exact hx.elim
  · exact .inl fun q => (get_advance hknows.accepted hx q).trans (h q)

theorem placed_step {e : Event ι} (hsound : Sound S s) (h : Placed S i s) (hstep : step S s e = some s') :
    Placed S i s' := by
  cases e with
  | start j =>
    cases hstep
    rcases h with ⟨call, hcall, hplaced⟩ | hcold
    · exact .inl ⟨call, List.mem_append_left _ hcall, hplaced⟩
    · exact .inr hcold
  | delete p =>
    unfold step at hstep
    dsimp only at hstep
    split at hstep
    · cases hstep
    · cases hstep
      rcases h with hplaced | hcold
      · exact .inl hplaced
      · refine .inr fun q => ?_
        rw [Disk.get_cut, hcold, ite_self]
  | act n c =>
    obtain ⟨call, hn, -, rfl⟩ := step_act hstep
    obtain ⟨hlt, -⟩ := List.getElem?_eq_some_iff.mp hn
    have hnew : (call.next S s.tree c).2 ∈ s.calls.set n (call.next S s.tree c).2 := List.mem_set hlt _
    rcases h with ⟨call', hcall', harchive, hplaced⟩ | hcold
    · -- what has been renamed stays so
      left
      obtain ⟨m, hm⟩ := List.getElem?_of_mem hcall'
      by_cases hnm : n = m
      · subst hnm
        rw [hn] at hm
        cases hm
        refine ⟨_, hnew, harchive, ?_⟩
        show (call.placed || _) = true
        rw [hplaced]
        rfl
      · refine ⟨call', ?_, harchive, hplaced⟩
        exact List.mem_of_getElem? ((List.getElem?_set_ne hnm).trans hm)
    · rcases hcold.advance (c := c) (hsound.knows call (List.mem_of_getElem? hn)) with hcold | ⟨hi, r, hpc, hnext⟩
      · exact .inr hcold
      · refine .inl ⟨_, hnew, hi.symm, ?_⟩
        show (call.placed || _) = true
        rw [hnext, hpc]
        exact Bool.or_true _

/-- As long as no call for the archive has renamed its directory, there is no entry. -/
theorem cold_run {events : List (Event ι)} (h₀ : Initial S s₀) (hrun : Machine.run (step S) s₀ events = some s)
    (hplaced : ∀ call ∈ s.calls, call.archive = i → call.placed = false) : S.Cold i s.tree := by
  have hinvariant : Sound S s ∧ Placed S i s :=
    Machine.invariant (I := fun s => Sound S s ∧ Placed S i s)
      (fun s e s' h hstep => ⟨sound_step h.1 hstep, placed_step h.1 h.2 hstep⟩) ⟨h₀.sound, .inr (h₀.1 i)⟩ hrun
  rcases hinvariant.2 with ⟨call, hcall, harchive, htrue⟩ | hcold
  · rw [hplaced call hcall harchive] at htrue
    cases htrue
  · exact hcold

/-- In every run of any calls: a call gets a new directory; unpacking changes nothing but paths below it that are on
the way to accepted members, and overwrites no other member; and there is no entry as long as every call for the
archive has failed, was cancelled or has stopped before it renamed its directory. -/
theorem extraction_contained {events : List (Event ι)} (h₀ : Initial S s₀)
    (hrun : Machine.run (step S) s₀ events = some s) :
    (∀ n c call call' s', s.calls[n]? = some call → step S s (.act n c) = some s' → s'.calls[n]? = some call' →
      (∀ r, call'.pc.temp = some r → call.pc.temp ≠ some r → Dict.get s.tree (S.base (temporaryName r)) = none) ∧
      ∀ ms r, S.members call.archive = some ms → call.pc.Extracts r →
        (Dict.get s.tree (S.base (temporaryName r)) = some .dir → ∀ p, Dict.get s'.tree p ≠ Dict.get s.tree p →
          ∃ q, OnTheWay ms q ∧ p = S.base (temporaryName r) ++ q) ∧
        ∀ m ∈ ms, (∀ todo, call.pc ≠ .file r m todo) → ∀ node, Dict.get s.tree (S.draft r m.name) = some node →
          Dict.get s'.tree (S.draft r m.name) = some node) ∧
      ∀ i, (∀ call ∈ s.calls, call.archive = i → call.placed = false) → S.Cold i s.tree := by
  refine ⟨fun n c call call' s' hcall hstep hcall' => ?_, fun i hplaced => cold_run h₀ hrun hplaced⟩
  have hknows := (sound_run h₀ hrun).knows call (List.mem_of_getElem? hcall)
  obtain ⟨call₀, hcall₀, -, rfl⟩ := step_act hstep
  rw [hcall] at hcall₀
  cases hcall₀
  obtain ⟨hlt, -⟩ := List.getElem?_eq_some_iff.mp hcall
  rw [List.getElem?_set_self hlt] at hcall'
  cases hcall'
  refine ⟨fun r htemp hnew => fresh_temp hnew htemp, fun ms r hms hpc => ⟨fun hdir p hp => ?_, ?_⟩⟩
  · by_contra hnone
    exact hp (get_advance_extracts hms hknows hpc hdir fun q hq heq => hnone ⟨q, hq, heq⟩)
  · exact fun m hm hother node hnode => keeps_members hms hknows hpc hm hother hnode

/-! ### An archive with a member that is not accepted -/

def mixedStore : Store Unit where
  cache := ["cache".toList]
  cache_normal := normal_cache
  label _ := .problem
  archive _ := .zip [⟨"../x.p".toList, 0, [120]⟩, ⟨"a.p".toList, 0, [112]⟩]
  key _ := "0f".toList
  key_injective _ _ _ := rfl
  key_visible := visible_entry

def mixedStart : State Unit := ⟨[([], .dir)], []⟩

/-- A call that breaks off in step `k`, if it does, and goes on. -/
def mixedEvents (k : Option ℕ) : List (Event Unit) :=
  .start () :: (List.range 12).map fun n => .act 0 ⟨if some n = k then some 1 else none, "x".toList, 0⟩

theorem extraction_contained_broken : ∃ s, Machine.run (step mixedStore) mixedStart (mixedEvents (some 6)) = some s ∧
    mixedStore.Cold () s.tree := by
  have hsome : (Machine.run (step mixedStore) mixedStart (mixedEvents (some 6))).isSome = true := by decide +kernel
  obtain ⟨s, hs⟩ := Option.isSome_iff_exists.mp hsome
  have hplaced : (Machine.run (step mixedStore) mixedStart (mixedEvents (some 6))).map
      (fun s => s.calls.all fun call => !call.placed) = some true := by decide +kernel
  rw [hs] at hplaced
  refine ⟨s, hs, (extraction_contained ⟨fun _ _ => rfl, rfl⟩ hs).2 () fun call hcall _ => ?_⟩
  have hnot := List.all_eq_true.mp (Option.some.inj hplaced) call hcall
  rwa [Bool.not_eq_true'] at hnot

/-- A member is rejected, and there is an entry of the others. -/
theorem rejected_leaves_entry : safeName .problem "../x.p".toList = none ∧
    ∃ s, Machine.run (step mixedStore) mixedStart (mixedEvents none) = some s ∧ ¬ mixedStore.Cold () s.tree := by
  have hsome : (Machine.run (step mixedStore) mixedStart (mixedEvents none)).isSome = true := by decide +kernel
  obtain ⟨s, hs⟩ := Option.isSome_iff_exists.mp hsome
  have hcomplete : (Machine.run (step mixedStore) mixedStart (mixedEvents none)).map
      (fun s => (Dict.get s.tree (mixedStore.base (mixedStore.key ()))).isSome) = some true := by decide +kernel
  rw [hs] at hcomplete
  refine ⟨by decide +kernel, s, hs, fun hcold => ?_⟩
  have hbase := hcold []
  rw [List.append_nil] at hbase
  have hentry : (Dict.get s.tree (mixedStore.base (mixedStore.key ()))).isSome = true := Option.some.inj hcomplete
  rw [hbase] at hentry
  cases hentry

end Archives
end Slurmy
